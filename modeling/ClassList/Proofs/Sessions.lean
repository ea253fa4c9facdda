-- The laws of a session. Whatever was asked and changed before, a question is answered
-- as in a new session that holds only the file as it is now.
import Mathlib
import ClassList.Session

namespace ClassList

/-! ## The pure model -/

/-- The answer from a file alone. -/
def File.answer (f : File) (voc : Vocabulary) : Query → Answer
  | .path => .path f.path
  | .text => .text f.text
  | .rules => .rules f.text.rules
  | .values => .values (f.text.rules.map Rule.value)
  | .diagnostics => .diagnostics ((voc.diagnostics f.text).map fun d =>
      (d, (LineIndex.ofText f.text).lineCol? d.range.start))
  | .rendered => .rendered ((voc.diagnostics f.text).map fun d => d.render f.path f.text)
  | .completions n => .completions (voc.completions f.text n)
  | .hover n => .hover (f.text.hover? n voc.css)
  | .hoverWith n css => .hover (f.text.hover? n css)
  | .lineCol n => .lineCol ((LineIndex.ofText f.text).lineCol? n)

def Edit.apply : Edit → File → File
  | setText text, f => { f with text := text }
  | setPath path, f => { f with path := path }

namespace Step

/-- The files after a step. A step that fails or asks changes nothing. -/
def apply : Step → List File → List File
  | add f, files => files ++ [f]
  | edit n e, files => files.modify n e.apply
  | ask _ _, files => files

/-- The files after some steps. -/
def applyAll (files : List File) (steps : List Step) : List File :=
  steps.foldl (fun files e => e.apply files) files

/-- The answer to a step from the files alone. -/
def answer (voc : Vocabulary) (files : List File) : Step → Except NoFile Answer
  | add _ => .ok (.file files.length)
  | edit n e =>
    match files[n]? with
    | some f => .ok ((e.apply f).afterEdit e)
    | none => .error ⟨n⟩
  | ask n q =>
    match files[n]? with
    | some f => .ok (f.answer voc q)
    | none => .error ⟨n⟩

/-- The answers to some steps from the files alone. -/
def answers (voc : Vocabulary) : List File → List Step → List (Except NoFile Answer)
  | _, [] => []
  | files, e :: rest => e.answer voc files :: answers voc (e.apply files) rest

end Step

/-! ## Values that are kept -/

/-- The value of a memo is right unless its input is newer, and it does not come from a
later revision. -/
structure Memo.Right {α : Type} (m : Memo α) (revision given : Nat) (value : α) : Prop where
  verified_le : m.verified ≤ revision
  value_eq : given ≤ m.verified → m.value = value

/-- The values that were computed from the text are right unless the text is newer. -/
structure Entry.Valid (e : Entry) (revision : Nat) : Prop where
  rules : ∀ m ∈ e.rules, m.Right revision e.text.given e.text.value.rules
  lines : ∀ m ∈ e.lines, m.Right revision e.text.given (.ofText e.text.value)

namespace Memo

variable {α : Type} {m : Memo α} {revision given : Nat} {value : α}

theorem right_now (revision : Nat) (value : α) :
    (⟨value, revision⟩ : Memo α).Right revision given value :=
  ⟨Nat.le_refl _, fun _ => rfl⟩

/-- In the next revision the value is right if the input stays. -/
theorem Right.next (h : m.Right revision given value) : m.Right (revision + 1) given value :=
  ⟨Nat.le_succ_of_le h.verified_le, h.value_eq⟩

/-- Behind an input of the next revision the memo is out of date, whatever it holds. -/
theorem Right.outdated (h : m.Right revision given value) (value' : α) :
    m.Right (revision + 1) (revision + 1) value' :=
  ⟨Nat.le_succ_of_le h.verified_le, fun hle => absurd (hle.trans h.verified_le) (by omega)⟩

end Memo

/-- A fetched value is right, whether it was kept or not. -/
theorem Engine.fetch_eq {α : Type} (g : Engine) {revision given : Nat} {inputs : List Nat}
    {value : α} {old : Option (Memo α)} (hold : ∀ m ∈ old, m.Right revision given value)
    (hgiven : given ∈ inputs) :
    g.fetch revision inputs (fun _ => value) old = ⟨value, revision⟩ := by
  unfold fetch
  split
  · rename_i m
    split
    · rename_i hkeeps
      rw [(hold m rfl).value_eq (g.sound _ _ hkeeps given hgiven)]
    · rfl
  · rfl

namespace Entry

variable {revision : Nat} {e : Entry}

theorem valid_ofFile (revision : Nat) (f : File) : (ofFile revision f).Valid revision where
  rules := by simp [ofFile]
  lines := by simp [ofFile]

theorem Valid.next (h : e.Valid revision) : e.Valid (revision + 1) where
  rules m hm := (h.rules m hm).next
  lines m hm := (h.lines m hm).next

/-- An edit starts a new revision. A new text leaves the values behind, and a new path
does not touch them. -/
theorem Valid.edit (h : e.Valid revision) (c : Edit) :
    (e.edit (revision + 1) c).Valid (revision + 1) := by
  cases c with
  | setText text =>
    exact ⟨fun m hm => (h.rules m hm).outdated _, fun m hm => (h.lines m hm).outdated _⟩
  | setPath path => exact ⟨h.next.rules, h.next.lines⟩

theorem run_theRules (g : Engine) (revision : Nat) (e : Entry) : (theRules g revision).run e =
    let memo := g.fetch revision (e.text.given :: if g.logs then [e.path.given] else [])
      (fun _ => e.text.value.rules) e.rules
    (memo.value, { e with rules := some memo }) := rfl

theorem run_theLines (g : Engine) (revision : Nat) (e : Entry) : (theLines g revision).run e =
    let memo := g.fetch revision [e.text.given] (fun _ => .ofText e.text.value) e.lines
    (memo.value, { e with lines := some memo }) := rfl

theorem file_edit (e : Entry) (revision : Nat) (c : Edit) :
    (e.edit revision c).file = c.apply e.file := by
  cases c <;> rfl

end Entry

/-! ## Questions about an entry -/

/-- The computation gives a value of the file and leaves the file as it is. -/
def Reads {α : Type} (revision : Nat) (ask : StateM Entry α) (value : File → α) : Prop :=
  ∀ e : Entry, e.Valid revision →
    ∃ e' : Entry, ask.run e = (value e.file, e') ∧ e'.file = e.file ∧ e'.Valid revision

namespace Reads

variable {α β : Type} {g : Engine} {revision : Nat}

theorem pure (a : α) : Reads revision (Pure.pure a) fun _ => a :=
  fun e he => ⟨e, rfl, rfl, he⟩

theorem bind {ask : StateM Entry α} {next : α → StateM Entry β} {value : File → α}
    {value' : α → File → β} (h : Reads revision ask value)
    (hnext : ∀ a, Reads revision (next a) (value' a)) :
    Reads revision (ask >>= next) fun f => value' (value f) f := by
  intro e he
  obtain ⟨e₁, hrun, hfile, hvalid⟩ := h e he
  obtain ⟨e₂, hrun₂, hfile₂, hvalid₂⟩ := hnext (value e.file) e₁ hvalid
  refine ⟨e₂, ?_, hfile₂.trans hfile, hvalid₂⟩
  rw [StateT.run_bind, hrun]
  show (next (value e.file)).run e₁ = _
  rw [hrun₂, hfile]

theorem map {ask : StateM Entry α} {value : File → α} (h : Reads revision ask value) (f : α → β) :
    Reads revision (ask >>= fun a => Pure.pure (f a)) fun file => f (value file) :=
  h.bind fun a => pure (f a)

theorem theFile : Reads revision Entry.theFile id :=
  fun e he => ⟨e, rfl, rfl, he⟩

theorem theRules : Reads revision (Entry.theRules g revision) fun f => f.text.rules := by
  intro e he
  refine ⟨{ e with rules := some ⟨e.text.value.rules, revision⟩ }, ?_, rfl, ?_⟩
  · rw [Entry.run_theRules, g.fetch_eq he.rules List.mem_cons_self]
    rfl
  · exact ⟨fun m hm => Option.mem_some.mp hm ▸ Memo.right_now _ _, he.lines⟩

theorem theLines : Reads revision (Entry.theLines g revision) fun f => .ofText f.text := by
  intro e he
  refine ⟨{ e with lines := some ⟨.ofText e.text.value, revision⟩ }, ?_, rfl, ?_⟩
  · rw [Entry.run_theLines, g.fetch_eq he.lines List.mem_cons_self]
    rfl
  · exact ⟨he.rules, fun m hm => Option.mem_some.mp hm ▸ Memo.right_now _ _⟩

theorem theDiagnostics (voc : Vocabulary) :
    Reads revision (Entry.theDiagnostics g revision voc) fun f => voc.diagnostics f.text :=
  theRules.map fun rules => (voc.review rules).map Finding.toDiagnostic

/-- Every answer is the one of the file alone. -/
theorem answer (voc : Vocabulary) (q : Query) :
    Reads revision (Entry.answer g revision voc q) fun f => f.answer voc q := by
  cases q with
  | path => exact theFile.map fun f => Answer.path f.path
  | text => exact theFile.map fun f => Answer.text f.text
  | rules => exact theRules.map Answer.rules
  | values => exact theRules.map fun rules => Answer.values (rules.map Rule.value)
  | diagnostics =>
    exact (theDiagnostics voc).bind fun found => theLines.map fun lines =>
      Answer.diagnostics (found.map fun d => (d, lines.lineCol? d.range.start))
  | rendered =>
    exact (theDiagnostics voc).bind fun found => theFile.map fun f =>
      Answer.rendered (found.map fun d => d.render f.path f.text)
  | completions n => exact theFile.map fun f => Answer.completions (voc.completions f.text n)
  | hover n => exact theRules.map fun rules => Answer.hover (hoverAmong? rules n voc.css)
  | hoverWith n css => exact theRules.map fun rules => Answer.hover (hoverAmong? rules n css)
  | lineCol n => exact theLines.map fun lines => Answer.lineCol (lines.lineCol? n)

end Reads

/-! ## Steps -/

namespace Session

/-- No value of any file is older than it looks. -/
def Valid (s : Session) : Prop := ∀ e ∈ s.files, e.Valid s.revision

/-- The files as they are. -/
def contents (s : Session) : List File := s.files.map Entry.file

theorem valid_startWith (g : Engine) (voc : Vocabulary) : (startWith g voc).Valid := by
  simp [Valid, startWith]

theorem contents_getElem? (s : Session) (n : Nat) :
    s.contents[n]? = s.files[n]?.map Entry.file := by
  rw [contents, List.getElem?_map]

/-- A step does what it does to the files alone, and answers as from them. -/
structure StepsTo (s : Session) (e : Step) (s' : Session) (a : Except NoFile Answer) : Prop where
  valid : s'.Valid
  vocabulary : s'.vocabulary = s.vocabulary
  contents : s'.contents = e.apply s.contents
  answer : a = e.answer s.vocabulary s.contents

variable {s : Session}

theorem step_add (h : s.Valid) (f : File) :
    s.StepsTo (.add f) (s.step (.add f)).1 (s.step (.add f)).2 where
  valid := by
    intro e he
    rcases List.mem_append.mp he with he | he
    · exact h e he
    · rw [List.mem_singleton.mp he]
      exact Entry.valid_ofFile _ f
  vocabulary := rfl
  contents := by simp [Session.step, Session.contents, Step.apply, Entry.file, Entry.ofFile]
  answer := by simp [Session.step, Session.contents, Step.answer]

/-- Without a file nothing changes. -/
theorem step_fails (h : s.Valid) {n : Nat} (hn : s.contents[n]? = none) {e : Step}
    (he : (∃ c, e = .edit n c) ∨ ∃ q, e = .ask n q) : s.StepsTo e s (.error ⟨n⟩) := by
  rcases he with ⟨c, rfl⟩ | ⟨q, rfl⟩
  · refine ⟨h, rfl, ?_, by rw [Step.answer, hn]⟩
    rw [Step.apply, List.modify_eq_self (List.getElem?_eq_none_iff.mp hn)]
  · exact ⟨h, rfl, rfl, by rw [Step.answer, hn]⟩

theorem step_edit (h : s.Valid) (n : Nat) (c : Edit) :
    s.StepsTo (.edit n c) (s.step (.edit n c)).1 (s.step (.edit n c)).2 := by
  have hcontents := s.contents_getElem? n
  rw [step]
  cases hn : s.files[n]? with
  | none =>
    rw [hn] at hcontents
    exact step_fails h hcontents (.inl ⟨c, rfl⟩)
  | some f =>
    rw [hn] at hcontents
    constructor
    case valid =>
      -- The other files only come into a later revision.
      intro e he
      rcases List.mem_or_eq_of_mem_set he with he | rfl
      · exact (h e he).next
      · exact (h f (List.mem_of_getElem? hn)).edit c
    case vocabulary => rfl
    case contents =>
      rw [Step.apply, List.modify_eq_set_getElem?, hcontents]
      show (s.files.set n (f.edit (s.revision + 1) c)).map Entry.file = _
      rw [List.map_set, Entry.file_edit]
      rfl
    case answer =>
      rw [Step.answer, hcontents]
      exact congrArg (fun f => Except.ok (f.afterEdit c)) (f.file_edit (s.revision + 1) c)

theorem step_ask (h : s.Valid) (n : Nat) (q : Query) :
    s.StepsTo (.ask n q) (s.step (.ask n q)).1 (s.step (.ask n q)).2 := by
  have hcontents := s.contents_getElem? n
  rw [step]
  cases hn : s.files[n]? with
  | none =>
    rw [hn] at hcontents
    exact step_fails h hcontents (.inr ⟨q, rfl⟩)
  | some f =>
    rw [hn] at hcontents
    obtain ⟨f', hrun, hfile, hvalid⟩ :=
      Reads.answer (g := s.engine) s.vocabulary q f (h f (List.mem_of_getElem? hn))
    dsimp only
    rw [hrun]
    constructor
    case valid =>
      intro e he
      rcases List.mem_or_eq_of_mem_set he with he | rfl
      · exact h e he
      · exact hvalid
    case vocabulary => rfl
    case contents =>
      obtain ⟨hlt, hget⟩ := List.getElem?_eq_some_iff.mp hcontents
      show (s.files.set n f').map Entry.file = s.contents
      rw [List.map_set, hfile, ← hget]
      exact List.set_getElem_self hlt
    case answer =>
      rw [Step.answer, hcontents]
      rfl

theorem step_spec (h : s.Valid) (e : Step) : s.StepsTo e (s.step e).1 (s.step e).2 := by
  cases e with
  | add f => exact step_add h f
  | edit n c => exact step_edit h n c
  | ask n q => exact step_ask h n q

/-- All steps are answered as from the files alone. -/
theorem answers_eq (h : s.Valid) (steps : List Step) :
    s.answers steps = Step.answers s.vocabulary s.contents steps := by
  induction steps generalizing s with
  | nil => rfl
  | cons e rest ih =>
    have hstep := step_spec h e
    rw [answers, Step.answers, ih hstep.valid, hstep.answer, hstep.vocabulary, hstep.contents]

theorem answers_startWith (g : Engine) (voc : Vocabulary) (steps : List Step) :
    (startWith g voc).answers steps = Step.answers voc [] steps :=
  answers_eq (valid_startWith g voc) steps

theorem run_spec (h : s.Valid) (steps : List Step) :
    (s.run steps).Valid ∧ (s.run steps).vocabulary = s.vocabulary ∧
      (s.run steps).contents = Step.applyAll s.contents steps := by
  induction steps generalizing s with
  | nil => exact ⟨h, rfl, rfl⟩
  | cons e rest ih =>
    have hstep := step_spec h e
    obtain ⟨hvalid, hvoc, hcontents⟩ := ih hstep.valid
    refine ⟨hvalid, hvoc.trans hstep.vocabulary, ?_⟩
    rw [Step.applyAll, List.foldl_cons, ← hstep.contents]
    exact hcontents

end Session

namespace Step

variable {voc : Vocabulary}

/-- A step that fails changes nothing. -/
theorem apply_of_error {files : List File} {e : Step} {x : NoFile}
    (h : e.answer voc files = .error x) : e.apply files = files := by
  cases e with
  | add f => cases h
  | edit n c =>
    rw [answer] at h
    split at h
    · cases h
    · rename_i hn
      exact List.modify_eq_self (List.getElem?_eq_none_iff.mp hn)
  | ask n q => rfl

theorem length_answers (files : List File) (steps : List Step) :
    (answers voc files steps).length = steps.length := by
  induction steps generalizing files with
  | nil => rfl
  | cons e rest ih => rw [answers, List.length_cons, List.length_cons, ih]

theorem answers_append (files : List File) (before rest : List Step) :
    answers voc files (before ++ rest) =
      answers voc files before ++ answers voc (applyAll files before) rest := by
  induction before generalizing files with
  | nil => rfl
  | cons e before ih =>
    rw [List.cons_append, answers, answers, ih, List.cons_append, applyAll, applyAll,
      List.foldl_cons]

end Step

/-! ## What a file was given last -/

def Step.isAdd : Step → Bool
  | add _ => true
  | _ => false

/-- The number of files that were added. -/
def added (history : List Step) : Nat := history.countP Step.isAdd

/-- What a file was given last, by an edit or when it was added. The latest step comes
first. An edit of a file that is not there gives nothing. -/
def lastGiven? {α : Type} (ofFile : File → α) (ofEdit? : Edit → Option α) (n : Nat) :
    List Step → Option α
  | [] => none
  | .add f :: earlier =>
    if added earlier = n then some (ofFile f) else lastGiven? ofFile ofEdit? n earlier
  | .edit m c :: earlier =>
    if m = n ∧ n < added earlier then (ofEdit? c).or (lastGiven? ofFile ofEdit? n earlier)
    else lastGiven? ofFile ofEdit? n earlier
  | .ask _ _ :: earlier => lastGiven? ofFile ofEdit? n earlier

def Edit.text? : Edit → Option Text
  | setText text => some text
  | setPath _ => none

def Edit.path? : Edit → Option Text
  | setText _ => none
  | setPath path => some path

/-- The path and the text that a file was given last by some steps, in order. -/
def latestFile? (n : Nat) (steps : List Step) : Option File := do
  let path ← lastGiven? File.path Edit.path? n steps.reverse
  let text ← lastGiven? File.text Edit.text? n steps.reverse
  return ⟨path, text⟩

/-- The files after some steps, the latest first. -/
def filesAfter (history : List Step) : List File := history.foldr Step.apply []

theorem filesAfter_reverse (steps : List Step) :
    filesAfter steps.reverse = Step.applyAll [] steps := List.foldr_reverse

theorem length_filesAfter (history : List Step) : (filesAfter history).length = added history := by
  induction history with
  | nil => rfl
  | cons e earlier ih =>
    cases e with
    | add f =>
      show (filesAfter earlier ++ [f]).length = _
      rw [List.length_append, ih, added, added, List.countP_cons_of_pos rfl]
      rfl
    | edit n c => exact (List.length_modify ..).trans ih
    | ask n q => exact ih

/-- Looking back for what was given last finds what the file has. -/
theorem lastGiven?_eq {α : Type} {ofFile : File → α} {ofEdit? : Edit → Option α}
    (happly : ∀ c f, ofFile (c.apply f) = (ofEdit? c).getD (ofFile f)) (n : Nat)
    (history : List Step) :
    lastGiven? ofFile ofEdit? n history = (filesAfter history)[n]?.map ofFile := by
  induction history with
  | nil => rfl
  | cons e earlier ih =>
    have hlength := length_filesAfter earlier
    cases e with
    | add f =>
      show _ = (filesAfter earlier ++ [f])[n]?.map ofFile
      rw [lastGiven?, ih, ← hlength]
      by_cases hn : (filesAfter earlier).length = n
      · rw [if_pos hn, ← hn, List.getElem?_concat_length]
        rfl
      · rw [if_neg hn, List.getElem?_append]
        split
        · rfl
        · rw [List.getElem?_eq_none (by omega), List.getElem?_eq_none (by simp; omega)]
    | edit m c =>
      show _ = ((filesAfter earlier).modify m c.apply)[n]?.map ofFile
      rw [lastGiven?, ih, ← hlength, List.getElem?_modify]
      cases hf : (filesAfter earlier)[n]? with
      | none =>
        have hle := List.getElem?_eq_none_iff.mp hf
        rw [if_neg (by omega)]
        rfl
      | some f =>
        obtain ⟨hlt, -⟩ := List.getElem?_eq_some_iff.mp hf
        by_cases hm : m = n
        · -- The edit gives this value, or leaves the one that was given before.
          have hgiven := happly c f
          rw [if_pos ⟨hm, hlt⟩]
          simp only [Option.map_eq_map, Option.map_some, if_pos hm, hgiven]
          cases ofEdit? c <;> rfl
        · rw [if_neg (by tauto)]
          simp [hm]
    | ask m q => exact ih

theorem latestFile?_eq (n : Nat) (steps : List Step) :
    latestFile? n steps = (Step.applyAll [] steps)[n]? := by
  unfold latestFile?
  rw [lastGiven?_eq (fun c f => by cases c <;> rfl), lastGiven?_eq (fun c f => by cases c <;> rfl),
    filesAfter_reverse]
  cases (Step.applyAll [] steps)[n]? <;> rfl

/-! ## The law -/

/-- A new session with one file answers from this file. -/
theorem Session.answers_fresh (g : Engine) (voc : Vocabulary) (f : File) (q : Query) :
    ((startWith g voc).answers [.add f, .ask 0 q])[1]? = some (.ok (f.answer voc q)) := by
  rw [answers_startWith]
  rfl

/-- However long a session is, and whatever values it keeps, a question about a file is
answered as in a new session with this file alone, as it was given last. A question, or a
step that fails, changes no other answer. -/
theorem answers_are_never_stale (g : Engine) (voc : Vocabulary) (before after : List Step) :
    (∀ n q, ((Session.startWith g voc).answers (before ++ .ask n q :: after))[before.length]? =
        match latestFile? n before with
        | some f => ((Session.startWith g voc).answers [.add f, .ask 0 q])[1]?
        | none => some (.error ⟨n⟩)) ∧
      ∀ e : Step, ((∃ n q, e = .ask n q) ∨
          ∃ n, (((Session.startWith g voc).run before).step e).2 = .error ⟨n⟩) →
        ((Session.startWith g voc).answers (before ++ e :: after)).eraseIdx before.length =
          (Session.startWith g voc).answers (before ++ after) := by
  have hlength : (Step.answers voc [] before).length = before.length := Step.length_answers ..
  constructor
  · intro n q
    rw [Session.answers_startWith, Step.answers_append, List.getElem?_append_right (by omega),
      hlength, Nat.sub_self, Step.answers, List.getElem?_cons_zero, Step.answer, ← latestFile?_eq]
    cases latestFile? n before with
    | none => rfl
    | some f => exact (Session.answers_fresh g voc f q).symm
  · intro e he
    have hkept : e.apply (Step.applyAll [] before) = Step.applyAll [] before := by
      rcases he with ⟨n, q, rfl⟩ | ⟨n, hn⟩
      · rfl
      · obtain ⟨hrun, hvoc, hcontents⟩ := Session.run_spec (Session.valid_startWith g voc) before
        rw [(Session.step_spec hrun e).answer, hvoc, hcontents] at hn
        exact Step.apply_of_error hn
    rw [Session.answers_startWith, Session.answers_startWith, Step.answers_append,
      Step.answers_append, List.eraseIdx_append_of_length_le (by omega), hlength, Nat.sub_self,
      Step.answers, hkept, List.eraseIdx_cons_zero]

/-- The rules of a file are asked for, then its text changes, so they are computed again.
An edit of a file that is not there fails and changes no answer. -/
theorem answers_are_never_stale_after_an_edit :
    ((Session.start ⟨[], [], []⟩).answers [.add ⟨[], ['a']⟩, .ask 0 .rules,
        .edit 0 (.setText ['b']), .ask 0 .values])[3]? = some (.ok (.values [['b']])) ∧
      ((Session.start ⟨[], [], []⟩).answers [.add ⟨[], ['a']⟩, .ask 0 .rules,
          .edit 0 (.setText ['b']), .edit 7 (.setText []), .ask 0 .values]).eraseIdx 3 =
        (Session.start ⟨[], [], []⟩).answers [.add ⟨[], ['a']⟩, .ask 0 .rules,
          .edit 0 (.setText ['b']), .ask 0 .values] := by
  obtain ⟨hask, -⟩ := answers_are_never_stale .plain ⟨[], [], []⟩
    [.add ⟨[], ['a']⟩, .ask 0 .rules, .edit 0 (.setText ['b'])] []
  obtain ⟨-, hkept⟩ := answers_are_never_stale .plain ⟨[], [], []⟩
    [.add ⟨[], ['a']⟩, .ask 0 .rules, .edit 0 (.setText ['b'])] [.ask 0 .values]
  exact ⟨(hask 0 .values).trans rfl, hkept (.edit 7 (.setText [])) (.inr ⟨7, rfl⟩)⟩

end ClassList
