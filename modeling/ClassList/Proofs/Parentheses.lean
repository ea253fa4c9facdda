-- The laws of parentheses. The scan keeps no stack of open parentheses, only
-- the scopes of the word that it reads. Still every group stops where the text
-- closes its parenthesis, and at the end of the text when nothing closes it.
import Mathlib
import ClassList.Proofs.Scopes

namespace ClassList

open Text

/-! ## Matching parentheses in a text -/

namespace Text

/-- The character at an offset, if it stands outside all runs of brackets. -/
def structuralAt? (n : Nat) (t : Text) : Option Char :=
  if isBoundary n t then (after n t).head?.filter (structural (upTo n t)) else none

/-- How many parentheses are open behind a character. A closing one that
closes nothing ends the count. -/
def openStep (opened : Nat) (c : Char) : Option Nat :=
  if c = '(' then some (opened + 1)
  else if c = ')' then if opened = 0 then none else some (opened - 1)
  else some opened

def openAfter (t : Text) : Option Nat := t.foldlM openStep 0

/-- The parenthesis at `j` closes the one at `i`: all parentheses between them
match each other. -/
def closes (t : Text) (i j : Nat) : Bool :=
  i < j && structuralAt? j t == some ')' && openAfter (structuralIn ⟨i + 1, j⟩ t) == some 0

/-- The offsets of the opening parentheses, in order. -/
def openings (t : Text) : List Nat :=
  (List.range t.size).filter fun n => structuralAt? n t == some '('

theorem structural_paren {a : Text} {c : Char} (hc : c ≠ '[') :
    structural a c = true ↔ inRun a = false := by
  simp [structural, hc]

theorem structuralAt?_eq_some {n : Nat} {t : Text} {c : Char} :
    structuralAt? n t = some c ↔ ∃ a b, t = a ++ c :: b ∧ size a = n ∧ structural a c = true := by
  unfold structuralAt?
  constructor
  · intro h
    split at h
    · rename_i hn
      obtain ⟨hhead, hs⟩ := Option.filter_eq_some_iff.mp h
      obtain ⟨b, hb⟩ := List.head?_eq_some_iff.mp hhead
      refine ⟨upTo n t, b, ?_, by simpa [isBoundary] using hn, hs⟩
      rw [← hb, upTo_append_after]
    · cases h
  · rintro ⟨a, b, rfl, rfl, hs⟩
    have hn : isBoundary (size a) (a ++ c :: b) = true := isBoundary_iff.mpr ⟨a, c :: b, rfl, rfl⟩
    simp [hn, hs]

theorem mem_openings {n : Nat} {t : Text} : n ∈ openings t ↔ structuralAt? n t = some '(' := by
  unfold openings
  rw [List.mem_filter, List.mem_range, beq_iff_eq]
  refine and_iff_right_of_imp ?_
  intro h
  obtain ⟨a, b, rfl, rfl, -⟩ := structuralAt?_eq_some.mp h
  have := Char.utf8Size_pos '('
  rw [size_append, size_cons]
  omega

/-! ## Counting open parentheses -/

theorem openAfter_append (a b : Text) :
    openAfter (a ++ b) = (openAfter a).bind fun d => b.foldlM openStep d := by
  unfold openAfter
  rw [List.foldlM_append]
  rfl

theorem openAfter_push (a : Text) (c : Char) :
    openAfter (a ++ [c]) = (openAfter a).bind fun d => openStep d c := by
  rw [openAfter_append]
  congr 1
  funext d
  simp

theorem openStep_other {c : Char} (h : c ≠ '(') (h' : c ≠ ')') (d : Nat) :
    openStep d c = some d := by
  simp [openStep, h, h']

theorem openAfter_neutral {a b : Text} (h : ∀ c ∈ b, c ≠ '(' ∧ c ≠ ')') :
    openAfter (a ++ b) = openAfter a := by
  induction b using List.reverseRecOn with
  | nil => simp
  | append_singleton b c ih =>
    have hc := h c (by simp)
    rw [← List.append_assoc, openAfter_push, ih (fun c hc => h c (by simp [hc]))]
    simp [openStep_other hc.1 hc.2]

/-- Parentheses that were open before stay open. -/
theorem foldlM_openStep_add {b : Text} {e : Nat} (d : Nat) (h : openAfter b = some e) :
    b.foldlM openStep d = some (d + e) := by
  induction b using List.reverseRecOn generalizing e with
  | nil =>
    obtain rfl : e = 0 := by simpa [openAfter, eq_comm] using h
    rfl
  | append_singleton b c ih =>
    rw [openAfter_push, Option.bind_eq_some_iff] at h
    obtain ⟨k, hk, hc⟩ := h
    rw [List.foldlM_append, ih hk]
    show List.foldlM openStep (d + k) [c] = some (d + e)
    unfold openStep at hc
    split_ifs at hc with h1 h2 h3
    · simp only [Option.some.injEq] at hc
      simp [openStep, h1]
      omega
    · simp only [Option.some.injEq] at hc
      simp [openStep, h2]
      omega
    · simp only [Option.some.injEq] at hc
      simp [openStep, h1, h2, hc]

/-- When the count ends, a closing parenthesis was met with nothing open. -/
theorem openAfter_eq_none {inside : Bool} {t : Text} (h : openAfter (outside inside t) = none) :
    ∃ b d, t = b ++ ')' :: d ∧ runAfter inside b = false ∧
      openAfter (outside inside b) = some 0 := by
  induction t using List.reverseRecOn with
  | nil => simp [outside, openAfter] at h
  | append_singleton t c ih =>
    rcases hk : openAfter (outside inside t) with _ | k
    · obtain ⟨b, d, rfl, hb⟩ := ih hk
      exact ⟨b, d ++ [c], by simp, hb⟩
    · rw [outside_append, openAfter_append, hk, Option.bind_some] at h
      by_cases hc : (runAfter inside t || c == '[') = true
      · simp [outside, hc] at h
      · have hrun : runAfter inside t = false := by
          simp only [Bool.or_eq_true, not_or, Bool.not_eq_true] at hc
          exact hc.1
        have hstep : openStep k c = none := by simpa [outside, hc] using h
        unfold openStep at hstep
        split_ifs at hstep with h1 h2 h3
        subst h2 h3
        exact ⟨t, [], rfl, hrun, hk⟩

variable {n : Nat} {a : Text}

theorem open_behind_word {w : Text} (hn : n ≤ size a) (ha : inRun a = false)
    (hw : ∀ c ∈ outside false w, c ∉ delimiters ∨ c = ':') :
    openAfter (behind n (a ++ w)) = openAfter (behind n a) := by
  rw [behind_append _ hn, ha]
  exact openAfter_neutral fun c hc => colon_ne_paren (hw c hc)

theorem open_behind_delimiter {c : Char} (hn : n ≤ size a) (ha : inRun a = false)
    (hc : c ∈ delimiters) :
    openAfter (behind n (a ++ [c])) = (openAfter (behind n a)).bind fun d => openStep d c := by
  rw [behind_append _ hn, ha, outside_delimiter hc, openAfter_push]

/-! ## Where a parenthesis is closed -/

/-- A middle part of a text, read from the run that is open in front of it. -/
theorem structuralIn_eq (a b c : Text) :
    structuralIn ⟨size a, size a + size b⟩ (a ++ b ++ c) = outside (inRun a) b := by
  unfold structuralIn
  rw [slice_append, List.append_assoc, upTo_size_append]

theorem inRun_behind_opening {a : Text} (ha : inRun a = false) (b : Text) :
    inRun (a ++ '(' :: b) = inRun b := by
  rw [inRun_append, ha]
  rfl

theorem structuralIn_behind_opening {a : Text} (ha : inRun a = false) (b c : Text) :
    structuralIn ⟨size a + 1, size (a ++ '(' :: b)⟩ (a ++ '(' :: b ++ c) = outside false b := by
  have h := structuralIn_eq (a ++ ['(']) b c
  have hrun : inRun (a ++ ['(']) = false := inRun_behind_opening ha []
  have hone : '('.utf8Size = 1 := rfl
  rw [hrun] at h
  simpa [size_append, Nat.add_assoc, hone] using h

theorem closes_iff {a r : Text} {j : Nat} (ha : inRun a = false) :
    closes (a ++ '(' :: r) (size a) j = true ↔
      ∃ b d, r = b ++ ')' :: d ∧ inRun b = false ∧ openAfter (outside false b) = some 0 ∧
        j = size (a ++ '(' :: b) := by
  unfold closes
  rw [Bool.and_eq_true, Bool.and_eq_true, decide_eq_true_eq, beq_iff_eq, beq_iff_eq,
    structuralAt?_eq_some]
  constructor
  · rintro ⟨⟨hlt, x, d, hx, rfl, hs⟩, hzero⟩
    rw [structural_paren (by decide)] at hs
    -- The parenthesis at `j` stands behind the one at `size a`.
    have hle : size (a ++ ['(']) ≤ size x := by
      rw [size_append]
      exact hlt
    have hsplit : (a ++ ['(']) ++ r = x ++ ')' :: d := by simpa using hx
    obtain ⟨b, rfl, rfl⟩ := append_split_of_size_le hsplit hle
    have hb : a ++ ['('] ++ b = a ++ '(' :: b := by simp
    rw [hb] at hs hzero ⊢
    rw [inRun_behind_opening ha] at hs
    have hin : a ++ '(' :: (b ++ ')' :: d) = a ++ '(' :: b ++ ')' :: d := by simp
    rw [hin, structuralIn_behind_opening ha] at hzero
    exact ⟨b, d, rfl, hs, hzero, rfl⟩
  · rintro ⟨b, d, rfl, hb, hzero, rfl⟩
    have hin : a ++ '(' :: (b ++ ')' :: d) = a ++ '(' :: b ++ ')' :: d := by simp
    rw [hin, structuralIn_behind_opening ha]
    refine ⟨⟨?_, a ++ '(' :: b, d, rfl, rfl, ?_⟩, hzero⟩
    · have := Char.utf8Size_pos '('
      rw [size_append, size_cons]
      omega
    · rw [structural_paren (by decide), inRun_behind_opening ha, hb]

/-- The count behind an opening parenthesis ends exactly if the parenthesis is
closed. -/
theorem openAfter_eq_none_iff {t : Text} {i n : Nat} (hi : structuralAt? i t = some '(')
    (hn : isBoundary n t = true) (hlt : i < n) :
    openAfter (structuralIn ⟨i + 1, n⟩ t) = none ↔ ∃ j < n, closes t i j = true := by
  obtain ⟨a, r, rfl, rfl, ha⟩ := structuralAt?_eq_some.mp hi
  rw [structural_paren (by decide)] at ha
  obtain ⟨x, y, hx, rfl⟩ := isBoundary_iff.mp hn
  have hle : size (a ++ ['(']) ≤ size x := by
    rw [size_append]
    exact hlt
  have hsplit : (a ++ ['(']) ++ r = x ++ y := by simpa using hx
  obtain ⟨p, rfl, rfl⟩ := append_split_of_size_le hsplit hle
  have hp : a ++ ['('] ++ p = a ++ '(' :: p := by simp
  have hin : a ++ '(' :: (p ++ y) = a ++ '(' :: p ++ y := by simp
  have hzero : structuralIn ⟨size a + 1, size (a ++ ['('] ++ p)⟩ (a ++ '(' :: (p ++ y)) =
      outside false p := by
    rw [hp, hin, structuralIn_behind_opening ha]
  rw [hzero]
  constructor
  · intro hnone
    obtain ⟨b, d, rfl, hb, hopen⟩ := openAfter_eq_none hnone
    refine ⟨size (a ++ '(' :: b), ?_, (closes_iff ha).mpr ⟨b, d ++ y, by simp, hb, hopen, rfl⟩⟩
    have := Char.utf8Size_pos ')'
    simp only [size_append, size_cons, size_nil]
    omega
  · rintro ⟨j, hj, hc⟩
    obtain ⟨b, d, hr, hb, hopen, rfl⟩ := (closes_iff ha).mp hc
    have hbp : size b ≤ size p := by
      simp only [size_append, size_cons, size_nil] at hj
      omega
    obtain ⟨e, rfl, he⟩ := append_split_of_size_le hr.symm hbp
    cases e with
    | nil =>
      simp only [size_append, size_cons, size_nil] at hj
      omega
    | cons c e =>
      obtain ⟨rfl, -⟩ : ')' = c ∧ d = e ++ y := by simpa using he
      rw [outside_append, show runAfter false b = false from hb, openAfter_append, hopen]
      rfl

variable {t : Text} {i j k : Nat}

theorem closes_lt (h : closes t i j = true) : i < j := by
  unfold closes at h
  rw [Bool.and_eq_true, Bool.and_eq_true, decide_eq_true_eq] at h
  exact h.1.1

theorem closes_at (h : closes t i j = true) : structuralAt? j t = some ')' := by
  unfold closes at h
  rw [Bool.and_eq_true, Bool.and_eq_true, beq_iff_eq] at h
  exact h.1.2

theorem closes_zero (h : closes t i j = true) :
    openAfter (structuralIn ⟨i + 1, j⟩ t) = some 0 := by
  unfold closes at h
  rw [Bool.and_eq_true, beq_iff_eq] at h
  exact h.2

theorem isBoundary_of_structuralAt {c : Char} (h : structuralAt? i t = some c) :
    isBoundary i t = true := by
  obtain ⟨a, b, rfl, rfl, -⟩ := structuralAt?_eq_some.mp h
  exact isBoundary_iff.mpr ⟨a, c :: b, rfl, rfl⟩

theorem structuralAt_lt {c : Char} (h : structuralAt? i t = some c) : i < size t := by
  obtain ⟨a, b, rfl, rfl, -⟩ := structuralAt?_eq_some.mp h
  have := c.utf8Size_pos
  rw [size_append, size_cons]
  omega

/-- An opening parenthesis stands between what is read before it and behind it. -/
theorem structuralIn_split_opening {m n : Nat} (hm : structuralAt? m t = some '(') (him : i ≤ m)
    (hmn : m < n) :
    structuralIn ⟨i, n⟩ t = structuralIn ⟨i, m⟩ t ++ '(' :: structuralIn ⟨m + 1, n⟩ t := by
  obtain ⟨x, r, rfl, rfl, hx⟩ := structuralAt?_eq_some.mp hm
  rw [structural_paren (by decide)] at hx
  have hone : '('.utf8Size = 1 := rfl
  have hsize : size (x ++ ['(']) = size x + 1 := by simp [size_append, hone]
  have hupTo : upTo n (x ++ '(' :: r) = x ++ '(' :: upTo (n - (size x + 1)) r := by
    have h := upTo_append_of_ge (x ++ ['(']) r (by omega : size (x ++ ['(']) ≤ n)
    simpa [hsize] using h
  have hfront : upTo (size x + 1) (x ++ '(' :: r) = x ++ ['('] := by
    have h := upTo_size_append (x ++ ['(']) r
    rw [hsize] at h
    simpa using h
  have hback : after (size x + 1) (x ++ '(' :: upTo (n - (size x + 1)) r) =
      upTo (n - (size x + 1)) r := by
    have h := after_size_append (x ++ ['(']) (upTo (n - (size x + 1)) r)
    rw [hsize] at h
    simpa using h
  have hrun : runAfter (inRun (upTo i x)) (after i x) = false := by
    rw [← inRun_append, upTo_append_after, hx]
  have hnot : inRun (x ++ ['(']) = false := inRun_behind_opening hx []
  rw [structuralIn_append _ him]
  unfold structuralIn slice behind
  rw [hupTo, upTo_append_of_le x _ him, after_append_of_le x _ him, outside_append, hrun, hfront,
    hback, hnot]
  rfl

/-- No parenthesis is closed twice. -/
theorem closes_unique (hi : structuralAt? i t = some '(') (hj : closes t i j = true)
    (hk : closes t i k = true) : j = k := by
  have hle : ∀ {j k}, closes t i j = true → closes t i k = true → k ≤ j := by
    intro j k hj hk
    by_contra hlt
    have hnone := (openAfter_eq_none_iff hi (isBoundary_of_structuralAt (closes_at hk))
      (closes_lt hk)).mpr ⟨j, by omega, hj⟩
    rw [closes_zero hk] at hnone
    cases hnone
  exact Nat.le_antisymm (hle hk hj) (hle hj hk)

/-- A parenthesis between two that match is closed between them too. -/
theorem closes_inner {m : Nat} (hi : structuralAt? i t = some '(')
    (hm : structuralAt? m t = some '(') (hj : closes t i j = true) (him : i < m) (hmj : m < j) :
    ∃ k < j, closes t m k = true := by
  have hbj := isBoundary_of_structuralAt (closes_at hj)
  rw [← openAfter_eq_none_iff hm hbj hmj]
  by_contra hinner
  obtain ⟨e, he⟩ := Option.ne_none_iff_exists'.mp hinner
  -- Up to `m` the outer parenthesis stays open, so at `j` two of them would be.
  have houter : openAfter (structuralIn ⟨i + 1, m⟩ t) ≠ none := by
    intro hnone
    obtain ⟨k, hk, hc⟩ :=
      (openAfter_eq_none_iff hi (isBoundary_of_structuralAt hm) him).mp hnone
    have := closes_unique hi hj hc
    omega
  obtain ⟨d, hd⟩ := Option.ne_none_iff_exists'.mp houter
  have hzero := closes_zero hj
  rw [structuralIn_split_opening hm him hmj, openAfter_append, hd, Option.bind_some] at hzero
  have hcount := foldlM_openStep_add (d + 1) he
  rw [show List.foldlM openStep d ('(' :: structuralIn ⟨m + 1, j⟩ t) =
    List.foldlM openStep (d + 1) (structuralIn ⟨m + 1, j⟩ t) from rfl, hcount] at hzero
  simp at hzero

/-- More text closes nothing anew. -/
theorem closes_append (x : Text) (h : closes t i j = true) : closes (t ++ x) i j = true := by
  obtain ⟨a, b, rfl, rfl, hs⟩ := structuralAt?_eq_some.mp (closes_at h)
  have hlt := closes_lt h
  have hzero := closes_zero h
  have hat : structuralAt? (size a) (a ++ ')' :: b ++ x) = some ')' :=
    structuralAt?_eq_some.mpr ⟨a, b ++ x, by simp, rfl, hs⟩
  have happ : a ++ ')' :: b ++ x = a ++ (')' :: b ++ x) := by simp
  rw [structuralIn_append _ hlt] at hzero
  unfold closes
  rw [hat, happ, structuralIn_append _ hlt, hzero]
  simp [hlt]

end Text

/-! ## The parenthesis of a group -/

namespace Layout

variable {ended : Bool} {a : Text} {s : Scan} {p : Placed}

theorem group_origin (h : Layout ended a s) (hp : p ∈ s.placed) (hg : p.item.isGroup = true) :
    ∃ before rest s₀, Layout false before s₀ ∧ a = before ++ '(' :: rest ∧
      p = ⟨s₀.item .group (size before), s₀.scopes⟩ ∧ p :: s₀.placed <:+ s.placed := by
  obtain ⟨before, raw, rest, s₀, k, hl, hk, rfl, rfl, hsuf, -⟩ := h.origin p hp
  cases hk with
  | opens ho =>
    rw [ho.not_isGroup] at hg
    cases hg
  | name => cases hg
  | group => exact ⟨before, rest, s₀, hl, by simp, rfl, hsuf⟩

theorem group_opens (h : Layout ended a s) (hp : p ∈ s.placed) (hg : p.item.isGroup = true) :
    structuralAt? p.item.start a = some '(' := by
  obtain ⟨before, rest, s₀, hl, rfl, rfl, -⟩ := h.group_origin hp hg
  refine structuralAt?_eq_some.mpr ⟨before, rest, rfl, rfl, ?_⟩
  rw [structural_paren (by decide)]
  exact hl.not_inRun rfl

theorem group_start_lt (h : Layout ended a s) (hp : p ∈ s.placed) (hg : p.item.isGroup = true) :
    p.item.start + 1 ≤ size a := structuralAt_lt (h.group_opens hp hg)

theorem item_ne_root (h : Layout ended a s) (hp : p ∈ s.placed) : p.item ≠ .root := by
  intro he
  have hpos := (h.nested.bounds p hp).1
  rw [he] at hpos
  exact Nat.lt_irrefl _ hpos

end Layout

/-! ## The count follows the scopes -/

theorem groupsAbove_dropWhile_group {i : Item} (hi : i.isGroup = true) (scopes : List Item) :
    groupsAbove i (scopes.dropWhile (!·.isGroup)) = groupsAbove i scopes := by
  induction scopes with
  | nil => rfl
  | cons j scopes ih =>
    by_cases hj : j.isGroup = true
    · rw [List.dropWhile_cons_of_neg (by simp [hj])]
    · have hne : j ≠ i := by
        rintro rfl
        exact hj hi
      rw [List.dropWhile_cons_of_pos (by simp [hj]), ih]
      simp [groupsAbove, hne, hj]

theorem mem_dropWhile_group {i : Item} (hi : i.isGroup = true) {scopes : List Item}
    (h : i ∈ scopes) : i ∈ scopes.dropWhile (!·.isGroup) := by
  rw [← groupsAbove_isSome, groupsAbove_dropWhile_group hi, groupsAbove_isSome]
  exact h

/-- Without the innermost group, every group but the root has one group less
above it, and the innermost one is gone. -/
theorem groupsAbove_tail_group {i : Item} {scopes : List Item} (hi : i ≠ .root)
    (hroot : scopes.getLast? = some .root) (hstacked : scopes.Pairwise fun i j => j.id < i.id)
    (hhead : ∀ g ∈ scopes.head?, g.isGroup = true) :
    groupsAbove i (if scopes.length ≤ 1 then scopes else scopes.tail) =
      (groupsAbove i scopes).bind fun d => openStep d ')' := by
  rcases scopes with _ | ⟨g, _ | ⟨outer, rest⟩⟩
  · rfl
  · obtain rfl : g = .root := by simpa using hroot
    simp [groupsAbove, Ne.symm hi]
  · rw [if_neg (by simp), List.tail_cons, groupsAbove.eq_2 i g]
    by_cases hg : g = i
    · have hnot : i ∉ outer :: rest := by
        intro hmem
        have := List.rel_of_pairwise_cons hstacked hmem
        rw [hg] at this
        exact Nat.lt_irrefl _ this
      rw [if_pos hg, groupsAbove_eq_none hnot]
      rfl
    · have hgroup : g.isGroup = true := hhead g rfl
      rw [if_neg hg]
      cases groupsAbove i (outer :: rest) with
      | none => rfl
      | some d => simp [hgroup, openStep]

theorem Layout.groupsAbove_closing {ended : Bool} {a : Text} {s : Scan} {p : Placed}
    (h : Layout ended a s) (hp : p ∈ s.placed) (hg : p.item.isGroup = true) (n : Nat) :
    groupsAbove p.item (s.leaveWords.leaveGroup n).scopes =
      (groupsAbove p.item s.scopes).bind fun d => openStep d ')' := by
  have hsuf : s.scopes.dropWhile (!·.isGroup) <:+ s.scopes := List.dropWhile_suffix _
  have hroot := leaveWords_root h.root_scope
  rw [Scan.leaveGroup_scopes, Scan.leaveWords_scopes, groupsAbove_tail_group (h.item_ne_root hp)
    hroot (h.nested.stacked.sublist hsuf.sublist) (head_dropWhile_isGroup _),
    groupsAbove_dropWhile_group hg]

/-- The count from a group on gives the number of groups above it, or nothing
when the scan has left it. -/
theorem Layout.openAfter_eq {ended : Bool} {a : Text} {s : Scan} (h : Layout ended a s) :
    ∀ p ∈ s.placed, p.item.isGroup = true →
      openAfter (behind (p.item.start + 1) a) = groupsAbove p.item s.scopes := by
  induction h with
  | start => simp [Scan.init]
  | @colon a s hl ih =>
    intro p hp hg
    rw [open_behind_word (hl.group_start_lt hp hg) (hl.not_inRun rfl) (by simp [outside]),
      ih p hp hg]
    rfl
  | @enter a raw s k hl ho ih =>
    intro p hp hg
    rcases List.mem_cons.mp hp with rfl | hp
    · rw [ho.not_isGroup] at hg
      cases hg
    · have hne := (hl.nested.fresh hp k (size a)).symm
      rw [open_behind_word (hl.group_start_lt hp hg) (hl.not_inRun rfl) ho.outside, ih p hp hg]
      simp [groupsAbove, hne, ho.not_isGroup]
  | @name a w s closed hl hs ih =>
    intro p hp hg
    rcases List.mem_cons.mp hp with rfl | hp
    · cases hg
    · rw [open_behind_word (hl.group_start_lt hp hg) (hl.not_inRun rfl)
        (fun c hc => Or.inl (hs c hc)), ih p hp hg]
      rfl
  | @opening a s hl ih =>
    intro p hp hg
    rcases List.mem_cons.mp hp with rfl | hp
    · have hsize : size a + 1 = size (a ++ ['(']) := by
        rw [size_append]
        rfl
      have hstart : (s.item .group (size a)).start + 1 = size (a ++ ['(']) := hsize
      simp only [hstart, behind_size]
      simp [groupsAbove, openAfter]
    · have hne := (hl.nested.fresh hp .group (size a)).symm
      rw [open_behind_delimiter (hl.group_start_lt hp hg) (hl.not_inRun rfl) (by decide),
        ih p hp hg]
      simp only [Scan.restart_scopes, Scan.enter_scopes, groupsAbove, if_neg hne]
      cases groupsAbove p.item s.scopes <;> rfl
  | @closing ended a s hl hr ih =>
    intro p hp hg
    have hp : p ∈ s.placed := by simpa using hp
    rw [open_behind_delimiter (hl.group_start_lt hp hg) hr (by decide), ih p hp hg,
      Scan.restart_scopes, hl.groupsAbove_closing hp hg]
  | @blank ended a s c hl hr hc ih =>
    intro p hp hg
    obtain ⟨hopening, hclosing⟩ := blank_ne_paren hc
    rw [open_behind_delimiter (hl.group_start_lt hp hg) hr (blanks_subset hc), ih p hp hg,
      Scan.restart_scopes, Scan.leaveWords_scopes, groupsAbove_dropWhile_group hg]
    cases groupsAbove p.item s.scopes with
    | none => rfl
    | some d => exact openStep_other hopening hclosing d

/-- Nothing has closed the parenthesis of a group that is still a scope. -/
theorem Layout.not_closes_of_scope {ended : Bool} {a : Text} {s : Scan} {p : Placed}
    (h : Layout ended a s) (hp : p ∈ s.placed) (hg : p.item.isGroup = true)
    (hmem : p.item ∈ s.scopes) (j : Nat) : closes a p.item.start j = false := by
  have hopens := h.group_opens hp hg
  by_contra hj
  rw [Bool.not_eq_false] at hj
  have hboundary : isBoundary (size a) a = true := isBoundary_iff.mpr ⟨a, [], by simp, rfl⟩
  have hcount := (openAfter_eq_none_iff hopens hboundary (structuralAt_lt hopens)).mpr
    ⟨j, structuralAt_lt (closes_at hj), hj⟩
  have hin := structuralIn_append [] (h.group_start_lt hp hg)
  rw [List.append_nil] at hin
  rw [hin, h.openAfter_eq p hp hg] at hcount
  rw [← groupsAbove_isSome, hcount] at hmem
  cases hmem

/-! ## Where a group stops -/

theorem Scan.stopOf_group {s : Scan} {size : Nat} {i : Item} (h : i.isGroup = true) :
    s.stopOf size i = (s.closed.lookup i.id).getD size := by
  rcases i with ⟨id, _ | v | w, start⟩
  · rfl
  · cases h
  · cases h

/-- A closing parenthesis closes the innermost group, or nothing at the root. -/
theorem Scan.closing_cases (s : Scan) (n : Nat) :
    ((s.leaveWords.leaveGroup n).scopes = s.scopes.dropWhile (!·.isGroup) ∧
      (s.leaveWords.leaveGroup n).closed = s.closed) ∨
    ∃ g rest, s.scopes.dropWhile (!·.isGroup) = g :: rest ∧ g ∈ s.scopes ∧
      (s.leaveWords.leaveGroup n).scopes = rest ∧
      (s.leaveWords.leaveGroup n).closed = (g.id, n) :: s.closed := by
  unfold leaveGroup
  split
  · rename_i g outer rest hs
    rw [leaveWords_scopes] at hs
    have hsuf : s.scopes.dropWhile (!·.isGroup) <:+ s.scopes := List.dropWhile_suffix _
    exact Or.inr ⟨g, outer :: rest, hs, hsuf.subset (by simp [hs]), rfl, rfl⟩
  · exact Or.inl ⟨rfl, rfl⟩

namespace Layout

variable {ended : Bool} {a : Text} {s : Scan}

theorem closed_known (h : Layout ended a s) : ∀ c ∈ s.closed, c.1 ≤ s.placed.length := by
  induction h with
  | start => simp [Scan.init]
  | colon _ ih => exact ih
  | enter _ _ ih => exact fun c hc => Nat.le_succ_of_le (ih c hc)
  | name _ _ _ ih => exact fun c hc => Nat.le_succ_of_le (ih c hc)
  | opening _ ih => exact fun c hc => Nat.le_succ_of_le (ih c hc)
  | @closing ended a s hl _ ih =>
    intro c hc
    rw [Scan.restart_closed] at hc
    rw [Scan.restart_placed, Scan.leaveGroup_placed, Scan.leaveWords_placed]
    rcases s.closing_cases (size (a ++ [')'])) with ⟨-, he⟩ | ⟨g, rest, -, hg, -, he⟩
    · rw [he] at hc
      exact ih c hc
    · rw [he] at hc
      rcases List.mem_cons.mp hc with rfl | hc
      · exact hl.nested.scope_le hg
      · exact ih c hc
  | blank _ _ _ ih => exact ih

/-- A closing parenthesis closes the innermost group: nothing is open behind
that group's own parenthesis. -/
theorem closes_innermost (h : Layout ended a s) (hr : inRun a = false) {p : Placed}
    (hp : p ∈ s.placed) (hg : p.item.isGroup = true) {rest : List Item}
    (hs : s.scopes.dropWhile (!·.isGroup) = p.item :: rest) :
    closes (a ++ [')']) p.item.start (size a) = true := by
  have hlt := h.group_start_lt hp hg
  have hzero : openAfter (behind (p.item.start + 1) a) = some 0 := by
    rw [h.openAfter_eq p hp hg, ← groupsAbove_dropWhile_group hg, hs]
    simp [groupsAbove]
  have hat : structuralAt? (size a) (a ++ [')']) = some ')' :=
    structuralAt?_eq_some.mpr ⟨a, [], rfl, rfl, (structural_paren (by decide)).mpr hr⟩
  unfold closes
  rw [hat, structuralIn_append _ hlt, hzero]
  simpa using hlt

theorem id_ne_of_scope (h : Layout ended a s) {p : Placed} (hp : p ∈ s.placed) {g : Item}
    (hgs : g ∈ s.scopes) (hne : p.item ≠ g) : p.item.id ≠ g.id := by
  intro hid
  rcases h.nested.known g hgs with rfl | ⟨q, hq, rfl⟩
  · have := (h.nested.bounds p hp).1
    rw [hid] at this
    exact Nat.lt_irrefl _ this
  · exact hne (by rw [h.nested.eq_of_id hp hq hid])

/-- A group is still a scope, or the text has closed its parenthesis. -/
theorem group_state (h : Layout ended a s) :
    ∀ p ∈ s.placed, p.item.isGroup = true →
      (p.item ∈ s.scopes ∧ s.closed.lookup p.item.id = none) ∨
        ∃ j, closes a p.item.start j = true ∧ s.closed.lookup p.item.id = some (j + 1) := by
  have hmore : ∀ {a : Text} {closed : List (Nat × Nat)} {p : Placed} (x : Text),
      (∃ j, closes a p.item.start j = true ∧ closed.lookup p.item.id = some (j + 1)) →
      ∃ j, closes (a ++ x) p.item.start j = true ∧ closed.lookup p.item.id = some (j + 1) := by
    rintro a closed p x ⟨j, hj, hc⟩
    exact ⟨j, closes_append x hj, hc⟩
  induction h with
  | start => simp [Scan.init]
  | colon _ ih => exact fun p hp hg => (ih p hp hg).imp_right (hmore _)
  | @enter a raw s k hl ho ih =>
    intro p hp hg
    rcases List.mem_cons.mp hp with rfl | hp
    · rw [ho.not_isGroup] at hg
      cases hg
    · exact (ih p hp hg).imp (.imp_left (List.mem_cons_of_mem _)) (hmore _)
  | name _ _ _ ih =>
    intro p hp hg
    rcases List.mem_cons.mp hp with rfl | hp
    · cases hg
    · exact (ih p hp hg).imp_right (hmore _)
  | @opening a s hl ih =>
    intro p hp hg
    rcases List.mem_cons.mp hp with rfl | hp
    · refine Or.inl ⟨List.mem_cons_self, ?_⟩
      rw [List.lookup_eq_none_iff]
      intro c hc
      have hle := hl.closed_known c hc
      have hid : (s.item .group (size a)).id = s.placed.length + 1 := rfl
      rw [bne_iff_ne, hid]
      omega
    · exact (ih p hp hg).imp (.imp_left (List.mem_cons_of_mem _)) (hmore _)
  | @closing ended a s hl hr ih =>
    intro p hp hg
    have hp : p ∈ s.placed := by simpa using hp
    rw [Scan.restart_scopes, Scan.restart_closed]
    rcases s.closing_cases (size (a ++ [')'])) with ⟨hscopes, hclosed⟩ | ⟨g, rest, hs, hgs,
      hscopes, hclosed⟩
    · rw [hscopes, hclosed]
      exact (ih p hp hg).imp (.imp_left (mem_dropWhile_group hg)) (hmore _)
    · rw [hscopes, hclosed]
      by_cases hpg : p.item = g
      · refine Or.inr ⟨size a, hl.closes_innermost hr hp hg (hpg ▸ hs), ?_⟩
        rw [hpg, List.lookup_cons_self, size_append]
        rfl
      · have hid := hl.id_ne_of_scope hp hgs hpg
        rw [List.lookup_cons, beq_eq_false_iff_ne.mpr hid]
        refine (ih p hp hg).imp (.imp_left ?_) (hmore _)
        intro hmem
        have hmem := mem_dropWhile_group hg hmem
        rw [hs] at hmem
        exact (List.mem_cons.mp hmem).resolve_left hpg
  | @blank ended a s c hl hr hc ih =>
    intro p hp hg
    exact (ih p hp hg).imp (.imp_left (mem_dropWhile_group hg)) (hmore _)

end Layout

end ClassList
