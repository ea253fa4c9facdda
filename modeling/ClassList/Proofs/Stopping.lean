-- The laws of a reading that stops. Read with a cursor, with a look at the next
-- character behind a colon and at the stop in front of each one, a text gives the tree
-- of its first part and the word in front of the stop as the last node. On the way
-- every offset and every range is in its domain.
import Mathlib
import ClassList.Checked
import ClassList.Proofs.Building
import ClassList.Proofs.Reading
import ClassList.Proofs.Relocation

namespace ClassList

open Text

/-! ## Boundaries -/

namespace Text

/-- There is no boundary inside a character. -/
theorem next_boundary {a rest : Text} {c : Char} {p : Nat}
    (hp : isBoundary p (a ++ c :: rest) = true) (hlt : size a < p) : size (a ++ [c]) ≤ p := by
  obtain ⟨x, y, hxy, rfl⟩ := isBoundary_iff.mp hp
  obtain ⟨e, rfl, he⟩ := append_split_of_size_le hxy (Nat.le_of_lt hlt)
  rw [size_append] at hlt
  cases e with
  | nil =>
    rw [size_nil] at hlt
    omega
  | cons d e =>
    obtain ⟨rfl, -⟩ : c = d ∧ rest = e ++ y := by simpa using he
    simp only [size_append, size_cons, size_nil]
    omega

theorem boundary_le_size {t : Text} {p : Nat} (hp : isBoundary p t = true) : p ≤ size t := by
  obtain ⟨x, y, rfl, rfl⟩ := isBoundary_iff.mp hp
  rw [size_append]
  exact Nat.le_add_right _ _

theorem isBoundary_upTo (n : Nat) (t : Text) : isBoundary (size (t.upTo n)) t = true :=
  isBoundary_iff.mpr ⟨t.upTo n, t.after n, (upTo_append_after n t).symm, rfl⟩

/-- Between a boundary and the next one an offset leaves the same text in front of it. -/
theorem upTo_of_le {t : Text} {m n : Nat} (hle : size (t.upTo n) ≤ m) (hmn : m ≤ n) :
    t.upTo m = t.upTo n := by
  have hmax : size (t.upTo n) ≤ size (t.upTo m) :=
    (size_readTo_max (some m) t).2 _ (isBoundary_upTo n t) (by simpa using hle)
  have hmin : size (t.upTo m) ≤ size (t.upTo n) :=
    (size_readTo_max (some n) t).2 _ (isBoundary_upTo m t)
      (by simpa using (size_upTo_le m t).trans hmn)
  have hsplit : t.upTo m ++ t.after m = t.upTo n ++ t.after n := by
    rw [upTo_append_after, upTo_append_after]
  exact (append_inj_of_size hsplit (Nat.le_antisymm hmin hmax)).1

end Text

/-! ## Scans -/

namespace Layout

variable {ended : Bool} {a : Text} {s : Scan}

/-- Scopes start in the text that has been read. -/
theorem scope_start_le (h : Layout ended a s) {i : Item} (hi : i ∈ s.scopes) :
    i.start ≤ size a := by
  rcases h.nested.known i hi with rfl | ⟨p, hp, rfl⟩
  · exact Nat.zero_le _
  · obtain ⟨before, raw, rest, s₀, k, -, -, rfl, rfl, -, -⟩ := h.origin p hp
    show size before ≤ _
    rw [List.append_assoc, size_append]
    exact Nat.le_add_right _ _

end Layout

theorem Scan.HasRead.scope_start_le {s : Scan} {a : Text} (h : s.HasRead a) {i : Item}
    (hi : i ∈ s.scopes) : i.start ≤ size a := by
  obtain ⟨before, rfl, hl⟩ := h.split
  have hle : i.start ≤ size before := hl.scope_start_le hi
  rw [size_append]
  omega

/-! ## Builders -/

namespace Builder

variable {b : Builder} {c : Char}

theorem settle_of_mode (h : b.mode ≠ .colon) : b.settle = b := if_neg h

theorem settle_of_colon (h : b.mode = .colon) : b.settle = b.endVariant := if_pos h

theorem endVariant_mode (b : Builder) : b.endVariant.mode = .plain := by
  unfold endVariant
  split <;> rfl

/-- The end of a variant does not depend on the mode. -/
theorem endVariant_mode_irrel (b : Builder) (m : Mode) :
    { b with mode := m }.endVariant = b.endVariant := by
  unfold endVariant
  dsimp only
  split <;> rfl

theorem settle_mode (b : Builder) : b.settle.mode ≠ .colon := by
  unfold settle
  split
  · rw [endVariant_mode]
    decide
  · assumption

/-- A builder that has ended its variant goes on in the same way, unless a second colon
of the variant follows. -/
theorem step_settle (h : b.mode = .colon → c ≠ ':') : b.step c = b.settle.step c := by
  cases hm : b.mode with
  | plain => rw [settle_of_mode (by rw [hm]; decide)]
  | bracket => rw [settle_of_mode (by rw [hm]; decide)]
  | colon =>
    rw [settle_of_colon hm, step, hm, step, endVariant_mode]
    simp [h hm]

theorem offset_push (b : Builder) (c : Char) : (b.push c).offset = b.offset + c.utf8Size := by
  show b.start + size (b.word ++ [c]) = b.start + size b.word + c.utf8Size
  rw [size_append, size_singleton, Nat.add_assoc]

/-- The colon behind a word may be the first one of two. -/
theorem step_colon (hm : b.mode = .plain) (hw : b.word ≠ []) :
    b.step ':' = { b.push ':' with mode := .colon } := by
  simp [step, hm, read, Delimiter.ofChar?, hw]

/-- A character in square brackets, or the one that opens them. -/
theorem step_bracket (hm : b.mode ≠ .colon) (hc : (b.mode = .bracket || c = '[') = true) :
    b.step c = { b.push c with mode := if c = ']' then .plain else .bracket } := by
  cases hmode : b.mode with
  | colon => exact absurd hmode hm
  | bracket => simp [step, hmode]
  | plain =>
    obtain rfl : c = '[' := by simpa [hmode] using hc
    simp [step, hmode, read, Delimiter.ofChar?]

/-- Only the colon behind a word asks for a second one. -/
theorem read_mode (hc : c = ':' → b.word = []) : (b.read c).mode ≠ .colon := by
  unfold read
  dsimp only
  split
  · rename_i hcolon
    rw [if_pos (by rw [hc (Delimiter.ofChar?_eq_colon.mp hcolon)]; rfl)]
    exact Mode.noConfusion
  · exact Mode.noConfusion
  · exact Mode.noConfusion
  · exact Mode.noConfusion
  · dsimp only
    split <;> exact Mode.noConfusion

end Builder

namespace Checked

/-! ## Operations in their domain -/

section Domain

variable {m n : Nat} {t : Text}

theorem offset?_eq (h : n < limit) : offset? n = some n := if_pos h

theorem add?_eq (h : m + n < limit) : add? m n = some (m + n) := offset?_eq h

theorem sub?_eq (h : n ≤ m) : sub? m n = some (m - n) := if_pos h

theorem size?_eq (h : size t < limit) : size? t = some (size t) := offset?_eq h

theorem range?_eq (h : m ≤ n) : range? m n = some ⟨m, n⟩ := if_pos h

theorem rangeAt?_eq (h : m + n < limit) : rangeAt? m n = some ⟨m, m + n⟩ := by
  unfold rangeAt?
  rw [add?_eq h]
  exact range?_eq (Nat.le_add_right _ _)

theorem upTo?_eq (h : isBoundary n t = true) : upTo? n t = some (t.upTo n) := if_pos h

theorem after?_eq (h : isBoundary n t = true) : after? n t = some (t.after n) := if_pos h

theorem size_lt_of_split {a rest : Text} (h : size t < limit) (hsplit : t = a ++ rest) :
    size a < limit := by
  rw [hsplit, size_append] at h
  omega

/-- The cursor stands behind what has been read. -/
theorem cursor?_eq {a rest : Text} (h : size t < limit) (hsplit : t = a ++ rest) :
    cursor? (size t) rest = some (size a) := by
  rw [hsplit, size_append] at h ⊢
  unfold cursor?
  rw [size?_eq (by omega)]
  show sub? (size a + size rest) (size rest) = some (size a)
  rw [sub?_eq (Nat.le_add_left _ _), Nat.add_sub_cancel]

end Domain

section Words

variable {b : Builder}

theorem wordRange?_eq (h : b.offset < limit) :
    wordRange? b = some (.ofText b.start b.word) := by
  unfold Builder.offset at h
  unfold wordRange?
  rw [size?_eq (by omega)]
  exact rangeAt?_eq h

theorem endText?_eq (h : b.offset < limit) (closed : Bool) :
    endText? b closed = some (b.endText closed) := by
  unfold endText?
  rw [wordRange?_eq h]
  rfl

theorem endIdentifier?_eq (h : b.offset < limit) :
    endIdentifier? b = some b.endIdentifier := by
  unfold endIdentifier? Builder.endIdentifier
  split
  · rfl
  · rw [wordRange?_eq h]
    rfl

theorem endOuter?_eq (h : b.offset < limit) : endOuter? b = some b.endOuter := by
  unfold endOuter? Builder.endOuter
  split
  · rfl
  · rw [wordRange?_eq h]
    rfl

theorem endVariant?_eq (h : b.offset < limit) :
    endVariant? b b.offset = some b.endVariant := by
  unfold endVariant?
  split
  · rename_i rest hword
    have hoffset : b.offset = b.start + (1 + size rest) := by
      unfold Builder.offset
      rw [hword]
      rfl
    rw [rangeAt?_eq (by omega), add?_eq (by omega), size?_eq (by omega)]
    show (rangeAt? (b.start + 1) (size rest)).bind _ = _
    rw [rangeAt?_eq (by omega), Builder.endVariant_bang hword]
    rfl
  · rename_i hbang
    rw [wordRange?_eq h, Builder.endVariant_plain hbang]
    rfl

end Words

/-- A fold whose steps have values, as long as its state is good, has a value. -/
theorem foldlM_eq_foldl {α β : Type} {f : β → α → Option β} {g : β → α → β} (Good : β → Prop)
    {l : List α} (hstep : ∀ b, Good b → ∀ a ∈ l, f b a = some (g b a) ∧ Good (g b a)) {b : β}
    (hb : Good b) : l.foldlM f b = some (l.foldl g b) ∧ Good (l.foldl g b) := by
  induction l generalizing b with
  | nil => exact ⟨rfl, hb⟩
  | cons a l ih =>
    obtain ⟨hsome, hgood⟩ := hstep b hb a List.mem_cons_self
    rw [List.foldlM_cons, hsome]
    exact ih (fun b hb a ha => hstep b hb a (List.mem_cons_of_mem _ ha)) hgood

section Groups

variable {a : Arena} {id stop : Nat}

/-- A node is stretched to an offset behind its start. -/
theorem stretch?_eq {c : Cell} (hcell : a.cell? id = some c) (h : c.span.start ≤ stop) :
    stretch? a id stop = some (a.stretch id stop) := by
  unfold stretch?
  rw [hcell]
  show (range? c.span.start stop).bind _ = _
  rw [range?_eq h]
  rfl

theorem stretch?_all {ids : List Nat}
    (h : ∀ id ∈ ids, ∃ c, a.cell? id = some c ∧ c.span.start ≤ stop) :
    ids.foldlM (fun a id => stretch? a id stop) a =
      some (ids.foldl (fun a id => a.stretch id stop) a) := by
  refine (foldlM_eq_foldl (fun a : Arena => ∀ id ∈ ids, ∃ c, a.cell? id = some c ∧
    c.span.start ≤ stop) ?_ h).1
  intro a h id hid
  obtain ⟨c, hcell, hstart⟩ := h id hid
  refine ⟨stretch?_eq hcell hstart, ?_⟩
  -- Stretching moves no start.
  intro j hj
  obtain ⟨d, hd, hle⟩ := h j hj
  unfold Arena.stretch
  rw [Arena.cell?_modify, hd]
  split
  · exact ⟨_, rfl, hle⟩
  · exact ⟨d, rfl, hle⟩

variable {b : Builder} {s : Scan} {size : Nat}

/-- A scope is stored where it starts. -/
theorem cell_start_le (hf : b.Follows s size) (h : ∀ g ∈ s.scopes, g.start ≤ stop) :
    ∀ id ∈ s.scopes.map Item.id, ∃ c, b.arena.cell? id = some c ∧ c.span.start ≤ stop := by
  intro id hid
  obtain ⟨g, hg, rfl⟩ := List.mem_map.mp hid
  obtain ⟨c, hcell, hitem⟩ := hf.cell_of_scope hg
  have hstart : c.span.start = g.start := congrArg Item.start hitem
  exact ⟨c, hcell, hstart.trans_le (h g hg)⟩

/-- A group is closed behind its start. -/
theorem leaveGroup?_eq (hf : b.Follows s size) (h : ∀ g ∈ s.scopes, g.start ≤ stop) :
    leaveGroup? b stop = some (b.leaveGroup stop) := by
  have hmem : b.parent ∈ s.scopes.map Item.id := by
    obtain ⟨g, rest, hs⟩ := List.exists_cons_of_ne_nil hf.rooted.scopes_ne
    have hparent : g.id = b.parent := by simpa [hs] using hf.parent
    rw [hs, List.map_cons, hparent]
    exact List.mem_cons_self
  obtain ⟨c, hcell, hstart⟩ := cell_start_le hf h b.parent hmem
  unfold leaveGroup? Builder.leaveGroup
  rw [stretch?_eq hcell hstart]
  split <;> rfl

end Groups

/-! ## Reading -/

variable {b : Builder} {s : Scan} {a t : Text} {c : Char} {n : Nat}

theorem read?_eq (hf : b.Follows s n) (h : s.HasRead a) (hm : b.mode = .plain)
    (hsize : size (a ++ [c]) < limit) (hcolon : c = ':' → b.word = []) (hbracket : c ≠ '[') :
    read? b c (size (a ++ [c])) = some (b.read c) := by
  have hnext : size (a ++ [c]) = b.offset + c.utf8Size := by
    rw [hf.offset, h.offset_eq, size_append, size_singleton]
  have hoffset : b.offset < limit := by omega
  unfold read? Builder.read
  rw [hnext]
  cases hc : Delimiter.ofChar? c with
  | none =>
    dsimp only
    rw [if_neg hbracket, ← hm]
    rfl
  | some d =>
    cases d with
    | colon =>
      dsimp only
      rw [if_pos (by rw [hcolon (Delimiter.ofChar?_eq_colon.mp hc)]; rfl)]
    | opening =>
      have hone : c.utf8Size = 1 := by rw [Delimiter.ofChar?_eq_opening.mp hc]; rfl
      dsimp only
      rw [endOuter?_eq hoffset, hone, sub?_eq (Nat.le_add_left _ _), Nat.add_sub_cancel]
      show (rangeAt? b.offset 1).bind _ = _
      rw [rangeAt?_eq (by omega)]
      rfl
    | closing =>
      have hscopes : ∀ g ∈ s.endIdentifier.leaveWords.scopes, g.start ≤ b.offset + c.utf8Size := by
        intro g hg
        have hmem := (List.dropWhile_suffix _).subset hg
        rw [Scan.endIdentifier_scopes] at hmem
        have hle := h.scope_start_le hmem
        rw [← h.offset_eq, ← hf.offset] at hle
        omega
      dsimp only
      rw [endIdentifier?_eq hoffset]
      show (leaveGroup? b.endIdentifier.leaveWords _).bind _ = _
      rw [leaveGroup?_eq hf.endIdentifier hscopes]
      rfl
    | blank =>
      dsimp only
      rw [endIdentifier?_eq hoffset]
      rfl

theorem atStop_eq_false {stop : Option Nat} {here : Nat} (h : ¬ atStop stop here = true) :
    ∀ p ∈ stop, here < p := by
  intro p hp
  rw [Option.mem_def.mp hp] at h
  simpa [atStop] using h

end Checked

/-- Between two characters the builder is behind all that has been read. -/
theorem Builder.offset_settle (n : Nat) (a : Text) : (run n a).settle.offset = size a :=
  (Follows.run n a).settle.offset.trans (Scan.hasRead_settle (Scan.hasRead_run a)).offset_eq

namespace Checked

variable {t : Text} {stop : Option Nat}

/-- At the end of the text the word is a name if there is one, or if the reading was to
stop there. -/
theorem readOn?_nil (ht : size t < limit) (hstop : ∀ p ∈ stop, isBoundary p t = true)
    (hbehind : ∀ p ∈ stop, size t ≤ p) :
    readOn? (size t) stop false (Builder.run (size t) t).settle [] =
      some (Builder.atEnd stop t) := by
  have hoffset : (Builder.run (size t) t).settle.offset < limit := by
    rwa [Builder.offset_settle]
  unfold readOn?
  rw [cursor?_eq ht (List.append_nil t).symm]
  show (if _ then _ else _) = _
  rw [endText?_eq hoffset]
  cases stop with
  | none =>
    unfold Builder.atEnd
    dsimp only
    split <;> simp_all
  | some p =>
    obtain rfl : p = size t :=
      Nat.le_antisymm (boundary_le_size (hstop p rfl)) (hbehind p rfl)
    have hall : t.upTo (size t) = t := upTo_of_size_le t (Nat.le_refl _)
    rw [if_neg (by simp)]
    simp [Builder.atEnd, hall]

/-- In front of a character the word is a name if the reading stops there. -/
theorem endText?_at_stop {a rest : Text} {c : Char} (ht : size (a ++ c :: rest) < limit)
    (hbehind : ∀ p ∈ stop, size a ≤ p) (hat : atStop stop (size a) = true) :
    endText? (Builder.run (size (a ++ c :: rest)) a).settle false =
      some (Builder.atEnd stop (a ++ c :: rest)) := by
  have hoffset : (Builder.run (size (a ++ c :: rest)) a).settle.offset < limit := by
    rw [Builder.offset_settle]
    rw [size_append] at ht
    omega
  cases stop with
  | none => cases hat
  | some p =>
    obtain rfl : p = size a := Nat.le_antisymm (by simpa [atStop] using hat) (hbehind p rfl)
    rw [endText?_eq hoffset]
    simp [Builder.atEnd]

/-- What is done with a character in front of the stop. -/
theorem readOn?_char {size here next : Nat} {b : Builder} {c : Char} {rest : Text}
    (hhere : cursor? size (c :: rest) = some here) (hat : ¬ atStop stop here = true)
    (hnext : cursor? size rest = some next) :
    readOn? size stop false b (c :: rest) =
      if b.mode = .bracket || c = '[' then
        readOn? size stop false { b.push c with mode := if c = ']' then .plain else .bracket } rest
      else if c = ':' && !b.word.isEmpty then
        if colonFollows stop next rest then
          (cursor? size rest.tail).bind fun behind =>
            (endVariant? ((b.push ':').push ':') behind).bind (readOn? size stop true · rest)
        else (endVariant? (b.push ':') next).bind (readOn? size stop false · rest)
      else (read? b c next).bind (readOn? size stop false · rest) := by
  rw [readOn?, hhere]
  show (if _ then _ else _) = _
  rw [if_neg hat, hnext]
  rfl

section Colons

variable {b : Builder} {a : Text} {n : Nat}

/-- A variant with one colon. -/
theorem endVariant?_one (h : b.offset = size a)
    (hrun : Builder.run n (a ++ [':']) = { b.push ':' with mode := .colon })
    (hsize : size (a ++ [':']) < limit) :
    endVariant? (b.push ':') (size (a ++ [':'])) =
      some (Builder.run n (a ++ [':'])).settle := by
  have hoffset : (b.push ':').offset = size (a ++ [':']) := by
    rw [Builder.offset_push, h, size_append, size_singleton]
  rw [← hoffset, endVariant?_eq (by rwa [hoffset]), hrun, Builder.settle_of_colon rfl]
  exact congrArg some (Builder.endVariant_mode_irrel (b.push ':') .colon).symm

/-- A variant with two colons, where no third one belongs to it. -/
theorem endVariant?_two (h : b.offset = size a)
    (hrun : Builder.run n (a ++ [':']) = { b.push ':' with mode := .colon })
    (hsize : size (a ++ [':'] ++ [':']) < limit) :
    endVariant? ((b.push ':').push ':') (size (a ++ [':'] ++ [':'])) =
        some (Builder.run n (a ++ [':'] ++ [':'])).settle ∧
      (Builder.run n (a ++ [':'] ++ [':'])).mode ≠ .colon := by
  have hoffset : ((b.push ':').push ':').offset = size (a ++ [':'] ++ [':']) := by
    rw [Builder.offset_push, Builder.offset_push, h, size_append, size_append, size_singleton]
  have htwo : Builder.run n (a ++ [':'] ++ [':']) = ((b.push ':').push ':').endVariant := by
    rw [Builder.run_append, List.foldl_cons, List.foldl_nil, hrun]
    exact Builder.endVariant_mode_irrel ((b.push ':').push ':') .colon
  have hmode : (Builder.run n (a ++ [':'] ++ [':'])).mode ≠ .colon := by
    rw [htwo, Builder.endVariant_mode]
    decide
  refine ⟨?_, hmode⟩
  rw [← hoffset, endVariant?_eq (by rwa [hoffset]), Builder.settle_of_mode hmode, htwo]

end Colons

/-- One character in front of the stop, or two colons. The reading is then where the
fold over these characters is, and in front of no second colon. -/
theorem readOn?_cons {a rest : Text} {c : Char} (ht : size t < limit)
    (hsplit : t = a ++ c :: rest) (hat : ¬ atStop stop (size a) = true)
    (hcolon : (Builder.run (size t) a).mode = .colon →
      colonFollows stop (size a) (c :: rest) = false) :
    (readOn? (size t) stop false (Builder.run (size t) a).settle (c :: rest) =
        readOn? (size t) stop false (Builder.run (size t) (a ++ [c])).settle rest ∧
      ((Builder.run (size t) (a ++ [c])).mode = .colon →
        colonFollows stop (size (a ++ [c])) rest = false)) ∨
    ∃ rest', rest = ':' :: rest' ∧ ¬ atStop stop (size (a ++ [c])) = true ∧
      readOn? (size t) stop false (Builder.run (size t) a).settle (c :: rest) =
        readOn? (size t) stop false (Builder.run (size t) (a ++ [c] ++ [':'])).settle rest' ∧
      (Builder.run (size t) (a ++ [c] ++ [':'])).mode ≠ .colon := by
  have hread := Scan.hasRead_settle (Scan.hasRead_run a)
  have hfollows := (Builder.Follows.run (size t) a).settle
  have hoffset := Builder.offset_settle (size t) a
  have hmode := (Builder.run (size t) a).settle_mode
  have hsplit' : t = a ++ [c] ++ rest := by simpa using hsplit
  have hsize := size_lt_of_split ht hsplit'
  have hrun : Builder.run (size t) (a ++ [c]) = (Builder.run (size t) a).settle.step c := by
    rw [Builder.run_append, List.foldl_cons, List.foldl_nil]
    apply Builder.step_settle
    rintro hm rfl
    simp [colonFollows, hat] at hcolon
    exact hcolon hm
  rw [readOn?_char (cursor?_eq ht hsplit) hat (cursor?_eq ht hsplit')]
  generalize (Builder.run (size t) a).settle = b at hfollows hoffset hmode hrun ⊢
  by_cases hbracket : (b.mode = .bracket || c = '[') = true
  · -- The character goes into the word.
    rw [if_pos hbracket, hrun, Builder.step_bracket hmode hbracket]
    have hpushed : ({ b.push c with mode := if c = ']' then .plain else .bracket } : Builder).mode
        ≠ .colon := by
      dsimp only
      split <;> exact Mode.noConfusion
    exact .inl ⟨by rw [Builder.settle_of_mode hpushed], fun h => absurd h hpushed⟩
  rw [if_neg hbracket]
  obtain ⟨hm, hopen⟩ : b.mode = .plain ∧ c ≠ '[' := by
    cases hb : b.mode <;> simp_all
  have hstep : b.step c = b.read c := by rw [Builder.step, hm]
  by_cases hends : (c = ':' && !b.word.isEmpty) = true
  · obtain ⟨rfl, hword⟩ : c = ':' ∧ b.word ≠ [] := by simpa using hends
    have hone : Builder.run (size t) (a ++ [':']) = { b.push ':' with mode := .colon } := by
      rw [hrun, Builder.step_colon hm hword]
    rw [if_pos hends]
    by_cases htwo : colonFollows stop (size (a ++ [':'])) rest = true
    · -- The variant has two colons, and the second one is taken with the first.
      obtain ⟨hat', rest', rfl⟩ : ¬ atStop stop (size (a ++ [':'])) = true ∧
          ∃ rest', rest = ':' :: rest' := by
        cases rest <;> simp_all [colonFollows]
      have hsplit₂ : t = a ++ [':'] ++ [':'] ++ rest' := by simpa using hsplit
      obtain ⟨hends₂, hmode₂⟩ := endVariant?_two hoffset hone (size_lt_of_split ht hsplit₂)
      refine .inr ⟨rest', rfl, hat', ?_, hmode₂⟩
      rw [if_pos htwo, List.tail_cons, cursor?_eq ht hsplit₂, Option.bind_some, hends₂]
      rfl
    · -- The variant has one colon.
      rw [if_neg htwo, endVariant?_one hoffset hone hsize]
      exact .inl ⟨rfl, fun _ => by simpa using htwo⟩
  · have hcolon' : c = ':' → b.word = [] := by simpa using hends
    rw [if_neg hends, read?_eq hfollows hread hm hsize hcolon' hopen, hrun, hstep]
    have hafter := Builder.read_mode hcolon'
    exact .inl ⟨by rw [Builder.settle_of_mode hafter]; rfl, fun h => absurd h hafter⟩

/-- Reading on from any place ends where the fold over the text that is read ends. -/
theorem readOn?_eq (ht : size t < limit) (hstop : ∀ p ∈ stop, isBoundary p t = true)
    {a rest : Text} (hsplit : t = a ++ rest) (hbehind : ∀ p ∈ stop, size a ≤ p)
    (hcolon : (Builder.run (size t) a).mode = .colon →
      colonFollows stop (size a) rest = false) :
    readOn? (size t) stop false (Builder.run (size t) a).settle rest =
      some (Builder.atEnd stop t) := by
  -- The stop is a boundary, so no character that is taken reaches behind it.
  have hnext : ∀ {a rest : Text} {c : Char}, t = a ++ c :: rest →
      ¬ atStop stop (size a) = true → ∀ p ∈ stop, size (a ++ [c]) ≤ p := by
    intro a rest c hsplit hat p hp
    have hboundary := hstop p hp
    rw [hsplit] at hboundary
    exact next_boundary hboundary (atStop_eq_false hat p hp)
  induction hlen : rest.length using Nat.strong_induction_on generalizing a rest with
  | _ k ih =>
    cases rest with
    | nil =>
      obtain rfl : t = a := by simpa using hsplit
      exact readOn?_nil ht hstop hbehind
    | cons c rest =>
      rw [List.length_cons] at hlen
      have hone : t = a ++ [c] ++ rest := by simpa using hsplit
      by_cases hat : atStop stop (size a) = true
      · rw [readOn?, cursor?_eq ht hsplit]
        show (if _ then _ else _) = _
        rw [if_pos hat]
        subst hsplit
        exact endText?_at_stop ht hbehind hat
      · rcases readOn?_cons ht hsplit hat hcolon with ⟨heq, hm⟩ | ⟨rest', rfl, hat', heq, hm⟩
        · rw [heq]
          exact ih rest.length (by omega) hone (hnext hsplit hat) hm rfl
        · rw [List.length_cons] at hlen
          have htwo : t = a ++ [c] ++ [':'] ++ rest' := by simpa using hsplit
          rw [heq]
          exact ih rest'.length (by omega) htwo (hnext hone hat') (fun h => absurd h hm) rfl

/-! ## The stop and the tree -/

theorem roundDown?_eq (t : Text) (n : Nat) : roundDown? t n = some (size (t.upTo n)) := by
  induction n with
  | zero =>
    have hzero : size (t.upTo 0) = 0 := Nat.le_zero.mp (size_upTo_le 0 t)
    rw [roundDown?, if_pos (by simp [isBoundary, hzero]), hzero]
  | succ n ih =>
    rw [roundDown?]
    by_cases hb : isBoundary (n + 1) t = true
    · rw [if_pos hb]
      exact congrArg some (beq_iff_eq.mp hb).symm
    · have hne : size (t.upTo (n + 1)) ≠ n + 1 := by simpa [isBoundary] using hb
      have hle := size_upTo_le (n + 1) t
      rw [if_neg hb, ih, upTo_of_le (m := n) (n := n + 1) (by omega) (Nat.le_succ n)]

/-- The offset in front of which a reading stops. -/
theorem stop?_eq (ht : size t < limit) (stop : Option Nat) :
    stop? t stop = some (stop.map fun n => size (t.upTo n)) := by
  cases stop with
  | none => rfl
  | some n =>
    have hle := boundary_le_size (isBoundary_upTo n t)
    have hmin : t.upTo (min n (size t)) = t.upTo n :=
      upTo_of_le (le_min (size_upTo_le n t) hle) (min_le_left _ _)
    show (roundDown? t (min n (size t))).bind _ = _
    rw [roundDown?_eq, hmin, Option.bind_some, offset?_eq (by omega)]
    rfl

theorem atEnd_stop (stop : Option Nat) (t : Text) :
    Builder.atEnd (stop.map fun n => size (t.upTo n)) t = Builder.atEnd stop t := by
  cases stop with
  | none => rfl
  | some n =>
    have hup : t.upTo (size (t.upTo n)) = t.upTo n := upTo_of_le (Nat.le_refl _) (size_upTo_le n t)
    simp [Builder.atEnd, hup]

theorem scope_start_le_size (stop : Option Nat) (t : Text) {g : Item}
    (hg : g ∈ (Scan.atEnd stop t).scopes) : g.start ≤ size t := by
  cases stop with
  | none =>
    rw [Scan.atEnd, Scan.endIdentifier_scopes] at hg
    exact (Scan.hasRead_settle (Scan.hasRead_run t)).scope_start_le hg
  | some n =>
    have hread := Scan.hasRead_settle (Scan.hasRead_run (t.upTo n))
    exact (hread.scope_start_le hg).trans (boundary_le_size (isBoundary_upTo n t))

/-- Every group that is still open starts in front of the end of the text. -/
theorem finish?_eq (stop : Option Nat) (t : Text) :
    finish? (Builder.atEnd stop t) = some (Arena.ofTextTo stop t) := by
  have hf := Builder.Follows.atEnd stop t
  obtain ⟨before, behind, hcell⟩ := hf.stores.cell_of_mem List.mem_cons_self
  have hroot : (Builder.atEnd stop t).arena.cell? 0 =
      some (Node.cell ⟨.root, size t⟩ before behind) := hcell
  unfold finish? Arena.ofTextTo Builder.finish
  rw [hroot]
  apply stretch?_all
  intro id hid
  have hscope : id ∈ (Scan.atEnd stop t).scopes.map Item.id := by
    rw [← hf.ancestors_eq]
    exact (List.mem_filter.mp hid).1
  exact cell_start_le hf (fun g hg => scope_start_le_size stop t hg) id hscope

/-- Reading with a cursor and a stop stores the text in front of the stop. -/
theorem arena?_eq (ht : size t < limit) (stop : Option Nat) :
    arena? stop t = some (Arena.ofTextTo stop t) := by
  have hboundary : ∀ p ∈ stop.map fun n => size (t.upTo n), isBoundary p t = true := by
    intro p hp
    obtain ⟨n, -, rfl⟩ := Option.mem_map.mp hp
    exact isBoundary_upTo n t
  have hread := readOn?_eq ht hboundary (a := []) (List.nil_append t).symm
    (fun p _ => Nat.zero_le p) (fun h => by cases h)
  rw [atEnd_stop] at hread
  unfold arena?
  rw [stop?_eq ht, size?_eq ht]
  show (readOn? (size t) _ false (.init (size t)) t).bind _ = _
  rw [show readOn? (size t) _ false (.init (size t)) t = _ from hread, Option.bind_some,
    finish?_eq]

/-- Reading with a cursor and a stop gives the tree of the text in front of the stop. -/
theorem tree?_eq (ht : size t < limit) (stop : Option Nat) :
    tree? stop t = some (Tree.ofTextTo stop t) := by
  unfold tree?
  rw [arena?_eq ht]
  exact Arena.tree?_ofTextTo stop t

end Checked

/-! ## The word in front of the stop -/

/-- The last node is a name that stops at an offset. It is closed if that is the end of
the text. -/
structure Tree.EndsAt (tree : Tree) (t : Text) (p : Nat) : Prop where
  stop : tree.last.span.stop = p
  name : ∃ w, tree.last.item.identifier? = some w ∧ slice tree.last.span t = w.raw ∧
    (w.closed = true ↔ p = size t)

theorem Item.raw_of_name {i : Item} {w : Identifier} (h : i.identifier? = some w) :
    i.raw = w.raw := by
  unfold identifier? at h
  split at h
  · rename_i hk
    cases h
    rw [raw, hk]
  · cases h

theorem Tree.last_ofTextUpTo (n : Nat) (t : Text) : (ofTextUpTo n t).last =
    ((Scan.run (t.upTo n)).settle.nameHere (t.upTo n = t)).wordNode := by
  simp [ofTextUpTo, last, Scan.tree, Scan.nameHere, Placed.wordNode, Scan.stopOf, Scan.item,
    Scan.place]

theorem Text.upTo_eq_self_iff {n : Nat} {t : Text} : t.upTo n = t ↔ size (t.upTo n) = size t := by
  refine ⟨congrArg size, fun h => ?_⟩
  have hsplit : t.upTo n ++ t.after n = t ++ [] := by rw [upTo_append_after, List.append_nil]
  exact (append_inj_of_size hsplit h).1

theorem Tree.endsAt_ofTextUpTo (n : Nat) (t : Text) :
    (ofTextUpTo n t).EndsAt t (size (t.upTo n)) := by
  have hread := Scan.hasRead_settle (Scan.hasRead_run (t.upTo n))
  obtain ⟨before, hsplit, hl⟩ := hread.split
  have hstart : (Scan.run (t.upTo n)).settle.start = size before := hl.start_eq
  have hslice := slice_append before (Scan.run (t.upTo n)).settle.word (t.after n)
  rw [← hsplit, upTo_append_after, ← hstart] at hslice
  constructor
  case stop =>
    rw [last_ofTextUpTo]
    exact hread.offset_eq
  case name =>
    rw [last_ofTextUpTo]
    exact ⟨_, rfl, hslice, decide_eq_true_iff.trans upTo_eq_self_iff⟩

theorem Text.ruleTyped_eq_last (n : Nat) (t : Text) :
    t.ruleTyped n = .ofNode (Tree.ofTextUpTo n t).last := by
  obtain ⟨w, hname, -⟩ := (Tree.endsAt_ofTextUpTo n t).name
  unfold ruleTyped
  exact if_pos (by rw [hname]; rfl)

/-- A reading stops at the last boundary that is in the text and not behind the given
offset. Its last node is the word in front of that place, so the rule being typed needs
no placeholder. -/
theorem the_last_node_ends_at_the_stop (t : Text) (n : Nat) :
    IsGreatest {m | m ≤ min n (size t) ∧ isBoundary m t = true} (size (t.upTo n)) ∧
      (Tree.ofTextUpTo n t).EndsAt t (size (t.upTo n)) ∧
      t.ruleTyped n = .ofNode (Tree.ofTextUpTo n t).last ∧
      (t.ruleTyped n).loc.stop = size (t.upTo n) ∧
      slice (t.ruleTyped n).loc t = (t.ruleTyped n).raw ∧
      (size t < Checked.limit → Checked.tree? (some n) t = some (Tree.ofTextUpTo n t)) := by
  have hends := Tree.endsAt_ofTextUpTo n t
  obtain ⟨w, hname, hslice, -⟩ := hends.name
  have htyped := ruleTyped_eq_last n t
  have hloc : (t.ruleTyped n).loc = (Tree.ofTextUpTo n t).last.span := by
    rw [htyped, Tree.last_ofTextUpTo]
    rfl
  have hraw : (t.ruleTyped n).raw = w.raw := by
    rw [htyped]
    exact Item.raw_of_name hname
  have hgreatest : IsGreatest {m | m ≤ min n (size t) ∧ isBoundary m t = true}
      (size (t.upTo n)) := by
    refine ⟨⟨le_min (size_upTo_le n t) (boundary_le_size (isBoundary_upTo n t)),
      isBoundary_upTo n t⟩, ?_⟩
    rintro m ⟨hm, hb⟩
    refine (size_readTo_max (some n) t).2 m hb ?_
    intro k hk
    obtain rfl : n = k := Option.mem_some.mp hk
    exact hm.trans (min_le_left _ _)
  exact ⟨hgreatest, hends, htyped, by rw [hloc, hends.stop], by rw [hloc, hslice, hraw],
    fun ht => Checked.tree?_eq ht (some n)⟩

/-- Between the two colons of `sm::x` the reading stops with an empty name behind the
variant `sm:`. -/
theorem the_last_node_ends_at_the_stop_between_colons :
    size "sm::x".toList < Checked.limit ∧
      (Tree.ofTextUpTo 3 "sm::x".toList).last.span = ⟨3, 3⟩ ∧
      (Tree.ofTextUpTo 3 "sm::x".toList).EndsAt "sm::x".toList 3 ∧
      Checked.tree? (some 3) "sm::x".toList = some (Tree.ofTextUpTo 3 "sm::x".toList) := by
  have hsize : size "sm::x".toList < Checked.limit := by decide
  obtain ⟨-, hends, -, -, -, htree⟩ := the_last_node_ends_at_the_stop "sm::x".toList 3
  exact ⟨hsize, by decide, hends, htree hsize⟩

end ClassList
