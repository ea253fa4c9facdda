-- Square brackets. A run of brackets opens at a `[` outside any run and ends
-- at the next `]`, or at the end of the text. Only the characters outside all
-- runs can be delimiters.
import Mathlib
import ClassList.Tree.Scan
import ClassList.Proofs.Offsets

namespace ClassList

/-! ## Runs -/

namespace Text

/-- Is a run open behind the text, if one is open in front of it or not? -/
def runAfter : Bool → Text → Bool
  | inside, [] => inside
  | inside, c :: t => if inside || c == '[' then runAfter (c != ']') t else runAfter false t

/-- A run is still open behind the text. -/
def inRun (t : Text) : Bool := runAfter false t

/-- The characters outside all runs, if a run is open in front of the text or not. -/
def outside : Bool → Text → Text
  | _, [] => []
  | inside, c :: t =>
    if inside || c == '[' then outside (c != ']') t else c :: outside false t

/-- The character `c` behind the text `a` stands outside all runs. -/
def structural (a : Text) (c : Char) : Bool := !(inRun a || c == '[')

theorem runAfter_append (inside : Bool) (a b : Text) :
    runAfter inside (a ++ b) = runAfter (runAfter inside a) b := by
  induction a generalizing inside with
  | nil => rfl
  | cons c a ih =>
    simp only [List.cons_append, runAfter]
    split <;> exact ih _

theorem inRun_append (a b : Text) : inRun (a ++ b) = runAfter (inRun a) b :=
  runAfter_append false a b

theorem outside_append (inside : Bool) (a b : Text) :
    outside inside (a ++ b) = outside inside a ++ outside (runAfter inside a) b := by
  induction a generalizing inside with
  | nil => rfl
  | cons c a ih =>
    simp only [List.cons_append, outside, runAfter]
    split
    · exact ih _
    · rw [ih, List.cons_append]

/-- The characters outside all runs, one by one. -/
theorem mem_outside {inside : Bool} {c : Char} {t : Text} :
    c ∈ outside inside t ↔
      ∃ a b, t = a ++ c :: b ∧ (runAfter inside a || c == '[') = false := by
  induction t using List.reverseRecOn with
  | nil => simp [outside]
  | append_singleton t d ih =>
    rw [outside_append, List.mem_append, ih]
    constructor
    · rintro (⟨a, b, rfl, h⟩ | h)
      · exact ⟨a, b ++ [d], by simp, h⟩
      · by_cases hd : runAfter inside t || d == '['
        · simp [outside, hd] at h
        · obtain rfl : c = d := by simpa [outside, hd] using h
          exact ⟨t, [], rfl, by simpa using hd⟩
    · rintro ⟨a, b, hab, h⟩
      rcases List.eq_nil_or_concat b with rfl | ⟨b, e, rfl⟩
      · obtain ⟨rfl, he⟩ := List.append_inj' hab rfl
        obtain rfl : d = c := by simpa using he
        exact Or.inr (by simp [outside, h])
      · left
        have hcat : t ++ [d] = (a ++ c :: b) ++ [e] := by simpa using hab
        exact ⟨a, b, (List.append_inj' hcat rfl).1, h⟩

/-! ## Delimiters and words -/

/-- The characters that end a word. -/
def delimiters : List Char := ['(', ')', ':', ' ', '\t', '\n', '\r']

/-- White space. -/
def blanks : List Char := [' ', '\t', '\n', '\r']

/-- The text holds no delimiter outside its runs, so it is one word or less. -/
def Solid (t : Text) : Prop := ∀ c ∈ outside false t, c ∉ delimiters

end Text

namespace Delimiter

theorem ofChar?_eq_none {c : Char} : ofChar? c = none ↔ c ∉ Text.delimiters := by
  unfold ofChar?
  split <;> simp_all [Text.delimiters]

theorem ofChar?_eq_colon {c : Char} : ofChar? c = some .colon ↔ c = ':' := by
  unfold ofChar?
  split <;> simp_all

theorem ofChar?_eq_opening {c : Char} : ofChar? c = some .opening ↔ c = '(' := by
  unfold ofChar?
  split <;> simp_all

theorem ofChar?_eq_closing {c : Char} : ofChar? c = some .closing ↔ c = ')' := by
  unfold ofChar?
  split <;> simp_all

theorem ofChar?_eq_blank {c : Char} : ofChar? c = some .blank ↔ c ∈ Text.blanks := by
  unfold ofChar?
  split <;> simp_all [Text.blanks]

end Delimiter

namespace Text

theorem blanks_subset {c : Char} (h : c ∈ blanks) : c ∈ delimiters := by
  simp only [blanks, delimiters, List.mem_cons] at *
  tauto

theorem blank_ne_paren {c : Char} (h : c ∈ blanks) : c ≠ '(' ∧ c ≠ ')' := by
  constructor
  · rintro rfl
    revert h
    decide
  · rintro rfl
    revert h
    decide

theorem colon_ne_paren {c : Char} (h : c ∉ delimiters ∨ c = ':') : c ≠ '(' ∧ c ≠ ')' := by
  rcases h with h | rfl
  · constructor
    · rintro rfl
      exact h (by decide)
    · rintro rfl
      exact h (by decide)
  · decide

@[simp] theorem solid_nil : Solid [] := by simp [Solid, outside]

/-- A word followed by a word is a word, unless the first leaves a run open. -/
theorem solid_append {a b : Text} (ha : Solid a) (hr : inRun a = false) (hb : Solid b) :
    Solid (a ++ b) := by
  intro c hc
  rw [outside_append, show runAfter false a = false from hr, List.mem_append] at hc
  exact hc.elim (ha c) (hb c)

theorem Solid.left {a b : Text} (h : Solid (a ++ b)) : Solid a := by
  intro c hc
  exact h c (by rw [outside_append]; exact List.mem_append_left _ hc)

theorem Solid.right {a b : Text} (h : Solid (a ++ b)) (hr : inRun a = false) : Solid b := by
  intro c hc
  apply h c
  rw [outside_append, show runAfter false a = false from hr]
  exact List.mem_append_right _ hc

/-- A word may take any character inside a run, and outside of it any that is
no delimiter. -/
theorem solid_push {w : Text} {c : Char} (hw : Solid w) (hc : inRun w = true ∨ c ∉ delimiters) :
    Solid (w ++ [c]) := by
  intro d hd
  rw [outside_append, List.mem_append] at hd
  rcases hd with hd | hd
  · exact hw d hd
  · by_cases hr : runAfter false w || c == '['
    · simp [outside, hr] at hd
    · obtain rfl : d = c := by simpa [outside, hr] using hd
      rcases hc with hc | hc
      · simp [show runAfter false w = true from hc] at hr
      · exact hc

/-- The first character of a word is no delimiter. -/
theorem Solid.head {c : Char} {w : Text} (h : Solid (c :: w)) : c ∉ delimiters := by
  by_cases hc : c = '['
  · subst hc
    decide
  · exact h c (by simp [outside, hc])

theorem inRun_push (w : Text) (c : Char) :
    inRun (w ++ [c]) = ((inRun w || c == '[') && c != ']') := by
  rw [inRun_append]
  simp only [runAfter]
  split
  · simp_all
  · simp_all

/-- A delimiter outside all runs opens no run. -/
theorem inRun_delimiter {a : Text} {c : Char} (ha : inRun a = false) (hc : c ∈ delimiters) :
    inRun (a ++ [c]) = false := by
  rw [inRun_push, ha]
  have : c ≠ '[' := by rintro rfl; revert hc; decide
  simp [this]

end Text

end ClassList
