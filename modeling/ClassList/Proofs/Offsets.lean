-- Offsets and parts of a text. An offset that splits the text gives back
-- exactly the two parts, and a longer text keeps all parts of a shorter one.
import Mathlib
import ClassList.Span

namespace ClassList

/-! ## Ranges -/

namespace Span

variable {s t : Span} {n : Nat}

theorem contains_iff : s.contains n = true ↔ s.start ≤ n ∧ n < s.stop := by
  unfold contains
  rw [Bool.and_eq_true, decide_eq_true_eq, decide_eq_true_eq]

theorem encloses_iff : s.encloses t = true ↔ s.start ≤ t.start ∧ t.stop ≤ s.stop := by
  unfold encloses
  rw [Bool.and_eq_true, decide_eq_true_eq, decide_eq_true_eq]

theorem encloses_refl (s : Span) : s.encloses s = true :=
  encloses_iff.mpr ⟨Nat.le_refl _, Nat.le_refl _⟩

end Span

namespace Text

/-! ## The size of a text -/

@[simp] theorem size_nil : size [] = 0 := rfl

@[simp] theorem size_cons (c : Char) (t : Text) : size (c :: t) = c.utf8Size + size t := rfl

@[simp] theorem size_singleton (c : Char) : size [c] = c.utf8Size := by simp

theorem size_eq_zero {t : Text} (h : size t = 0) : t = [] := by
  cases t with
  | nil => rfl
  | cons c t =>
    have := c.utf8Size_pos
    simp only [size_cons] at h
    omega

theorem size_pos {t : Text} (h : t ≠ []) : 0 < size t := by
  rcases Nat.eq_zero_or_pos (size t) with h0 | h0
  · exact absurd (size_eq_zero h0) h
  · exact h0

/-- Two ways to split a text at one offset are the same way. -/
theorem append_inj_of_size {a b c d : Text} (h : a ++ b = c ++ d) (hs : size a = size c) :
    a = c ∧ b = d := by
  rcases List.append_eq_append_iff.mp h with ⟨x, hx, hy⟩ | ⟨x, hx, hy⟩
  all_goals
    subst hx hy
    rw [size_append] at hs
    have hx : x = [] := size_eq_zero (by omega)
    simp [hx]

/-- Of two first parts of a text, the smaller one is a first part of the other. -/
theorem append_split_of_size_le {a b c d : Text} (h : a ++ b = c ++ d) (hs : size a ≤ size c) :
    ∃ e, c = a ++ e ∧ b = e ++ d := by
  rcases List.append_eq_append_iff.mp h with ⟨e, hc, hb⟩ | ⟨e, ha, hd⟩
  · exact ⟨e, hc, hb⟩
  · have he : e = [] := size_eq_zero (by rw [ha, size_append] at hs; omega)
    subst he
    exact ⟨[], by simp [ha], by simpa using hd.symm⟩

/-! ## The text up to an offset -/

theorem upTo_append_of_le {n : Nat} (a b : Text) (h : n ≤ size a) :
    upTo n (a ++ b) = upTo n a := by
  induction a generalizing n with
  | nil =>
    obtain rfl : n = 0 := by simpa using h
    cases b with
    | nil => rfl
    | cons c b =>
      have := c.utf8Size_pos
      simp [upTo, show ¬ c.utf8Size = 0 by omega]
  | cons c a ih =>
    simp only [size_cons] at h
    by_cases hc : c.utf8Size ≤ n
    · simp [upTo, hc, ih (show n - c.utf8Size ≤ size a by omega)]
    · simp [upTo, hc]

theorem upTo_append_of_ge {n : Nat} (a b : Text) (h : size a ≤ n) :
    upTo n (a ++ b) = a ++ upTo (n - size a) b := by
  induction a generalizing n with
  | nil => simp
  | cons c a ih =>
    simp only [size_cons] at h
    have hc : c.utf8Size ≤ n := by omega
    simp only [List.cons_append, upTo, hc, if_true, size_cons,
      ih (show size a ≤ n - c.utf8Size by omega), Nat.sub_sub]

theorem upTo_of_size_le {n : Nat} (t : Text) (h : size t ≤ n) : upTo n t = t := by
  simpa [upTo] using upTo_append_of_ge t [] h

/-- The text up to the end of a first part is that part. -/
@[simp] theorem upTo_size_append (a b : Text) : upTo (size a) (a ++ b) = a := by
  rw [upTo_append_of_le a b (Nat.le_refl _), upTo_of_size_le a (Nat.le_refl _)]

theorem after_append_of_le {n : Nat} (a b : Text) (h : n ≤ size a) :
    after n (a ++ b) = after n a ++ b := by
  have hl : (upTo n a).length ≤ a.length := by
    have := congrArg List.length (upTo_append_after n a)
    rw [List.length_append] at this
    omega
  unfold after
  rw [upTo_append_of_le a b h, List.drop_append_of_le_length hl]

@[simp] theorem after_size_append (a b : Text) : after (size a) (a ++ b) = b := by
  simp [after]

@[simp] theorem after_size (a : Text) : after (size a) a = [] := by
  simpa using after_size_append a []

/-! ## Boundaries and slices -/

/-- A boundary is an offset that splits the text. -/
theorem isBoundary_iff {n : Nat} {t : Text} :
    isBoundary n t = true ↔ ∃ a b, t = a ++ b ∧ size a = n := by
  unfold isBoundary
  rw [beq_iff_eq]
  constructor
  · intro h
    exact ⟨upTo n t, after n t, (upTo_append_after n t).symm, h⟩
  · rintro ⟨a, b, rfl, rfl⟩
    rw [upTo_size_append]

/-- The text in a range. -/
def slice (s : Span) (t : Text) : Text := after s.start (upTo s.stop t)

/-- The slice at the place of a part is that part. -/
theorem slice_append (a w b : Text) : slice ⟨size a, size a + size w⟩ (a ++ w ++ b) = w := by
  have h : upTo (size a + size w) (a ++ w ++ b) = a ++ w := by
    rw [← size_append, upTo_size_append]
  unfold slice
  rw [h, after_size_append]

end Text

end ClassList
