-- The index of the lines of a text gives the line and the column of every offset that
-- has one, as counting the line feeds in front of it does.
import Mathlib
import ClassList.Text.LineIndex
import ClassList.Proofs.Offsets

namespace ClassList

open Text

/-! ## The pure model -/

namespace Text

/-- The line and the column in bytes of an offset, both from zero. Only a line
feed ends a line. An offset inside a character or past the end has none. -/
def lineCol? (n : Nat) (t : Text) : Option (Nat × Nat) :=
  if isBoundary n t then some ((upTo n t).count '\n', size (lastLine (upTo n t))) else none

theorem isBoundary_cons (n : Nat) (c : Char) (t : Text) : isBoundary n (c :: t) =
    if c.utf8Size ≤ n then isBoundary (n - c.utf8Size) t else n == 0 := by
  unfold isBoundary
  rw [upTo]
  by_cases hc : c.utf8Size ≤ n
  · rw [if_pos hc, if_pos hc, size_cons, Bool.eq_iff_iff, beq_iff_eq, beq_iff_eq]
    omega
  · rw [if_neg hc, if_neg hc, size_nil, Bool.eq_iff_iff, beq_iff_eq, beq_iff_eq, eq_comm]

theorem lastLine_concat (t : Text) (c : Char) :
    lastLine (t ++ [c]) = if c = '\n' then [] else lastLine t ++ [c] := by
  unfold lastLine
  rw [List.reverse_concat, List.takeWhile_cons]
  by_cases hc : c = '\n'
  · simp [hc]
  · simp [hc]

end Text

/-! ## The index -/

namespace LineIndex

theorem startsFrom_append (n : Nat) (a b : Text) :
    startsFrom n (a ++ b) = startsFrom n a ++ startsFrom (n + a.size) b := by
  induction a generalizing n with
  | nil => simp [startsFrom]
  | cons c a ih =>
    rw [List.cons_append, startsFrom, startsFrom, size_cons, ← Nat.add_assoc, ih]
    by_cases hc : c = '\n'
    · rw [if_pos hc, if_pos hc, List.cons_append]
    · rw [if_neg hc, if_neg hc]

/-- A line starts behind the first character and not behind the text. -/
theorem mem_startsFrom {m n : Nat} {t : Text} (h : m ∈ startsFrom n t) :
    n < m ∧ m ≤ n + t.size := by
  induction t generalizing n with
  | nil => cases h
  | cons c t ih =>
    have hpos := c.utf8Size_pos
    have hrest : m ∈ startsFrom (n + c.utf8Size) t → n < m ∧ m ≤ n + Text.size (c :: t) := by
      intro hm
      have := ih hm
      rw [size_cons]
      omega
    rw [startsFrom] at h
    split at h
    · rcases List.mem_cons.mp h with rfl | hm
      · rw [size_cons]
        omega
      · exact hrest hm
    · exact hrest h

theorem length_startsFrom (n : Nat) (t : Text) : (startsFrom n t).length = t.count '\n' := by
  induction t generalizing n with
  | nil => rfl
  | cons c t ih =>
    rw [startsFrom, List.count_cons]
    by_cases hc : c = '\n'
    · rw [if_pos hc, List.length_cons, ih, if_pos (beq_iff_eq.mpr hc)]
    · rw [if_neg hc, ih, if_neg (by simpa using hc), Nat.add_zero]

/-- The last line starts behind the last line feed. -/
theorem last_startsFrom (t : Text) :
    (startsFrom 0 t).getLast?.getD 0 + t.lastLine.size = t.size := by
  induction t using List.reverseRecOn with
  | nil => rfl
  | append_singleton t c ih =>
    rw [startsFrom_append, lastLine_concat, size_append, Nat.zero_add, startsFrom, startsFrom]
    by_cases hc : c = '\n'
    · subst hc
      simp
    · rw [if_neg hc, if_neg hc, List.append_nil, size_append]
      omega

/-- In front of a boundary start the lines of the text in front of it. -/
theorem takeWhile_startsFrom (a b : Text) :
    (startsFrom 0 (a ++ b)).takeWhile (· ≤ a.size) = startsFrom 0 a := by
  have hfront : ∀ m ∈ startsFrom 0 a, decide (m ≤ a.size) = true := by
    intro m hm
    have := (mem_startsFrom hm).2
    simpa using this
  rw [startsFrom_append, List.takeWhile_append_of_pos hfront, Nat.zero_add]
  cases hb : startsFrom (a.size) b with
  | nil => simp
  | cons m rest =>
    have hlt := (mem_startsFrom (hb ▸ List.mem_cons_self)).1
    rw [List.takeWhile_cons_of_neg (by simpa using hlt), List.append_nil]

theorem start_wideFrom {n : Nat} {t : Text} {w : Span} (h : w ∈ wideFrom n t) : n ≤ w.start := by
  induction t generalizing n with
  | nil => cases h
  | cons c t ih =>
    rw [wideFrom] at h
    split at h
    · rcases List.mem_cons.mp h with rfl | hw
      · exact Nat.le_refl _
      · exact (Nat.le_add_right _ _).trans (ih hw)
    · exact (Nat.le_add_right _ _).trans (ih h)

/-- The offsets inside a wide character are those that are no boundary. -/
theorem inside_wideFrom {m n : Nat} {t : Text} (hn : n ≤ m) (hm : m ≤ n + t.size) :
    ((wideFrom n t).any fun w => w.start < m && m < w.stop) = !isBoundary (m - n) t := by
  induction t generalizing n with
  | nil =>
    obtain rfl : m = n := Nat.le_antisymm hm hn
    simp [wideFrom, isBoundary, upTo]
  | cons c t ih =>
    rw [size_cons, ← Nat.add_assoc] at hm
    rw [isBoundary_cons]
    by_cases hin : m < n + c.utf8Size
    · -- In front of the character or inside it: nothing that follows matters.
      have hrest : ((wideFrom (n + c.utf8Size) t).any fun w => w.start < m && m < w.stop) =
          false := by
        rw [List.any_eq_false]
        intro w hw
        have := start_wideFrom hw
        simp
        omega
      rw [if_neg (by omega), wideFrom]
      split
      · rw [List.any_cons, hrest, Bool.eq_iff_iff]
        simp
        omega
      · obtain rfl : m = n := by omega
        rw [hrest, Nat.sub_self]
        rfl
    · rw [if_pos (by omega), Nat.sub_sub, ← ih (by omega) hm, wideFrom]
      split
      · have hskip : (decide (n < m) && decide (m < n + c.utf8Size)) = false := by
          simp
          omega
        rw [List.any_cons, hskip, Bool.false_or]
      · rfl

theorem lineCol?_ofText (t : Text) (n : Nat) : (ofText t).lineCol? n = t.lineCol? n := by
  unfold lineCol? Text.lineCol? ofText
  dsimp only
  by_cases hb : isBoundary n t = true
  · obtain ⟨a, b, rfl, rfl⟩ := isBoundary_iff.mp hb
    have hle : a.size ≤ 0 + Text.size (a ++ b) := by
      rw [size_append]
      omega
    have hlast := last_startsFrom a
    rw [inside_wideFrom (Nat.zero_le _) hle, Nat.sub_zero, hb, if_pos rfl, if_neg (by simp; omega),
      takeWhile_startsFrom, length_startsFrom, upTo_size_append]
    rw [← hlast, Nat.add_sub_cancel_left]
  · rw [if_neg hb]
    by_cases hle : n ≤ t.size
    · rw [inside_wideFrom (Nat.zero_le n) (by omega), Nat.sub_zero, Bool.eq_false_iff.mpr hb]
      exact if_pos (by simp)
    · exact if_pos (by simp; omega)

end LineIndex

end ClassList
