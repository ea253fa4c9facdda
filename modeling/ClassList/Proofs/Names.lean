-- The laws of names. The full name of a rule is joined from many names and
-- gets its marks back in front, and read as one identifier it gives the same
-- name and the same marks again.
import Mathlib
import ClassList.Rule.Basic
import ClassList.Proofs.Brackets

namespace ClassList

open Text

/-! ## The marks of an identifier -/

namespace Identifier

/-- An identifier has a `!` in front of its unmarked name, or one behind it, or
none at either end. -/
theorem raw_cases (i : Identifier) :
    (i.important = true ∧ i.raw = '!' :: i.unmarked) ∨
    (i.important = true ∧ i.raw = i.unmarked ++ ['!']) ∨
    (i.important = false ∧ i.raw = i.unmarked ∧ i.raw.head? ≠ some '!' ∧
      i.raw.getLast? ≠ some '!') := by
  unfold important unmarked
  by_cases hhead : i.raw.head? = some '!'
  · obtain ⟨rest, hrest⟩ := List.head?_eq_some_iff.mp hhead
    simp [hrest]
  · by_cases hlast : i.raw.getLast? = some '!'
    · obtain ⟨rest, hrest⟩ := List.getLast?_eq_some_iff.mp hlast
      have hdrop : i.raw = i.raw.dropLast ++ ['!'] := by rw [hrest, List.dropLast_concat]
      simp only [hhead, hlast, beq_iff_eq, if_true, if_false]
      exact Or.inr (Or.inl ⟨by simp, hdrop⟩)
    · simp [hhead, hlast]

/-- A negated identifier has a `-` in front of its name. -/
theorem unmarked_cases (i : Identifier) :
    (i.negated = true ∧ i.unmarked = '-' :: i.name) ∨
    (i.negated = false ∧ i.unmarked = i.name ∧ i.name.head? ≠ some '-') := by
  unfold name negated
  by_cases hhead : i.unmarked.head? = some '-'
  · obtain ⟨rest, hrest⟩ := List.head?_eq_some_iff.mp hhead
    simp [hrest]
  · simp [hhead]

theorem solid_cons {c : Char} {w : Text} (hc : c ≠ '[') (h : Solid (c :: w)) : Solid w := by
  apply h.right (a := [c])
  simp [inRun, runAfter, hc]

theorem inRun_cons {c : Char} {w : Text} (hc : c ≠ '[') : inRun (c :: w) = inRun w := by
  simp [inRun, runAfter, hc]

variable {i : Identifier}

theorem unmarked_solid (h : Solid i.raw) : Solid i.unmarked := by
  rcases i.raw_cases with ⟨-, hr⟩ | ⟨-, hr⟩ | ⟨-, hr, -⟩
  · exact solid_cons (by decide) (hr ▸ h)
  · rw [hr] at h
    exact h.left
  · exact hr ▸ h

theorem name_solid (h : Solid i.raw) : Solid i.name := by
  have hu := unmarked_solid h
  rcases i.unmarked_cases with ⟨-, hr⟩ | ⟨-, hr, -⟩
  · exact solid_cons (by decide) (hr ▸ hu)
  · exact hr ▸ hu

theorem unmarked_inRun (i : Identifier) : inRun i.unmarked = inRun i.raw := by
  rcases i.raw_cases with ⟨-, hr⟩ | ⟨-, hr⟩ | ⟨-, hr, -⟩
  · rw [hr, inRun_cons (by decide)]
  · rw [hr, inRun_push]
    simp
  · rw [hr]

theorem name_inRun (i : Identifier) : inRun i.name = inRun i.raw := by
  rw [← unmarked_inRun]
  rcases i.unmarked_cases with ⟨-, hr⟩ | ⟨-, hr, -⟩
  · rw [hr, inRun_cons (by decide)]
  · rw [hr]

/-- The name of an identifier that is not marked important ends in no `!`. -/
theorem name_getLast (h : i.important = false) : i.name.getLast? ≠ some '!' := by
  rcases i.raw_cases with ⟨hi, -⟩ | ⟨hi, -⟩ | ⟨-, hr, -, hlast⟩
  · simp [hi] at h
  · simp [hi] at h
  · rcases i.unmarked_cases with ⟨-, hu⟩ | ⟨-, hu, -⟩
    · rw [hr, hu] at hlast
      intro hname
      exact hlast (by simp [List.getLast?_cons, hname])
    · rwa [hr, hu] at hlast

/-- Without any mark, the name starts with no `!`. -/
theorem name_head (hi : i.important = false) (hn : i.negated = false) :
    i.name.head? ≠ some '!' := by
  rcases i.raw_cases with ⟨hi', -⟩ | ⟨hi', -⟩ | ⟨-, hr, hhead, -⟩
  · simp [hi'] at hi
  · simp [hi'] at hi
  · rcases i.unmarked_cases with ⟨hn', -⟩ | ⟨-, hu, -⟩
    · simp [hn'] at hn
    · rwa [hr, hu] at hhead

theorem name_head_minus (hn : i.negated = false) : i.name.head? ≠ some '-' := by
  rcases i.unmarked_cases with ⟨hn', -⟩ | ⟨-, -, hhead⟩
  · simp [hn'] at hn
  · exact hhead

end Identifier

/-! ## Marks put back -/

namespace Rule

/-- A name with its marks in front, as a rule shows it. -/
def marked (important negated : Bool) (bare : Text) : Text :=
  (if important then ['!'] else []) ++ signed negated bare

/-- The bare name takes no mark for its own. -/
structure Unmarked (important negated : Bool) (bare : Text) : Prop where
  last : important = false → bare.getLast? ≠ some '!'
  head : important = false → negated = false → bare.head? ≠ some '!'
  minus : negated = false → bare.head? ≠ some '-'

/-- A marked name reads as the same name with the same marks. -/
theorem read_marked {important negated : Bool} {bare : Text} (h : Unmarked important negated bare)
    (closed : Bool) :
    (⟨marked important negated bare, closed⟩ : Identifier).important = important ∧
    (⟨marked important negated bare, closed⟩ : Identifier).negated = negated ∧
    (⟨marked important negated bare, closed⟩ : Identifier).name = bare := by
  have himp : (⟨marked important negated bare, closed⟩ : Identifier).important = important ∧
      (⟨marked important negated bare, closed⟩ : Identifier).unmarked = signed negated bare := by
    cases important with
    | true => simp [Identifier.important, Identifier.unmarked, marked]
    | false =>
      have hhead : (signed negated bare).head? ≠ some '!' := by
        cases negated with
        | true => simp [signed]
        | false => simpa [signed] using h.head rfl rfl
      have hlast : (signed negated bare).getLast? ≠ some '!' := by
        cases negated with
        | true =>
          have hlast := h.last rfl
          cases hb : bare.getLast? <;> simp_all [signed, List.getLast?_cons]
        | false => simpa [signed] using h.last rfl
      simp [Identifier.important, Identifier.unmarked, marked, hhead, hlast]
  refine ⟨himp.1, ?_⟩
  unfold Identifier.name Identifier.negated
  rw [himp.2]
  cases negated with
  | true => simp [signed]
  | false =>
    have hminus := h.minus rfl
    simp [signed, hminus]

/-! ## Joined names -/

theorem intercalate_cons_cons (a b : Text) (l : List Text) :
    ['-'].intercalate (a :: b :: l) = a ++ '-' :: ['-'].intercalate (b :: l) := by
  simp [List.intercalate]

theorem intercalate_ne_nil {a : Text} (l : List Text) (h : a ≠ []) :
    ['-'].intercalate (a :: l) ≠ [] := by
  cases l with
  | nil => simpa [List.intercalate] using h
  | cons b l =>
    rw [intercalate_cons_cons]
    simp

theorem head_intercalate {l : List Text} {c : Char} (hne : ∀ n ∈ l, n ≠ [])
    (h : (['-'].intercalate l).head? = some c) : ∃ n ∈ l, n.head? = some c := by
  rcases l with _ | ⟨a, _ | ⟨b, l⟩⟩
  · simp [List.intercalate] at h
  · exact ⟨a, by simp, by simpa [List.intercalate] using h⟩
  · rw [intercalate_cons_cons] at h
    obtain ⟨d, rest, hd⟩ := List.exists_cons_of_ne_nil (hne a (by simp))
    exact ⟨a, by simp, by simpa [hd] using h⟩

theorem getLast_intercalate {l : List Text} {c : Char} (hne : ∀ n ∈ l, n ≠ [])
    (h : (['-'].intercalate l).getLast? = some c) : ∃ n ∈ l, n.getLast? = some c := by
  induction l with
  | nil => simp [List.intercalate] at h
  | cons a l ih =>
    cases l with
    | nil => exact ⟨a, by simp, by simpa [List.intercalate] using h⟩
    | cons b l =>
      have hrest := intercalate_ne_nil l (hne b (by simp))
      obtain ⟨d, rest, hd⟩ := List.exists_cons_of_ne_nil hrest
      rw [intercalate_cons_cons, hd] at h
      obtain ⟨n, hn, hc⟩ := ih (fun n hn => hne n (by simp [hn])) (by
        rw [hd]
        simpa [List.getLast?_append, List.getLast?_cons_cons] using h)
      exact ⟨n, List.mem_cons_of_mem _ hn, hc⟩

theorem solid_intercalate {l : List Text} (hs : ∀ n ∈ l, Solid n)
    (hr : ∀ n ∈ l.dropLast, inRun n = false) : Solid (['-'].intercalate l) := by
  induction l with
  | nil => simp [List.intercalate]
  | cons a l ih =>
    cases l with
    | nil => simpa [List.intercalate] using hs
    | cons b l =>
      rw [intercalate_cons_cons]
      have hrest : Solid (['-'].intercalate (b :: l)) :=
        ih (fun n hn => hs n (by simp [hn])) (fun n hn => hr n (by simp [hn]))
      have hminus : Solid ['-'] := by
        simp [Solid, outside, delimiters]
      have hcons : Solid ('-' :: ['-'].intercalate (b :: l)) := solid_append hminus rfl hrest
      exact solid_append (hs a (by simp)) (hr a (by simp)) hcons

/-- The names that count are neither empty nor `&`. -/
theorem mem_counted {names : List Text} {n : Text}
    (h : n ∈ names.filter fun n => n ≠ ['&'] ∧ n ≠ []) : n ∈ names ∧ n ≠ ['&'] ∧ n ≠ [] := by
  simpa using List.mem_filter.mp h

theorem head_joinNames {names : List Text} {c : Char} (h : (joinNames names).head? = some c) :
    ∃ n ∈ names, n.head? = some c := by
  obtain ⟨n, hn, hc⟩ := head_intercalate (fun n hn => (mem_counted hn).2.2) h
  exact ⟨n, (mem_counted hn).1, hc⟩

theorem getLast_joinNames {names : List Text} {c : Char}
    (h : (joinNames names).getLast? = some c) : ∃ n ∈ names, n.getLast? = some c := by
  obtain ⟨n, hn, hc⟩ := getLast_intercalate (fun n hn => (mem_counted hn).2.2) h
  exact ⟨n, (mem_counted hn).1, hc⟩

/-- Only the last name may leave a run of brackets open. -/
theorem solid_joinNames {names : List Text} {last : Text} (hs : ∀ n ∈ names, Solid n)
    (hr : ∀ n ∈ names, inRun n = false) (hl : Solid last) :
    Solid (joinNames (names ++ [last])) := by
  apply solid_intercalate
  · intro n hn
    rcases List.mem_append.mp (mem_counted hn).1 with hn | hn
    · exact hs n hn
    · exact List.mem_singleton.mp hn ▸ hl
  · intro n hn
    apply hr
    rw [List.filter_append] at hn
    by_cases hc : last ≠ ['&'] ∧ last ≠ []
    · rw [List.filter_cons_of_pos (by simp [hc]), List.filter_nil, List.dropLast_concat] at hn
      exact (mem_counted hn).1
    · rw [List.filter_cons_of_neg (by simpa using hc), List.filter_nil, List.append_nil] at hn
      exact (mem_counted (List.mem_of_mem_dropLast hn)).1

/-- A joined name, taken as one name, is itself. -/
theorem joinNames_joinNames (names : List Text) :
    joinNames [joinNames names] = joinNames names := by
  have hamp : joinNames names ≠ ['&'] := by
    unfold joinNames
    intro h
    rcases hl : names.filter fun n => n ≠ ['&'] ∧ n ≠ [] with _ | ⟨a, _ | ⟨b, l⟩⟩
    · rw [hl] at h
      simp [List.intercalate] at h
    · have ha := mem_counted (hl ▸ List.mem_cons_self : a ∈ names.filter _)
      rw [hl] at h
      exact ha.2.1 (by simpa [List.intercalate] using h)
    · have ha := mem_counted (hl ▸ List.mem_cons_self : a ∈ names.filter _)
      rw [hl, intercalate_cons_cons] at h
      obtain ⟨d, rest, hd⟩ := List.exists_cons_of_ne_nil ha.2.2
      simp [hd] at h
  generalize joinNames names = bare at hamp
  unfold joinNames
  by_cases hnil : bare = []
  · simp [hnil, List.intercalate]
  · rw [List.filter_cons_of_pos (by simp [hamp, hnil])]
    simp [List.intercalate]

end Rule

end ClassList
