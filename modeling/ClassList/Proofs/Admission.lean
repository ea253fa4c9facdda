-- The laws of the names that a vocabulary knows. What may follow the value of a
-- utility is said by its interpolation: anything, a number, or a number that does
-- not vanish in binary floating point.
import Mathlib
import ClassList.Vocabulary.Basic

namespace ClassList

open Text

/-! ## Rounding up from zero -/

namespace Binary64

/-- At one half, zero is the even neighbour. -/
theorem roundDiv_pos_iff {num den : Nat} (hden : 0 < den) :
    0 < roundDiv num den ↔ den < 2 * num := by
  have hlt := Nat.mod_lt num hden
  have hsplit := Nat.div_add_mod num den
  unfold roundDiv
  dsimp only
  by_cases hq : num / den = 0
  · rw [hq] at hsplit ⊢
    simp only [Nat.mul_zero, Nat.zero_add] at hsplit
    rw [hsplit]
    split <;> omega
  · -- A quotient of one or more is rounded to one or more.
    have hpos := Nat.pos_of_ne_zero hq
    have hle : den ≤ num := (Nat.div_pos_iff.mp hpos).2
    split <;> omega

/-- A number is rounded to zero up to half a unit, and never above. -/
theorem nearest_pos_iff {num den : Nat} (hden : 0 < den) :
    0 < nearest num den ↔ den < 2 * (num * unit) := by
  obtain ⟨k, hk⟩ : ∃ k, k = Nat.log2 (num * unit / den) - 52 := ⟨_, rfl⟩
  have hstep : 0 < Nat.pow 2 k := Nat.pow_pos (by decide)
  have hnearest : 0 < nearest num den ↔ den * Nat.pow 2 k < 2 * (num * unit) := by
    unfold nearest
    dsimp only
    rw [← hk, Nat.mul_pos_iff_of_pos_right hstep, roundDiv_pos_iff (Nat.mul_pos hden hstep)]
  rw [hnearest]
  constructor
  · intro h
    exact Nat.lt_of_le_of_lt (Nat.le_mul_of_pos_right den hstep) h
  · intro h
    rcases Nat.eq_zero_or_pos k with rfl | hpos
    · simpa using h
    · -- A coarser step is taken only where the number is at least as large as the step.
      have hquot : num * unit / den ≠ 0 := by
        intro hzero
        rw [hzero] at hk
        simp at hk
        omega
      have hpow : Nat.pow 2 k ≤ num * unit / den := by
        calc Nat.pow 2 k ≤ Nat.pow 2 (Nat.log2 (num * unit / den)) :=
              Nat.pow_le_pow_right (by decide) (by omega)
          _ ≤ num * unit / den := Nat.log2_self_le hquot
      have hle : den * Nat.pow 2 k ≤ num * unit := by
        rw [Nat.mul_comm]
        exact (Nat.le_div_iff_mul_le hden).mp hpow
      have := Nat.mul_pos hden hstep
      omega

end Binary64

theorem one_div_pow_lt_div_iff {num den unit k : Nat} (hden : 0 < den)
    (hunit : unit = Nat.pow 2 k) : (1 / 2 ^ (k + 1) : ℚ) < num / den ↔ den < 2 * (num * unit) := by
  have hd : (0 : ℚ) < den := by exact_mod_cast hden
  rw [div_lt_div_iff₀ (by positivity) hd, ← Nat.cast_lt (α := ℚ), hunit, Nat.pow_eq]
  push_cast
  rw [show (num : ℚ) * 2 ^ (k + 1) = 2 * (num * 2 ^ k) by ring, one_mul]

namespace PlainNumber

/-- The exact value. -/
def value (n : PlainNumber) : ℚ := n.digits / 10 ^ n.places

/-- Half a unit is the greatest number that vanishes. -/
theorem isPositive_iff (n : PlainNumber) : n.isPositive = true ↔ 1 / 2 ^ 1075 < n.value := by
  have hden : 0 < Nat.pow 10 n.places := Nat.pow_pos (by decide)
  have hvalue : n.value = n.digits / (Nat.pow 10 n.places : Nat) := by
    simp [value]
  have hunit : Binary64.unit = Nat.pow 2 1074 := by delta Binary64.unit; rfl
  unfold isPositive
  rw [hvalue, one_div_pow_lt_div_iff hden hunit, decide_eq_true_eq,
    Binary64.nearest_pos_iff hden]

end PlainNumber

/-! ## Decimal numbers -/

namespace Text

/-- Digits with at most one point among them, and at least one digit. -/
structure WritesNumber (t : Text) : Prop where
  chars : ∀ c ∈ t, c.isDigit = true ∨ c = '.'
  points : t.count '.' ≤ 1
  digits : ∃ c ∈ t, c.isDigit = true

/-- The value of the digits behind a point. -/
def fraction : Text → ℚ
  | [] => 0
  | c :: t => (digit c + fraction t) / 10

/-- The exact value of a number in decimal. -/
def decimal (t : Text) : ℚ :=
  toNat (t.takeWhile (· ≠ '.')) + fraction (t.dropWhile (· ≠ '.')).tail

/-- Digits, and more digits behind a point if there is one. -/
structure IsDecimal (t whole rest : Text) : Prop where
  split : t = whole ∧ rest = [] ∨ t = whole ++ '.' :: rest
  digits : ∀ c ∈ whole ++ rest, c.isDigit = true
  ne_nil : whole ++ rest ≠ []

theorem ne_point_of_isDigit {c : Char} (h : c.isDigit = true) : c ≠ '.' := by
  rintro rfl
  cases h

theorem WritesNumber.isDecimal {t : Text} (h : t.WritesNumber) :
    ∃ whole rest, IsDecimal t whole rest := by
  obtain ⟨d, hd, hdigit⟩ := h.digits
  by_cases hpoint : '.' ∈ t
  · obtain ⟨whole, rest, rfl⟩ := List.append_of_mem hpoint
    have hcount := h.points
    rw [List.count_append, List.count_cons_self] at hcount
    have hwhole : '.' ∉ whole := List.count_eq_zero.mp (by omega)
    have hrest : '.' ∉ rest := List.count_eq_zero.mp (by omega)
    have hdigits : ∀ c ∈ whole ++ rest, c.isDigit = true := by
      intro c hc
      have hmem : c ∈ whole ++ '.' :: rest := by
        simp only [List.mem_append, List.mem_cons] at hc ⊢
        tauto
      refine (h.chars c hmem).resolve_right ?_
      rintro rfl
      simp [hwhole, hrest] at hc
    refine ⟨whole, rest, Or.inr rfl, hdigits, ?_⟩
    rintro hnil
    obtain ⟨rfl, rfl⟩ := List.append_eq_nil_iff.mp hnil
    exact ne_point_of_isDigit hdigit (by simpa using hd)
  · refine ⟨t, [], Or.inl ⟨rfl, rfl⟩, ?_, ?_⟩
    · intro c hc
      rw [List.append_nil] at hc
      refine (h.chars c hc).resolve_right ?_
      rintro rfl
      exact hpoint hc
    · rw [List.append_nil]
      exact List.ne_nil_of_mem hd

/-- A further row of digits moves the number in front of it to the left. -/
theorem toNat_append (whole rest : Text) :
    (toNat (whole ++ rest) : ℚ) = (toNat whole + fraction rest) * 10 ^ rest.length := by
  unfold toNat
  rw [List.foldl_append]
  generalize whole.foldl (fun n c => 10 * n + digit c) 0 = n
  induction rest generalizing n with
  | nil => simp [fraction]
  | cons c rest ih =>
    rw [List.foldl_cons, ih, fraction, List.length_cons, pow_succ]
    push_cast
    ring

namespace IsDecimal

variable {t whole rest : Text}

theorem writesNumber (h : IsDecimal t whole rest) : t.WritesNumber := by
  obtain ⟨d, hd⟩ := List.exists_mem_of_ne_nil _ h.ne_nil
  have hpoint : '.' ∉ whole ++ rest := fun hmem => ne_point_of_isDigit (h.digits _ hmem) rfl
  rw [List.mem_append, not_or] at hpoint
  have hcount : whole.count '.' = 0 ∧ rest.count '.' = 0 :=
    ⟨List.count_eq_zero.mpr hpoint.1, List.count_eq_zero.mpr hpoint.2⟩
  have hdigits := h.digits
  rcases h.split with ⟨rfl, rfl⟩ | rfl
  · rw [List.append_nil] at hd hdigits
    exact ⟨fun c hc => Or.inl (hdigits c hc), by omega, d, hd, hdigits d hd⟩
  · refine ⟨?_, by simp [hcount], d, ?_, hdigits d hd⟩
    · intro c hc
      rw [List.mem_append, List.mem_cons] at hc
      rcases hc with hc | hc | hc
      · exact Or.inl (hdigits c (List.mem_append_left _ hc))
      · exact Or.inr hc
      · exact Or.inl (hdigits c (List.mem_append_right _ hc))
    · simp only [List.mem_append, List.mem_cons] at hd ⊢
      tauto

theorem read?_eq (h : IsDecimal t whole rest) :
    PlainNumber.read? t = some ⟨toNat (whole ++ rest), rest.length⟩ := by
  have hne := h.ne_nil
  have hwhole : ∀ c ∈ whole, c.isDigit = true := fun c hc => h.digits c (List.mem_append_left _ hc)
  have hrest : ∀ c ∈ rest, c.isDigit = true := fun c hc => h.digits c (List.mem_append_right _ hc)
  unfold PlainNumber.read?
  rcases h.split with ⟨rfl, rfl⟩ | rfl
  · rw [List.append_nil] at hne
    have htake : t.takeWhile Char.isDigit = t := List.takeWhile_eq_self_iff.mpr hwhole
    have hdrop : t.dropWhile Char.isDigit = [] := List.dropWhile_eq_nil_iff.mpr hwhole
    rw [htake, hdrop]
    simp [hne]
  · have htake : (whole ++ '.' :: rest).takeWhile Char.isDigit = whole := by
      rw [List.takeWhile_append_of_pos hwhole]
      simp
    have hdrop : (whole ++ '.' :: rest).dropWhile Char.isDigit = '.' :: rest := by
      rw [List.dropWhile_append_of_pos hwhole]
      rfl
    rw [htake, hdrop]
    have hall : rest.all Char.isDigit = true := List.all_eq_true.mpr hrest
    simp only [hall, List.isEmpty_eq_false_iff.mpr hne]
    rfl

theorem decimal_eq (h : IsDecimal t whole rest) :
    t.decimal = (⟨toNat (whole ++ rest), rest.length⟩ : PlainNumber).value := by
  have hwhole : ∀ c ∈ whole, decide (c ≠ '.') = true := fun c hc =>
    decide_eq_true (ne_point_of_isDigit (h.digits c (List.mem_append_left _ hc)))
  have hsplit : t.takeWhile (· ≠ '.') = whole ∧ (t.dropWhile (· ≠ '.')).tail = rest := by
    rcases h.split with ⟨rfl, rfl⟩ | rfl
    · rw [List.takeWhile_eq_self_iff.mpr hwhole, List.dropWhile_eq_nil_iff.mpr hwhole]
      exact ⟨rfl, rfl⟩
    · rw [List.takeWhile_append_of_pos hwhole, List.dropWhile_append_of_pos hwhole]
      simp
  have hpow : (10 : ℚ) ^ rest.length ≠ 0 := by positivity
  unfold decimal PlainNumber.value
  dsimp only
  rw [hsplit.1, hsplit.2, toNat_append, mul_div_cancel_right₀ _ hpow]

end IsDecimal

/-- A text is read as a number exactly if it writes one, and then without loss. -/
theorem read?_iff {t : Text} {n : PlainNumber} :
    PlainNumber.read? t = some n ↔
      ∃ whole rest, IsDecimal t whole rest ∧ n = ⟨toNat (whole ++ rest), rest.length⟩ := by
  constructor
  · intro h
    have hsplit := List.takeWhile_append_dropWhile (p := Char.isDigit) (l := t)
    have hwhole : ∀ c ∈ t.takeWhile Char.isDigit, c.isDigit = true := fun c hc =>
      List.mem_takeWhile_imp hc
    unfold PlainNumber.read? at h
    dsimp only at h
    split at h
    · rename_i hdrop
      split at h
      · cases h
      · rename_i hne
        rw [hdrop, List.append_nil] at hsplit
        refine ⟨t, [], ⟨Or.inl ⟨rfl, rfl⟩, ?_, ?_⟩, ?_⟩
        · rw [List.append_nil, ← hsplit]
          exact hwhole
        · rw [hsplit] at hne
          simpa using hne
        · rw [hsplit] at h
          simpa using (Option.some.inj h).symm
    · rename_i rest hdrop
      split at h
      · rename_i hrest
        rw [Bool.and_eq_true, List.all_eq_true, Bool.not_eq_true', List.isEmpty_eq_false_iff]
          at hrest
        rw [hdrop] at hsplit
        refine ⟨_, rest, ⟨Or.inr hsplit.symm, ?_, hrest.2⟩, (Option.some.inj h).symm⟩
        intro c hc
        exact (List.mem_append.mp hc).elim (hwhole c) (hrest.1 c)
      · cases h
    · cases h
  · rintro ⟨whole, rest, h, rfl⟩
    exact h.read?_eq

end Text

/-! ## Parts of a text -/

namespace Text

theorem dropStart?_eq_some {t p rest : Text} : t.dropStart? p = some rest ↔ t = p ++ rest := by
  unfold dropStart?
  split
  · rename_i hp
    obtain ⟨more, rfl⟩ := List.isPrefixOf_iff_prefix.mp hp
    simp
  · rename_i hp
    refine iff_of_false (by simp) ?_
    rintro rfl
    exact hp (List.isPrefixOf_iff_prefix.mpr (List.prefix_append p rest))

theorem hasPart_iff {part t : Text} : hasPart part t = true ↔ part <:+: t := by
  induction t with
  | nil => simp [hasPart]
  | cons c t ih =>
    rw [hasPart, Bool.or_eq_true, List.isPrefixOf_iff_prefix, ih, List.infix_cons_iff]

/-- The name is `head[...]`: the first bracket stands behind `head`, and the name ends
with the other one. -/
def HasBrackets (name head : Text) : Prop :=
  ∃ rest, name = head ++ '[' :: rest ∧ '[' ∉ head ∧ rest.getLast? = some ']'

theorem bracketHead?_eq_some {name head : Text} :
    Vocabulary.bracketHead? name = some head ↔ name.HasBrackets head := by
  unfold Vocabulary.bracketHead? HasBrackets
  constructor
  · intro h
    have hsplit := List.takeWhile_append_dropWhile (p := fun c => decide (c ≠ '[')) (l := name)
    split at h
    · rename_i c rest hdrop
      have hhead := List.head?_dropWhile_not (fun c => decide (c ≠ '[')) name
      rw [hdrop] at hhead
      obtain rfl : c = '[' := by simpa using hhead
      split at h
      · rename_i hlast
        obtain rfl := Option.some.inj h
        refine ⟨rest, by rw [← hdrop, hsplit], ?_, by simpa using hlast⟩
        intro hmem
        simpa using List.mem_takeWhile_imp hmem
      · cases h
    · cases h
  · rintro ⟨rest, rfl, hhead, hlast⟩
    have hall : ∀ c ∈ head, decide (c ≠ '[') = true := by
      intro c hc
      rw [decide_eq_true_eq]
      rintro rfl
      exact hhead hc
    rw [List.dropWhile_append_of_pos hall, List.takeWhile_append_of_pos hall]
    simp [hlast]

end Text

/-! ## What an interpolation admits -/

/-- What may follow the value of a utility, by the value that it writes. -/
def Interpolation.Admits : Interpolation → Text → Prop
  | string, rest => rest ≠ []
  | number, rest => rest.WritesNumber
  | nonzero, rest => rest.WritesNumber ∧ 1 / 2 ^ 1075 < rest.decimal

/-- The name is the value of the utility, or the value with a suffix that the
interpolation admits. -/
def Utility.Admits (u : Utility) (name : Text) : Prop :=
  match u.interpolation with
  | none => name = u.value
  | some i => ∃ rest, name = u.value ++ rest ∧ i.Admits rest

theorem Interpolation.accepts_iff (i : Interpolation) (rest : Text) :
    i.accepts rest = true ↔ i.Admits rest := by
  cases i with
  | string => simp [accepts, Admits]
  | number =>
    rw [accepts, Admits, Option.isSome_iff_exists]
    constructor
    · rintro ⟨n, hn⟩
      obtain ⟨whole, places, h, -⟩ := read?_iff.mp hn
      exact h.writesNumber
    · intro h
      obtain ⟨whole, places, h⟩ := h.isDecimal
      exact ⟨_, h.read?_eq⟩
  | nonzero =>
    rw [accepts, Admits, Option.any_eq_true]
    constructor
    · rintro ⟨n, hn, hpos⟩
      obtain ⟨whole, places, h, rfl⟩ := read?_iff.mp hn
      rw [h.decimal_eq, ← PlainNumber.isPositive_iff]
      exact ⟨h.writesNumber, hpos⟩
    · rintro ⟨h, hpos⟩
      obtain ⟨whole, places, h⟩ := h.isDecimal
      rw [h.decimal_eq, ← PlainNumber.isPositive_iff] at hpos
      exact ⟨_, h.read?_eq, hpos⟩

theorem Utility.accepts_iff (u : Utility) (name : Text) :
    u.accepts name = true ↔ u.Admits name := by
  unfold accepts Admits
  cases u.interpolation with
  | none => exact beq_iff_eq.trans eq_comm
  | some i => simp only [Option.any_eq_true, dropStart?_eq_some, i.accepts_iff]

/-! ## The law -/

/-- A name that is no template and has no brackets is known exactly if it is listed, or if
the interpolation of a utility admits what follows the value of that utility. Of a name
with brackets only the part in front of them counts, and the interpolation must be there. -/
theorem known_names_are_admitted {name : Text} (htemplate : ¬ ['$', '\x7b'] <:+: name)
    (voc : Vocabulary) :
    (name ≠ [] → (∀ head, ¬ name.HasBrackets head) →
      (voc.knowsUtility name = true ↔ ∃ u ∈ voc.utilities, u.Admits name)) ∧
    ∀ head, name.HasBrackets head →
      (voc.knowsUtility name = true ↔
        ∃ u ∈ voc.utilities, u.interpolation.isSome = true ∧ u.value = head) := by
  have hplain : Vocabulary.isTemplate name = false := by
    rw [← Bool.not_eq_true, Vocabulary.isTemplate, hasPart_iff]
    exact htemplate
  constructor
  · intro hne hbrackets
    have hhead : Vocabulary.bracketHead? name = none := by
      rw [Option.eq_none_iff_forall_ne_some]
      intro head hhead
      exact hbrackets head (bracketHead?_eq_some.mp hhead)
    unfold Vocabulary.knowsUtility
    rw [if_neg (by simp [hplain, hne]), hhead]
    simp only [List.any_eq_true, Utility.accepts_iff]
  · intro head hbrackets
    have hne : name ≠ [] := by
      rintro rfl
      obtain ⟨rest, hnil, -⟩ := hbrackets
      simp at hnil
    unfold Vocabulary.knowsUtility
    rw [if_neg (by simp [hplain, hne]), bracketHead?_eq_some.mpr hbrackets]
    simp only [List.any_eq_true, Bool.and_eq_true, beq_iff_eq]

/-- The suffix `0.50` does not vanish behind `w-`, though `w-0` is listed too. In brackets
the suffix does not count, but the interpolation of `w-` does. -/
theorem known_names_are_admitted_above_zero :
    ¬ ['$', '\x7b'] <:+: "w-0.50".toList ∧ (∀ head, ¬ HasBrackets "w-0.50".toList head) ∧
      Vocabulary.knowsUtility ⟨[], [], [⟨"w-0".toList, none, none⟩,
        ⟨"w-".toList, some .nonzero, none⟩]⟩ "w-0.50".toList = true ∧
      HasBrackets "w-[0]".toList "w-".toList ∧
      Vocabulary.knowsUtility ⟨[], [], [⟨"w-0".toList, none, none⟩,
        ⟨"w-".toList, some .nonzero, none⟩]⟩ "w-[0]".toList = true := by
  have htemplate : ¬ ['$', '\x7b'] <:+: "w-0.50".toList := by decide
  have hplain : ∀ head, ¬ HasBrackets "w-0.50".toList head := by
    intro head hhead
    rw [← bracketHead?_eq_some] at hhead
    cases hhead
  have hbrackets : HasBrackets "w-[0]".toList "w-".toList := ⟨"0]".toList, by decide⟩
  have hnumber : WritesNumber "0.50".toList := ⟨by simp, by decide, by simp⟩
  have hvalue : decimal "0.50".toList = 1 / 2 ^ 1 := by
    show ((0 : Nat) : ℚ) + ((5 : Nat) + ((0 : Nat) + 0) / 10) / 10 = 1 / 2 ^ 1
    norm_num
  have hpos : 1 / 2 ^ 1075 < decimal "0.50".toList := by
    rw [hvalue]
    exact one_div_lt_one_div_of_lt (by norm_num) (pow_lt_pow_right₀ (by norm_num) (by norm_num))
  refine ⟨htemplate, hplain, ?_, hbrackets, ?_⟩
  · refine ((known_names_are_admitted htemplate _).1 (by decide) hplain).mpr
      ⟨_, List.mem_cons_of_mem _ List.mem_cons_self, "0.50".toList, rfl, hnumber, hpos⟩
  · exact ((known_names_are_admitted (by decide) _).2 _ hbrackets).mpr
      ⟨_, List.mem_cons_of_mem _ List.mem_cons_self, rfl, rfl⟩

end ClassList
