-- The natural order. The key of a text puts its parts, numbers and other characters, one
-- behind the other, and gives every number eight places. So two keys first differ where
-- the parts of their texts do, and in the same sense.
import Mathlib
import ClassList.Proofs.Ranking

namespace ClassList

open Text

/-! ## Parts -/

namespace Text

/-- What the natural order compares at once. -/
inductive Part where
  | number (n : Nat)
  | other (c : Char) (h : c.isDigit = false)
deriving DecidableEq

/-- The parts of a text. A row of digits is one number, as far as the row reaches. -/
def parts : Text → List Part
  | [] => []
  | c :: t =>
    if h : c.isDigit = true then
      .number (toNat (c :: t.takeWhile Char.isDigit)) :: parts (t.dropWhile Char.isDigit)
    else .other c (Bool.eq_false_of_not_eq_true h) :: parts t
termination_by t => t.length
decreasing_by
  · exact Nat.lt_succ_of_le (List.dropWhile_sublist _).length_le
  · exact Nat.lt_succ_self _

/-- Numbers compare by their values and other characters by their code points. None of
these lies between two digits, so one digit can stand for all numbers among them. -/
instance : Ord Part where
  compare
    | .number m, .number n => compare m n
    | .number _, .other d _ => compare '0' d
    | .other c _, .number _ => compare c '0'
    | .other c _, .other d _ => compare c d

instance : Std.OrientedOrd Part where
  eq_swap := by
    rintro (m | ⟨c, hc⟩) (n | ⟨d, hd⟩)
    · exact (Std.OrientedCmp.eq_swap : compare m n = _)
    · exact (Std.OrientedCmp.eq_swap : compare '0' d = _)
    · exact (Std.OrientedCmp.eq_swap : compare c '0' = _)
    · exact (Std.OrientedCmp.eq_swap : compare c d = _)

theorem ne_of_isDigit {c d : Char} (hc : c.isDigit = false) (hd : d.isDigit = true) : c ≠ d := by
  rintro rfl
  rw [hc] at hd
  cases hd

instance : Std.LawfulEqOrd Part where
  eq_of_compare := by
    rintro (m | ⟨c, hc⟩) (n | ⟨d, hd⟩) h
    · have h : compare m n = .eq := h
      rw [Std.compare_eq_iff_eq.mp h]
    · have h : compare '0' d = .eq := h
      exact absurd (Std.compare_eq_iff_eq.mp h).symm (ne_of_isDigit hd (by decide))
    · have h : compare c '0' = .eq := h
      exact absurd (Std.compare_eq_iff_eq.mp h) (ne_of_isDigit hc (by decide))
    · have h : compare c d = .eq := h
      obtain rfl := Std.compare_eq_iff_eq.mp h
      rfl

/-- No NUL, which leaves no trace in a key, and no row of more than eight digits. -/
structure Sortable (t : Text) : Prop where
  no_nul : '\x00' ∉ t
  rows : ∀ row, row <:+: t → (∀ c ∈ row, c.isDigit = true) → row.length ≤ 8

instance (t : Text) : Decidable t.Sortable :=
  decidable_of_iff
    ('\x00' ∉ t ∧ ∀ rest ∈ t.tails, (rest.takeWhile Char.isDigit).length ≤ 8) <| by
  constructor
  · rintro ⟨hnul, hrows⟩
    refine ⟨hnul, ?_⟩
    rintro row ⟨front, back, rfl⟩ hdigits
    have hlength := hrows (row ++ back) ((List.mem_tails _ _).mpr ⟨front, by simp⟩)
    rw [List.takeWhile_append_of_pos hdigits, List.length_append] at hlength
    omega
  · rintro ⟨hnul, hrows⟩
    refine ⟨hnul, ?_⟩
    intro rest hrest
    have hstart : rest.takeWhile Char.isDigit <+: rest := List.takeWhile_prefix _
    have hend : rest <:+ t := (List.mem_tails _ _).mp hrest
    exact hrows _ (hstart.isInfix.trans hend.isInfix) fun c hc => List.mem_takeWhile_imp hc

end Text

/-! ## Codes that keep an order -/

section Codes

variable {α β : Type} [Ord α] [Ord β]

/-- The words of a code compare as what they stand for. What follows them counts only
where these are equal. -/
def Decides (code : α → List β) (a b : α) : Prop :=
  ∀ u v, compare (code a ++ u) (code b ++ v) = (compare a b).then (compare u v)

theorem compare_append_left [Std.ReflOrd β] (x u v : List β) :
    compare (x ++ u) (x ++ v) = compare u v := by
  induction x with
  | nil => rfl
  | cons a x ih =>
    rw [List.cons_append, List.cons_append, List.compare_cons_cons, Std.compare_self,
      Ordering.eq_then, ih]

variable {code : α → List β} {a b : α}

theorem decides_self [Std.ReflOrd α] [Std.ReflOrd β] : Decides code a a := by
  intro u v
  rw [compare_append_left, Std.compare_self, Ordering.eq_then]

theorem Decides.symm [Std.OrientedOrd α] [Std.OrientedOrd β] (h : Decides code a b) :
    Decides code b a := by
  intro u v
  calc compare (code b ++ u) (code a ++ v)
    _ = (compare (code a ++ v) (code b ++ u)).swap := Std.OrientedCmp.eq_swap
    _ = (compare a b).swap.then (compare v u).swap := by rw [h, Ordering.swap_then]
    _ = (compare b a).then (compare u v) := by
      rw [← Std.OrientedCmp.eq_swap, ← Std.OrientedCmp.eq_swap]

/-- Such a code keeps the order of lists, if no word is empty. -/
theorem compare_flatMap {l m : List α} (hl : ∀ a ∈ l, code a ≠ []) (hm : ∀ b ∈ m, code b ≠ [])
    (h : ∀ a ∈ l, ∀ b ∈ m, Decides code a b) :
    compare (l.flatMap code) (m.flatMap code) = compare l m := by
  induction l generalizing m with
  | nil =>
    cases m with
    | nil => rfl
    | cons b m =>
      obtain ⟨d, rest, hword⟩ := List.exists_cons_of_ne_nil (hm b (by simp))
      simp [hword]
  | cons a l ih =>
    cases m with
    | nil =>
      obtain ⟨c, rest, hword⟩ := List.exists_cons_of_ne_nil (hl a (by simp))
      simp [hword]
    | cons b m =>
      have hrest : compare (l.flatMap code) (m.flatMap code) = compare l m :=
        ih (fun a ha => hl a (by simp [ha])) (fun b hb => hm b (by simp [hb]))
          fun a ha b hb => h a (by simp [ha]) b (by simp [hb])
      rw [List.flatMap_cons, List.flatMap_cons, h a (by simp) b (by simp), hrest,
        List.compare_cons_cons]

end Codes

namespace Text

/-! ## Bytes -/

theorem compare_of_lt {x y : List UInt8} (h : x < y) : compare x y = .lt := by
  induction x generalizing y with
  | nil =>
    cases y with
    | nil => exact absurd h (List.lt_irrefl [])
    | cons b y => rfl
  | cons a x ih =>
    cases y with
    | nil => exact absurd h (List.not_lt_nil _)
    | cons b y =>
      rw [List.compare_cons_cons]
      rcases List.cons_lt_cons_iff.mp h with hlt | ⟨rfl, hlt⟩
      · rw [Std.compare_eq_lt.mpr hlt, Ordering.lt_then]
      · rw [Std.compare_self, Ordering.eq_then, ih hlt]

theorem compare_toNat (c d : Char) : compare c.toNat d.toNat = compare c d := by
  rcases Nat.lt_trichotomy c.toNat d.toNat with hlt | heq | hlt
  · rw [Nat.compare_eq_lt.mpr hlt, compare_lt_iff_lt.mpr (Char.lt_def.mpr hlt)]
  · rw [Nat.compare_eq_eq.mpr heq, Char.toNat_inj.mp heq, Std.compare_self]
  · rw [Nat.compare_eq_gt.mpr hlt, compare_gt_iff_gt.mpr (Char.lt_def.mpr hlt)]

theorem encode_decides_of_lt {c d : Char} (h : c.toNat < d.toNat) :
    Decides String.utf8EncodeChar c d := by
  intro u v
  rw [compare_of_lt (encode_lt h u v), ← compare_toNat, Nat.compare_eq_lt.mpr h,
    Ordering.lt_then]

theorem encode_decides (c d : Char) : Decides String.utf8EncodeChar c d := by
  rcases Nat.lt_trichotomy c.toNat d.toNat with hlt | heq | hlt
  · exact encode_decides_of_lt hlt
  · rw [Char.toNat_inj.mp heq]
    exact decides_self
  · exact (encode_decides_of_lt hlt).symm

theorem compare_bytes (s t : Text) : compare s.bytes t.bytes = compare s t := by
  have hword : ∀ c, String.utf8EncodeChar c ≠ [] := by
    intro c
    apply List.ne_nil_of_length_pos
    rw [String.length_utf8EncodeChar]
    exact c.utf8Size_pos
  apply compare_flatMap
  · exact fun c _ => hword c
  · exact fun d _ => hword d
  · exact fun c _ d _ => encode_decides c d

/-! ## Reading a text into a key -/

namespace NaturalKey

theorem flush_eq (k : NaturalKey) : k.flush = k.key ++ flush ⟨[], k.digits⟩ := by
  unfold flush
  split <;> simp

/-- What is in the key already has no say in what comes behind it. -/
theorem step_eq (k : NaturalKey) (c : Char) :
    k.step c = ⟨k.key ++ (step ⟨[], k.digits⟩ c).key, (step ⟨[], k.digits⟩ c).digits⟩ := by
  unfold step
  rw [k.flush_eq]
  split
  · simp
  · split <;> simp

theorem flush_foldl (t : Text) (k : NaturalKey) :
    (t.foldl step k).flush = k.key ++ (t.foldl step ⟨[], k.digits⟩).flush := by
  induction t generalizing k with
  | nil => exact k.flush_eq
  | cons c t ih =>
    rw [List.foldl_cons, List.foldl_cons, ih (k.step c), ih (step _ c), k.step_eq]
    simp

theorem foldl_digits {row : Text} (h : ∀ c ∈ row, c.isDigit = true) (k : NaturalKey) :
    row.foldl step k = { k with digits := k.digits ++ row } := by
  induction row generalizing k with
  | nil => simp
  | cons c row ih =>
    have hc : k.step c = { k with digits := k.digits ++ [c] } := if_pos (h c (by simp))
    rw [List.foldl_cons, hc, ih fun d hd => h d (by simp [hd])]
    simp

end NaturalKey

theorem naturalKey_other {c : Char} (hc : c.isDigit = false) (hnul : c ≠ '\x00') (t : Text) :
    naturalKey (c :: t) = c :: naturalKey t := by
  have hstep : NaturalKey.step ⟨[], []⟩ c = ⟨[c], []⟩ := by
    simp [NaturalKey.step, NaturalKey.flush, hc, hnul]
  unfold naturalKey
  rw [List.foldl_cons, hstep, NaturalKey.flush_foldl]
  rfl

/-- A row of digits enters the key on its own if no further digit follows. -/
theorem naturalKey_row {row t : Text} (hrow : ∀ c ∈ row, c.isDigit = true) (hne : row ≠ [])
    (ht : ∀ c ∈ t.head?, c.isDigit = false) :
    naturalKey (row ++ t) = padDigits row ++ naturalKey t := by
  have hflush : NaturalKey.flush ⟨[], row⟩ = padDigits row := by simp [NaturalKey.flush, hne]
  -- The end of the text and a character that is no digit both take the row into the key.
  have hread : (t.foldl NaturalKey.step ⟨[], row⟩).flush =
      (t.foldl NaturalKey.step ⟨padDigits row, []⟩).flush := by
    cases t with
    | nil => exact hflush
    | cons c t =>
      have hstep : NaturalKey.step ⟨[], row⟩ c = NaturalKey.step ⟨padDigits row, []⟩ c := by
        unfold NaturalKey.step
        rw [hflush, ht c rfl]
        rfl
      rw [List.foldl_cons, List.foldl_cons, hstep]
  unfold naturalKey
  rw [List.foldl_append, NaturalKey.foldl_digits hrow]
  simpa [NaturalKey.flush_foldl t ⟨padDigits row, []⟩] using hread

/-! ## Rows of digits -/

theorem toNat_eq (t : Text) : toNat t = Nat.ofDigitChars 10 t 0 :=
  Nat.ofDigitChars_eq_foldl.symm

theorem toNat_cons (c : Char) (t : Text) :
    toNat (c :: t) = 10 ^ t.length * digit c + toNat t := by
  rw [toNat_eq, toNat_eq, Nat.ofDigitChars_cons, Nat.ofDigitChars_eq_ofDigitChars_zero,
    Nat.mul_zero, Nat.zero_add]
  rfl

theorem toNat_of_isDigit {c : Char} (h : c.isDigit = true) : c.toNat = '0'.toNat + digit c :=
  (Nat.add_sub_cancel' (Char.isDigit_iff_toNat.mp h).1).symm

theorem digit_lt {c : Char} (h : c.isDigit = true) : digit c < 10 := by
  have hle : c.toNat ≤ 57 := (Char.isDigit_iff_toNat.mp h).2
  have hdigit : c.toNat = 48 + digit c := toNat_of_isDigit h
  omega

theorem toNat_lt {row : Text} (h : ∀ c ∈ row, c.isDigit = true) :
    toNat row < 10 ^ row.length := by
  induction row with
  | nil => decide
  | cons c row ih =>
    have hc := digit_lt (h c (by simp))
    have hrow := ih fun d hd => h d (by simp [hd])
    have hle : 10 ^ row.length * (digit c + 1) ≤ 10 ^ row.length * 10 := Nat.mul_le_mul_left _ hc
    rw [Nat.mul_add, Nat.mul_one] at hle
    rw [toNat_cons, List.length_cons, Nat.pow_succ]
    omega

theorem compare_add_left (k m n : Nat) : compare (k + m) (k + n) = compare m n := by
  simp [Nat.compare_eq_ite_lt]

/-- The higher place decides, if the lower one stays below its unit. -/
theorem compare_places {unit m n : Nat} (hm : m < unit) (hn : n < unit) (i j : Nat) :
    compare (unit * i + m) (unit * j + n) = (compare i j).then (compare m n) := by
  rcases Nat.lt_trichotomy i j with hlt | rfl | hlt
  · have hle : unit * (i + 1) ≤ unit * j := Nat.mul_le_mul_left _ hlt
    rw [Nat.mul_add, Nat.mul_one] at hle
    rw [Nat.compare_eq_lt.mpr hlt, Ordering.lt_then, Nat.compare_eq_lt]
    omega
  · rw [compare_add_left, Std.compare_self, Ordering.eq_then]
  · have hle : unit * (j + 1) ≤ unit * i := Nat.mul_le_mul_left _ hlt
    rw [Nat.mul_add, Nat.mul_one] at hle
    rw [Nat.compare_eq_gt.mpr hlt, Ordering.gt_then, Nat.compare_eq_gt]
    omega

theorem compare_digit {c d : Char} (hc : c.isDigit = true) (hd : d.isDigit = true) :
    compare (digit c) (digit d) = compare c d := by
  rw [← compare_toNat, toNat_of_isDigit hc, toNat_of_isDigit hd, compare_add_left]

/-- Rows of the same length compare as their numbers do, whatever follows them. -/
theorem compare_rows {x y : Text} (hlength : x.length = y.length)
    (hx : ∀ c ∈ x, c.isDigit = true) (hy : ∀ c ∈ y, c.isDigit = true) (u v : Text) :
    compare (x ++ u) (y ++ v) = (compare x.toNat y.toNat).then (compare u v) := by
  induction x generalizing y with
  | nil =>
    obtain rfl := List.length_eq_zero_iff.mp hlength.symm
    rfl
  | cons c x ih =>
    cases y with
    | nil => cases hlength
    | cons d y =>
      simp only [List.forall_mem_cons] at hx hy
      have hlength : x.length = y.length := by simpa using hlength
      rw [List.cons_append, List.cons_append, List.compare_cons_cons, ih hlength hx.2 hy.2,
        toNat_cons, toNat_cons, hlength,
        compare_places (hlength ▸ toNat_lt hx.2) (toNat_lt hy.2), compare_digit hx.1 hy.1,
        Ordering.then_assoc]

/-! ## Eight places -/

theorem padDigits_eq {row : Text} (h : row.length ≤ 8) :
    padDigits row = List.replicate (8 - row.length) '0' ++ row := by
  unfold padDigits
  dsimp only
  rw [List.length_append, List.length_replicate, Nat.sub_add_cancel h, Nat.sub_self,
    List.drop_zero]

theorem length_padDigits {row : Text} (h : row.length ≤ 8) : (padDigits row).length = 8 := by
  rw [padDigits_eq h, List.length_append, List.length_replicate, Nat.sub_add_cancel h]

theorem isDigit_padDigits {row : Text} (h : ∀ c ∈ row, c.isDigit = true) :
    ∀ c ∈ padDigits row, c.isDigit = true := by
  intro c hc
  rcases List.mem_append.mp (List.mem_of_mem_drop hc) with hc | hc
  · rw [List.eq_of_mem_replicate hc]
    rfl
  · exact h c hc

theorem toNat_padDigits {row : Text} (h : row.length ≤ 8) :
    toNat (padDigits row) = toNat row := by
  rw [padDigits_eq h, toNat_eq, toNat_eq, Nat.ofDigitChars_append,
    Nat.ofDigitChars_replicate_zero, Nat.mul_zero]

theorem compare_padDigits {x y : Text} (hx : ∀ c ∈ x, c.isDigit = true) (hxl : x.length ≤ 8)
    (hy : ∀ c ∈ y, c.isDigit = true) (hyl : y.length ≤ 8) (u v : Text) :
    compare (padDigits x ++ u) (padDigits y ++ v) =
      (compare x.toNat y.toNat).then (compare u v) := by
  rw [compare_rows (by rw [length_padDigits hxl, length_padDigits hyl]) (isDigit_padDigits hx)
    (isDigit_padDigits hy), toNat_padDigits hxl, toNat_padDigits hyl]

theorem isDigit_ofNat (n : Nat) : ∀ c ∈ ofNat n, c.isDigit = true := fun _ hc =>
  Nat.isDigit_of_mem_toDigits (by decide) (by decide) hc

theorem length_ofNat_le {n : Nat} (h : n < 10 ^ 8) : (ofNat n).length ≤ 8 :=
  (Nat.length_toDigits_le_iff (by decide) (by decide)).mpr h

theorem toNat_ofNat (n : Nat) : toNat (ofNat n) = n := by
  rw [toNat_eq]
  exact Nat.ofDigitChars_ten_toDigits

theorem toNat_lt_of_length {row : Text} (hrow : ∀ c ∈ row, c.isDigit = true)
    (hlength : row.length ≤ 8) : toNat row < 10 ^ 8 :=
  (toNat_lt hrow).trans_le (Nat.pow_le_pow_right (by decide) hlength)

/-- Of a row only its number is left in the key. -/
theorem padDigits_ofNat_toNat {row : Text} (hrow : ∀ c ∈ row, c.isDigit = true)
    (hlength : row.length ≤ 8) : padDigits (ofNat row.toNat) = padDigits row := by
  -- Rows of eight digits with one number compare as equal, so they are the same row.
  have hcompare := compare_padDigits (isDigit_ofNat row.toNat)
    (length_ofNat_le (toNat_lt_of_length hrow hlength)) hrow hlength [] []
  rw [toNat_ofNat, Std.compare_self] at hcompare
  simpa using hcompare

/-! ## Keys of parts -/

namespace Part

/-- The part as it stands in a key. -/
def key : Part → Text
  | number n => padDigits (ofNat n)
  | other c _ => [c]

/-- Eight places are enough for the part. -/
def Fits : Part → Prop
  | number n => n < 10 ^ 8
  | other _ _ => True

theorem key_ne_nil {p : Part} (h : p.Fits) : p.key ≠ [] := by
  cases p with
  | number n =>
    apply List.ne_nil_of_length_pos
    rw [key, length_padDigits (length_ofNat_le h)]
    decide
  | other c _ => exact List.cons_ne_nil _ _

/-- A digit stands on the same side of another character as the `0`. -/
theorem compare_digit_other {d c : Char} (hd : d.isDigit = true) (hc : c.isDigit = false)
    (o : Ordering) : (compare d c).then o = compare '0' c := by
  have hbounds : 48 ≤ d.toNat ∧ d.toNat ≤ 57 := Char.isDigit_iff_toNat.mp hd
  have hout : ¬ (48 ≤ c.toNat ∧ c.toNat ≤ 57) := by
    rw [← Bool.not_eq_true] at hc
    exact fun h => hc (Char.isDigit_iff_toNat.mpr h)
  have hcode : '0'.toNat = 48 := rfl
  rw [← compare_toNat, ← compare_toNat]
  rcases Nat.lt_or_ge c.toNat 48 with hlt | hge
  · have hd : compare d.toNat c.toNat = .gt := Nat.compare_eq_gt.mpr (by omega)
    have hzero : compare '0'.toNat c.toNat = .gt := Nat.compare_eq_gt.mpr (by omega)
    rw [hd, hzero, Ordering.gt_then]
  · have hd : compare d.toNat c.toNat = .lt := Nat.compare_eq_lt.mpr (by omega)
    have hzero : compare '0'.toNat c.toNat = .lt := Nat.compare_eq_lt.mpr (by omega)
    rw [hd, hzero, Ordering.lt_then]

theorem number_decides_other {n : Nat} (hn : Fits (number n)) {c : Char}
    (hc : c.isDigit = false) : Decides key (number n) (other c hc) := by
  intro u v
  have hdigits : ∀ d ∈ key (number n), d.isDigit = true := isDigit_padDigits (isDigit_ofNat n)
  obtain ⟨d, rest, hkey⟩ := List.exists_cons_of_ne_nil (key_ne_nil hn)
  rw [hkey, List.forall_mem_cons] at hdigits
  rw [hkey]
  change compare (d :: (rest ++ u)) (c :: v) = (compare '0' c).then (compare u v)
  rw [List.compare_cons_cons, compare_digit_other hdigits.1 hc,
    compare_digit_other (by decide : '0'.isDigit = true) hc]

theorem key_decides {p q : Part} (hp : p.Fits) (hq : q.Fits) : Decides key p q := by
  cases p with
  | number m =>
    cases q with
    | number n =>
      intro u v
      rw [key, key, compare_padDigits (isDigit_ofNat m) (length_ofNat_le hp) (isDigit_ofNat n)
        (length_ofNat_le hq), toNat_ofNat, toNat_ofNat]
      rfl
    | other d hd => exact number_decides_other hp hd
  | other c hc =>
    cases q with
    | number n => exact (number_decides_other hq hc).symm
    | other d hd => exact fun u v => List.compare_cons_cons

theorem compare_keys {ps qs : List Part} (hp : ∀ p ∈ ps, p.Fits) (hq : ∀ q ∈ qs, q.Fits) :
    compare (ps.flatMap key) (qs.flatMap key) = compare ps qs := by
  apply compare_flatMap
  · exact fun p hmem => key_ne_nil (hp p hmem)
  · exact fun q hmem => key_ne_nil (hq q hmem)
  · exact fun p hmem q hmem' => key_decides (hp p hmem) (hq q hmem')

end Part

/-! ## The first row of a text -/

theorem isDigit_row {c : Char} (h : c.isDigit = true) (t : Text) :
    ∀ d ∈ c :: t.takeWhile Char.isDigit, d.isDigit = true :=
  List.forall_mem_cons.mpr ⟨h, fun _ hd => List.mem_takeWhile_imp hd⟩

theorem row_append (c : Char) (t : Text) :
    c :: t.takeWhile Char.isDigit ++ t.dropWhile Char.isDigit = c :: t := by
  rw [List.cons_append, List.takeWhile_append_dropWhile]

theorem head_behind_row (t : Text) : ∀ c ∈ (t.dropWhile Char.isDigit).head?, c.isDigit = false := by
  intro c hc
  have h := List.head?_dropWhile_not Char.isDigit t
  rw [hc] at h
  exact h

namespace Sortable

theorem of_suffix {s t : Text} (h : t.Sortable) (hs : s <:+ t) : s.Sortable where
  no_nul := fun hnul => h.no_nul (hs.subset hnul)
  rows := fun row hrow => h.rows row (hrow.trans hs.isInfix)

variable {c : Char} {t : Text}

theorem length_row (h : Sortable (c :: t)) (hc : c.isDigit = true) :
    (c :: t.takeWhile Char.isDigit).length ≤ 8 :=
  h.rows _ ⟨[], _, row_append c t⟩ (isDigit_row hc t)

theorem behind_row (h : Sortable (c :: t)) : Sortable (t.dropWhile Char.isDigit) :=
  h.of_suffix ⟨_, row_append c t⟩

theorem tail (h : Sortable (c :: t)) : Sortable t := h.of_suffix (List.suffix_cons c t)

/-- The key of a text is made of its parts. -/
theorem naturalKey_eq {t : Text} (h : t.Sortable) : naturalKey t = t.parts.flatMap Part.key := by
  fun_induction parts t with
  | case1 => rfl
  | case2 c t hc ih =>
    have hrow := isDigit_row hc t
    rw [List.flatMap_cons, ← ih h.behind_row, Part.key,
      padDigits_ofNat_toNat hrow (h.length_row hc),
      ← naturalKey_row hrow (List.cons_ne_nil _ _) (head_behind_row t), row_append]
  | case3 c t hc ih =>
    have hnul : c ≠ '\x00' := fun hnul => h.no_nul (hnul ▸ List.mem_cons_self)
    rw [List.flatMap_cons, ← ih h.tail, naturalKey_other (Bool.eq_false_of_not_eq_true hc) hnul]
    rfl

theorem fits {t : Text} (h : t.Sortable) : ∀ p ∈ t.parts, p.Fits := by
  fun_induction parts t with
  | case1 => simp
  | case2 c t hc ih =>
    exact List.forall_mem_cons.mpr
      ⟨toNat_lt_of_length (isDigit_row hc t) (h.length_row hc), ih h.behind_row⟩
  | case3 c t hc ih => exact List.forall_mem_cons.mpr ⟨trivial, ih h.tail⟩

end Sortable

end Text

/-! ## The law -/

/-- The bytes of two keys compare as the lists of parts do: numbers by their values, other
characters by their code points, and a number among these where the digits stand. Texts
have the same key exactly if they have the same parts. -/
theorem natural_keys_sort_as_parts_do {a b : Text} (ha : a.Sortable) (hb : b.Sortable) :
    compare a.naturalKey.bytes b.naturalKey.bytes = compare a.parts b.parts ∧
      (a.naturalKey = b.naturalKey ↔ a.parts = b.parts) := by
  have hcompare : compare a.naturalKey b.naturalKey = compare a.parts b.parts := by
    rw [ha.naturalKey_eq, hb.naturalKey_eq]
    exact Part.compare_keys ha.fits hb.fits
  constructor
  · rw [compare_bytes, hcompare]
  · rw [← Std.compare_eq_iff_eq, hcompare, Std.compare_eq_iff_eq]

/-- Zeros in front do not count: the numbers `10` and `2` are the same in both texts, and
behind them `9` comes before `10`. -/
theorem natural_keys_sort_as_parts_do_behind_equal_numbers :
    Sortable "10é2-9".toList ∧ Sortable "010é02-10".toList ∧
      compare (bytes (naturalKey "10é2-9".toList)) (bytes (naturalKey "010é02-10".toList)) = .lt ∧
      naturalKey "10é2".toList = naturalKey "010é02".toList := by
  have ha : Sortable "10é2-9".toList := by decide
  have hb : Sortable "010é02-10".toList := by decide
  have hparts : compare (parts "10é2-9".toList) (parts "010é02-10".toList) = .lt := by
    decide +kernel
  refine ⟨ha, hb, (natural_keys_sort_as_parts_do ha hb).1.trans hparts, ?_⟩
  exact (natural_keys_sort_as_parts_do (by decide) (by decide)).2.mpr (by decide +kernel)

-- The ninth digit from the right has no place in a key.
example : naturalKey "z-300000001".toList = naturalKey "z-1".toList := by decide

end ClassList
