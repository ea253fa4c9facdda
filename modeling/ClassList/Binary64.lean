-- Binary floating point with 53 significant bits. Every finite number of
-- this kind is a whole multiple of 2⁻¹⁰⁷⁴, so a natural number says it
-- exactly, and no rounding hides in the representation.
import ClassList.Text

namespace ClassList

/-- A finite number: a sign, and the magnitude in units of 2⁻¹⁰⁷⁴. Zero has a
sign too. -/
structure Binary64 where
  negative : Bool
  units : Nat
deriving DecidableEq

namespace Binary64

/-! ## Rounding -/

/-- The whole number nearest to `num / den`, the even one of two. -/
def roundDiv (num den : Nat) : Nat :=
  let q := num / den
  let r := num % den
  if den < 2 * r ∨ (2 * r = den ∧ q % 2 = 1) then q + 1 else q

/-- How many units stand in one. -/
def unit : Nat := Nat.pow 2 1074

/-- The first magnitude that is no longer finite, in units. -/
def limit : Nat := Nat.pow 2 2098

/-- The magnitude nearest to `num / den`, in units. It is a multiple of the
power of two that leaves 53 bits, or of one unit if that is larger. -/
def nearest (num den : Nat) : Nat :=
  let step := Nat.pow 2 (Nat.log2 (num * unit / den) - 52)
  roundDiv (num * unit) (den * step) * step

/-- The power of ten nearest to `10 ^ k`, in units. -/
def powerOfTen (k : Nat) : Nat := nearest (Nat.pow 10 k) 1

/-- The nearest magnitude to a product. -/
def mul (a b : Nat) : Nat := nearest (a * b) (unit * unit)

/-- The nearest magnitude to a quotient. -/
def div (a b : Nat) : Nat := nearest a b

/-- Divides by `10 ^ k`, at most 308 places at a time. -/
def shrink (f k : Nat) : Nat :=
  if k ≤ 308 then div f (powerOfTen k)
  else if f = 0 then 0
  else shrink (div f (powerOfTen 308)) (k - 308)
termination_by k
decreasing_by omega

/-- `significand · 10 ^ exponent` in a few roundings: the significand first, then
each product or quotient with a power of ten. It has no value if it is too
large. -/
def scaled? (significand : Nat) (exponent : Int) : Option Nat :=
  let f := nearest significand 1
  match exponent with
  | .ofNat k =>
    if f = 0 then some 0
    else if 308 < k then none
    else
      let product := mul f (powerOfTen k)
      if product < limit then some product else none
  | .negSucc k => some (shrink f (k + 1))

/-! ## The shortest decimal -/

/-- A decimal `digits · 10 ^ exponent`. -/
structure Decimal where
  digits : Nat
  exponent : Int
deriving DecidableEq

namespace Decimal

/-- The nearest magnitude to a decimal, in units. -/
def units (d : Decimal) : Nat :=
  match d.exponent with
  | .ofNat k => nearest (d.digits * Nat.pow 10 k) 1
  | .negSucc k => nearest d.digits (Nat.pow 10 (k + 1))

/-- Positional notation with at least one place behind the point. -/
def positional (d : Decimal) : Text :=
  match d.exponent with
  | .ofNat k => Text.ofNat (d.digits * Nat.pow 10 k) ++ ['.', '0']
  | .negSucc k =>
    let places := k + 1
    let digits := Text.ofNat d.digits
    let padded := List.replicate (places + 1 - digits.length) '0' ++ digits
    padded.take (padded.length - places) ++ '.' :: padded.drop (padded.length - places)

/-- The exponent of the first digit. -/
def place (d : Decimal) : Int := d.exponent + ((Text.ofNat d.digits).length : Int) - 1

/-- One digit in front of the point, which stands only before further digits,
and the exponent with its sign. -/
def scientific (d : Decimal) : Text :=
  let mantissa := match Text.ofNat d.digits with
    | first :: second :: rest => first :: '.' :: second :: rest
    | digits => digits
  mantissa ++ 'e' :: (if 0 ≤ d.place then ['+'] else []) ++ Text.ofInt d.place

/-- Positional from `10 ^ -5` on and below `10 ^ 16`, scientific elsewhere. Zero
is positional. -/
def text (d : Decimal) : Text :=
  if d.digits = 0 ∨ (-5 ≤ d.place ∧ d.place < 16) then d.positional else d.scientific

end Decimal

/-- The exponent of the first digit of a magnitude that is not zero: the
largest `e` with `10 ^ e` not above it. -/
def firstPlace (units : Nat) : Int :=
  if unit ≤ units then ((Text.ofNat (units / unit)).length : Int) - 1
  else
    let places := ((List.range 400).find? fun k => unit ≤ units * Nat.pow 10 k).getD 0
    Int.negOfNat places

/-- The decimals with a number of digits next to a magnitude, the nearer one
first. If both are equally near, the one with an even last digit comes first. -/
def neighbours (units digits : Nat) : List Decimal :=
  let exponent := firstPlace units - ((digits : Int) - 1)
  let (num, den) := match exponent with
    | .ofNat k => (units, unit * Nat.pow 10 k)
    | .negSucc k => (units * Nat.pow 10 (k + 1), unit)
  let below : Decimal := ⟨num / den, exponent⟩
  let above : Decimal := ⟨num / den + 1, exponent⟩
  if num % den = 0 then [below]
  else if roundDiv num den = below.digits then [below, above]
  else [above, below]

/-- A shortest decimal that rounds to a magnitude, and of those the nearest.
Seventeen digits are always enough. -/
def shortest (units : Nat) : Decimal :=
  if units = 0 then ⟨0, 0⟩
  else
    let candidates := (List.range 17).flatMap fun k => neighbours units (k + 1)
    let found := (candidates.find? fun d => d.units = units).getD ⟨0, 0⟩
    trim 20 found
where
  /-- Takes zeros off the end of the digits. -/
  trim : Nat → Decimal → Decimal
    | 0, d => d
    | n + 1, d => if d.digits % 10 = 0 then trim n ⟨d.digits / 10, d.exponent + 1⟩ else d

/-- The number with the fewest digits that read back. -/
def text (f : Binary64) : Text :=
  (if f.negative then ['-'] else []) ++ (shortest f.units).text

end Binary64

end ClassList
