-- Source texts. An offset counts bytes of the text in UTF-8, so it may also
-- point past the end or between two bytes of one character.

namespace ClassList

/-- A text, character by character. -/
abbrev Text := List Char

namespace Text

/-! ## Bytes -/

/-- The number of bytes of a text. -/
def size : Text → Nat
  | [] => 0
  | c :: t => c.utf8Size + size t

/-- The longest first part of a text that has at most `n` bytes. -/
def upTo : Nat → Text → Text
  | _, [] => []
  | n, c :: t => if c.utf8Size ≤ n then c :: upTo (n - c.utf8Size) t else []

/-- What `upTo n` leaves. -/
def after (n : Nat) (t : Text) : Text := t.drop (upTo n t).length

/-- A place between two characters, or an end of the text. -/
def isBoundary (n : Nat) (t : Text) : Bool := (upTo n t).size == n

theorem size_append (a b : Text) : size (a ++ b) = size a + size b := by
  induction a with
  | nil => simp [size]
  | cons c a ih => simp [size, ih, Nat.add_assoc]

theorem upTo_append_after (n : Nat) (t : Text) : upTo n t ++ after n t = t := by
  induction t generalizing n with
  | nil => rfl
  | cons c t ih =>
    by_cases h : c.utf8Size ≤ n
    · simpa [upTo, after, h] using ih (n - c.utf8Size)
    · simp [upTo, after, h]

theorem size_upTo_le (n : Nat) (t : Text) : size (upTo n t) ≤ n := by
  induction t generalizing n with
  | nil => simp [upTo, size]
  | cons c t ih =>
    by_cases h : c.utf8Size ≤ n
    · have := ih (n - c.utf8Size)
      simp only [upTo, h, if_true, size]
      omega
    · simp [upTo, h, size]

/-! ## First parts -/

/-- What follows `p` in `t`, if `t` starts with `p`. -/
def dropStart? (t p : Text) : Option Text :=
  if p.isPrefixOf t then some (t.drop p.length) else none

/-- Does `part` occur somewhere in the text? -/
def hasPart (part : Text) : Text → Bool
  | [] => part.isEmpty
  | c :: t => part.isPrefixOf (c :: t) || hasPart part t

/-! ## Order -/

/-- The order of texts by code points. A first part of a text stands before it. -/
def le : Text → Text → Bool
  | [], _ => true
  | _ :: _, [] => false
  | a :: s, b :: t => a.toNat < b.toNat || (a.toNat == b.toNat && le s t)

/-! ## Numbers -/

/-- A number in decimal. -/
def ofNat (n : Nat) : Text := Nat.toDigits 10 n

/-- A whole number in decimal, with a `-` in front if it is below zero. -/
def ofInt : Int → Text
  | .ofNat n => ofNat n
  | .negSucc n => '-' :: ofNat (n + 1)

/-- The value of a digit. -/
def digit (c : Char) : Nat := c.toNat - '0'.toNat

/-- The number that a row of digits writes. -/
def toNat (digits : Text) : Nat := digits.foldl (fun n c => 10 * n + digit c) 0

/-! ## Lines -/

def spaces (n : Nat) : Text := List.replicate n ' '

/-- The characters behind the last line feed. -/
def lastLine (t : Text) : Text := (t.reverse.takeWhile (· ≠ '\n')).reverse

end Text

end ClassList
