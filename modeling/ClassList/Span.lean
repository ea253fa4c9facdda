-- Ranges of byte offsets.
import ClassList.Text

namespace ClassList

/-- The offsets from `start` up to, not including, `stop`. -/
structure Span where
  start : Nat
  stop : Nat
deriving DecidableEq

namespace Span

/-- The offset stands in the range. The stop does not, so an empty range holds nothing. -/
def contains (s : Span) (n : Nat) : Bool := s.start ≤ n && n < s.stop

/-- The range `t` lies in `s`. Both may end at the same place. -/
def encloses (s t : Span) : Bool := s.start ≤ t.start && t.stop ≤ s.stop

/-- The smallest range around both. -/
def cover (s t : Span) : Span := ⟨min s.start t.start, max s.stop t.stop⟩

/-- The range of a text that starts at an offset. -/
def ofText (start : Nat) (t : Text) : Span := ⟨start, start + t.size⟩

end Span

end ClassList
