/-!
# Alignment

A text is filled with blanks up to a width, counted in characters. A longer text stays
as it is.
-/

namespace BehaviorTree.Text

def alignLeft (width : Nat) (s : String) : String := s.pushn ' ' (width - s.length)

def alignRight (width : Nat) (s : String) : String := "".pushn ' ' (width - s.length) ++ s

end BehaviorTree.Text
