/-!
# Columns

Listings and dumps align their columns.  A width counts characters, and text
that is wider than its column is not cut.
-/

namespace PCode.Text

/-- Spaces, `n` of them. -/
def spaces (n : Nat) : String := String.ofList (List.replicate n ' ')

/-- Text at the left of a column. -/
def padRight (width : Nat) (s : String) : String := s ++ spaces (width - s.length)

/-- Text at the right of a column. -/
def padLeft (width : Nat) (s : String) : String := spaces (width - s.length) ++ s

/-- An integer at the right of a column, filled with zeros after its sign. -/
def padZeros (width : Nat) (n : Int) : String :=
  let digits := toString n.natAbs
  let sign := if n < 0 then "-" else ""
  sign ++ String.ofList (List.replicate (width - sign.length - digits.length) '0') ++ digits

/-- Text without the spaces at its end. -/
def trimRight (s : String) : String :=
  String.ofList (s.toList.reverse.dropWhile (· = ' ')).reverse

end PCode.Text
