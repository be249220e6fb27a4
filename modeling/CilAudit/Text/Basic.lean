set_option autoImplicit false

/-! Numbers as hexadecimal digits, text of a least width, and how a text starts. -/

namespace CilAudit.Text

/-- The text `s` with copies of `c` in front, so that it has at least `width` characters. -/
def padLeft (width : Nat) (c : Char) (s : String) : String :=
  String.ofList (List.replicate (width - s.length) c) ++ s

/-- The text `s` followed by blanks, so that it has at least `width` characters. -/
def padRight (width : Nat) (s : String) : String :=
  s ++ String.ofList (List.replicate (width - s.length) ' ')

/-- The number `n` in hexadecimal, lower case, with at least `width` digits. -/
def hex (width n : Nat) : String :=
  padLeft width '0' (String.ofList (Nat.toDigits 16 n))

/-- The number `n` in hexadecimal, upper case, with at least `width` digits. -/
def hexUpper (width n : Nat) : String :=
  padLeft width '0' (String.ofList ((Nat.toDigits 16 n).map Char.toUpper))

/-- An integer with its sign, also when it is positive. -/
def signed (i : Int) : String :=
  if 0 ≤ i then "+" ++ i.repr else i.repr

/-- True if `s` starts with `lead`. -/
def startsWith (s lead : String) : Bool :=
  lead.toList.isPrefixOf s.toList

end CilAudit.Text
