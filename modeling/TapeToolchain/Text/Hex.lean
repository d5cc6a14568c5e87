/-!
Lower-case hexadecimal text of natural numbers, plain and padded with zeros.
-/

namespace TapeToolchain.Hex

def digit (n : Nat) : Char :=
  if n < 10 then Char.ofNat ('0'.toNat + n) else Char.ofNat ('a'.toNat + (n - 10))

/-- The digits of `n`, most significant first; zero has one digit. -/
def digits (n : Nat) : List Char :=
  if n < 16 then [digit n] else digits (n / 16) ++ [digit (n % 16)]
termination_by n

/-- The shortest text of `n`. -/
def text (n : Nat) : String :=
  String.ofList (digits n)

/-- The text of `n` with zeros in front up to `width` digits; a longer number keeps all its digits.
-/
def padded (width n : Nat) : String :=
  String.ofList (List.replicate (width - (digits n).length) '0' ++ digits n)

end TapeToolchain.Hex
