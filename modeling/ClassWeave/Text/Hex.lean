/-!
# Hexadecimal numbers of a fixed width
-/

namespace ClassWeave.Hex

/-- The lowest `width` hexadecimal digits of a number, as digit values, highest first. -/
def digitValues : Nat → Nat → List Nat
  | 0, _ => []
  | width + 1, n => digitValues width (n / 16) ++ [n % 16]

def upperDigit (d : Nat) : Char := Char.ofNat (if d < 10 then 48 + d else 55 + d)

def lowerDigit (d : Nat) : Char := Char.ofNat (if d < 10 then 48 + d else 87 + d)

def upper (width n : Nat) : String := String.ofList ((digitValues width n).map upperDigit)

def lower (width n : Nat) : String := String.ofList ((digitValues width n).map lowerDigit)

end ClassWeave.Hex
