/-!
# Decimal numbers

Numbers are 32-bit words in two's complement. Their text is an optional sign and decimal digits.

* `decimal`: the text of a number, with a minus sign if it is negative and no leading zero.
* `natural?`: the value of a run of digits of any length, leading zeros allowed.
* `readWord?`: the word that a text with an optional sign denotes, if its value fits.
-/

namespace Blockwork

/-- The decimal text of a number. -/
def decimal (n : Int) : List Char :=
  if n < 0 then '-' :: Nat.toDigits 10 n.natAbs else Nat.toDigits 10 n.natAbs

/-- The value of a non-empty run of ASCII digits. -/
def natural? (cs : List Char) : Option Nat :=
  if !cs.isEmpty && cs.all Char.isDigit then some (Nat.ofDigitChars 10 cs 0) else none

/-- The value of a run of digits after at most one sign. -/
def integer? : List Char → Option Int
  | '+' :: cs => (natural? cs).map Int.ofNat
  | '-' :: cs => (natural? cs).map fun n => -Int.ofNat n
  | cs => (natural? cs).map Int.ofNat

/-- The word with a given value, if the value is between `-2^31` and `2^31 - 1`. -/
def toWord? (n : Int) : Option Int32 :=
  if Int32.minValue.toInt ≤ n ∧ n ≤ Int32.maxValue.toInt then some (Int32.ofInt n) else none

/-- The word that a text denotes. -/
def readWord? (cs : List Char) : Option Int32 :=
  (integer? cs).bind toWord?

theorem toWord?_toInt (w : Int32) : toWord? w.toInt = some w := by
  have h₁ := Int32.minValue_le_toInt w
  have h₂ := Int32.toInt_le w
  rw [toWord?, if_pos ⟨h₁, h₂⟩, Int32.ofInt_toInt]

end Blockwork
