/-! Unsigned 64-bit numbers in decimal: one optional plus sign, then digits.
The digits are read from the left and the first problem met is reported. -/
namespace TapeLang.Text

inductive NumeralError where
  | empty
  | invalidDigit
  | tooLarge
deriving DecidableEq, Repr

def NumeralError.message : NumeralError → String
  | .empty => "cannot parse integer from empty string"
  | .invalidDigit => "invalid digit found in string"
  | .tooLarge => "number too large to fit in target type"

namespace Numeral

/-- Numbers stay below this bound. -/
def bound : Nat := UInt64.size

def digit? (c : Char) : Option Nat :=
  if c.isDigit then some (c.toNat - '0'.toNat) else none

def readDigits : Nat → List Char → Except NumeralError Nat
  | n, [] => .ok n
  | n, c :: rest =>
    match digit? c with
    | none => .error .invalidDigit
    | some d => if 10 * n + d < bound then readDigits (10 * n + d) rest else .error .tooLarge

def parseChars : List Char → Except NumeralError Nat
  | [] => .error .empty
  | '+' :: [] => .error .invalidDigit
  | '+' :: rest => readDigits 0 rest
  | text => readDigits 0 text

def parse (text : String) : Except NumeralError Nat := parseChars text.toList

end Numeral
end TapeLang.Text
