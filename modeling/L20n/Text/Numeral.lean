import L20n.Text.Blank

/-!
Numerals: reading the value of decimal digits, writing integers, and the
digit limit that holds for both.
-/

namespace L20n.Text

def maxDigits : Nat := 4300

structure TooManyDigits where
  digits : Nat

def TooManyDigits.message (e : TooManyDigits) : String :=
  "Exceeds the limit (4300 digits) for integer string conversion: value has "
    ++ String.ofList (Nat.toDigits 10 e.digits)
    ++ " digits; use sys.set_int_max_str_digits() to increase the limit"

/-- The value of a row of decimal digits.  Leading zeros count as digits. -/
def digitsValue (digits : List Char) : Except TooManyDigits Nat :=
  if digits.length ≤ maxDigits then .ok (Nat.ofDigitChars 10 digits 0)
  else .error ⟨digits.length⟩

/-- The value of a number token: its leading digits count and the rest does
not, so `3em` is three and a token without digits is zero. -/
def numberValue (token : List Char) : Except TooManyDigits Nat :=
  digitsValue ((trimStart token).takeWhile Char.isDigit)

/-- The decimal digits of a number, without leading zeros. -/
def decimal (n : Nat) : List Char :=
  Nat.toDigits 10 n

/-- An integer in decimal, with a sign only when it is negative. -/
def signedDecimal (n : Int) : List Char :=
  if n < 0 then '-' :: decimal n.natAbs else decimal n.natAbs

def integer (n : Int) : String :=
  String.ofList (signedDecimal n)

def integerValue (text : List Char) : Except TooManyDigits Int :=
  match text with
  | '-' :: digits => (digitsValue digits).map fun n => -(n : Int)
  | digits => (digitsValue digits).map fun n => (n : Int)

/-- Puts a comma before every third digit from the end, given the digits in
reverse. -/
def groupReversed : List Char → List Char
  | a :: b :: c :: d :: rest => a :: b :: c :: ',' :: groupReversed (d :: rest)
  | digits => digits

def grouped (n : Int) : String :=
  let digits := (groupReversed (decimal n.natAbs).reverse).reverse
  String.ofList (if n < 0 then '-' :: digits else digits)

end L20n.Text
