import TypeStubs.CharSet.Blank
import TypeStubs.CharSet.Decimal

/-! Reading integers. -/

namespace TypeStubs

def maxDigits : Nat := 4300

/-- The value of decimal digits after the ones read so far. A single underscore may stand between
two digits. -/
def digitsValue? : (read : Nat) → List Char → Option Nat
  | read, [] => some read
  | read, '_' :: c :: cs =>
    match decimalValue? c with
    | some d => digitsValue? (read * 10 + d) cs
    | none => none
  | read, c :: cs =>
    match decimalValue? c with
    | some d => digitsValue? (read * 10 + d) cs
    | none => none

def readNatural? : List Char → Option Nat
  | [] => none
  | c :: cs =>
    match decimalValue? c with
    | some d =>
      if (c :: cs).countP (· != '_') > maxDigits then none else digitsValue? d cs
    | none => none

/-- The blanks that may stand around an integer. Separators of information are none of them. -/
def isMargin (c : Char) : Bool := isBlank c && !(28 ≤ c.toNat && c.toNat ≤ 31)

/-- The integer that a text denotes. There may be blanks around it and a sign before it. -/
def readInteger? (text : List Char) : Option Int :=
  match ((text.dropWhile isMargin).reverse.dropWhile isMargin).reverse with
  | '-' :: cs => (readNatural? cs).map fun n => -(n : Int)
  | '+' :: cs => (readNatural? cs).map fun n => (n : Int)
  | cs => (readNatural? cs).map fun n => (n : Int)

end TypeStubs
