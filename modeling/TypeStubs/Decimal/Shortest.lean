import TypeStubs.Decimal.Binary

/-! The shortest decimal that reads back as a given floating point number, and of those the nearest
one. -/

namespace TypeStubs.Binary

structure Fraction where
  num : Nat
  den : Nat

def Fraction.le (a b : Fraction) : Bool := a.num * b.den ≤ b.num * a.den

def Fraction.lt (a b : Fraction) : Bool := a.num * b.den < b.num * a.den

def binaryFraction (n : Nat) (e : Int) : Fraction :=
  let (num, den) := scale 2 e n 1
  ⟨num, den⟩

def decimalFraction (n : Nat) (e : Int) : Fraction :=
  let (num, den) := scale 10 e n 1
  ⟨num, den⟩

def leadingExponent (f : Fraction) : Int :=
  if f.den ≤ f.num then ((Nat.toDigits 10 (f.num / f.den)).length : Int) - 1
  else
    let size := (Nat.toDigits 10 (f.den / f.num)).length
    if f.den ≤ f.num * Nat.pow 10 (size - 1) then -((size : Int) - 1) else -(size : Int)

/-- A decimal reads back as the number `mantissa * 2 ^ exponent`: it lies between the middles to the
neighbours; the middles themselves belong to even mantissas. -/
def readsBack (mantissa : Nat) (exponent : Int) (f : Fraction) : Bool :=
  let atPower := mantissa == Nat.pow 2 52 && exponent > minExponent
  let low := if atPower then binaryFraction (4 * mantissa - 1) (exponent - 2)
    else binaryFraction (2 * mantissa - 1) (exponent - 1)
  let high := binaryFraction (2 * mantissa + 1) (exponent - 1)
  if mantissa % 2 == 0 then low.le f && f.le high else low.lt f && f.lt high

/-- Of the two decimals next to the number with a given last place, the nearest one that reads
back. -/
def nearestOnGrid? (mantissa : Nat) (exponent place : Int) : Option Nat :=
  let f := binaryFraction mantissa exponent
  let (num, den) := scale 10 (-place) f.num f.den
  let below := num / den
  let twice := 2 * (num % den)
  let nearer := if twice > den || (twice == den && below % 2 == 1) then below + 1 else below
  let farther := if nearer == below then below + 1 else below
  [nearer, farther].find? fun n =>
    n > 0 && readsBack mantissa exponent (decimalFraction n place)

/-- The decimal with the fewest digits that reads back, as digits and the place of the last one. The
search starts one place above the leading digit, where a number just below a power of ten finds that
power. -/
def shortest (mantissa : Nat) (exponent : Int) : Nat × Int :=
  let top := leadingExponent (binaryFraction mantissa exponent)
  let found := (List.range 18).findSome? fun (k : Nat) =>
    let place := top + 1 - (k : Int)
    (nearestOnGrid? mantissa exponent place).map (·, place)
  found.getD (0, 0)

end TypeStubs.Binary
