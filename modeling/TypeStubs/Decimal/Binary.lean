import TypeStubs.CharSet.Blank

/-! Binary floating point numbers of double precision, as exact values. -/

namespace TypeStubs

/-- A floating point number. The finite ones are `± mantissa * 2 ^ exponent`, with a mantissa of at
most 53 bits and an exponent of at least -1074. -/
inductive Binary where
  | nan
  | infinite (negative : Bool)
  | finite (negative : Bool) (mantissa : Nat) (exponent : Int)
deriving DecidableEq, Inhabited

namespace Binary

/-- The quotient rounded to the nearest integer, a tie to the even one. -/
def roundQuotient (num den : Nat) : Nat :=
  let q := num / den
  let twice := 2 * (num % den)
  if twice > den || (twice == den && q % 2 == 1) then q + 1 else q

def minExponent : Int := -1074

def maxExponent : Int := 971

def scale (base : Nat) (e : Int) (num den : Nat) : Nat × Nat :=
  if e ≥ 0 then (num * Nat.pow base e.toNat, den)
  else (num, den * Nat.pow base (-e).toNat)

/-- The nearest number to a positive fraction, a tie to the even mantissa. -/
def ofFraction (negative : Bool) (num den : Nat) : Binary :=
  let estimate : Int := (Nat.log2 num : Int) - Nat.log2 den - 52
  let fits (e : Int) : Bool :=
    let (n, d) := scale 2 (-e) num den
    n / d < Nat.pow 2 53
  let exponent := if fits (estimate - 1) then estimate - 1 else if fits estimate then estimate
    else estimate + 1
  let exponent := max exponent minExponent
  let (n, d) := scale 2 (-exponent) num den
  let mantissa := roundQuotient n d
  let (mantissa, exponent) :=
    if mantissa == Nat.pow 2 53 then (Nat.pow 2 52, exponent + 1) else (mantissa, exponent)
  if exponent > maxExponent then infinite negative else finite negative mantissa exponent

def ofDecimal (negative : Bool) (digits : Nat) (e : Int) : Binary :=
  let size := (Nat.toDigits 10 digits).length + e
  if digits = 0 || size < -400 then finite negative 0 minExponent
  else if size > 400 then infinite negative
  else
    let (num, den) := scale 10 e digits 1
    ofFraction negative num den

def digitRun (cs : List Char) : List Char × List Char := cs.span Char.isDigit

def natOfDigits (ds : List Char) : Nat := ds.foldl (fun n c => n * 10 + (c.toNat - 48)) 0

def exponent? : List Char → Option Int
  | [] => some 0
  | mark :: cs =>
    if mark == 'e' || mark == 'E' then
      let (negative, ds) := match cs with
        | '-' :: ds => (true, ds)
        | '+' :: ds => (false, ds)
        | ds => (false, ds)
      if !ds.isEmpty && ds.all Char.isDigit then
        let n : Int := natOfDigits ds
        some (if negative then -n else n)
      else none
    else none

def unsigned? (negative : Bool) (cs : List Char) : Option Binary := do
  let (whole, rest) := digitRun cs
  let (fraction, rest) := match rest with
    | '.' :: rest => digitRun rest
    | rest => ([], rest)
  if whole.isEmpty && fraction.isEmpty then none
  let e ← exponent? rest
  return ofDecimal negative (natOfDigits (whole ++ fraction)) (e - fraction.length)

/-- Reads a number: decimal digits, infinity or no number, with perhaps a sign. -/
def ofText? (s : String) : Option Binary :=
  let cs := (trim s.toList).filter (· != '_')
  let (negative, cs) := match cs with
    | '-' :: cs => (true, cs)
    | '+' :: cs => (false, cs)
    | cs => (false, cs)
  match String.ofList (cs.map Char.toLower) with
  | "nan" => some nan
  | "inf" => some (infinite negative)
  | "infinity" => some (infinite negative)
  | _ => unsigned? negative cs

end Binary

end TypeStubs
