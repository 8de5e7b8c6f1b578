import TypeStubs.Decimal.Shortest

/-! The text of floating point and complex numbers. -/

namespace TypeStubs

structure FloatFormat where
  /-- Numbers whose point stands more places to the right of the first digit get an exponent. -/
  maxPlaces : Int
  /-- Numbers whose point stands no further to the left of the first digit are written out. -/
  minPlaces : Int
  pointZero : Bool

def FloatFormat.plain : FloatFormat := ⟨16, -4, true⟩

def FloatFormat.part : FloatFormat := ⟨16, -4, false⟩

def zeros (n : Nat) : String := String.ofList (List.replicate n '0')

def exponentText (e : Int) : String :=
  let digits := toString e.natAbs
  (if e < 0 then "e-" else "e+") ++ zeros (2 - digits.length) ++ digits

def placedText (format : FloatFormat) (digits : List Char) (point : Int) : String :=
  let n := digits.length
  if point ≤ format.minPlaces || point > format.maxPlaces then
    String.ofList (digits.take 1) ++
      (if n > 1 then "." ++ String.ofList (digits.drop 1) else "") ++ exponentText (point - 1)
  else if point ≤ 0 then "0." ++ zeros (-point).toNat ++ String.ofList digits
  else if point ≥ n then
    String.ofList digits ++ zeros (point - n).toNat ++ (if format.pointZero then ".0" else "")
  else String.ofList (digits.take point.toNat) ++ "." ++ String.ofList (digits.drop point.toNat)

namespace Binary

def isNegative : Binary → Bool
  | nan => false
  | infinite negative => negative
  | finite negative _ _ => negative

def magnitudeText (format : FloatFormat) : Binary → String
  | nan => "nan"
  | infinite _ => "inf"
  | finite _ mantissa exponent =>
    if mantissa = 0 then if format.pointZero then "0.0" else "0"
    else
      let (n, place) := shortest mantissa exponent
      let digits := Nat.toDigits 10 n
      placedText format digits (digits.length + place)

def formatted (format : FloatFormat) (x : Binary) : String :=
  (if x.isNegative then "-" else "") ++ x.magnitudeText format

def text (x : Binary) : String := x.formatted .plain

def isFinite : Binary → Bool
  | finite .. => true
  | _ => false

/-- The text of a complex number. A real part of zero without sign is left out. -/
def complexText (re im : Binary) : String :=
  match re with
  | finite false 0 _ => im.formatted .part ++ "j"
  | _ =>
    "(" ++ re.formatted .part ++ (if im.isNegative then "" else "+") ++ im.formatted .part ++ "j)"

end Binary

end TypeStubs
