import TypeStubs.Object

/-! Objects as keys of dictionaries. -/

namespace TypeStubs

/-- A finite number as a multiple of a power of two, the multiple odd or zero. -/
structure Dyadic where
  multiple : Int
  power : Int
deriving DecidableEq

/-- The number with as many factors two moved into the power as there are, but not more than the
given number. -/
def Dyadic.reduced : Nat → Dyadic → Dyadic
  | 0, d => d
  | n + 1, d =>
    if d.multiple = 0 then ⟨0, 0⟩
    else if d.multiple % 2 = 0 then reduced n ⟨d.multiple / 2, d.power + 1⟩
    else d

def Dyadic.of (multiple power : Int) : Dyadic :=
  Dyadic.reduced (multiple.natAbs.log2 + 1) ⟨multiple, power⟩

inductive NumberKey where
  | finite (d : Dyadic)
  | infinite (negative : Bool)
deriving DecidableEq

def NumberKey.ofBinary : Binary → Option NumberKey
  | .nan => none
  | .infinite negative => some (.infinite negative)
  | .finite negative mantissa exponent =>
    some (.finite (.of (if negative then -mantissa else mantissa) exponent))

namespace Object

def isKey : Object → Bool
  | list _ | set _ | dict _ => false
  | value _ .list _ | value _ .dict _ => false
  | tuple items => areKeys items
  | _ => true
where
  areKeys : List Object → Bool
    | [] => true
    | o :: os => o.isKey && areKeys os

def number? : Object → Option (NumberKey × NumberKey)
  | bool b => real (Dyadic.of (if b then 1 else 0) 0)
  | int n => real (Dyadic.of n 0)
  | value _ .int _ | value _ .float _ => real (Dyadic.of 0 0)
  | float x => (NumberKey.ofBinary x).map (·, .finite (.of 0 0))
  | complex re im => do return (← NumberKey.ofBinary re, ← NumberKey.ofBinary im)
  | _ => Option.none
where
  real (d : Dyadic) : Option (NumberKey × NumberKey) := some (.finite d, .finite (.of 0 0))

/-- Two objects are the same key: equal numbers of any type, equal texts, equal items. Other objects
are the same key only if they are one object. -/
def isSameKey : Object → Object → Bool
  | none, none => true
  | bytes xs, bytes ys => xs = ys
  | ref p, ref q => p = q
  | special m, special n => m = n
  | tuple xs, tuple ys => areSameKeys xs ys
  | tuple xs, value _ .tuple _ => xs.isEmpty
  | value _ .tuple _, tuple ys => ys.isEmpty
  | value _ .tuple _, value _ .tuple _ => true
  | a, b =>
    match a.number?, b.number?, a.text?, b.text? with
    | some m, some n, _, _ => m = n
    | _, _, some s, some t => s = t
    | _, _, _, _ => false
where
  areSameKeys : List Object → List Object → Bool
    | [], [] => true
    | x :: xs, y :: ys => x.isSameKey y && areSameKeys xs ys
    | _, _ => false

/-- Puts an entry into a dictionary. An entry with the same key keeps its key and its place. -/
def putEntry (key val : Object) : List (Object × Object) → List (Object × Object)
  | [] => [(key, val)]
  | (k, v) :: es => if k.isSameKey key then (k, val) :: es else (k, v) :: putEntry key val es

def dictOf (entries : List (Object × Object)) : Object :=
  dict (entries.foldl (fun es e => putEntry e.1 e.2 es) [])

end Object

end TypeStubs
