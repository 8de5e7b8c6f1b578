/-! Structured data: nothing, truth values, numbers, texts, lists and records. -/

namespace TypeStubs

/-- Structured data. A number is `digits * 10 ^ exponent`. -/
inductive Json where
  | null
  | bool (b : Bool)
  | number (digits exponent : Int)
  | text (s : String)
  | list (items : List Json)
  | record (fields : List (String × Json))
deriving Inhabited

namespace Json

def field? : Json → String → Option Json
  | record fields, name => fields.lookup name
  | _, _ => none

def text? : Json → Option String
  | text s => some s
  | _ => none

def bool? : Json → Option Bool
  | bool b => some b
  | _ => none

def textField? (j : Json) (name : String) : Option String := (j.field? name).bind text?

def textField (j : Json) (name : String) (default : String := "") : String :=
  (j.textField? name).getD default

def flagField (j : Json) (name : String) (default : Bool) : Bool :=
  ((j.field? name).bind bool?).getD default

def items : Json → List Json
  | list xs => xs
  | _ => []

def fields : Json → List (String × Json)
  | record fs => fs
  | _ => []

end Json

mutual

def Json.depth : Json → Nat
  | .list xs => 1 + Json.depthOfItems xs
  | .record fs => 1 + Json.depthOfFields fs
  | _ => 1

def Json.depthOfItems : List Json → Nat
  | [] => 0
  | x :: xs => max x.depth (Json.depthOfItems xs)

def Json.depthOfFields : List (String × Json) → Nat
  | [] => 0
  | (_, x) :: fs => max x.depth (Json.depthOfFields fs)

end

end TypeStubs
