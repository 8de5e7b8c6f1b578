import TypeStubs.Json
import TypeStubs.World.Description

/-! Reading the description of modules from structured data. Every object but a plain value is a
record whose field `k` tells its kind. -/

namespace TypeStubs

/-- Where an object is described: the name it stands under, its module and the class around it. -/
structure Spot where
  key : String
  module : String
  owner : String := ""

def Spot.qualified (p : Spot) : String :=
  if p.owner == "" then p.key else p.owner ++ "." ++ p.key

/-- The module of an object: the one around it unless it gives another, or none at all. -/
def Spot.moduleOf (p : Spot) (j : Json) : Option String :=
  match j.field? "module" with
  | none => some p.module
  | some m => m.text?

def BaseType.ofText : String → BaseType
  | "int" => .int
  | "str" => .str
  | "float" => .float
  | "list" => .list
  | "dict" => .dict
  | "tuple" => .tuple
  | _ => .object

def ParameterKind.ofText : String → ParameterKind
  | "po" => .positionOnly
  | "va" => .variadic
  | "ko" => .keywordOnly
  | "vk" => .keywordVariadic
  | _ => .plain

def hexDigitValue (c : Char) : Nat :=
  if c.isDigit then c.toNat - 48 else c.toLower.toNat - 87

def bytesOfHex : List Char → List Nat
  | high :: low :: cs => (hexDigitValue high * 16 + hexDigitValue low) :: bytesOfHex cs
  | _ => []

def binaryOfText (s : String) : Binary := (Binary.ofText? s).getD .nan

def integerOf (digits exponent : Int) : Int :=
  if exponent ≥ 0 then digits * (Nat.pow 10 exponent.toNat : Nat)
  else digits.tdiv (Nat.pow 10 (-exponent).toNat : Nat)

namespace Object

def ofTyping (name : String) : Object := (Typing.asModule.members.lookup name).getD (.special name)

def ofValueRecord (j : Json) : Object :=
  .value ⟨j.textField? "module", j.textField "type"⟩ (.ofText (j.textField "base"))
    (j.textField "repr")

def routineIdentity (p : Spot) (j : Json) : Identity where
  name? := some (j.textField "name" p.key)
  qualified? := some (j.textField "qualname" p.qualified)
  module? := p.moduleOf j
  doc? := j.textField? "doc"

/-- A native function. Its name inside the module may be that of a capsule, and an empty docstring
is none. -/
def ofNativeRecord (p : Spot) (j : Json) : Object :=
  let name := j.textField "name" p.key
  let qualified := if j.flagField "capsule" false then "PyCapsule." ++ name else name
  .routine .native
    ⟨some name, some qualified, p.moduleOf j, (j.textField? "doc").filter (· != "")⟩ Option.none

def ofDescriptorRecord (p : Spot) (j : Json) : Object :=
  .descriptor ⟨j.textField? "name", j.textField? "qualname", p.moduleOf j, j.textField? "doc"⟩
    (j.flagField "get" true) (j.flagField "set" false)

/-- Reads the description of an object. The number of steps bounds the nesting. -/
def ofJson : Nat → Spot → Json → Object
  | 0, _, _ => .none
  | n + 1, p, j =>
    let inner := ofJson n p
    let part (name : String) : Option Object :=
      match j.field? name with
      | some .null => Option.none
      | some f => some (ofJson n { p with key := "" } f)
      | Option.none => Option.none
    let hint (h : Json) : Object :=
      match h with
      | .text s => .str s
      | h => ((h.field? "v").map inner).getD .none
    let parameter (a : Json) : Parameter Object :=
      ⟨a.textField "n", .ofText (a.textField "kind"), (a.field? "default").map inner,
        (a.field? "ann").map hint⟩
    let values := ((j.field? "v").getD .null).items
    let members := ((j.field? "members").getD .null).fields
    match j with
    | .null => .none
    | .bool b => .bool b
    | .number digits exponent => .int (integerOf digits exponent)
    | .text s => .str s
    | .list _ => .none
    | .record _ =>
      match j.textField "k" with
      | "float" => .float (binaryOfText (j.textField "v"))
      | "complex" => .complex (binaryOfText (j.textField "re")) (binaryOfText (j.textField "im"))
      | "bytes" => .bytes (bytesOfHex (j.textField "v").toList)
      | "list" => .list (values.map inner)
      | "tuple" => .tuple (values.map inner)
      | "set" => .set (values.map inner)
      | "dict" => dictOf (values.filterMap fun e =>
          match e.items with
          | [k, v] => some (inner k, inner v)
          | _ => Option.none)
      | "obj" => ofValueRecord j
      | "builtin" => ofNativeRecord p j
      | "func" => .routine .function (routineIdentity p j) (some
          ⟨((j.field? "args").getD .null).items.map parameter, (j.field? "ret").map hint⟩)
      | "static" => .wrapped .shared (inner ((j.field? "f").getD .null))
      | "classmethod" => .wrapped .classwide (inner ((j.field? "f").getD .null))
      | "property" => .property (part "fget") (part "fset") (j.textField? "doc")
      | "descriptor" => ofDescriptorRecord p j
      | "typing" => ofTyping (j.textField "name")
      | "ref" => .ref (.ofText (j.textField "path"))
      | "class" =>
        let home := p.moduleOf j
        let qualified := j.textField "qualname" p.qualified
        .classDef ⟨some (j.textField "name" p.key), some qualified, home, j.textField? "doc"⟩
          (.builtin "type")
          ((((j.field? "bases").getD .null).items.filterMap Json.text?).map QualifiedName.ofText)
          (members.map fun m => (m.1, ofJson n ⟨m.1, home.getD "", qualified⟩ m.2))
      | "module" => ofModuleRecord (ofJson n) j
      | _ => .none
where
  ofModuleRecord (inner : Spot → Json → Object) (j : Json) : Object :=
    let name := j.textField "name"
    .moduleDef name (j.textField? "doc")
      (((j.field? "members").getD .null).fields.map fun m => (m.1, inner ⟨m.1, name, ""⟩ m.2))

def ofDescription (p : Spot) (j : Json) : Object := ofJson j.depth p j

def ofModuleDescription (j : Json) : Object := ofJson.ofModuleRecord (ofJson j.depth) j

end Object

def World.ofJson (j : Json) : Except WorldError World :=
  World.ofDescription (j.items.map Object.ofModuleDescription)

end TypeStubs
