import TypeStubs.Inspection.Names
import TypeStubs.Text.Address

/-! Objects written as values. -/

namespace TypeStubs

def Object.displayText : Object → String
  | .none => "None"
  | .bool b => if b then "True" else "False"
  | .int n => toString n
  | .str s => Quoted.text s
  | .float x => x.text
  | .complex re im => Binary.complexText re im
  | .bytes bs => Quoted.bytes bs
  | .value _ _ text => text
  | .routine .native identity _ => "<built-in function " ++ identity.name?.getD "" ++ ">"
  | .routine .function identity _ => "<function " ++ identity.qualified?.getD "" ++ " at 0x0>"
  | .bound owner inner =>
    "<bound method " ++ (inner.qualified?.or inner.name?).getD "?" ++ " of " ++ owner ++ ">"
  | .property _ _ _ => "<property object at 0x0>"
  | .descriptor identity _ _ => "<" ++ identity.module?.getD "" ++ ".Descriptor object at 0x0>"
  | .wrapped wrapping inner => "<" ++ wrapping.name ++ "(" ++ inner.displayText ++ ")>"
  | .classDef identity metatype bases ms => (Object.classDef identity metatype bases ms).classText
  | .moduleDef name _ _ => name
  | .special name => Typing.textOf name
  | _ => ""

/-- The text of an object is a literal or a name that can be written into a stub. -/
def Object.isLiteral : Object → Bool
  | .none | .bool _ | .int _ | .str _ | .moduleDef .. => true
  | .float x => x.isFinite
  | .complex re im => re.isFinite && im.isFinite
  | _ => false

/-- The name under which a routine can be written: its module and its name there. Names of local
routines cannot be written. -/
def Object.routineName? (o : Object) : Option String := do
  let m ← o.moduleName?
  let q ← o.qualified?
  if m.toList.contains '<' || q.toList.contains '<' then Option.none
  return if m = "builtins" then q else m ++ "." ++ q

def Value.withoutAddresses (v : Value) : Value :=
  { v with text := TypeStubs.withoutAddresses v.text }

namespace Inspection

def routineValue (o : Object) : Inspection Value := do
  let v : Value := match o.routineName? with
    | some text => ⟨text, true⟩
    | none => ⟨o.displayText, false⟩
  let v := v.withoutAddresses
  let v := { v with text := (← withoutModule (.ofText v.text)).text }
  if v.printSafe then requireImport (.ofText v.text)
  return v

def simpleValue (o : Object) : Inspection Value := do
  if o.isRoutine then routineValue o
  else if o.isClass then return (Value.mk (← typeNameOf o).text true).withoutAddresses
  else return (Value.mk o.displayText o.isLiteral).withoutAddresses

def collectionValue (type left right : String) (items : List Value) : Value :=
  if items.isEmpty then ⟨type ++ "()", true⟩
  else Value.withoutAddresses
    ⟨left ++ joinWith ", " (items.map Value.text) ++ right, items.all Value.printSafe⟩

def dictValue (entries : List (Value × Value)) : Value :=
  Value.withoutAddresses
    ⟨"\x7b" ++ joinWith ", " (entries.map fun e => e.1.text ++ ": " ++ e.2.text) ++ "\x7d",
      entries.all fun e => e.1.printSafe && e.2.printSafe⟩

mutual

def valueWith (follow : Object → Inspection Value) : Object → Inspection Value
  | .list xs => return collectionValue "list" "[" "]" (← valuesWith follow xs)
  | .tuple xs => return collectionValue "tuple" "(" ")" (← valuesWith follow xs)
  | .set xs => return collectionValue "set" "\x7b" "\x7d" (← valuesWith follow xs)
  | .dict es => return dictValue (← entriesWith follow es)
  | .ref path => do follow (← settle (.ref path))
  | .wrapped wrapping inner => do simpleValue (← settle (.wrapped wrapping inner))
  | o => simpleValue o

def valuesWith (follow : Object → Inspection Value) : List Object → Inspection (List Value)
  | [] => return []
  | o :: os => do
    let v ← valueWith follow o
    return v :: (← valuesWith follow os)

def entriesWith (follow : Object → Inspection Value) :
    List (Object × Object) → Inspection (List (Value × Value))
  | [] => return []
  | (k, v) :: es => do
    let key ← valueWith follow k
    let val ← valueWith follow v
    return (key, val) :: (← entriesWith follow es)

end

def valueWithin : Nat → Object → Inspection Value
  | 0, _ => throw .endless
  | n + 1, o => valueWith (valueWithin n) o

def value (o : Object) : Inspection Value := do valueWithin (← world).reach o

def textsValue (texts : List String) : Value :=
  collectionValue "list" "[" "]" <| texts.map fun s =>
    (Value.mk (Quoted.text s) true).withoutAddresses

def sizeValue (size : ArraySize) : Inspection Value := do
  let _ ← typeName ⟨some ArraySize.moduleName, size.className⟩
  return (Value.mk size.text false).withoutAddresses

end Inspection

end TypeStubs
