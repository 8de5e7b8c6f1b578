import TypeStubs.Text.Quoted

/-! Sizes of arrays, as they are written in annotations. -/

namespace TypeStubs

inductive Dimension where
  | number (n : Int)
  | named (name : String)
deriving DecidableEq

/-- The sizes of an array in all its dimensions. A fixed size has numbers only. -/
inductive ArraySize where
  | fixed (dims : List Dimension)
  | dynamic (dims : List Dimension)
deriving DecidableEq

def ArraySize.moduleName : String := "pybind11_stubgen.typing_ext"

def ArraySize.className : ArraySize → String
  | .fixed _ => "FixedSize"
  | .dynamic _ => "DynamicSize"

def ArraySize.dimensionTexts : ArraySize → List String
  | .fixed dims => dims.map fun
    | .number n => toString n
    | .named name => name
  | .dynamic dims => dims.map fun
    | .number n => toString n
    | .named name => Quoted.text name

def ArraySize.text (s : ArraySize) : String :=
  ArraySize.moduleName ++ "." ++ s.className ++ "(" ++ ", ".intercalate s.dimensionTexts ++ ")"

def ArraySize.ofDimensions (dims : List Dimension) : ArraySize :=
  if dims.all fun | .number _ => true | .named _ => false then .fixed dims else .dynamic dims

end TypeStubs
