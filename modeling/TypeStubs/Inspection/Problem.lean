import TypeStubs.Name
import TypeStubs.Text.Quoted

/-! What can be wrong with the objects of a module, and the messages of a run. -/

namespace TypeStubs

inductive Problem where
  | identifier (name : String) (site : QualifiedName)
  | expression (text : String)
  | name (path : QualifiedName)
deriving DecidableEq

def Problem.text : Problem → String
  | .identifier found site => "Invalid identifier '" ++ found ++ "' at '" ++ site.text ++ "'"
  | .expression text => "Invalid expression '" ++ text ++ "'"
  | .name path => "Can't find/import '" ++ path.text ++ "'"

inductive Level where
  | error
  | warning
  | info
deriving DecidableEq

structure Message where
  level : Level
  text : String
deriving DecidableEq

inductive Failure where
  /-- A problem was found outside of everything that is inspected. -/
  | noLayer
  | emptyModuleName
  | relativeModuleName
  | moduleNotFound (name : String)
  /-- A size has something other than integers. -/
  | badInteger (text : String)
  /-- An object has no name or module where one is needed. -/
  | missingAttribute
  /-- A name makes a signature pattern that is none. -/
  | badPattern
  /-- A value was to be compared with a pattern that was given as nothing. -/
  | noPattern
  | tooManyTimes
  /-- A signature matched without the text of its parameters or of its result. -/
  | missingText
  | manyOverloads
  | terminated
  | endless
deriving DecidableEq

/-- The failure in words. Some failures have no words of their own, and a text that is no integer is
shown up to a length. -/
def Failure.message : Failure → String
  | emptyModuleName => "Empty module name"
  | moduleNotFound name => "No module named " ++ Quoted.text name
  | badInteger text =>
    "invalid literal for int() with base 10: " ++ String.ofList ((Quoted.text text).toList.take 200)
  | manyOverloads => "Multiple overloads in property's getters/setters are not supported"
  | terminated => "1"
  | _ => ""

def Failure.isUnfit : Failure → Bool
  | relativeModuleName | missingText => true
  | _ => false

end TypeStubs
