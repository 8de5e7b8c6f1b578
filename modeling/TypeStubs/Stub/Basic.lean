import TypeStubs.Name

/-! What a stub holds: modules, classes, functions, attributes, and the hints and values
they mention. -/

namespace TypeStubs

/-- A value as it is written in a stub. `printSafe` says that the text can stand as a value;
otherwise it is only shown in a comment. -/
structure Value where
  text : String
  printSafe : Bool := false
deriving DecidableEq, Inhabited

inductive Expression where
  | value (v : Value)
  | invalid (text : String)
deriving DecidableEq, Inhabited

/-- A type hint, what stands where a type is expected: a named type with its parameters, if it has a
list of them, or any other expression. -/
inductive Hint where
  | type (name : QualifiedName) (parameters : Option (List Hint))
  | expression (e : Expression)
deriving Inhabited

mutual

def Hint.decEq : (a b : Hint) → Decidable (a = b)
  | .type n none, .type m none =>
    if h : n = m then isTrue (by rw [h]) else isFalse (by simp [h])
  | .type n (some ps), .type m (some qs) =>
    if h : n = m then
      match Hint.decEqList ps qs with
      | isTrue h' => isTrue (by rw [h, h'])
      | isFalse h' => isFalse (by simp [h'])
    else isFalse (by simp [h])
  | .type _ none, .type _ (some _) => isFalse (by simp)
  | .type _ (some _), .type _ none => isFalse (by simp)
  | .expression e, .expression f =>
    if h : e = f then isTrue (by rw [h]) else isFalse (by simp [h])
  | .type _ _, .expression _ => isFalse (by simp)
  | .expression _, .type _ _ => isFalse (by simp)

def Hint.decEqList : (as bs : List Hint) → Decidable (as = bs)
  | [], [] => isTrue rfl
  | a :: as, b :: bs =>
    match Hint.decEq a b, Hint.decEqList as bs with
    | isTrue h, isTrue h' => isTrue (by rw [h, h'])
    | isFalse h, _ => isFalse (by simp [h])
    | _, isFalse h' => isFalse (by simp [h'])
  | [], _ :: _ => isFalse (by simp)
  | _ :: _, [] => isFalse (by simp)

end

instance : DecidableEq Hint := Hint.decEq

structure Alias where
  name : String
  origin : QualifiedName
deriving DecidableEq, Inhabited

structure TypeVariable where
  name : String
  constraints : List Hint := []
  bound : Option Hint := none
  covariant : Bool := false
  contravariant : Bool := false
deriving DecidableEq, Inhabited

structure Attribute where
  name : String
  value : Option Value
  hint : Option Hint := none
deriving DecidableEq, Inhabited

structure Argument where
  name : Option String
  positionOnly : Bool := false
  keywordOnly : Bool := false
  variadic : Bool := false
  keywordVariadic : Bool := false
  default : Option Expression := none
  hint : Option Hint := none
deriving DecidableEq, Inhabited

structure Function where
  name : String
  arguments : List Argument := []
  returns : Option Hint := none
  doc : Option String := none
  decorators : List String := []
deriving DecidableEq, Inhabited

/-- How a member is bound to its class. Only the first three have a place in a class body. -/
inductive Modifier where
  | plain
  | static
  | classwide
  | other (label : String)
deriving DecidableEq, Inhabited

structure Property where
  name : String
  modifier : Modifier := .plain
  doc : Option String := none
  getter : Option Function := none
  setter : Option Function := none
deriving DecidableEq, Inhabited

structure Method where
  function : Function
  modifier : Modifier
deriving DecidableEq, Inhabited

structure Field where
  attr : Attribute
  modifier : Modifier
deriving DecidableEq, Inhabited

structure Class where
  name : String
  doc : Option String := none
  bases : List QualifiedName := []
  classes : List Class := []
  fields : List Field := []
  methods : List Method := []
  properties : List Property := []
  aliases : List Alias := []
deriving Inhabited

/-- An import. With a name it binds that name to `origin`, without one it imports the module
`origin`. -/
structure Import where
  name : Option String
  origin : QualifiedName
deriving DecidableEq, Inhabited

structure Module where
  name : String
  doc : Option String := none
  classes : List Class := []
  functions : List Function := []
  subModules : List Module := []
  attributes : List Attribute := []
  imports : List Import := []
  aliases : List Alias := []
  typeVariables : List TypeVariable := []
deriving Inhabited

namespace Import

/-- By origin; of one origin the import without a name first, then by name. -/
def le (a b : Import) : Bool :=
  if a.origin = b.origin then
    match a.name, b.name with
    | none, _ => true
    | some _, none => false
    | some x, some y => decide (x ≤ y)
  else a.origin.le b.origin

def insert (i : Import) (imports : List Import) : List Import :=
  if i ∈ imports then imports else imports ++ [i]

@[simp] theorem mem_insert {i j : Import} {imports : List Import} :
    j ∈ i.insert imports ↔ j = i ∨ j ∈ imports := by
  unfold insert
  split
  · rename_i h
    constructor
    · exact .inr
    · rintro (rfl | hj)
      · exact h
      · exact hj
  · simp [or_comm]

def union (first second : List Import) : List Import :=
  second.foldl (fun all i => i.insert all) first

theorem mem_union {i : Import} {first second : List Import} :
    i ∈ union first second ↔ i ∈ first ∨ i ∈ second := by
  unfold union
  induction second generalizing first with
  | nil => simp
  | cons j second ih =>
    rw [List.foldl_cons, ih, mem_insert, List.mem_cons, or_assoc, or_left_comm]

end Import

end TypeStubs
