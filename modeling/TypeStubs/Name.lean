import TypeStubs.Text.Split

/-! Qualified names: the dotted names of modules, classes and members. -/

namespace TypeStubs

/-- The parts of a dotted name, outermost first. -/
structure QualifiedName where
  parts : List String
deriving DecidableEq, Inhabited

namespace QualifiedName

/-- Cuts a dotted text at every dot. The empty text is the name of one empty part. -/
def ofText (s : String) : QualifiedName := ⟨splitText '.' s⟩

def text (n : QualifiedName) : String := joinWith "." n.parts

def parent (n : QualifiedName) : QualifiedName := ⟨n.parts.dropLast⟩

def length (n : QualifiedName) : Nat := n.parts.length

def head (n : QualifiedName) : String := n.parts.headD ""

def last (n : QualifiedName) : String := n.parts.getLastD ""

def member (n : QualifiedName) (part : String) : QualifiedName := ⟨n.parts ++ [part]⟩

@[simp] theorem last_member (n : QualifiedName) (part : String) : (n.member part).last = part := by
  simp [last, member]

@[simp] theorem parent_member (n : QualifiedName) (part : String) : (n.member part).parent = n := by
  simp [parent, member]

/-- The enclosing names, nearest first, down to the empty name. -/
def parents (n : QualifiedName) : List QualifiedName :=
  ((List.range n.length).map fun k => ⟨n.parts.take k⟩).reverse

def dropBase? (base n : QualifiedName) : Option QualifiedName :=
  if base.parts.isPrefixOf n.parts then some ⟨n.parts.drop base.length⟩ else none

/-- Part by part in the order of code points; a list stands before its continuations. -/
def partsLe : List String → List String → Bool
  | [], _ => true
  | _ :: _, [] => false
  | a :: as, b :: bs => if a = b then partsLe as bs else decide (a ≤ b)

def le (a b : QualifiedName) : Bool := partsLe a.parts b.parts

end QualifiedName

end TypeStubs
