import TypeStubs.Proofs.Refining

/-! The hint that a text denotes under the default options. It depends on the structure of the text and
on the path of the module alone. -/

namespace TypeStubs

open Option

/-- The value or the invalid text that a text is, if the options do not say more about values. -/
def Expression.ofText (text : List Char) : Expression :=
  if Source.isModule (trim text) then
    .value ⟨String.ofList (trim text), Source.isLiteral (trim text)⟩
  else .invalid (String.ofList (trim text))

mutual

/-- The hint of a text in the module with a path, if its fixed sizes have integers for dimensions. -/
def HintSyntax.hint? (path : QualifiedName) : HintSyntax → Option Hint
  | .malformed text => some (.expression (.invalid (String.ofList text)))
  | .single t => (t.hint? path).bind (Hint.refined? path)
  | .union ts => (TypeSyntax.hints? path ts).map fun hs =>
    .type (unionName path) (some (Hint.qualifyTypingAll hs))

/-- The hint of the text of a type, before its name is made fit for the module. -/
def TypeSyntax.hint? (path : QualifiedName) : TypeSyntax → Option Hint
  | .named name none => some (.type name none)
  | .named name (some hs) => (HintSyntax.hints? path hs).map fun ps => .type name (some ps)
  | .value text => some (.expression (.ofText text))

def TypeSyntax.hints? (path : QualifiedName) : List TypeSyntax → Option (List Hint)
  | [] => some []
  | t :: ts => (t.hint? path).bind fun h => (TypeSyntax.hints? path ts).map (h :: ·)

def HintSyntax.hints? (path : QualifiedName) : List HintSyntax → Option (List Hint)
  | [] => some []
  | h :: hs => (h.hint? path).bind fun hint => (HintSyntax.hints? path hs).map (hint :: ·)

end

namespace Inspection

variable {s : Setting}

theorem outcome_markSafe (ho : s.options = {}) (e : Expression) (p : Progress) :
    (markSafe e).outcome s p = (.ok e, p) := by
  cases e with
  | value v => simp [markSafe, outcome_ite, outcome_bind, ho]
  | invalid text => rfl

theorem outcome_expressionOfText (ho : s.options = {}) (text : List Char) (p : Progress) :
    (expressionOfText text).outcome s p = (plainExpression text).outcome s p := by
  have plain : (plainExpression text >>= markSafe).outcome s p = (plainExpression text).outcome s p := by
    rw [outcome_bind]
    split
    · rename_i e q h
      rw [outcome_markSafe ho, h]
    · rename_i e q h
      rw [h]
  unfold expressionOfText
  split
  · rw [outcome_bind, outcome_options, ho]
    exact plain
  · exact plain

end Inspection

end TypeStubs
