import TypeStubs.Proofs.Histories

/-! Layers are balanced: what puts itself on top of what is being inspected is taken away again,
every problem is reported while something is on top, and its messages are about that. -/

namespace TypeStubs.Inspection

variable {α : Type} {path : QualifiedName}

/-- The step inspects the module, class or routine at a path. -/
inductive IsCall (path : QualifiedName) : {α : Type} → Inspection α → Prop
  | module (n : Nat) (name : String) (doc : Option String) (ms : List (String × Object)) :
      IsCall path (moduleWith (descent n) path (.moduleDef name doc ms))
  | class (n : Nat) (identity : Identity) (metatype : TypeName) (bases : List QualifiedName)
      (ms : List (String × Object)) :
      IsCall path (classWith (descent n) path (.classDef identity metatype bases ms))
  | functions (o : Object) : IsCall path (functionsOf path o)
  | methods (o : Object) : IsCall path (methodsOf path o)

theorem IsCall.layered {x : Inspection α} (call : IsCall path x) :
    ∃ y, Composed y ∧ x = withLayer path y := by
  cases call with
  | module n name doc ms => exact moduleWith_descent n path name doc ms
  | «class» n identity metatype bases ms =>
    simp only [classWith]
    obtain ⟨y, hy, layered⟩ := classBody_layered path (.classDef identity metatype bases ms) bases
      (enclosed_classMembersWith (composed_descent n) path (.classDef identity metatype bases ms) ms)
    exact ⟨y, .enclosed hy, layered⟩
  | functions o =>
    obtain ⟨y, hy, layered⟩ := functionsOf_layered path o
    exact ⟨y, .plain hy, layered⟩
  | methods o =>
    obtain ⟨y, hy, layered⟩ := methodsOf_layered path o
    exact ⟨y, .plain hy, layered⟩

/-- Whatever inspects a module, class or routine leaves the layers as they were, also when it fails.
While it runs, every problem is reported on the stack of the paths that are being inspected, and the
report is answered. The messages that come while its own layer is on top start with its path, and no
two of them are equal. -/
theorem layers_balanced {x : Inspection α} (call : IsCall path x) (s : Setting) (p : Progress) :
    (x.outcome s p).2.layers = p.layers ∧
      ∃ h, Happens s true x p (.inLayer path h) ∧ (x.outcome s p).2.log = p.log ++ h.messages ∧
        (x.outcome s p).2.found = p.found ++ h.problems ∧
        h.Orderly (path :: pathsOf p) ∧
        (∀ m ∈ h.ownMessages, m.level = .error ∧ ∃ rest, m.text = "In " ++ path.text ++ rest) ∧
        h.ownMessages.Nodup := by
  obtain ⟨y, hy, rfl⟩ := call.layered
  obtain ⟨h, inside⟩ := hy.happens s (pushed path p)
  have leads := inside.leads (List.cons_ne_nil _ _)
  have around : Leads p (.inLayer path h) ((withLayer path y).outcome s p).2 := leads.inLayer
  obtain ⟨-, orderly, texts⟩ := leads.onTop
  refine ⟨around.layers.trans (noted_nil _), h, .inLayer path inside, around.log, around.found,
    orderly, ?_, ?_⟩
  · intro m hm
    obtain ⟨problem, -, rfl⟩ := orderly.own m hm
    exact ⟨rfl, " : " ++ problem.text, String.append_assoc⟩
  · exact List.Pairwise.of_map Message.text (fun _ _ => mt (congrArg Message.text)) texts

/-- A method whose two parameters have a type that is nowhere to be found. -/
def unknownTwice : Object := .routine .function
  { name? := some "f", qualified? := some "C.f", module? := some "m" }
  (some { parameters := [{ name := "x", hint := some (.str "other.A") },
    { name := "y", hint := some (.str "other.A") }] })

def inspectUnknownTwice : Except Failure (List Method) × Progress :=
  (methodsOf ⟨["m", "C", "f"]⟩ unknownTwice).outcome ⟨{}, .ofModules []⟩
    { layers := [⟨⟨["m", "C"]⟩, []⟩] }

/-- The unknown type is reported twice, and there is one message about it. -/
theorem unknownTwice_told_once : inspectUnknownTwice.2.layers = [⟨⟨["m", "C"]⟩, []⟩] ∧
    ∃ h : History, h.Orderly [⟨["m", "C", "f"]⟩, ⟨["m", "C"]⟩] ∧
      h.problems = [.name ⟨["other", "A"]⟩, .name ⟨["other", "A"]⟩] ∧
      h.messages = [⟨.error, "In m.C.f : Can't find/import 'other.A'"⟩] := by
  have told : (inspectUnknownTwice.2.found, inspectUnknownTwice.2.log) =
      ([.name ⟨["other", "A"]⟩, .name ⟨["other", "A"]⟩],
        [⟨.error, "In m.C.f : Can't find/import 'other.A'"⟩]) := by
    rw [inspectUnknownTwice, World.ofModules_eq]
    decide +kernel
  obtain ⟨layers, h, -, log, found, orderly, -⟩ := layers_balanced (.methods unknownTwice)
    ⟨{}, .ofModules []⟩ { layers := [⟨⟨["m", "C"]⟩, []⟩] }
  refine ⟨layers, h, orderly, ?_, ?_⟩
  · exact found.symm.trans (Prod.mk.inj told).1
  · exact log.symm.trans (Prod.mk.inj told).2

end TypeStubs.Inspection
