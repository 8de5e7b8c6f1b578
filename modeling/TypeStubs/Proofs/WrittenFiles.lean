import TypeStubs.Run

/-! Steps that write files, and a module whose file is no source text. -/

namespace TypeStubs

mutual

def Module.family : Module → List Module
  | ⟨name, doc, classes, functions, subModules, attributes, imports, aliases, typeVariables⟩ =>
    ⟨name, doc, classes, functions, subModules, attributes, imports, aliases, typeVariables⟩ ::
      Module.families subModules

def Module.families : List Module → List Module
  | [] => []
  | m :: ms => m.family ++ Module.families ms

end

theorem FileTree.files_makeDirectory {t t' : FileTree} {path : Path}
    (made : t.makeDirectory path = .ok t') : t'.files = t.files := by
  simp only [FileTree.makeDirectory, bind, Except.bind, pure, Except.pure] at made
  split at made
  · cases made
  · split at made
    · cases made
      rfl
    · split at made
      · cases made
      · cases made
        rfl

namespace Writing

variable {α β : Type}

theorem run_ask (f : FileTree → Except FileError α) (t : FileTree) :
    (ask f).run.run t = match f t with
      | .ok a => (.ok a, t)
      | .error e => (.error (.file e), t) := by
  have answer : (ask f).run.run t = (ExceptT.run (match f t with
      | .ok a => pure a
      | .error e => throw (.file e) : Writing α)).run t := by rfl
  rw [answer]
  cases f t <;> rfl

theorem run_bind (x : Writing α) (f : α → Writing β) (t : FileTree) :
    (x >>= f).run.run t = match x.run.run t with
      | (.ok a, t') => (f a).run.run t'
      | (.error e, t') => (.error e, t') := by
  simp only [ExceptT.run_bind, StateT.run_bind]
  rcases x.run.run t with ⟨e | a, t'⟩ <;> rfl

theorem run_change (f : FileTree → Except FileError FileTree) (t : FileTree) :
    (change f).run.run t = match f t with
      | .ok t' => (.ok (), t')
      | .error e => (.error (.file e), t) := by
  rw [change, ExceptT.run_bind, StateT.run_bind, run_ask]
  cases f t <;> rfl

end Writing

/-- A module whose one member has a keyword for its name. -/
def misnamed : World := .ofModules [.moduleDef "m" none [("None", .int 1)]]

/-- A keyword is an identifier, so its attribute is written. The file is no source text. -/
theorem keyword_attribute_not_source :
    (({ moduleName := "m" } : Options).run misnamed).error? = none ∧
      (({ moduleName := "m" } : Options).run misnamed).tree.files.map
        (fun file => (file.2, Source.isModule file.2.toList)) =
      [("from __future__ import annotations\n__all__ = ['None']\nNone: int = 1\n", false)] := by
  decide +kernel

end TypeStubs
