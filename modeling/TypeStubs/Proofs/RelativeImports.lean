import TypeStubs.Proofs.Statements

/-! The lines of a module that import something from its own package. -/

namespace TypeStubs

open List

/-- The names that assignments in a module give values to are identifiers. -/
structure Module.Assigns (m : Module) : Prop where
  attributes : ∀ a ∈ m.attributes, isIdentifier a.name = true
  aliases : ∀ a ∈ m.aliases, isIdentifier a.name = true
  typeVariables : ∀ t ∈ m.typeVariables, isIdentifier t.name = true

namespace Printer

variable {p : Printer} {m : Module}

theorem mem_statements {st : Statement} (h : st ∈ inWritingOrder m) : st ∈ m.statements := by
  have assigned {a : Attribute} (ha : a ∈ sortByName Attribute.name m.attributes) :
      Statement.attr a ∈ m.attributes.map Statement.attr := by
    rw [sortByName, mem_sortBy] at ha
    exact mem_map_of_mem ha
  simp only [inWritingOrder, mem_append] at h
  simp only [Module.statements, Module.elements, mem_append]
  rcases h with (((((((h | h) | h) | listed) | h) | h) | h) | unlisted) | h
  · exact .inl h
  · exact .inr (.inl (.inl (.inl (.inl (.inl (.inl h))))))
  · exact .inr (.inl (.inl (.inl (.inl (.inl (.inr h))))))
  · obtain ⟨a, ha, rfl⟩ := mem_map.mp listed
    rw [Option.mem_toList] at ha
    exact .inr (.inl (.inr (assigned (mem_of_find?_eq_some ha))))
  · exact .inr (.inl (.inl (.inl (.inl (.inr h)))))
  · exact .inr (.inl (.inl (.inl (.inr h))))
  · exact .inr (.inl (.inl (.inr h)))
  · obtain ⟨a, ha, rfl⟩ := mem_map.mp unlisted
    exact .inr (.inl (.inr (assigned (mem_filter.mp ha).1)))
  · exact .inr (.inr h)

/-- An assignment to an identifier is no import: the name ends before the first blank or colon of the
line, and a blank is followed by an equals sign. -/
theorem assignment_ne {name line : String} (h : isIdentifier name = true) {rest : List Char}
    (hl : line.toList = name.toList ++ ' ' :: '=' :: rest ∨ line.toList = name.toList ++ ':' :: rest)
    (x : String) : line ≠ p.subModuleLine x := by
  have inside : ∀ d ∈ name.toList, (d != ' ' && d != ':') = true := by
    intro d hd
    have blank : d ≠ ' ' := fun e => not_mem_identifier h (by decide) (by decide) (e ▸ hd)
    have colon : d ≠ ':' := fun e => not_mem_identifier h (by decide) (by decide) (e ▸ hd)
    simp [blank, colon]
  rintro rfl
  have cut : (p.subModuleLine x).toList.dropWhile (fun d => d != ' ' && d != ':') =
      " . import ".toList ++ x.toList := by
    rw [subModuleLine, String.toList_append]
    rfl
  rcases hl with hl | hl
  · rw [hl, dropWhile_append_of_pos inside] at cut
    cases cut
  · rw [hl, dropWhile_append_of_pos inside] at cut
    cases cut

theorem attributeLine_ne {a : Attribute} (h : isIdentifier a.name = true) (x : String) :
    p.attributeLine a ≠ p.subModuleLine x := by
  have shape : ∃ rest, (p.attributeLine a).toList = a.name.toList ++ ' ' :: '=' :: rest ∨
      (p.attributeLine a).toList = a.name.toList ++ ':' :: rest := by
    unfold attributeLine
    cases a.hint with
    | none =>
      cases a.value with
      | none => exact ⟨_, .inl (String.toList_append ..)⟩
      | some v =>
        simp only
        split <;> simp only [String.toList_append, append_assoc] <;> exact ⟨_, .inl rfl⟩
    | some t =>
      cases a.value with
      | none =>
        simp only [String.toList_append, append_assoc]
        exact ⟨_, .inr rfl⟩
      | some v =>
        simp only
        split <;> simp only [String.toList_append, append_assoc] <;> exact ⟨_, .inr rfl⟩
  obtain ⟨rest, hl⟩ := shape
  exact assignment_ne h hl x

theorem aliasLine_ne {a : Alias} (h : isIdentifier a.name = true) (x : String) :
    p.aliasLine a ≠ p.subModuleLine x := by
  have shape : ∃ rest, (p.aliasLine a).toList = a.name.toList ++ ' ' :: '=' :: rest := by
    simp only [aliasLine, String.toList_append, append_assoc]
    exact ⟨_, rfl⟩
  obtain ⟨rest, hl⟩ := shape
  exact assignment_ne h (.inl hl) x

theorem display_ne {v : TypeVariable} (h : isIdentifier v.name = true) (x : String) :
    v.display ≠ p.subModuleLine x := by
  have shape : ∃ rest, v.display.toList = v.name.toList ++ ' ' :: '=' :: rest := by
    simp only [TypeVariable.display, String.toList_append, append_assoc]
    exact ⟨_, rfl⟩
  obtain ⟨rest, hl⟩ := shape
  exact assignment_ne h (.inl hl) x

theorem first_ne {c : Char} (h : c ≠ 'f') {line : String} (hl : line.toList.head? = some c)
    (x : String) : line ≠ p.subModuleLine x := by
  rintro rfl
  rw [subModuleLine, String.toList_append] at hl
  injection hl with first
  exact h first.symm

theorem not_mem_indentLines (lines : List String) (x : String) :
    p.subModuleLine x ∉ indentLines lines := by
  intro h
  obtain ⟨line, -, same⟩ := mem_map.mp h
  refine first_ne (c := ' ') (by decide) ?_ x same
  rw [String.toList_append]
  rfl

theorem not_mem_functionLines (f : Function) (x : String) :
    p.subModuleLine x ∉ p.functionLines f := by
  intro h
  simp only [functionLines, mem_append, mem_map, mem_singleton] at h
  rcases h with (⟨d, -, same⟩ | same) | body
  · refine first_ne (c := '@') (by decide) ?_ x same
    rw [String.toList_append]
    rfl
  · refine first_ne (c := 'd') (by decide) ?_ x same.symm
    simp only [String.toList_append, append_assoc]
    rfl
  · exact not_mem_indentLines _ x body

theorem not_mem_classLines {c : Class} {lines : List String} (h : p.classLines c = .ok lines)
    (x : String) : p.subModuleLine x ∉ lines := by
  rw [classLines_eq] at h
  obtain ⟨body, -, rfl⟩ := map_ok h
  intro hx
  rcases mem_cons.mp hx with same | hx
  · refine first_ne (c := 'c') (by decide) ?_ x same.symm
    simp only [String.toList_append, append_assoc]
    rfl
  · exact not_mem_indentLines body x hx

/-- A line of a module that imports something from its own package stands in its docstring, or is
one of its imports, or imports one of its sub-modules. -/
theorem relative_import_cases (assigns : m.Assigns) {lines : List String}
    (h : p.moduleLines m = .ok lines) {x : String} (hx : p.subModuleLine x ∈ lines) :
    (∃ doc, m.doc = some doc ∧ p.subModuleLine x ∈ p.docstringLines doc) ∨
      (∃ i ∈ m.imports, p.importLine i = p.subModuleLine x) ∨ ∃ sub ∈ m.subModules, sub.name = x := by
  obtain ⟨st, hs, part, written, hx⟩ := (moduleLines_inWritingOrder h).mem hx
  have hs := mem_statements hs
  simp only [Module.statements, Module.elements, mem_append, mem_map, Option.mem_toList] at hs
  rcases hs with ⟨doc, hd, rfl⟩ | (((((⟨i, hi, rfl⟩ | ⟨sub, hsub, rfl⟩) | ⟨v, hv, rfl⟩) |
    ⟨c, hc, rfl⟩) | ⟨f, hf, rfl⟩) | ⟨a, ha, rfl⟩) | ⟨a, ha, rfl⟩
  · cases written
    exact .inl ⟨doc, hd, hx⟩
  · cases written
    exact .inr (.inl ⟨i, hi, (mem_singleton.mp hx).symm⟩)
  · cases written
    have same : "from . import " ++ x = "from . import " ++ sub.name := mem_singleton.mp hx
    exact .inr (.inr ⟨sub, hsub, (String.append_right_inj _).mp same.symm⟩)
  · cases written
    exact absurd (mem_singleton.mp hx).symm (display_ne (assigns.typeVariables v hv) x)
  · exact absurd hx (not_mem_classLines written x)
  · cases written
    exact absurd hx (not_mem_functionLines f x)
  · cases written
    exact absurd (mem_singleton.mp hx).symm (attributeLine_ne (assigns.attributes a ha) x)
  · cases written
    exact absurd (mem_singleton.mp hx).symm (aliasLine_ne (assigns.aliases a ha) x)

end Printer

end TypeStubs
