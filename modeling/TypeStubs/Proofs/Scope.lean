import TypeStubs.Proofs.Refining

/-! Names are brought into scope. Steps that give hints and names ask for the imports that these need,
or report that there are none. -/

namespace TypeStubs

open List

/-- The name that an import binds: its own, or the first part of a module. -/
def Import.bound (i : Import) : String := i.name.getD i.origin.head

namespace Inspection

variable {α β : Type} {s : Setting} {p q : Progress} {path : QualifiedName} {given : List String}
variable {firsts : α → List String} {x : Inspection α} {seconds : β → List String}
variable {f : α → Inspection β}

/-- The first part of a name needs no import: it is empty, or the language, the class or the module
knows it. Or it has an import, or a name with it was reported. -/
def Known (w : World) (class? module? : Option Object) (imports : List Import)
    (problems : List Problem) (first : String) : Prop :=
  first = "" ∨ w.has Builtins.asModule first = true ∨ (∃ o ∈ class?, w.has o first = true) ∨
    (∃ o ∈ module?, w.has o first = true) ∨ (∃ i ∈ imports, i.bound = first) ∨
    ∃ name, .name name ∈ problems ∧ name.head = first

/-- The first part of a name is known in a class, in the module of a state, with the reports since an
earlier state. -/
def KnownIn (w : World) (p q : Progress) (class? : Option Object) (first : String) : Prop :=
  Known w class? q.module? q.imports (q.found.drop p.found.length) first

/-- The first part of a name is known in a state, with the reports since an earlier state. -/
def Scoped (w : World) (p q : Progress) (first : String) : Prop := KnownIn w p q q.class? first

theorem KnownIn.mono {w : World} {p' q' : Progress} {class? : Option Object} {first : String}
    (h : KnownIn w p q class? first) (hp : Grows p' p) (hq : Grows q q') :
    KnownIn w p' q' class? first := by
  rcases h with h | h | h | ⟨o, ho, h⟩ | ⟨i, hi, h⟩ | ⟨name, hn, h⟩
  · exact .inl h
  · exact .inr (.inl h)
  · exact .inr (.inr (.inl h))
  · exact .inr (.inr (.inr (.inl ⟨o, hq.module? ▸ ho, h⟩)))
  · exact .inr (.inr (.inr (.inr (.inl ⟨i, hq.imports hi, h⟩))))
  · refine .inr (.inr (.inr (.inr (.inr ⟨name, ?_, h⟩))))
    obtain ⟨more, hmore⟩ := hq.found
    have later : .name name ∈ q'.found.drop p.found.length := by
      rw [← hmore, drop_append]
      exact mem_append_left _ hn
    exact (drop_sublist_drop_left _ hp.found.length_le).subset later

theorem Scoped.mono {w : World} {p' q' : Progress} {first : String} (h : Scoped w p q first)
    (hp : Grows p' p) (hq : Grows q q') : Scoped w p' q' first := by
  have known := KnownIn.mono h hp hq
  rwa [← hq.class?] at known

/-- In a module with a path, the first parts that the result of a step uses are given, or the step
has brought them into scope. -/
def Scopes (s : Setting) (path : QualifiedName) (given : List String) (x : Inspection α)
    (firsts : α → List String) : Prop :=
  ∀ ⦃p q a⦄, p.modulePath = path → x.outcome s p = (.ok a, q) →
    Grows p q ∧ ∀ f ∈ firsts a, f ∈ given ∨ Scoped s.world p q f

theorem Scopes.known {a : α}
    (hx : Scopes s path [] x firsts) (hp : p.modulePath = path) (h : x.outcome s p = (.ok a, q))
    {f : String} (hf : f ∈ firsts a) : Scoped s.world p q f :=
  ((hx hp h).2 f hf).resolve_left nofun

theorem Scopes.of_composed (hx : Composed x) :
    Scopes s path given x fun _ => [] := by
  intro p q a _ h
  exact ⟨hx.keeps (keeps_grows s) h, fun _ hf => nomatch hf⟩

theorem Scopes.of_plain (hx : Plain x) : Scopes s path given x fun _ => [] :=
  .of_composed (.plain hx)

theorem Scopes.pure {a : α} (h : ∀ f ∈ firsts a, f ∈ given) :
    Scopes s path given (pure a) firsts := by
  intro p q b _ hb
  cases hb
  exact ⟨.refl p, fun f hf => .inl (h f hf)⟩

theorem Scopes.throw (e : Failure) (firsts : α → List String) :
    Scopes s path given (throw e) firsts := by
  intro p q b _ hb
  cases hb

/-- A step can have a result in a module with a path. -/
def Returns (s : Setting) (path : QualifiedName) (x : Inspection α) (a : α) : Prop :=
  ∃ p q, p.modulePath = path ∧ x.outcome s p = (.ok a, q)

theorem Scopes.bind_of_returns (hx : Scopes s path given x firsts)
    (hf : ∀ a, Returns s path x a → Scopes s path (given ++ firsts a) (f a) seconds) :
    Scopes s path given (x >>= f) seconds := by
  intro p q b hp h
  obtain ⟨a, r, h₁, h₂⟩ := bind_ok_iff.mp h
  obtain ⟨grows, known⟩ := hx hp h₁
  obtain ⟨grows', known'⟩ := hf a ⟨p, r, hp, h₁⟩ (grows.modulePath.trans hp) h₂
  refine ⟨grows.trans grows', fun g hg => ?_⟩
  rcases known' g hg with hg | hg
  · rcases mem_append.mp hg with hg | hg
    · exact .inl hg
    · exact (known g hg).imp_right (·.mono (.refl p) grows')
  · exact .inr (hg.mono grows (.refl q))

theorem Scopes.bind (hx : Scopes s path given x firsts)
    (hf : ∀ a, Scopes s path (given ++ firsts a) (f a) seconds) :
    Scopes s path given (x >>= f) seconds :=
  hx.bind_of_returns fun a _ => hf a

theorem Scopes.ite {c : Prop} [Decidable c] {y : Inspection α}
    (hx : Scopes s path given x firsts) (hy : Scopes s path given y firsts) :
    Scopes s path given (if c then x else y) firsts := by
  split
  · exact hx
  · exact hy

theorem Scopes.tryCatch {f : Failure → Inspection α}
    (px : Plain x) (hx : Scopes s path given x firsts) (hf : ∀ e, Scopes s path given (f e) firsts) :
    Scopes s path given (tryCatch x f) firsts := by
  intro p q a hp h
  rw [outcome_tryCatch] at h
  have grows := px.keeps (keeps_grows s).toKeepsInside p
  cases hr : x.outcome s p with
  | mk r p' =>
    rw [hr] at h grows
    cases r with
    | ok b =>
      cases h
      exact hx hp hr
    | error e =>
      obtain ⟨grows', known⟩ := hf e (grows.modulePath.trans hp) h
      exact ⟨grows.trans grows', fun g hg => (known g hg).imp_right (·.mono grows (.refl q))⟩

theorem Scopes.withLayer (site : QualifiedName)
    (hx : Scopes s path given x firsts) : Scopes s path given (withLayer site x) firsts := by
  intro p q a hp h
  obtain ⟨r, hr, rfl⟩ := outcome_withLayer_ok_iff.mp h
  obtain ⟨grows, known⟩ := hx (p := pushed site p) hp hr
  exact ⟨(keeps_grows s).inLayer grows, known⟩

/-! Names. -/

theorem isKnown_ok {name : QualifiedName} (h : (isKnown name).outcome s p = (.ok true, q)) :
    Scoped s.world p q name.head := by
  have known : (isKnown name).outcome s p = (.ok (name.parts = [] || name.parts = [""] ||
    s.world.has Builtins.asModule name.head || p.class?.any (s.world.has · name.head) ||
    p.module?.any (s.world.has · name.head)), p) := rfl
  rw [known] at h
  simp only [Prod.mk.injEq, Except.ok.injEq, Bool.or_eq_true, decide_eq_true_eq,
    Option.any_eq_true] at h
  obtain ⟨h, rfl⟩ := h
  rcases h with (((h | h) | h) | ⟨o, ho, h⟩) | ⟨o, ho, h⟩
  · exact .inl (by rw [QualifiedName.head, h]; rfl)
  · exact .inl (by rw [QualifiedName.head, h]; rfl)
  · exact .inr (.inl h)
  · exact .inr (.inr (.inl ⟨o, ho, h⟩))
  · exact .inr (.inr (.inr (.inl ⟨o, ho, h⟩)))

theorem scopes_requireImport (name : QualifiedName) :
    Scopes s path given (requireImport name) fun _ => [name.head] := by
  intro p q _ _ h
  refine ⟨(Plain.requireImport name).grows h, fun f hf => .inr ?_⟩
  cases mem_singleton.mp hf
  obtain ⟨known, r, hr, h⟩ := bind_ok_iff.mp h
  rw [outcome_ite] at h
  split at h
  · rename_i hknown
    cases h
    exact isKnown_ok (hknown ▸ hr)
  · obtain ⟨origin?, r', hr', h⟩ := bind_ok_iff.mp h
    have grows : Grows p r' := ((plain_isKnown name).grows hr).trans
      ((plain_parentModuleAmong? name _).grows hr')
    cases origin? with
    | some origin =>
      obtain ⟨hmem, hlen⟩ := parentModuleAmong?_ok hr'
      cases h
      refine .inr (.inr (.inr (.inr (.inl ⟨⟨none, origin⟩, ?_, ?_⟩))))
      · exact Import.mem_insert.mpr (.inl rfl)
      · exact head_of_mem_parents hmem hlen
    | none =>
      have found := (report_frame (.name name) s r').2.2
      rw [show (report (.name name)).outcome s r' = (.ok _, q) from h] at found
      refine .inr (.inr (.inr (.inr (.inr ⟨name, ?_, rfl⟩))))
      rw [found, drop_append_of_le_length grows.found.length_le]
      exact mem_append_right _ mem_cons_self

end Inspection

end TypeStubs
