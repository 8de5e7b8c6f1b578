import TypeStubs.Inspection.Members

/-! The outcomes of steps that are put together from others. -/

namespace TypeStubs

section

variable {α β ε : Type} {x : Except ε α} {f : α → Except ε β}

theorem bind_ok {b : β} (h : (x >>= f) = .ok b) :
    ∃ a, x = .ok a ∧ f a = .ok b := by
  cases x with
  | error e => cases h
  | ok a => exact ⟨a, rfl, h⟩

theorem bind_error {e : ε} (h : (x >>= f) = .error e) :
    x = .error e ∨ ∃ a, x = .ok a ∧ f a = .error e := by
  cases x with
  | error e =>
    cases h
    exact .inl rfl
  | ok a => exact .inr ⟨a, rfl, h⟩

theorem map_ok {f : α → β} {b : β} (h : x.map f = .ok b) : ∃ a, x = .ok a ∧ f a = b := by
  cases x with
  | error e => cases h
  | ok a => exact ⟨a, rfl, Except.ok.inj h⟩

end

namespace Inspection

variable {α β : Type} {s : Setting} {p q : Progress} {x : Inspection α} {a : α}
variable {f : α → Inspection β} {path : QualifiedName}

@[simp] theorem outcome_pure (a : α) (s : Setting) (p : Progress) :
    (pure a : Inspection α).outcome s p = (.ok a, p) := rfl

@[simp] theorem outcome_throw (e : Failure) (s : Setting) (p : Progress) :
    (throw e : Inspection α).outcome s p = (.error e, p) := rfl

@[simp] theorem outcome_modify (f : Progress → Progress) (s : Setting) (p : Progress) :
    (modify f : Inspection Unit).outcome s p = (.ok (), f p) := rfl

@[simp] theorem outcome_options (s : Setting) (p : Progress) :
    options.outcome s p = (.ok s.options, p) := rfl

@[simp] theorem outcome_world (s : Setting) (p : Progress) :
    world.outcome s p = (.ok s.world, p) := rfl

@[simp] theorem outcome_get (s : Setting) (p : Progress) :
    (get : Inspection Progress).outcome s p = (.ok p, p) := rfl

theorem outcome_ite (c : Prop) [Decidable c] (x y : Inspection α) (s : Setting) (p : Progress) :
    (if c then x else y).outcome s p = if c then x.outcome s p else y.outcome s p := by
  split
  · rfl
  · rfl

theorem outcome_bind (x : Inspection α) (f : α → Inspection β) (s : Setting) (p : Progress) :
    (x >>= f).outcome s p = match x.outcome s p with
      | (.ok a, q) => (f a).outcome s q
      | (.error e, q) => (.error e, q) := by
  unfold outcome
  simp only [ReaderT.run, bind, ReaderT.bind, ExceptT.bind, ExceptT.mk, ExceptT.run, StateT.run,
    StateT.bind]
  rcases x s p with ⟨e | a, q⟩ <;> rfl

theorem outcome_tryCatch (x : Inspection α) (h : Failure → Inspection α) (s : Setting)
    (p : Progress) : (tryCatch x h).outcome s p = match x.outcome s p with
      | (.ok a, q) => (.ok a, q)
      | (.error e, q) => (h e).outcome s q := by
  unfold outcome
  simp only [ReaderT.run, tryCatch, tryCatchThe, MonadExceptOf.tryCatch, ExceptT.tryCatch,
    ExceptT.mk, ExceptT.run, bind, StateT.run, StateT.bind]
  rcases x s p with ⟨e | a, q⟩ <;> rfl

theorem bind_of_ok
    (h : x.outcome s p = (.ok a, q)) : (x >>= f).outcome s p = (f a).outcome s q := by
  rw [outcome_bind, h]

theorem bind_ok_iff {b : β} : (x >>= f).outcome s p = (.ok b, q) ↔
      ∃ a r, x.outcome s p = (.ok a, r) ∧ (f a).outcome s r = (.ok b, q) := by
  rw [outcome_bind]
  rcases x.outcome s p with ⟨e | a, r⟩
  · simp
  · constructor
    · exact fun h => ⟨a, r, rfl, h⟩
    · rintro ⟨a', r', h, h'⟩
      cases h
      exact h'

theorem outcome_findModule? (name : QualifiedName) (s : Setting) (p : Progress) :
    (findModule? name).outcome s p = (if name.text = "" then .error .emptyModuleName
        else if hasFront "." name.text then .error .relativeModuleName
        else .ok (s.world.module? name.text), p) := by
  unfold findModule?
  by_cases empty : name.text = ""
  · simp only [empty, reduceIte, outcome_bind, outcome_throw]
  · cases relative : hasFront "." name.text with
    | true => simp only [empty, relative, reduceIte, outcome_bind, outcome_throw]
    | false =>
      simp only [empty, relative, reduceIte, Bool.false_eq_true, outcome_bind, outcome_world,
        outcome_pure]

theorem parentModuleAmong?_looks (w : World) (name : QualifiedName) (bases : List QualifiedName) :
    ∃ r, ∀ (s : Setting) (p : Progress), s.world = w →
      (parentModuleAmong? name bases).outcome s p = (r, p) := by
  induction bases with
  | nil => exact ⟨.ok none, fun _ _ _ => rfl⟩
  | cons base rest ih =>
    obtain ⟨r, hr⟩ := ih
    by_cases hl : base.length = 0
    · refine ⟨.ok none, fun s p _ => ?_⟩
      simp [parentModuleAmong?, hl]
    · by_cases empty : base.text = ""
      · refine ⟨.error .emptyModuleName, fun s p _ => ?_⟩
        simp [parentModuleAmong?, isModule, outcome_bind, outcome_findModule?, hl, empty]
      · by_cases relative : hasFront "." base.text = true
        · refine ⟨.error .relativeModuleName, fun s p _ => ?_⟩
          simp [parentModuleAmong?, isModule, outcome_bind, outcome_findModule?, hl, empty, relative]
        · cases found : w.module? base.text with
          | none =>
            refine ⟨r, fun s p hs => ?_⟩
            simp [parentModuleAmong?, isModule, outcome_bind, outcome_findModule?, hl, empty,
              relative, hs, found, hr s p hs]
          | some m =>
            refine ⟨.ok (if w.reaches m (name.parts.drop base.length) then some base else none),
              fun s p hs => ?_⟩
            simp [parentModuleAmong?, isModule, isAccessible, outcome_bind, outcome_findModule?, hl,
              empty, relative, hs, found, -bind_pure_comp]

theorem head_of_mem_parents {name origin : QualifiedName} (h : origin ∈ name.parents)
    (hl : origin.length ≠ 0) : origin.head = name.head := by
  simp only [QualifiedName.parents, List.mem_reverse, List.mem_map, List.mem_range] at h
  obtain ⟨k, -, rfl⟩ := h
  simp only [QualifiedName.head, QualifiedName.length] at hl ⊢
  cases k with
  | zero => simp at hl
  | succ k =>
    cases name.parts with
    | nil => rfl
    | cons part parts => rfl

theorem parentModuleAmong?_ok {name origin : QualifiedName} {bases : List QualifiedName}
    (h : (parentModuleAmong? name bases).outcome s p = (.ok (some origin), q)) :
    origin ∈ bases ∧ origin.length ≠ 0 := by
  induction bases generalizing p with
  | nil => cases h
  | cons base rest ih =>
    simp only [parentModuleAmong?, outcome_ite] at h
    split at h
    · cases h
    · rename_i hl
      obtain ⟨isModule, r, -, h⟩ := bind_ok_iff.mp h
      rw [outcome_ite] at h
      split at h
      · obtain ⟨isAccessible, r', -, h⟩ := bind_ok_iff.mp h
        cases isAccessible with
        | true =>
          cases h
          exact ⟨List.mem_cons_self, hl⟩
        | false => cases h
      · obtain ⟨hmem, hlen⟩ := ih h
        exact ⟨.tail _ hmem, hlen⟩

/-! Steps inside of something. -/

/-- The state with something more on top of what is being inspected. -/
def pushed (path : QualifiedName) (p : Progress) : Progress :=
  { p with layers := ⟨path, []⟩ :: p.layers }

/-- The state with the top taken away. -/
def popped (p : Progress) : Progress := { p with layers := p.layers.drop 1 }

theorem outcome_withLayer (path : QualifiedName) (x : Inspection α) (s : Setting) (p : Progress) :
    (withLayer path x).outcome s p =
      ((x.outcome s (pushed path p)).1, popped (x.outcome s (pushed path p)).2) := rfl

theorem outcome_withClass (c : Object) (x : Inspection α) (s : Setting) (p : Progress) :
    (withClass c x).outcome s p = match x.outcome s { p with class? := some c } with
      | (.ok a, q) => (.ok a, { q with class? := p.class? })
      | (.error e, q) => (.error e, q) :=
  outcome_bind x _ s { p with class? := some c }

theorem outcome_withModule (m : Object) (x : Inspection α) (s : Setting) (p : Progress) :
    (withModule m x).outcome s p = match x.outcome s { p with module? := some m, imports := [] } with
      | (.ok a, q) => (.ok (a, q.imports), { q with module? := p.module?, imports := p.imports })
      | (.error e, q) => (.error e, q) :=
  outcome_bind x _ s { p with module? := some m, imports := [] }

theorem outcome_withModulePath (path : QualifiedName) (x : Inspection α) (s : Setting)
    (p : Progress) :
    (withModulePath path x).outcome s p = match x.outcome s { p with modulePath := path } with
      | (.ok a, q) => (.ok a, { q with modulePath := p.modulePath })
      | (.error e, q) => (.error e, q) :=
  outcome_bind x _ s { p with modulePath := path }

theorem outcome_withLayer_ok_iff : (withLayer path x).outcome s p = (.ok a, q) ↔
      ∃ r, x.outcome s (pushed path p) = (.ok a, r) ∧ popped r = q := by
  rw [outcome_withLayer]
  rcases x.outcome s (pushed path p) with ⟨e, r⟩
  simp [and_assoc]

theorem outcome_withClass_ok_iff {c : Object} : (withClass c x).outcome s p = (.ok a, q) ↔
      ∃ r, x.outcome s { p with class? := some c } = (.ok a, r) ∧
        { r with class? := p.class? } = q := by
  rw [outcome_withClass]
  rcases x.outcome s { p with class? := some c } with ⟨e | b, r⟩
  · simp
  · simp [and_assoc]

theorem outcome_withModule_ok_iff {m : Object} {imports : List Import} :
    (withModule m x).outcome s p = (.ok (a, imports), q) ↔
      ∃ r, x.outcome s { p with module? := some m, imports := [] } = (.ok a, r) ∧
        r.imports = imports ∧ { r with module? := p.module?, imports := p.imports } = q := by
  rw [outcome_withModule]
  rcases x.outcome s { p with module? := some m, imports := [] } with ⟨e | b, r⟩
  · simp
  · simp [and_assoc]

theorem outcome_withModulePath_ok_iff : (withModulePath path x).outcome s p = (.ok a, q) ↔
      ∃ r, x.outcome s { p with modulePath := path } = (.ok a, r) ∧
        { r with modulePath := p.modulePath } = q := by
  rw [outcome_withModulePath]
  rcases x.outcome s { p with modulePath := path } with ⟨e | b, r⟩
  · simp
  · simp [and_assoc]

/-! Whole modules. -/

theorem outcome_moduleOf (path : QualifiedName) (o : Object) (s : Setting) (p : Progress) :
    (moduleOf path o).outcome s p = (moduleWith (descent s.world.reach) path o).outcome s p := by
  exact bind_of_ok (outcome_world s p)

end Inspection

end TypeStubs
