import TypeStubs.Proofs.Contributions
import TypeStubs.Proofs.PrintedParameters

/-! Signatures and the functions described from them: the same parameters, in their order, each with
its own default and hint. -/

namespace TypeStubs

open Source List

/-- Every parameter is legal and has a name of its own, and each may precede those behind it. -/
structure Signature.IsLegal (sig : Signature Object) : Prop where
  each : ∀ x ∈ sig.declared, x.IsLegal
  distinct : (sig.declared.map (·.name)).Nodup
  pairs : sig.declared.Pairwise Parameter.MayPrecede

instance (sig : Signature Object) : Decidable sig.IsLegal :=
  decidable_of_iff ((∀ x ∈ sig.declared, x.IsLegal) ∧ (sig.declared.map (·.name)).Nodup ∧
      sig.declared.Pairwise Parameter.MayPrecede)
    ⟨fun h => ⟨h.1, h.2.1, h.2.2⟩, fun h => ⟨h.each, h.distinct, h.pairs⟩⟩

/-- The parameters are those of a function of which nothing is known, without hints. -/
def Signature.TakesAnything (sig : Signature Object) : Prop :=
  sig.declared.map (fun x => (x.name, x.kind, x.default.isSome, x.hint.isSome)) =
    [("args", .variadic, false, false), ("kwargs", .keywordVariadic, false, false)]

instance (sig : Signature Object) : Decidable sig.TakesAnything :=
  inferInstanceAs (Decidable (_ = _))

theorem Signature.arguments_ne_generic {sig : Signature Object} (h : ¬ sig.TakesAnything)
    {as : List Argument} (shown : Forall₂ Parameter.IsShown sig.declared as) :
    as ≠ genericArguments := by
  rintro rfl
  refine h ?_
  rw [TakesAnything]
  generalize sig.declared = xs at shown
  cases shown with
  | @cons x _ xs _ first shown =>
    cases shown with
    | @cons y _ ys _ second shown =>
      cases shown
      have many : x.kind = .variadic := of_decide_eq_true first.many.symm
      have manyByKeyword : y.kind = .keywordVariadic := of_decide_eq_true second.manyByKeyword.symm
      have name := Option.some.inj first.name
      have name' := Option.some.inj second.name
      simp [many, manyByKeyword, ← name, ← name', ← first.default, ← first.hint, ← second.default,
        ← second.hint]

/-! Tables by names. -/

section

variable {α β : Type}

theorem foldl_put {t es : ArgumentTable} (distinct : ((t ++ es).map Prod.fst).Nodup) :
    es.foldl .put t = t ++ es := by
  induction es generalizing t with
  | nil => exact (append_nil t).symm
  | cons e es ih =>
    have fresh : t.put e = t ++ [e] := by
      refine if_neg fun h => ?_
      obtain ⟨x, hx, same⟩ := any_eq_true.mp h
      rw [map_append, map_cons, nodup_append] at distinct
      exact distinct.2.2 _ (mem_map_of_mem hx) _ mem_cons_self (of_decide_eq_true same)
    rw [foldl_cons, fresh, ih (by simpa using distinct), append_assoc]
    rfl

theorem lookup_eq_none_of_not_mem {name : String} {es : List (String × α)}
    (h : name ∉ es.map Prod.fst) : es.lookup name = none := by
  refine lookup_eq_none_iff.mpr fun e he => bne_iff_ne.mpr ?_
  rintro rfl
  exact h (mem_map_of_mem he)

theorem rel_lookup {R : α → β → Prop} {es : List (String × α)} {bs : List β}
    (h : Forall₂ R (es.map Prod.snd) bs) (name : String) :
    Option.Rel R (es.lookup name) (((es.map Prod.fst).zip bs).lookup name) := by
  induction es generalizing bs with
  | nil => exact .none
  | cons e es ih =>
    cases h with
    | cons first rest =>
      rw [map_cons, zip_cons_cons, lookup_cons, lookup_cons]
      split
      · exact .some first
      · exact ih rest

variable {g : Parameter α → Option β} {xs : List (Parameter α)}

theorem map_fst_byName : (byName g xs).map Prod.fst <+ xs.map (·.name) := by
  induction xs with
  | nil => exact .slnil
  | cons x xs ih =>
    rw [byName, filterMap_cons]
    cases g x with
    | none => exact ih.cons _
    | some b => exact ih.cons_cons _

theorem map_snd_byName : (byName g xs).map Prod.snd = xs.filterMap g := by
  simp [byName, map_filterMap, Function.comp_def]

theorem lookup_byName (distinct : (xs.map (·.name)).Nodup) {x : Parameter α} (hx : x ∈ xs) :
    (byName g xs).lookup x.name = g x := by
  induction xs with
  | nil => cases hx
  | cons y xs ih =>
    obtain ⟨fresh, distinct⟩ := nodup_cons.mp distinct
    rw [byName, filterMap_cons]
    rcases mem_cons.mp hx with rfl | hx
    · cases own : g x with
      | none => exact lookup_eq_none_of_not_mem fun h => fresh (map_fst_byName.subset h)
      | some b => simp
    · have differs : x.name ≠ y.name := fun same => fresh (mem_map.mpr ⟨x, hx, same⟩)
      cases g y with
      | none => exact ih distinct hx
      | some b =>
        simp only [Option.map_some, lookup_cons, beq_false_of_ne differs]
        exact ih distinct hx

/-- If all parameters behind one with a default have one too, the defaults belong to the last ones. -/
theorem zip_drop_defaults (order : xs.Pairwise fun x y => x.default.isSome → y.default.isSome) :
    ((xs.map (·.name)).drop ((xs.map (·.name)).length - (xs.filterMap (·.default)).length)).zip
      (xs.filterMap (·.default)) = byName (·.default) xs := by
  induction order with
  | nil => rfl
  | @cons x xs first _ ih =>
    have short := length_filterMap_le (fun x : Parameter α => x.default) xs
    cases own : x.default with
    | none =>
      have later : xs.length + 1 - (xs.filterMap (·.default)).length =
          xs.length - (xs.filterMap (·.default)).length + 1 := by omega
      simp only [byName, filterMap_cons, own, map_cons, length_cons, length_map, later] at ih ⊢
      exact ih
    | some o =>
      have all : (xs.filterMap (·.default)).length = xs.length :=
        filterMap_length_eq_length.mpr fun y hy => first y hy (by simp [own])
      simp only [byName, filterMap_cons, own, map_cons, length_cons, length_map, all, Nat.sub_self,
        drop_zero] at ih ⊢
      rw [zip_cons_cons, ih]
      rfl

end

theorem isSome_eq_of_rel {α β : Type} {R : α → β → Prop} {a : Option α} {b : Option β}
    (h : Option.Rel R a b) : a.isSome = b.isSome := by
  cases h <;> rfl

/-! The parts of a legal signature. -/

/-- A parameter as an argument. Whether it is positional only is not kept. -/
def argumentOf (x : Parameter Object) (default : Option Value) (hint : Option Hint) : Argument where
  name := some x.name
  keywordOnly := x.kind = .keywordOnly
  variadic := x.kind = .variadic
  keywordVariadic := x.kind = .keywordVariadic
  default := default.map .value
  hint := hint

section

variable {sig : Signature Object} (legal : sig.IsLegal)
include legal

theorem Signature.IsLegal.ne_return {x : Parameter Object} (hx : x ∈ sig.declared) :
    x.name ≠ "return" := by
  intro same
  have name := (legal.each x hx).name
  rw [same] at name
  exact absurd name (by decide)

theorem Signature.IsLegal.fresh : "return" ∉ sig.declared.map (·.name) := by
  intro h
  obtain ⟨x, hx, same⟩ := mem_map.mp h
  exact legal.ne_return hx same

omit legal in
theorem Signature.kind_of_mem {kind : ParameterKind} {x : Parameter Object} (hx : x ∈ sig.ofKind kind) :
    x.kind = kind :=
  of_decide_eq_true (mem_filter.mp hx).2

/-- At most one parameter takes many values in a way, and it has no default. -/
theorem Signature.IsLegal.alone (kind : ParameterKind)
    (many : kind = .variadic ∨ kind = .keywordVariadic) :
    (sig.ofKind kind).head?.toList = sig.ofKind kind ∧ byName (·.default) (sig.ofKind kind) = [] := by
  have listed : sig.ofKind kind <+ sig.declared := by
    refine .trans ?_ (sublist_append_right _ _)
    rcases many with rfl | rfl
    · exact (sublist_append_left _ _).trans (sublist_append_left _ _)
    · exact sublist_append_right _ _
  constructor
  · have pairs := legal.pairs.sublist listed
    have own {x : Parameter Object} (hx : x ∈ sig.ofKind kind) := kind_of_mem hx
    cases found : sig.ofKind kind with
    | nil => rfl
    | cons x rest =>
      cases rest with
      | nil => rfl
      | cons y rest =>
        rw [found] at own pairs
        have once := (rel_of_pairwise_cons pairs mem_cons_self).once
        rw [own mem_cons_self, own (.tail _ mem_cons_self)] at once
        exact absurd many (not_or.mpr (once rfl))
  · refine filterMap_eq_nil_iff.mpr fun x hx => ?_
    simp [(legal.each x (listed.subset hx)).bare (kind_of_mem hx ▸ many)]

theorem Signature.IsLegal.namedDefaults :
    sig.parts.namedDefaults = byName (·.default) sig.declared := by
  have order : sig.positional.Pairwise fun x y => x.default.isSome → y.default.isSome := by
    refine (pairwise_append.mp legal.pairs).1.imp_of_mem fun {x y} _ hy may => may.default ?_
    rcases mem_append.mp hy with hy | hy <;> simp [kind_of_mem hy, ParameterKind.rank]
  have variadic := (legal.alone .variadic (.inl rfl)).2
  have keywordVariadic := (legal.alone .keywordVariadic (.inr rfl)).2
  rw [SignatureParts.namedDefaults, parts, zip_drop_defaults order]
  simp only [byName, declared, others, filterMap_append] at variadic keywordVariadic ⊢
  rw [variadic, keywordVariadic, nil_append, append_nil]

theorem Signature.IsLegal.table : sig.parts.table =
    sig.positional.map (fun x => (x.name, argumentOf x none none)) ++
      ("return", { name := none }) :: sig.others.map fun x => (x.name, argumentOf x none none) := by
  have same (kind : ParameterKind) : (sig.ofKind kind).map (fun x => (x.name, argumentOf x none none)) =
      (sig.ofKind kind).map fun x => (x.name, argumentOf { x with kind } none none) :=
    map_congr_left fun x hx => by rw [← kind_of_mem hx]
  have entries : sig.parts.entries = sig.positional.map (fun x => (x.name, argumentOf x none none)) ++
      ("return", { name := none }) :: sig.others.map fun x => (x.name, argumentOf x none none) := by
    simp only [SignatureParts.entries, parts, Option.toList_map, (legal.alone .variadic (.inl rfl)).1,
      (legal.alone .keywordVariadic (.inr rfl)).1, positional, others, map_append, same, map_map]
    rfl
  have distinct := nodup_cons.mpr ⟨legal.fresh, legal.distinct⟩
  rw [declared, map_append] at distinct
  rw [SignatureParts.table, entries]
  exact foldl_put (by simpa [Function.comp_def] using perm_middle.nodup_iff.mpr distinct)

theorem Signature.IsLegal.hints :
    (sig.parts.hints.map Prod.fst).Nodup ∧ sig.parts.hints.lookup "return" = sig.returns ∧
      ∀ x ∈ sig.declared, sig.parts.hints.lookup x.name = x.hint := by
  have fresh : "return" ∉ (byName (·.hint) sig.declared).map Prod.fst := fun h =>
    legal.fresh (map_fst_byName.subset h)
  have distinct := legal.distinct.sublist (map_fst_byName (g := (·.hint)))
  have own {x : Parameter Object} (hx : x ∈ sig.declared) := lookup_byName legal.distinct hx (g := (·.hint))
  rw [parts]
  cases sig.returns with
  | none => exact ⟨distinct, lookup_eq_none_of_not_mem fresh, fun x hx => own hx⟩
  | some o =>
    refine ⟨nodup_cons.mpr ⟨fresh, distinct⟩, by simp, fun x hx => ?_⟩
    simpa [lookup_cons, beq_false_of_ne (legal.ne_return hx)] using own hx

/-- With its defaults and hints by names, the table holds all parameters in their order, each with its
own, and the hint of the result. -/
theorem Signature.IsLegal.rebuilt (d : String → Option Value) (h : String → Option Hint) :
    ∃ t, t = (sig.parts.table.map fun e => (e.1, (d e.1).elim e.2 (.withDefault · e.2))).map
        (fun e => (e.1, (h e.1).elim e.2 (.withHint · e.2))) ∧
      (t.filter (·.1 ≠ "return")).map (·.2) =
        sig.declared.map (fun x => argumentOf x (d x.name) (h x.name)) ∧
      (t.lookup "return").bind (·.hint) = h "return" := by
  have own (x : Parameter Object) :
      (h x.name).elim ((d x.name).elim (argumentOf x none none) (.withDefault · (argumentOf x none none)))
        (.withHint · ((d x.name).elim (argumentOf x none none)
          (.withDefault · (argumentOf x none none)))) = argumentOf x (d x.name) (h x.name) := by
    cases d x.name <;> cases h x.name <;> rfl
  have kept {xs : List (Parameter Object)} (listed : xs ⊆ sig.declared) :
      (xs.map fun x => (x.name, argumentOf x (d x.name) (h x.name))).filter (·.1 ≠ "return") =
        xs.map fun x => (x.name, argumentOf x (d x.name) (h x.name)) := by
    refine filter_eq_self.mpr fun e he => ?_
    obtain ⟨x, hx, rfl⟩ := mem_map.mp he
    exact decide_eq_true (legal.ne_return (listed hx))
  refine ⟨_, rfl, ?_, ?_⟩
  · rw [legal.table]
    simp only [map_append, map_cons, map_map, Function.comp_def, own, filter_append, filter_cons]
    rw [kept (subset_append_left _ _), kept (subset_append_right _ _)]
    simp [declared, Function.comp_def]
  · have front : "return" ∉ (sig.positional.map fun x =>
        (x.name, argumentOf x (d x.name) (h x.name))).map Prod.fst := by
      rw [map_map]
      exact fun hin => legal.fresh ((sublist_append_left _ _).map _ |>.subset hin)
    rw [legal.table]
    simp only [map_append, map_cons, map_map, Function.comp_def, own, lookup_append, lookup_cons]
    rw [lookup_eq_none_of_not_mem front]
    cases d "return" <;> cases h "return" <;> rfl

end

namespace Inspection

section

variable {α β : Type} {s : Setting} {p q p' q' : Progress} {step : α → Inspection β}

theorem TakesPlace.mono {x : Inspection α} {a : α} (h : TakesPlace s p q x a) (before : Grows p' p)
    (after : Grows q q') : TakesPlace s p' q' x a := by
  obtain ⟨r, r', grows, outcome, onward⟩ := h
  exact ⟨r, r', before.trans grows, outcome, onward.trans after⟩

/-- One step for each element, in their order. -/
def each (step : α → Inspection β) : List α → Inspection (List β)
  | [] => return []
  | a :: as => do
    let b ← step a
    return b :: (← each step as)

theorem plain_each (h : ∀ a, Plain (step a)) (as : List α) :
    Plain (each step as) := by
  induction as with
  | nil => exact .pure []
  | cons a as ih => exact .bind (h a) fun _ => .bind ih fun _ => .pure _

theorem each_ok (h : ∀ a, Plain (step a)) {as : List α} {bs : List β}
    (run : (each step as).outcome s p = (.ok bs, q)) :
    Forall₂ (fun a b => TakesPlace s p q (step a) b) as bs := by
  induction as generalizing p bs with
  | nil =>
    cases run
    exact .nil
  | cons a as ih =>
    obtain ⟨b, r, first, rest⟩ := bind_ok_iff.mp run
    obtain ⟨bs, r', others, last⟩ := bind_ok_iff.mp rest
    cases last
    refine .cons ⟨p, r, .refl p, first, (plain_each h as).grows others⟩ ?_
    exact (ih others).imp fun _ _ place => place.mono ((h a).grows first) (.refl q)

end

section

variable {α : Type} {s : Setting} {p q p' q' : Progress} {read : Object → Inspection α}
  {es : List (String × Object)} {as : List α} (distinct : (es.map Prod.fst).Nodup)
include distinct

theorem outcome_fill (h : (each read (es.map Prod.snd)).outcome s p = (.ok as, q))
    (change : α → Argument → Argument) (t : ArgumentTable) : (fill read change es t).outcome s p =
      (.ok (t.map fun x => (x.1, (((es.map Prod.fst).zip as).lookup x.1).elim x.2 (change · x.2))), q) := by
  induction es generalizing p as t with
  | nil =>
    cases h
    simp [fill]
  | cons e es ih =>
    obtain ⟨name, o⟩ := e
    obtain ⟨fresh, distinct⟩ := nodup_cons.mp distinct
    obtain ⟨a, r, first, rest⟩ := bind_ok_iff.mp h
    obtain ⟨as, r', others, last⟩ := bind_ok_iff.mp rest
    cases last
    have none : ((es.map Prod.fst).zip as).lookup name = none := lookup_eq_none_of_not_mem fun hin => by
      obtain ⟨e, he, rfl⟩ := mem_map.mp hin
      exact fresh (of_mem_zip he).1
    rw [fill, bind_of_ok first, ih distinct others, ArgumentTable.adjust, map_map]
    refine congrArg (fun t => (Except.ok t, q)) (map_congr_left fun x _ => ?_)
    by_cases same : x.1 = name
    · simp [same, none]
    · simp [same, lookup_cons, beq_false_of_ne same]

/-- Objects with distinct names are read each for the argument of its name. -/
theorem exists_filled (plain : ∀ o, Plain (read o)) (before : Grows p' p) (after : Grows q q')
    (h : (each read (es.map Prod.snd)).outcome s p = (.ok as, q)) :
    ∃ found : String → Option α,
      (∀ name, Option.Rel (fun o a => TakesPlace s p' q' (read o) a) (es.lookup name) (found name)) ∧
      ∀ change t, (fill read change es t).outcome s p =
        (.ok (t.map fun x => (x.1, (found x.1).elim x.2 (change · x.2))), q) :=
  ⟨_, rel_lookup ((each_ok plain h).imp fun _ _ place => place.mono before after),
    outcome_fill distinct h⟩

end

/-- The argument shows the parameter. Its default and its hint are those that the parameter's own
default and hint become on the way from one state to another. -/
structure Reproduces (s : Setting) (p q : Progress) (x : Parameter Object) (a : Argument) : Prop
    extends x.IsShown a where
  ownDefault : ∀ o ∈ x.default, ∃ v, a.default = some (.value v) ∧ TakesPlace s p q (defaultOf o) v
  ownHint : ∀ o ∈ x.hint, ∃ h, a.hint = some h ∧ TakesPlace s p q (hintOfObject o) h

section

variable {s : Setting} {p q : Progress} {x : Parameter Object}

theorem reproduces_argumentOf {d : Option Value} {h : Option Hint}
    (hd : Option.Rel (fun o v => TakesPlace s p q (defaultOf o) v) x.default d)
    (hh : Option.Rel (fun o h => TakesPlace s p q (hintOfObject o) h) x.hint h) :
    Reproduces s p q x (argumentOf x d h) := by
  refine ⟨⟨rfl, rfl, rfl, rfl, rfl, ?_, ?_⟩, fun o ho => ?_, fun o ho => ?_⟩
  · rw [argumentOf, Option.isSome_map]
    exact (isSome_eq_of_rel hd).symm
  · exact (isSome_eq_of_rel hh).symm
  · rw [ho] at hd
    cases hd with
    | some place => exact ⟨_, rfl, place⟩
  · rw [ho] at hh
    cases hh with
    | some place => exact ⟨_, rfl, place⟩

variable {sig : Signature Object} {defaults : List Value} {hints : List Hint} {q₁ q₂ : Progress}

/-- The runs of a signature, one after the other, give one function that reproduces it. -/
theorem functionOfSignature_reproduces (name : String) (doc : Option String) (legal : sig.IsLegal)
    (hd : (each defaultOf (sig.declared.filterMap (·.default))).outcome s p = (.ok defaults, q₁))
    (hh : (each hintOfObject (sig.returns.toList ++ sig.declared.filterMap (·.hint))).outcome s q₁ =
      (.ok hints, q₂)) :
    ∃ f, (functionOfSignature name doc sig).outcome s p = (.ok f, q₂) ∧ f.name = name ∧ f.doc = doc ∧
      Option.Rel (fun o h => TakesPlace s p q₂ (hintOfObject o) h) sig.returns f.returns ∧
      Forall₂ (Reproduces s p q₂) sig.declared f.arguments := by
  have before := (plain_each plain_defaultOf _).grows hd
  have after := (plain_each plain_hintOfObject _).grows hh
  obtain ⟨distinct, result, own⟩ := legal.hints
  rw [← map_snd_byName] at hd hh
  obtain ⟨d, values, first⟩ := exists_filled (legal.distinct.sublist map_fst_byName)
    plain_defaultOf (.refl p) after hd
  obtain ⟨h, read, second⟩ := exists_filled distinct plain_hintOfObject before (.refl q₂)
    (by simpa [Signature.parts, Function.comp_def] using hh)
  obtain ⟨t, ht, arguments, returns⟩ := legal.rebuilt d h
  refine ⟨{ name, doc, arguments := sig.declared.map fun x => argumentOf x (d x.name) (h x.name),
            returns := h "return" }, ?_, rfl, rfl, result ▸ read "return", ?_⟩
  · rw [functionOfSignature, legal.namedDefaults, bind_of_ok (first _ _),
      bind_of_ok (second _ _), ← ht, ← arguments, ← returns]
    rfl
  · rw [forall₂_map_right_iff, forall₂_same]
    intro x hx
    refine reproduces_argumentOf ?_ (own x hx ▸ read x.name)
    exact lookup_byName legal.distinct hx (g := (·.default)) ▸ values x.name

end

/-- The legal signature of what is called is reproduced, if its defaults and hints can be written and it
says more than that anything is taken. There is one function. Its parameters are the positional ones,
the one that takes many values, the keyword-only ones and the one that takes many values by keyword, in
the order in which they were declared, each with its own default and hint. If the hints and the defaults
that are shown are printed as expressions, then the printed list is read as the same parameters, with
position-only ones as plain ones. -/
theorem functionsOf_reproduces_signature {s : Setting} {p : Progress} {path : QualifiedName}
    {o : Object} {sig : Signature Object} (signed : s.world.signature? o = some sig)
    (legal : sig.IsLegal) (specific : ¬ sig.TakesAnything) {defaults : List Value} {hints : List Hint}
    {q₁ q₂ : Progress} (hd : (each defaultOf (sig.declared.filterMap (·.default))).outcome s
      (pushed path p) = (.ok defaults, q₁))
    (hh : (each hintOfObject (sig.returns.toList ++ sig.declared.filterMap (·.hint))).outcome s q₁ =
      (.ok hints, q₂)) :
    ∃ f, (functionsOf path o).outcome s p = (.ok [f], popped q₂) ∧
      f.name = path.last ∧ f.doc = o.doc? ∧
      Option.Rel (fun o h => TakesPlace s (pushed path p) q₂ (hintOfObject o) h) sig.returns f.returns ∧
      List.Forall₂ (Reproduces s (pushed path p) q₂) sig.declared f.arguments ∧
      ∀ printer : Printer,
        (∃ ends, "def " ++ f.name ++ "(" ++ joinWith ", " (printer.parameters f.arguments) ++ ")" ++
          ends ++ ":" ∈ printer.functionLines f) ∧ ((∀ a ∈ f.arguments, printer.WritesTerms a) →
          Source.signature? (joinWith ", " (printer.parameters f.arguments)).toList =
            some (sig.declared.map Parameter.asRead)) := by
  obtain ⟨f, run, name, doc, result, arguments⟩ :=
    functionOfSignature_reproduces path.last o.doc? legal hd hh
  have shown := arguments.imp fun _ _ h => h.toIsShown
  have called : (signedFunction path.last o).outcome s (pushed path p) = (.ok f, q₂) := by
    rw [signedFunction, bind_of_ok (outcome_world s _)]
    simp only [signed]
    rw [outcome_tryCatch, run]
  refine ⟨f, ?_, name, doc, result, arguments, fun printer => ⟨printer.mem_functionLines f, ?_⟩⟩
  · rw [functionsOf, outcome_withLayer, bind_of_ok called,
      if_neg (sig.arguments_ne_generic specific shown)]
    rfl
  · intro terms
    exact Printer.signature?_parameters shown legal.each terms legal.pairs

/-! A signature with all kinds of parameters, and one whose hint is no expression. -/

def mixedSignature : Signature Object :=
  { parameters :=
      [{ name := "a", kind := .positionOnly },
        { name := "b", default := some (.str "x"), hint := some (.str "int") },
        { name := "c", kind := .keywordOnly, default := some (.str "it's") },
        { name := "rest", kind := .variadic, hint := some (.str "int") },
        { name := "more", kind := .keywordVariadic }]
    returns := some (.str "str") }

def routineOf (sig : Signature Object) : Object := .routine .function { name? := some "f" } (some sig)

def bareSetting : Setting := ⟨{}, .ofModules [.moduleDef "m" none []]⟩

def mixedArguments : List Argument :=
  [{ name := some "a" },
    { name := some "b", default := some (.value ⟨"'x'", true⟩), hint := some (.type ⟨["int"]⟩ none) },
    { name := some "rest", variadic := true, hint := some (.type ⟨["int"]⟩ none) },
    { name := some "c", keywordOnly := true, default := some (.value ⟨"\"it's\"", true⟩) },
    { name := some "more", keywordVariadic := true }]

theorem writesTerms_mixedArguments : ∀ a ∈ mixedArguments, ({} : Printer).WritesTerms a := by
  have int : IsTerm (({} : Printer).hint (.type ⟨["int"]⟩ none)).toList :=
    isTerm_name (n := "int") (by decide)
  have short : IsTerm (({} : Printer).default (.value ⟨"'x'", true⟩)).toList := by
    have text : (({} : Printer).default (.value ⟨"'x'", true⟩)).toList = Quoted.encode ['x'] := by decide
    exact text ▸ isTerm_encode ['x']
  have quoted : IsTerm (({} : Printer).default (.value ⟨"\"it's\"", true⟩)).toList := by
    have text : (({} : Printer).default (.value ⟨"\"it's\"", true⟩)).toList =
        Quoted.encode "it's".toList := by decide
    exact text ▸ isTerm_encode _
  intro a ha
  simp only [mixedArguments, mem_cons, not_mem_nil, or_false] at ha
  rcases ha with rfl | rfl | rfl | rfl | rfl
  all_goals constructor <;> simp [int, short, quoted]

/-- All parameters come back from the printed list, the position-only one as a plain one. -/
theorem mixed_reproduced : ∃ f q,
    (functionsOf ⟨["m", "f"]⟩ (routineOf mixedSignature)).outcome bareSetting {} = (.ok [f], q) ∧
      ({} : Printer).parameters f.arguments =
        ["a", "b: int = 'x'", "*rest: int", "c = \"it's\"", "**more"] ∧
      Source.signature? (joinWith ", " (({} : Printer).parameters f.arguments)).toList =
        some [⟨"a", .plain, false⟩, ⟨"b", .plain, true⟩, ⟨"rest", .variadic, false⟩,
          ⟨"c", .keywordOnly, true⟩, ⟨"more", .keywordVariadic, false⟩] := by
  have result : ((functionsOf ⟨["m", "f"]⟩ (routineOf mixedSignature)).outcome bareSetting
      {}).1.toOption.map (·.map (·.arguments)) = some [mixedArguments] := by
    rw [bareSetting, World.ofModules_eq]
    decide +kernel
  have runs : ((each defaultOf (mixedSignature.declared.filterMap (·.default)) >>= fun _ =>
      each hintOfObject (mixedSignature.returns.toList ++ mixedSignature.declared.filterMap
        (·.hint))).outcome bareSetting (pushed ⟨["m", "f"]⟩ {})).1.toOption.isSome = true := by
    rw [bareSetting, World.ofModules_eq]
    decide +kernel
  generalize ran : Inspection.outcome _ bareSetting (pushed ⟨["m", "f"]⟩ {}) = outcome at runs
  obtain ⟨e | hints, q₂⟩ := outcome
  · cases runs
  obtain ⟨defaults, q₁, hd, hh⟩ := bind_ok_iff.mp ran
  have signed : bareSetting.world.signature? (routineOf mixedSignature) = some mixedSignature := rfl
  obtain ⟨f, run, -, -, -, -, printed⟩ :=
    functionsOf_reproduces_signature signed (by decide) (by decide) hd hh
  rw [run] at result
  have arguments : f.arguments = mixedArguments := (List.cons.inj (Option.some.inj result)).1
  have read := (printed {}).2 (arguments ▸ writesTerms_mixedArguments)
  exact ⟨f, _, run, arguments ▸ by decide, read.trans (by decide)⟩

def assigned : Signature Object := { parameters := [{ name := "x", hint := some (.str "int = 5") }] }

def assignedFunction : Function :=
  { name := "f"
    arguments :=
      [{ name := some "x", hint := some (.expression (.value ⟨"int = 5", false⟩)) }] }

/-- The hint is printed as it is, so the parameter is read with a default that it does not have. -/
theorem assigned_hint_misread : assigned.IsLegal ∧ ¬ assigned.TakesAnything ∧
    assigned.declared.map Parameter.asRead = [⟨"x", .plain, false⟩] ∧
    ∃ f q, (functionsOf ⟨["m", "f"]⟩ (routineOf assigned)).outcome bareSetting {} = (.ok [f], q) ∧
      f.arguments.map (·.default) = [none] ∧
      ({} : Printer).functionLines f = ["def f(x: int = 5):", "    ..."] ∧
      Source.signature? (joinWith ", " (({} : Printer).parameters f.arguments)).toList =
        some [⟨"x", .plain, true⟩] := by
  have result : ((functionsOf ⟨["m", "f"]⟩ (routineOf assigned)).outcome bareSetting
      {}).1.toOption = some [assignedFunction] := by
    rw [bareSetting, World.ofModules_eq]
    decide +kernel
  refine ⟨by decide, by decide, by decide, ?_⟩
  rcases run : (functionsOf ⟨["m", "f"]⟩ (routineOf assigned)).outcome bareSetting {} with ⟨e | fs, q⟩
  · rw [run] at result
    cases result
  · rw [run] at result
    cases Option.some.inj result
    exact ⟨_, q, rfl, rfl, by decide, by decide +kernel⟩

end Inspection

end TypeStubs
