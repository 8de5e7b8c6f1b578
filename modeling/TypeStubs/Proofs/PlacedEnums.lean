import TypeStubs.Proofs.EnumPlaces
import TypeStubs.Proofs.StandingNames

/-! Values of enumerations in their places. The places that a command line gives change what a text is
only if the value of an enumeration stands at the front of the text. -/

namespace TypeStubs

open List

/-! The table of places. -/

namespace Options

/-- The locations whose patterns are given for the first time. -/
def firstGiven : List (Regex × String) → List (Regex × String)
  | [] => []
  | l :: ls => l :: (firstGiven ls).filter fun k => k.1.source != l.1.source

/-- A location with the place that is given last for its pattern. -/
def latest (ls : List (Regex × String)) (l : Regex × String) : Regex × String :=
  (l.1, ls.foldl (fun place k => if l.1.source == k.1.source then k.2 else place) l.2)

theorem latest_cons (l : Regex × String) (ls : List (Regex × String)) (k : Regex × String) :
    latest (l :: ls) k = latest ls (if k.1.source == l.1.source then (k.1, l.2) else k) := by
  rw [latest, foldl_cons]
  split <;> rfl

theorem foldl_places (ls places : List (Regex × String)) :
    ls.foldl (fun places place =>
      if places.any (·.1.source == place.1.source) then
        places.map fun p => if p.1.source == place.1.source then (p.1, place.2) else p
      else places ++ [place]) places =
    (places ++ (firstGiven ls).filter fun l => !places.any (·.1.source == l.1.source)).map (latest ls) := by
  induction ls generalizing places with
  | nil => exact (map_id _).symm.trans (congrArg _ (append_nil _).symm)
  | cons l ls ih =>
    have other {k : Regex × String} (h : k.1.source ≠ l.1.source) : latest (l :: ls) k = latest ls k := by
      rw [latest_cons, if_neg (mt eq_of_beq h)]
    have kept (k : Regex × String) :
        (if k.1.source == l.1.source then (k.1, l.2) else k).1 = k.1 := by split <;> rfl
    rw [foldl_cons, ih, firstGiven, filter_cons, filter_filter]
    by_cases known : places.any (·.1.source == l.1.source) = true
    · have fresh (k : Regex × String) : (!places.any (·.1.source == k.1.source) && k.1.source != l.1.source) =
          !places.any (·.1.source == k.1.source) := by
        refine Bool.eq_iff_iff.mpr ⟨fun h => (Bool.and_eq_true_iff.mp h).1, fun h => Bool.and_eq_true_iff.mpr ⟨h, ?_⟩⟩
        refine bne_iff_ne.mpr fun same => ?_
        rw [same, known] at h
        cases h
      simp only [known, Bool.not_true, Bool.false_eq_true, if_true, if_false, any_map, Function.comp_def, kept,
        map_append, map_map, fresh]
      congr 1
      · exact map_congr_left fun k _ => (latest_cons l ls k).symm
      · refine map_congr_left fun k hk => (other ?_).symm
        rw [← filter_congr fun k _ => fresh k] at hk
        exact bne_iff_ne.mp (Bool.and_eq_true_iff.mp (mem_filter.mp hk).2).2
    · have first : latest (l :: ls) l = latest ls l := by rw [latest_cons, if_pos (beq_self_eq_true _)]
      rw [Bool.not_eq_true] at known
      have fresh (k : Regex × String) : (!(places ++ [l]).any (·.1.source == k.1.source)) =
          (!places.any (·.1.source == k.1.source) && k.1.source != l.1.source) := by
        rw [any_append, Bool.not_or, any_cons, any_nil, Bool.or_false, bne_comm]
        rfl
      simp only [known, Bool.not_false, Bool.false_eq_true, if_true, if_false, fresh, append_assoc, singleton_append]
      refine map_congr_left fun k hk => ?_
      rcases mem_append.mp hk with hk | hk
      · exact (other fun same => any_eq_false.mp known k hk (beq_iff_eq.mpr same)).symm
      · rcases mem_cons.mp hk with rfl | hk
        · exact first.symm
        · exact (other (bne_iff_ne.mp (Bool.and_eq_true_iff.mp (mem_filter.mp hk).2).2)).symm

def placesInOrder (o : Options) : List (Regex × String) :=
  (firstGiven o.enumLocations).map (latest o.enumLocations)

theorem enumPlaces_eq (o : Options) : o.enumPlaces = o.placesInOrder := by
  rw [enumPlaces, foldl_places, nil_append]
  exact congrArg _ (filter_eq_self.mpr fun _ _ => rfl)

end Options

/-! Readings. -/

def Setting.withoutLocations (s : Setting) : Setting :=
  { s with options := { s.options with enumLocations := [] } }

def Hint.typeName? : Hint → Option QualifiedName
  | .type name _ => some name
  | .expression _ => none

/-- An expression with the mark that the options give it. -/
def Expression.marked (safeValues : Option (Given Regex)) : Expression → Except Failure Expression
  | .value v =>
    if v.printSafe then .ok (.value v)
    else match safeValues with
      | none => .ok (.value v)
      | some .nothing => .error .noPattern
      | some (.value pattern) => .ok (.value { v with printSafe := pattern.accepts v.text })
  | .invalid text => .ok (.invalid text)

namespace Inspection

variable {s : Setting} {site : Site} {p : Progress} {α β : Type} {text : List Char} {e : EnumText}

/-- What is asked for at a site has an answer that does not depend on what was read before. -/
def AnswersAt (s : Setting) (site : Site) (x : Inspection α) (r : Except Failure α) : Prop :=
  ∀ p, IsAt site p → ∃ q, x.outcome s p = (r, q) ∧ (r.isOk = true → IsAt site q)

namespace AnswersAt

variable {x : Inspection α} {f : α → Inspection β} {a : α} {r : Except Failure β} {failure : Failure}

theorem of_gives (h : GivesAt s site x (a = ·)) : AnswersAt s site x (.ok a) := by
  intro p hp
  obtain ⟨q, given⟩ := h.returns p hp a rfl
  exact ⟨q, given, fun _ => h.stays given hp⟩

theorem bind (hx : AnswersAt s site x (.ok a)) (hf : AnswersAt s site (f a) r) :
    AnswersAt s site (x >>= f) r := by
  intro p hp
  obtain ⟨q, given, hq⟩ := hx p hp
  rw [bind_of_ok given]
  exact hf q (hq rfl)

theorem bind_error (hx : AnswersAt s site x (.error failure)) :
    AnswersAt s site (x >>= f) (.error failure) := by
  intro p hp
  obtain ⟨q, failed, -⟩ := hx p hp
  refine ⟨q, ?_, fun h => by cases h⟩
  rw [outcome_bind, failed]

end AnswersAt

/-- The answer is of a kind, or the pattern for safe values is missing. -/
def IsAnswer (s : Setting) (P : α → Prop) (r : Except Failure α) : Prop :=
  (∃ a, r = .ok a ∧ P a) ∨ s.options.safeValues = some .nothing ∧ r = .error .noPattern

theorem answersAt_markSafe (e : Expression) :
    AnswersAt s site (markSafe e) (e.marked s.options.safeValues) := by
  intro p hp
  refine ⟨p, ?_, fun _ => hp⟩
  cases e with
  | invalid text => rfl
  | value v =>
    obtain ⟨text, printSafe⟩ := v
    rw [markSafe, outcome_ite, bind_of_ok (outcome_options s p)]
    cases printSafe with
    | true => rfl
    | false => rcases s.options.safeValues with _ | pattern | _ <;> rfl

theorem answersAt_plain (text : List Char) : AnswersAt s site (do markSafe (← plainExpression text))
    ((Expression.ofText text).marked s.options.safeValues) :=
  .bind (.of_gives (givesAt_plainExpression text)) (answersAt_markSafe _)

theorem isAnswer_marked (e : Expression) : IsAnswer s
    (fun e' => ∀ v, e' = .value v → ∃ v', e = .value v' ∧ v'.text = v.text)
    (e.marked s.options.safeValues) := by
  cases e with
  | invalid text => exact .inl ⟨_, rfl, fun v h => by cases h⟩
  | value v =>
    obtain ⟨text, printSafe⟩ := v
    have same (safe : Bool) : ∀ v, Expression.value ⟨text, safe⟩ = .value v →
        ∃ v', Expression.value ⟨text, printSafe⟩ = .value v' ∧ v'.text = v.text := by
      rintro _ ⟨⟩
      exact ⟨_, rfl, rfl⟩
    cases printSafe with
    | true => exact .inl ⟨_, rfl, same true⟩
    | false =>
      rcases safe : s.options.safeValues with _ | pattern | _
      · exact .inl ⟨_, rfl, same false⟩
      · exact .inl ⟨_, rfl, same _⟩
      · exact .inr ⟨safe, rfl⟩

/-- The name of the type that a text is read as. -/
def typeNameAt? (s : Setting) (p : Progress) (text : List Char) : Option QualifiedName :=
  ((hintOfText text).outcome s p).1.toOption.bind Hint.typeName?

/-- The name of the class in the first of the places that fits it. -/
def placedName? (s : Setting) (p : Progress) (e : EnumText) (places : List (Regex × String)) :
    Option QualifiedName :=
  places.findSome? fun l =>
    if l.1.accepts e.className then typeNameAt? s p (l.2 ++ "." ++ e.className).toList else none

theorem importable_solid (solid : IsSolid text)
    (full : ∀ part ∈ splitAtChar '.' text, part ≠ []) (k : Nat) :
    (⟨(nameOfText text).parts.drop k⟩ : QualifiedName).Importable := by
  have spaces : text.filter (· != ' ') = text :=
    filter_eq_self.mpr fun c hc => bne_iff_ne.mpr fun same => by
      have blank := solid.blanks c hc
      rw [same] at blank
      cases blank
  rw [nameOfText, spaces, ← map_drop]
  rcases rest : (splitAtChar '.' text).drop k with _ | ⟨part, parts⟩
  · exact .inl (Nat.zero_le 1)
  · have listed : part ∈ splitAtChar '.' text := mem_of_mem_drop (rest ▸ mem_cons_self)
    obtain ⟨c, cs, rfl⟩ := exists_cons_of_ne_nil (full part listed)
    have dotless := (mem_of_mem_splitAtChar listed c mem_cons_self).2
    refine .inr ?_
    simp [QualifiedName.head, startsModule, dotless]

/-- A text without parentheses is the text of no fixed size. -/
theorem fixedSizeText?_solid (solid : IsSolid text) {v : Value}
    (h : Expression.ofText text = .value v) : fixedSizeText? v.text = none := by
  have chars : v.text.toList = text := by
    unfold Expression.ofText at h
    rw [solid.trim] at h
    split at h
    · cases h
      exact String.toList_ofList
    · cases h
  refine if_neg fun sized => ?_
  have opening := (List.isPrefixOf_iff_prefix.mp (Bool.and_eq_true_iff.mp sized).1).subset
    (show '(' ∈ "FixedSize(".toList by decide)
  rw [chars] at opening
  cases (solid.marks '(' opening).2.1

/-- At a site a class in a place is read as a type or as an expression. -/
theorem answersAt_dottedHint {place : String} (hp : IsPlace place) {cs : List Char}
    (he : EnumText.read? cs = some e) :
    ∃ r, AnswersAt s site (dottedHint (place ++ "." ++ e.className).toList) r ∧
      IsAnswer s (fun _ => True) r := by
  have solid := hp.isSolid he
  have parts : splitAtChar '.' (place ++ "." ++ e.className).toList =
      splitAtChar '.' place.toList ++ splitAtChar '.' e.className.toList := by
    rw [String.toList_append, String.toList_append, append_assoc]
    exact splitAtChar_append '.' _ _
  have full : ∀ part ∈ splitAtChar '.' (place ++ "." ++ e.className).toList, part ≠ [] := by
    rw [parts]
    refine forall_mem_append.mpr ⟨fun part h => ?_, fun part h => ?_⟩
    · rintro rfl
      cases all_eq_true.mp hp [] h
    · exact ((EnumText.starts_of_read? he).1.className part h).1
  generalize (place ++ "." ++ e.className).toList = text at *
  unfold dottedHint
  split
  · rename_i name cut
    obtain rfl : text = name := by
      have whole := take_append_drop
        ((namePart text).length + dottedLength (text.drop (namePart text).length)) text
      obtain ⟨taken, dropped⟩ := Prod.mk.inj cut
      rw [taken, dropped, append_nil] at whole
      exact whole.symm
    exact ⟨_, .of_gives ((givesAt_refine_name _).iff fun hint => and_iff_left (.inr
      (QualifiedName.importable_standing (fun k _ => importable_solid solid full k) _ _))),
      .inl ⟨_, rfl, trivial⟩⟩
  · have run : AnswersAt s site (do markSafe (← plainExpression text)) _ := answersAt_plain text
    rcases isAnswer_marked (s := s) (Expression.ofText text) with ⟨e', marked, texts⟩ | ⟨safe, marked⟩
    · rw [marked] at run
      refine ⟨_, ?_, .inl ⟨.expression e', rfl, trivial⟩⟩
      rw [← bind_assoc]
      refine run.bind (.of_gives (givesAt_refine_expression ?_))
      cases e' with
      | invalid text' => rfl
      | value v =>
        obtain ⟨v', value, same⟩ := texts v rfl
        simp only [Hint.withFixedSize?, same ▸ fixedSizeText?_solid solid value]
    · rw [marked] at run
      refine ⟨_, ?_, .inr ⟨safe, rfl⟩⟩
      rw [← bind_assoc]
      exact run.bind_error

/-- The places are tried in turn until one fits. -/
theorem answersAt_placedEnum? {cs : List Char} (he : EnumText.read? cs = some e)
    (hp : IsAt site p) {places : List (Regex × String)} (h : ∀ l ∈ places, IsPlace l.2) :
    ∃ r, AnswersAt s site (placedEnum? e places) r ∧ IsAnswer s
      ((placedName? s p e places).map (fun name => ⟨name.text ++ "." ++ e.entry, true⟩) = ·) r := by
  induction places with
  | nil => exact ⟨_, .of_gives (.pure none), .inl ⟨_, rfl, rfl⟩⟩
  | cons l places ih =>
    obtain ⟨pattern, place⟩ := l
    obtain ⟨placed, others⟩ := forall_mem_cons.mp h
    obtain ⟨r', next, answer'⟩ := ih others
    rw [placedName?] at answer'
    rw [placedEnum?, placedName?, findSome?_cons]
    by_cases accepts : pattern.accepts e.className = true
    · obtain ⟨r, read, answer⟩ : ∃ r, AnswersAt s site
          (dottedHint (place ++ "." ++ e.className).toList) r ∧ _ := answersAt_dottedHint placed he
      have name : typeNameAt? s p (place ++ "." ++ e.className).toList =
          r.toOption.bind Hint.typeName? := by
        obtain ⟨q, run, -⟩ := read p hp
        rw [typeNameAt?, (placed.isSolid he).hintOfText, run]
      rw [if_pos accepts, if_pos accepts, name]
      rcases answer with ⟨hint, rfl, -⟩ | ⟨safe, rfl⟩
      · cases hint with
        | type name parameters => exact ⟨_, read.bind (.of_gives (.pure _)), .inl ⟨_, rfl, rfl⟩⟩
        | expression => exact ⟨r', read.bind next, answer'⟩
      · exact ⟨_, read.bind_error, .inr ⟨safe, rfl⟩⟩
    · rw [if_neg accepts, if_neg accepts]
      exact ⟨r', next, answer'⟩

def expressionAt (s : Setting) (p : Progress) (text : List Char) : Except Failure Expression :=
  ((expressionOfText text).outcome s p).1

theorem expressionAt_eq {r : Except Failure Expression} (hp : IsAt site p)
    (h : AnswersAt s site (expressionOfText text) r) : expressionAt s p text = r := by
  obtain ⟨q, run, -⟩ := h p hp
  exact congrArg Prod.fst run

theorem expressionAt_plain (hp : IsAt site p)
    (h : EnumText.read? (trim text) = none ∨ s.options.enumLocations = []) :
    expressionAt s p text = (Expression.ofText text).marked s.options.safeValues := by
  refine expressionAt_eq hp ?_
  rw [expressionOfText]
  cases read : EnumText.read? (trim text) with
  | none => exact answersAt_plain text
  | some e =>
    have empty : s.options.enumPlaces = [] := by
      rw [Options.enumPlaces, h.resolve_left (by simp [read])]
      rfl
    have found : AnswersAt s site (do placedEnum? e (← options).enumPlaces) (.ok none) :=
      .of_gives (.of_outcome fun p _ => by
        rw [bind_of_ok (outcome_options s p), empty]
        rfl)
    exact found.bind (answersAt_plain text)

/-- The value of an enumeration stands in the first place that fits it. -/
theorem expressionAt_of_enum (h : EnumText.read? (trim text) = some e) (hp : IsAt site p)
    (places : ∀ l ∈ s.options.enumPlaces, IsPlace l.2) :
    expressionAt s p text = (match placedName? s p e s.options.enumPlaces with
      | some name => .ok (.value ⟨name.text ++ "." ++ e.entry, true⟩)
      | none => (Expression.ofText text).marked s.options.safeValues) ∨
    s.options.safeValues = some .nothing ∧ expressionAt s p text = .error .noPattern := by
  obtain ⟨r, run, answer⟩ := answersAt_placedEnum? (s := s) h hp places
  have found : AnswersAt s site (do placedEnum? e (← options).enumPlaces) r :=
    AnswersAt.bind (.of_gives (.of_outcome fun p _ => outcome_options s p)) run
  rcases answer with ⟨_, rfl, rfl⟩ | ⟨safe, rfl⟩
  · refine .inl (expressionAt_eq hp ?_)
    rw [expressionOfText, h]
    refine found.bind ?_
    cases placedName? s p e s.options.enumPlaces with
    | none => exact answersAt_plain text
    | some name => exact answersAt_markSafe _
  · refine .inr ⟨safe, expressionAt_eq hp ?_⟩
    rw [expressionOfText, h]
    exact found.bind_error

/-- Under the options of any command line, the value of an enumeration at the front of a text is the one
in the first place that fits, in the order in which the patterns were given. Only such texts are read
otherwise than without places. What stands behind the value makes no difference. -/
theorem expressionAt_with_places {arguments : List String} {c : CommandLine} {s : Setting} {p : Progress}
    (hc : CommandLine.ofArguments arguments = .ok c) (ho : c.options = .ok s.options)
    (hp : p.layers ≠ []) (text : List Char) :
    (∀ e : EnumText, e.IsNamed → e.Starts (trim text) → ∀ name,
      placedName? s p e s.options.placesInOrder = some name → s.options.safeValues ≠ some .nothing →
        expressionAt s p text = .ok (.value ⟨name.text ++ "." ++ e.entry, true⟩)) ∧
    (expressionAt s p text ≠ expressionAt s.withoutLocations p text →
      ∃ e : EnumText, e.IsNamed ∧ e.Starts (trim text) ∧
        ((∃ name, placedName? s p e s.options.placesInOrder = some name ∧
            expressionAt s p text = .ok (.value ⟨name.text ++ "." ++ e.entry, true⟩)) ∨
          s.options.safeValues = some .nothing ∧ expressionAt s p text = .error .noPattern)) := by
  have site : IsAt ⟨p.modulePath, p.module?, p.class?⟩ p := ⟨hp, rfl, rfl, rfl⟩
  have places := Options.isPlace_of_mem_enumPlaces hc ho
  rw [← Options.enumPlaces_eq]
  constructor
  · intro e named starts name found safe
    have value := expressionAt_of_enum (EnumText.read?_of_starts named starts) site places
    rw [found] at value
    exact value.resolve_right fun fails => safe fails.1
  · intro differs
    have without : expressionAt s.withoutLocations p text =
        (Expression.ofText text).marked s.options.safeValues := expressionAt_plain site (.inr rfl)
    rw [without] at differs
    cases read : EnumText.read? (trim text) with
    | none => exact absurd (expressionAt_plain site (.inl read)) differs
    | some e =>
      obtain ⟨named, starts⟩ := EnumText.starts_of_read? read
      refine ⟨e, named, starts, ?_⟩
      rcases expressionAt_of_enum read site places with value | fails
      · cases found : placedName? s p e s.options.enumPlaces with
        | none =>
          rw [found] at value
          exact absurd value differs
        | some name =>
          rw [found] at value
          exact .inl ⟨name, rfl, value⟩
      · exact .inr fails

def optionsOf? (arguments : List String) : Option Options :=
  (CommandLine.ofArguments arguments).toOption.bind (·.options.toOption)

theorem optionsOf?_eq_some {arguments : List String} {o : Options} (h : optionsOf? arguments = some o) :
    ∃ c, CommandLine.ofArguments arguments = .ok c ∧ c.options = .ok o := by
  unfold optionsOf? at h
  rcases hc : CommandLine.ofArguments arguments with e | c
  · rw [hc] at h
    cases h
  · rw [hc] at h
    refine ⟨c, rfl, ?_⟩
    rcases ho : c.options with e | o'
    · simp [Except.toOption, ho] at h
    · simpa [Except.toOption, ho] using h

def atFunction : Progress := { layers := [{ path := ⟨["f"]⟩ }] }

/-- Of the places for one pattern the last one counts. -/
theorem placed_color : ∃ o,
    optionsOf? ["--enum-class-locations", "C:a", "--enum-class-locations", "Co:b",
      "--enum-class-locations", "C:c.d", "m"] = some o ∧
    expressionAt ⟨o, .ofModules []⟩ atFunction " <Color.RED: -3> ".toList =
      .ok (.value ⟨"c.d.Color.RED", true⟩) := by
  have computed : (optionsOf? ["--enum-class-locations", "C:a", "--enum-class-locations", "Co:b",
      "--enum-class-locations", "C:c.d", "m"]).map (fun o => (o.safeValues.isNone,
        placedName? ⟨o, .ofModules []⟩ atFunction ⟨"Color", "RED"⟩ o.placesInOrder)) =
      some (true, some ⟨["c", "d", "Color"]⟩) := by
    rw [World.ofModules_eq]
    decide +kernel
  obtain ⟨o, given, result⟩ := Option.map_eq_some_iff.mp computed
  obtain ⟨c, hc, ho⟩ := optionsOf?_eq_some given
  obtain ⟨safe, name⟩ := Prod.mk.inj result
  obtain ⟨named, starts⟩ := EnumText.starts_of_read?
    (show EnumText.read? (trim " <Color.RED: -3> ".toList) = some ⟨"Color", "RED"⟩ by decide +kernel)
  refine ⟨o, given, (expressionAt_with_places hc ho (cons_ne_nil _ _) _).1 _ named starts _ name ?_⟩
  rw [Option.isNone_iff_eq_none.mp safe]
  intro missing
  cases missing

/-- What stands behind the value is lost. -/
theorem alternative_lost : ∃ o, optionsOf? ["--enum-class-locations", "Color:m", "m"] = some o ∧
    expressionAt ⟨o, .ofModules []⟩ atFunction "<Color.RED: 0> | 1".toList =
      .ok (.value ⟨"m.Color.RED", true⟩) ∧
    expressionAt (Setting.mk o (.ofModules [])).withoutLocations atFunction
      "<Color.RED: 0> | 1".toList = .ok (.invalid "<Color.RED: 0> | 1") := by
  have computed : (optionsOf? ["--enum-class-locations", "Color:m", "m"]).map (fun o =>
      (expressionAt ⟨o, .ofModules []⟩ atFunction "<Color.RED: 0> | 1".toList,
        expressionAt (Setting.mk o (.ofModules [])).withoutLocations atFunction
          "<Color.RED: 0> | 1".toList)) =
      some (.ok (.value ⟨"m.Color.RED", true⟩), .ok (.invalid "<Color.RED: 0> | 1")) := by
    rw [World.ofModules_eq]
    decide +kernel
  obtain ⟨o, given, result⟩ := Option.map_eq_some_iff.mp computed
  exact ⟨o, given, Prod.mk.inj result⟩

end Inspection

end TypeStubs
