import TypeStubs.Proofs.Runs

/-! The histories of runs: which imports were asked for, which problems were reported, and in what.
A history has the shape of its run, so what happened in a layer or in a module is a part of it. -/

namespace TypeStubs.Inspection

open List

variable {path : QualifiedName}

/-- What happened in a run. Reports come with the layers at that time, their answers, and the messages
that they gave. -/
inductive History where
  | quiet
  | ask (i : Import)
  | report (problem : Problem) (layers : List Layer) (answer : Except Failure Unit)
      (messages : List Message)
  | next (first second : History)
  | inLayer (path : QualifiedName) (inside : History)
  | inModule (inside : History)

namespace History

/-- The imports that were asked for, outside of the modules in it. -/
def imports : History → List Import
  | quiet | report .. | inModule _ => []
  | ask i => [i]
  | next h k => h.imports ++ k.imports
  | inLayer _ h => h.imports

def problems : History → List Problem
  | quiet | ask _ => []
  | report problem _ _ _ => [problem]
  | next h k => h.problems ++ k.problems
  | inLayer _ h | inModule h => h.problems

def messages : History → List Message
  | quiet | ask _ => []
  | report _ _ _ messages => messages
  | next h k => h.messages ++ k.messages
  | inLayer _ h | inModule h => h.messages

/-- The messages that were given outside of the layers in it. -/
def ownMessages : History → List Message
  | quiet | ask _ | inLayer .. => []
  | report _ _ _ messages => messages
  | next h k => h.ownMessages ++ k.ownMessages
  | inModule h => h.ownMessages

/-- The texts of the messages that were given outside of the layers in it. -/
def ownTexts (h : History) : List String := h.ownMessages.map Message.text

/-- All reports are made on a stack of layers with the right paths, and are answered. Their messages
are errors about what is on top, and no two of them are the same while a layer is there. -/
def Orderly : List QualifiedName → History → Prop
  | _, quiet | _, ask _ => True
  | stack, report problem layers answer messages =>
    layers.map Layer.path = stack ∧ answer = .ok () ∧
      ∃ path ∈ stack.head?, messages = [] ∨ messages = [⟨.error, complaint path problem⟩]
  | stack, next h k => h.Orderly stack ∧ k.Orderly stack
  | stack, inLayer path h => h.Orderly (path :: stack) ∧ h.ownTexts.Nodup
  | stack, inModule h => h.Orderly stack

theorem ownTexts_next (h k : History) : (next h k).ownTexts = h.ownTexts ++ k.ownTexts :=
  map_append

theorem Orderly.own {stack : List QualifiedName} {h : History}
    (orderly : h.Orderly (path :: stack)) :
    ∀ m ∈ h.ownMessages, ∃ problem ∈ h.problems, m = ⟨.error, complaint path problem⟩ := by
  intro m hm
  induction h with
  | quiet | ask | inLayer => cases hm
  | inModule h ih => exact ih orderly hm
  | report problem layers answer messages =>
    obtain ⟨-, -, top, same, rfl | rfl⟩ := orderly
    · cases hm
    · cases same
      exact ⟨problem, mem_singleton_self _, mem_singleton.mp hm⟩
  | next h k ihh ihk =>
    rcases mem_append.mp hm with hm | hm
    · obtain ⟨problem, reported, rfl⟩ := ihh orderly.1 hm
      exact ⟨problem, mem_append_left _ reported, rfl⟩
    · obtain ⟨problem, reported, rfl⟩ := ihk orderly.2 hm
      exact ⟨problem, mem_append_right _ reported, rfl⟩

end History

/-- What happens in the run of a step. A module that fails is not left, so only steps that enter no
modules are tried. -/
inductive Happens (s : Setting) : Bool → {α : Type} → Inspection α → Progress → History → Prop
  | look {deep : Bool} {α : Type} {x : Inspection α} {p : Progress} :
      (∀ t r, (x.outcome t r).2 = r) → Happens s deep x p .quiet
  | letter {deep : Bool} {p : Progress} (event : Progress → LetterEvent) :
      Happens s deep (modify fun p => { p with letters := p.letters ++ [event p] }) p .quiet
  | ask {deep : Bool} {p : Progress} (i : Import) : Happens s deep (addImport i) p (.ask i)
  | report {deep : Bool} {p q : Progress} {answer : Except Failure Unit} {messages : List Message}
      (problem : Problem) : (Inspection.report problem).outcome s p = (answer, q) →
      q.log = p.log ++ messages →
      Happens s deep (Inspection.report problem) p (.report problem p.layers answer messages)
  | next {deep : Bool} {α β : Type} {x : Inspection α} {f : α → Inspection β} {p q : Progress} {a : α}
      {h k : History} : Happens s deep x p h → x.outcome s p = (.ok a, q) →
      Happens s deep (f a) q k → Happens s deep (x >>= f) p (.next h k)
  | stop {deep : Bool} {α β : Type} {x : Inspection α} {f : α → Inspection β} {p q : Progress}
      {e : Failure} {h : History} : Happens s deep x p h → x.outcome s p = (.error e, q) →
      Happens s deep (x >>= f) p h
  | tried {deep : Bool} {α : Type} {x : Inspection α} {f : Failure → Inspection α} {p q : Progress}
      {a : α} {h : History} : Happens s false x p h → x.outcome s p = (.ok a, q) →
      Happens s deep (tryCatch x f) p h
  | caught {deep : Bool} {α : Type} {x : Inspection α} {f : Failure → Inspection α} {p q : Progress}
      {e : Failure} {h k : History} : Happens s false x p h → x.outcome s p = (.error e, q) →
      Happens s false (f e) q k → Happens s deep (tryCatch x f) p (.next h k)
  | inLayer {deep : Bool} {α : Type} {x : Inspection α} {p : Progress} {h : History}
      (path : QualifiedName) : Happens s deep x (pushed path p) h →
      Happens s deep (withLayer path x) p (.inLayer path h)
  | inClass {deep : Bool} {α : Type} {x : Inspection α} {p : Progress} {h : History} (c : Object) :
      Happens s deep x { p with class? := some c } h → Happens s deep (withClass c x) p h
  | inModulePath {deep : Bool} {α : Type} {x : Inspection α} {p : Progress} {h : History}
      (path : QualifiedName) : Happens s deep x { p with modulePath := path } h →
      Happens s deep (withModulePath path x) p h
  | inModule {α : Type} {x : Inspection α} {p : Progress} {h : History} (m : Object) :
      Happens s true x { p with module? := some m, imports := [] } h →
      Happens s true (withModule m x) p (.inModule h)

/-! Every run has a history. -/

section

variable {α β : Type} {s : Setting} {deep : Bool} {x : Inspection α}

theorem happens_bind {f : α → Inspection β} {p : Progress}
    (hx : ∃ h, Happens s deep x p h) (hf : ∀ a q, ∃ h, Happens s deep (f a) q h) :
    ∃ h, Happens s deep (x >>= f) p h := by
  obtain ⟨h, hh⟩ := hx
  match run : x.outcome s p with
  | (.ok a, q) =>
    obtain ⟨k, hk⟩ := hf a q
    exact ⟨_, .next hh run hk⟩
  | (.error e, q) => exact ⟨h, .stop hh run⟩

theorem happens_report (problem : Problem) (p : Progress) :
    ∃ h, Happens s deep (Inspection.report problem) p h := by
  by_cases heard : isHeard s p problem = true
  · by_cases hl : p.layers = []
    · exact ⟨_, .report problem (report_unplaced heard hl) (append_nil _).symm⟩
    · exact ⟨_, .report problem (report_heard heard hl) rfl⟩
  · exact ⟨_, .report problem (report_quiet (Bool.not_eq_true _ ▸ heard)) (append_nil _).symm⟩

theorem happens_requireImport (name : QualifiedName) (p : Progress) :
    ∃ h, Happens s deep (requireImport name) p h := by
  have known : ∀ t r, ((isKnown name).outcome t r).2 = r := fun t r => by rw [outcome_isKnown]
  refine happens_bind ⟨_, .look known⟩ fun isKnown q => ?_
  split
  · exact ⟨_, .look fun _ _ => rfl⟩
  · refine happens_bind ⟨_, .look fun t r => ?_⟩ fun origin? r => ?_
    · obtain ⟨found, same⟩ := parentModuleAmong?_looks t.world name name.parents
      exact congrArg Prod.snd (same t r rfl)
    · cases origin? with
      | some origin => exact ⟨_, .ask ⟨none, origin⟩⟩
      | none => exact happens_report (.name name) r

theorem Plain.happens (hx : Plain x) (s : Setting) (deep : Bool) (p : Progress) :
    ∃ h, Happens s deep x p h := by
  induction hx generalizing deep p with
  | pure | throw | view => exact ⟨_, .look fun _ _ => rfl⟩
  | report problem => exact happens_report problem p
  | requireImport name => exact happens_requireImport name p
  | addDimension name => exact ⟨_, .letter fun p => .found p.modulePath name⟩
  | bind hx hf ihx ihf => exact happens_bind (ihx deep p) fun a => ihf a deep
  | withLayer path hx ih =>
    obtain ⟨h, hh⟩ := ih deep (pushed path p)
    exact ⟨_, .inLayer path hh⟩
  | @tryCatch _ x f hx hf ihx ihf =>
    obtain ⟨h, hh⟩ := ihx false p
    match run : x.outcome s p with
    | (.ok a, q) => exact ⟨h, .tried hh run⟩
    | (.error e, q) =>
      obtain ⟨k, hk⟩ := ihf e false q
      exact ⟨_, .caught hh run hk⟩

theorem Enclosed.happens (hx : Enclosed x) (s : Setting) (deep : Bool)
    (p : Progress) : ∃ h, Happens s deep x p h := by
  induction hx generalizing p with
  | plain hx => exact hx.happens s deep p
  | bind hx hf ihx ihf => exact happens_bind (ihx p) ihf
  | withLayer path hx ih =>
    obtain ⟨h, hh⟩ := ih (pushed path p)
    exact ⟨_, .inLayer path hh⟩
  | withClass c hx ih =>
    obtain ⟨h, hh⟩ := ih { p with class? := some c }
    exact ⟨h, .inClass c hh⟩

theorem Composed.happens (hx : Composed x) (s : Setting) (p : Progress) :
    ∃ h, Happens s true x p h := by
  induction hx generalizing p with
  | enclosed hx => exact hx.happens s true p
  | bind hx hf ihx ihf => exact happens_bind (ihx p) ihf
  | takeDimensions path => exact ⟨_, .letter fun _ => .taken path⟩
  | addImport name origin => exact ⟨_, .ask ⟨some name, origin⟩⟩
  | withLayer path hx ih =>
    obtain ⟨h, hh⟩ := ih (pushed path p)
    exact ⟨_, .inLayer path hh⟩
  | withModule m hx ih =>
    obtain ⟨h, hh⟩ := ih { p with module? := some m, imports := [] }
    exact ⟨_, .inModule m hh⟩
  | withModulePath path hx ih =>
    obtain ⟨h, hh⟩ := ih { p with modulePath := path }
    exact ⟨h, .inModulePath path hh⟩

end

/-! What happened can be seen in the state. -/

/-- The layers with some more texts about the one on top. -/
def noted (texts : List String) : List Layer → List Layer
  | [] => []
  | top :: rest => { top with reported := top.reported ++ texts } :: rest

@[simp] theorem noted_nil (layers : List Layer) : noted [] layers = layers := by
  cases layers with
  | nil => rfl
  | cons top rest => rw [noted, append_nil]

theorem noted_noted (texts more : List String) (layers : List Layer) :
    noted more (noted texts layers) = noted (texts ++ more) layers := by
  cases layers with
  | nil => rfl
  | cons top rest => simp only [noted, append_assoc]

theorem map_path_noted (texts : List String) (layers : List Layer) :
    (noted texts layers).map Layer.path = layers.map Layer.path := by
  cases layers with
  | nil => rfl
  | cons top rest => rfl

/-- No text was given twice about what is on top. -/
def Distinct (layers : List Layer) : Prop := ∀ top ∈ layers.head?, top.reported.Nodup

/-- One state leads to another, and this is what happened in between. -/
structure Leads (p : Progress) (h : History) (q : Progress) : Prop where
  log : q.log = p.log ++ h.messages
  found : q.found = p.found ++ h.problems
  layers : q.layers = noted h.ownTexts p.layers
  distinct : Distinct p.layers → Distinct q.layers
  orderly : Distinct p.layers → h.Orderly (pathsOf p)

section

variable {p q r : Progress} {h k : History}

theorem Leads.rescope (lead : Leads p h q) (c d : Scope) : Leads (within p c) h (within q d) :=
  ⟨lead.log, lead.found, lead.layers, lead.distinct, lead.orderly⟩

theorem Leads.refl (p : Progress) : Leads p .quiet p :=
  ⟨(append_nil _).symm, (append_nil _).symm, (noted_nil _).symm, id, fun _ => trivial⟩

theorem Leads.ask (i : Import) (p : Progress) : Leads p (.ask i) p :=
  ⟨(append_nil _).symm, (append_nil _).symm, (noted_nil _).symm, id, fun _ => trivial⟩

theorem Leads.pathsOf (lead : Leads p h q) : pathsOf q = Inspection.pathsOf p := by
  rw [Inspection.pathsOf, lead.layers, map_path_noted, Inspection.pathsOf]

theorem Leads.next (first : Leads p h q) (second : Leads q k r) : Leads p (.next h k) r where
  log := by rw [second.log, first.log, append_assoc, History.messages]
  found := by rw [second.found, first.found, append_assoc, History.problems]
  layers := by rw [second.layers, first.layers, noted_noted, History.ownTexts_next]
  distinct before := second.distinct (first.distinct before)
  orderly before :=
    ⟨first.orderly before, first.pathsOf ▸ second.orderly (first.distinct before)⟩

/-- A layer has the texts of its own messages in the end, and what happened in it is in order. -/
theorem Leads.onTop (lead : Leads (pushed path p) h q) :
    q.layers = ⟨path, h.ownTexts⟩ :: p.layers ∧ h.Orderly (path :: Inspection.pathsOf p) ∧
      h.ownTexts.Nodup := by
  have start : Distinct (pushed path p).layers := by
    rintro top ⟨⟩
    exact Pairwise.nil
  have layers : q.layers = ⟨path, h.ownTexts⟩ :: p.layers := lead.layers
  refine ⟨layers, lead.orderly start, ?_⟩
  exact lead.distinct start ⟨path, h.ownTexts⟩ (by rw [layers]; rfl)

theorem Leads.inModule (lead : Leads p h q) : Leads p (.inModule h) q :=
  ⟨lead.log, lead.found, lead.layers, lead.distinct, lead.orderly⟩

theorem Leads.inLayer (lead : Leads (pushed path p) h q) :
    Leads p (.inLayer path h) (popped q) := by
  obtain ⟨inside, orderly⟩ := lead.onTop
  have layers : (popped q).layers = p.layers := by rw [popped, inside, drop_one, tail_cons]
  refine ⟨lead.log, lead.found, ?_, ?_, fun _ => orderly⟩
  · rw [layers]
    exact (noted_nil _).symm
  · rw [layers]
    exact id

theorem report_notes (problem : Problem) (s : Setting) (hl : p.layers ≠ []) :
    ∃ top rest texts q, p.layers = top :: rest ∧ (report problem).outcome s p = (.ok (), q) ∧
      q.layers = noted texts p.layers ∧ q.log = p.log ++ texts.map (⟨.error, ·⟩) ∧
      (texts = [] ∨ texts = [complaint top.path problem] ∧
        complaint top.path problem ∉ top.reported) := by
  obtain ⟨q, placed, layers, log⟩ := report_placed problem s hl
  obtain ⟨top, rest, stack⟩ := exists_cons_of_ne_nil hl
  by_cases heard : isHeard s p problem = true
  · rw [if_pos heard, stack, complaints] at layers log
    by_cases old : complaint top.path problem ∈ top.reported
    · rw [if_pos (contains_iff_mem.mpr old)] at layers log
      refine ⟨top, rest, [], q, stack, placed, ?_, log, .inl rfl⟩
      rw [noted_nil, stack, layers]
    · rw [if_neg (mt contains_iff_mem.mp old)] at layers log
      refine ⟨top, rest, [_], q, stack, placed, ?_, log, .inr ⟨rfl, old⟩⟩
      rw [stack, layers, noted]
  · rw [if_neg heard] at layers log
    exact ⟨top, rest, [], q, stack, placed, layers.trans (noted_nil _).symm, log, .inl rfl⟩

theorem leads_report {s : Setting} {problem : Problem} {answer : Except Failure Unit}
    {messages : List Message} (hl : p.layers ≠ [])
    (run : (report problem).outcome s p = (answer, q)) (log : q.log = p.log ++ messages) :
    Leads p (.report problem p.layers answer messages) q := by
  have found : q.found = p.found ++ [problem] := by
    have frame := (report_frame problem s p).2.2
    rwa [run] at frame
  obtain ⟨top, rest, texts, r, stack, placed, layers, logged, given⟩ := report_notes problem s hl
  rw [run] at placed
  cases placed
  have same : messages = texts.map (⟨.error, ·⟩) := append_cancel_left (log.symm.trans logged)
  have own : messages.map Message.text = texts := by
    rw [same, map_map]
    exact map_id texts
  refine ⟨log, found, ?_, fun before => ?_, fun _ => ⟨rfl, rfl, top.path, ?_, ?_⟩⟩
  · rw [History.ownTexts, History.ownMessages, own, layers]
  · have nodup : top.reported.Nodup := before top (by rw [stack]; rfl)
    rw [layers, stack]
    rintro _ ⟨⟩
    rcases given with rfl | ⟨rfl, new⟩
    · rwa [append_nil]
    · exact nodup_append.mpr ⟨nodup, pairwise_singleton _ _, by grind⟩
  · rw [pathsOf, stack]
    rfl
  · rcases given with rfl | ⟨rfl, -⟩
    · exact .inl same
    · exact .inr same

end

section

variable {α : Type} {s : Setting} {deep : Bool} {p : Progress} {h : History}

theorem state_withClass (c : Object) (x : Inspection α) (s : Setting) (p : Progress) :
    ∃ d : Scope, ((withClass c x).outcome s p).2 =
        within (x.outcome s { p with class? := some c }).2 d ∧
      d.imports = (x.outcome s { p with class? := some c }).2.imports := by
  rw [outcome_withClass]
  rcases x.outcome s { p with class? := some c } with ⟨e | a, q⟩
  · exact ⟨scopeOf q, rfl, rfl⟩
  · exact ⟨{ scopeOf q with class? := p.class? }, rfl, rfl⟩

theorem state_withModulePath (path : QualifiedName) (x : Inspection α) (s : Setting)
    (p : Progress) : ∃ d : Scope, ((withModulePath path x).outcome s p).2 =
        within (x.outcome s { p with modulePath := path }).2 d ∧
      d.imports = (x.outcome s { p with modulePath := path }).2.imports := by
  rw [outcome_withModulePath]
  rcases x.outcome s { p with modulePath := path } with ⟨e | a, q⟩
  · exact ⟨scopeOf q, rfl, rfl⟩
  · exact ⟨{ scopeOf q with modulePath := p.modulePath }, rfl, rfl⟩

theorem state_withModule (m : Object) (x : Inspection α) (s : Setting) (p : Progress) :
    ∃ d : Scope, ((withModule m x).outcome s p).2 =
      within (x.outcome s { p with module? := some m, imports := [] }).2 d := by
  rw [outcome_withModule]
  rcases x.outcome s { p with module? := some m, imports := [] } with ⟨e | a, q⟩
  · exact ⟨scopeOf q, rfl⟩
  · exact ⟨{ scopeOf q with module? := p.module?, imports := p.imports }, rfl⟩

theorem Happens.leads {x : Inspection α} (happens : Happens s deep x p h) (hl : p.layers ≠ []) :
    Leads p h (x.outcome s p).2 := by
  induction happens with
  | @look _ _ x p same =>
    rw [same s p]
    exact .refl p
  | @letter _ p event =>
    exact (Leads.refl p).rescope (scopeOf p) { scopeOf p with letters := p.letters ++ [event p] }
  | @ask _ p i =>
    exact (Leads.ask i p).rescope (scopeOf p) { scopeOf p with imports := i.insert p.imports }
  | report problem run log =>
    rw [run]
    exact leads_report hl run log
  | next _ run _ ih ih' =>
    have first := ih hl
    rw [run] at first
    rw [bind_of_ok run]
    exact first.next (ih' (layers_ne_nil first.pathsOf.symm hl))
  | stop _ run ih =>
    rw [outcome_bind, run]
    have first := ih hl
    rwa [run] at first
  | tried _ run ih =>
    rw [outcome_tryCatch, run]
    have first := ih hl
    rwa [run] at first
  | caught _ run _ ih ih' =>
    have first := ih hl
    rw [run] at first
    rw [outcome_tryCatch, run]
    exact first.next (ih' (layers_ne_nil first.pathsOf.symm hl))
  | inLayer path _ ih => exact (ih (cons_ne_nil _ _)).inLayer
  | @inClass _ _ x p _ c _ ih =>
    obtain ⟨d, state, -⟩ := state_withClass c x s p
    rw [state]
    exact (ih hl).rescope (scopeOf p) d
  | @inModulePath _ _ x p _ path _ ih =>
    obtain ⟨d, state, -⟩ := state_withModulePath path x s p
    rw [state]
    exact (ih hl).rescope (scopeOf p) d
  | @inModule _ x p _ m _ ih =>
    obtain ⟨d, state⟩ := state_withModule m x s p
    rw [state]
    exact ((ih hl).rescope (scopeOf p) d).inModule

/-- The imports after a run are those before it and those that it asked for. A run that may enter
modules has to return, since a module that fails is not left. -/
theorem Happens.mem_imports {x : Inspection α} (happens : Happens s deep x p h)
    (returns : deep = true → ∃ a q, x.outcome s p = (.ok a, q)) (i : Import) :
    i ∈ (x.outcome s p).2.imports ↔ i ∈ p.imports ∨ i ∈ h.imports := by
  induction happens with
  | @look _ _ x p same =>
    rw [same s p]
    exact (or_iff_left not_mem_nil).symm
  | letter event => exact (or_iff_left not_mem_nil).symm
  | ask j =>
    rw [History.imports, mem_singleton, or_comm]
    exact Import.mem_insert
  | @report _ p _ _ _ problem run log =>
    have frame : ((Inspection.report problem).outcome s p).2.imports = p.imports :=
      congrArg Scope.imports (report_frame problem s p).1
    rw [frame]
    exact (or_iff_left not_mem_nil).symm
  | next _ run _ ih ih' =>
    rw [bind_of_ok run] at returns ⊢
    have first := ih fun _ => ⟨_, _, run⟩
    rw [run] at first
    rw [ih' returns, first, History.imports, mem_append, or_assoc]
  | stop _ run ih =>
    have first := ih fun deep => ?_
    · rw [run] at first
      rw [outcome_bind, run]
      exact first
    · obtain ⟨a, q, ok⟩ := returns deep
      rw [outcome_bind, run] at ok
      cases ok
  | tried _ run ih =>
    have first := ih nofun
    rw [run] at first
    rw [outcome_tryCatch, run]
    exact first
  | caught _ run _ ih ih' =>
    have first := ih nofun
    rw [run] at first
    rw [outcome_tryCatch, run]
    rw [ih' nofun, first, History.imports, mem_append, or_assoc]
  | @inLayer _ _ x p _ path _ ih =>
    refine ih fun deep => ?_
    obtain ⟨a, q, ok⟩ := returns deep
    obtain ⟨r, inside, -⟩ := outcome_withLayer_ok_iff.mp ok
    exact ⟨a, r, inside⟩
  | @inClass _ _ x p _ c _ ih =>
    obtain ⟨d, state, same⟩ := state_withClass c x s p
    rw [state]
    refine (iff_of_eq (congrArg (i ∈ ·) same)).trans (ih fun deep => ?_)
    obtain ⟨a, q, ok⟩ := returns deep
    obtain ⟨r, inside, -⟩ := outcome_withClass_ok_iff.mp ok
    exact ⟨a, r, inside⟩
  | @inModulePath _ _ x p _ path _ ih =>
    obtain ⟨d, state, same⟩ := state_withModulePath path x s p
    rw [state]
    refine (iff_of_eq (congrArg (i ∈ ·) same)).trans (ih fun deep => ?_)
    obtain ⟨a, q, ok⟩ := returns deep
    obtain ⟨r, inside, -⟩ := outcome_withModulePath_ok_iff.mp ok
    exact ⟨a, r, inside⟩
  | @inModule _ x p _ m _ ih =>
    obtain ⟨⟨a, imports⟩, q, ok⟩ := returns rfl
    rw [ok]
    obtain ⟨r, -, -, rfl⟩ := outcome_withModule_ok_iff.mp ok
    exact (or_iff_left not_mem_nil).symm

end

end TypeStubs.Inspection
