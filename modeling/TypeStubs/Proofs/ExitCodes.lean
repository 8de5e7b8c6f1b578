import TypeStubs.Proofs.IgnoredFlags

/-! A run that asks for an exit code ends early if and only if it has an error message, and then it
writes nothing. Otherwise it is the run that does not ask. -/

namespace TypeStubs

open List

variable {m : Module} {name : String} {f : Flag} {parts : List CommandPart} {c : CommandLine}
variable {t u : Taken}

def Options.withoutExitCode (o : Options) : Options := { o with exitCode := false }

namespace Inspection

variable {o : Options} {w : World} {p q : Progress}

def named (name : String) : Inspection Module := do moduleOf (.ofText name) (← importModule name)

/-- Two states that are the same but for the mark of a problem that ends the run. It is set if and
only if there is an error message. -/
structure SameButFatal (p q : Progress) : Prop where
  same : q = { p with fatal := false }
  said : Said p.layers p.log
  fatal : p.fatal = true ↔ ∃ text, isError p text

section

variable (exit : o.exitCode = true)
include exit

theorem sameButFatal_report (problem : Problem) (hl : p.layers ≠ []) (hR : SameButFatal p q) :
    Together SameButFatal ((report problem).outcome ⟨o, w⟩ p)
      ((report problem).outcome ⟨o.withoutExitCode, w⟩ q) := by
  obtain ⟨rfl, said, fatal⟩ := hR
  by_cases heard : isHeard ⟨o, w⟩ p problem = true
  · have heard' : isHeard ⟨o.withoutExitCode, w⟩ { p with fatal := false } problem = true := heard
    rw [report_heard heard hl, report_heard heard' hl]
    refine ⟨rfl, rfl, said.complaints problem, ?_⟩
    obtain ⟨top, rest, layers⟩ := exists_cons_of_ne_nil hl
    constructor
    · intro _
      refine ⟨complaint top.path problem, ?_⟩
      simp only [isError, complained, layers]
      exact Said.mem_complaints (layers ▸ said) problem
    · intro _
      simp only [exit, Bool.true_or]
  · have quiet := Bool.not_eq_true _ ▸ heard
    have quiet' : isHeard ⟨o.withoutExitCode, w⟩ { p with fatal := false } problem = false := quiet
    rw [report_quiet quiet, report_quiet quiet']
    exact ⟨rfl, rfl, said, fatal⟩

theorem lockstep_sameButFatal (w : World) :
    Lockstep ⟨o, w⟩ ⟨o.withoutExitCode, w⟩ SameButFatal where
  view hR := by
    rw [hR.same]
    rfl
  paths hR := by
    rw [hR.same]
    rfl
  within c hR := by
    obtain ⟨rfl, said, fatal⟩ := hR
    exact ⟨rfl, said, fatal⟩
  push path hR := by
    obtain ⟨rfl, said, fatal⟩ := hR
    refine ⟨rfl, ?_, fatal⟩
    intro l hl
    rcases mem_cons.mp hl with rfl | hl
    · exact fun text ht => nomatch ht
    · exact said l hl
  pop hR := by
    obtain ⟨rfl, said, fatal⟩ := hR
    exact ⟨rfl, fun l hl => said l (mem_of_mem_drop hl), fatal⟩
  report := sameButFatal_report exit

theorem named_together (w : World) (name : String) :
    Together SameButFatal ((named name).outcome ⟨o, w⟩ {})
      ((named name).outcome ⟨o.withoutExitCode, w⟩ {}) := by
  have start : SameButFatal {} {} := by
    refine ⟨rfl, fun _ hl => (nomatch hl), ?_⟩
    simp [isError]
  have found := importModule_together (s := ⟨o, w⟩) (t := ⟨o.withoutExitCode, w⟩) rfl start name
  exact found.bind fun m _ _ _ hR => moduleOf_together (lockstep_sameButFatal exit w) _ m hR

omit exit in
theorem outcome_whole {s : Setting} (h : (named name).outcome s {} = (.ok m, p)) :
    (whole name).outcome s {} = (finish >>= fun _ => pure m).outcome s p := by
  obtain ⟨object, r, found, inspected⟩ := bind_ok_iff.mp h
  rw [whole, bind_of_ok found, bind_of_ok inspected]

theorem whole_exits (h : (named name).outcome ⟨o, w⟩ {} = (.ok m, p)) :
    (∃ q, (whole name).outcome ⟨o, w⟩ {} = (.error .terminated, q) ∧ ∃ text, isError q text) ∨
      ∃ q, (whole name).outcome ⟨o, w⟩ {} = (.ok m, q) ∧
        (whole name).outcome ⟨o.withoutExitCode, w⟩ {} = (.ok m, q) ∧ ¬ ∃ text, isError q text := by
  have together := named_together exit w name
  rw [h] at together
  obtain ⟨result, same, -, fatal⟩ := together
  have h' : (named name).outcome ⟨o.withoutExitCode, w⟩ {} = (.ok m, { p with fatal := false }) :=
    Prod.ext result.symm same
  rw [outcome_whole h, outcome_whole h', outcome_bind, outcome_bind, outcome_finish, outcome_finish]
  by_cases hf : p.fatal = true
  · obtain ⟨text, logged⟩ := fatal.mp hf
    left
    rw [if_pos (by simp [exit, hf])]
    exact ⟨_, rfl, text, mem_append_left _ (mem_append_left _ logged)⟩
  · have off : p.fatal = false := Bool.eq_false_iff.mpr hf
    have clear : { p with fatal := false } = p := by rw [← off]
    right
    rw [clear, if_neg (by simp [hf]), if_neg (by simp [hf])]
    refine ⟨_, rfl, rfl, ?_⟩
    rintro ⟨text, logged⟩
    exact hf (fatal.mpr ⟨text, (isError_warned p (warnings p) text).mp logged⟩)

end

end Inspection

/-- The first of two runs ends early if and only if it has an error message. Then it leaves no files,
and otherwise it is the second. -/
structure Run.ExitsOnError (r r' : Run) : Prop where
  exact : r.error? = some (.inspection .terminated) ↔ ∃ text, ⟨.error, text⟩ ∈ r.log
  atomic : r.error? = some (.inspection .terminated) → r.tree = {}
  same : r.error? ≠ some (.inspection .terminated) → r = r'

theorem Options.runInto_exits {o : Options} {w : World} {p : Progress} (exit : o.exitCode = true)
    (h : (Inspection.named o.moduleName).outcome ⟨o, w⟩ {} = (.ok m, p)) (directory : String) :
    (o.runInto directory w).ExitsOnError (o.withoutExitCode.runInto directory w) := by
  have name : o.withoutExitCode.moduleName = o.moduleName := rfl
  unfold runInto
  rcases Inspection.whole_exits exit h with ⟨q, ends, logged⟩ | ⟨q, ends, ends', quiet⟩
  · rw [ends]
    exact ⟨⟨fun _ => logged, fun _ => rfl⟩, fun _ => rfl, fun other => absurd rfl other⟩
  · have dry : o.withoutExitCode.dryRun = o.dryRun := rfl
    have write : o.withoutExitCode.write directory m = o.write directory m := rfl
    rw [name, ends, ends']
    dsimp only
    rw [dry, write]
    split
    · exact ⟨⟨nofun, fun logged => absurd logged quiet⟩, nofun, fun _ => rfl⟩
    · split
      · exact ⟨⟨nofun, fun logged => absurd logged quiet⟩, nofun, fun _ => rfl⟩
      · exact ⟨⟨nofun, fun logged => absurd logged quiet⟩, nofun, fun _ => rfl⟩

namespace CommandLine

open CommandPart

variable {arguments : List String} {given : Given String}

def withoutExitCode (c : CommandLine) : CommandLine := { c with exitCode := false }

theorem options_withoutExitCode (c : CommandLine) :
    c.withoutExitCode.options = c.options.map Options.withoutExitCode := by
  simp only [options, withoutExitCode]
  cases locationsFrom 0 c.enumLocations with
  | error e => rfl
  | ok locations =>
    cases ignored c.ignoredIdentifiers with
    | error e => rfl
    | ok identifiers =>
      cases ignored c.ignoredExpressions with
      | error e => rfl
      | ok expressions =>
        cases ignored c.ignoredNames with
        | error e => rfl
        | ok names => rfl

/-- The arguments of a command line without those that ask for an exit code. -/
def dropExitCode : List String → List String
  | [] => []
  | "--" :: rest => "--" :: rest
  | s :: rest =>
    match CommandPart.ofText s with
    | .ok (.flag .exitCode none) => dropExitCode rest
    | _ => s :: dropExitCode rest

def asksOther : CommandPart → Bool
  | .flag .exitCode none => false
  | _ => true

theorem asksOther_flag (hf : f ≠ .exitCode) (value : Option String) :
    asksOther (.flag f value) = true := by
  cases f with
  | exitCode => contradiction
  | _ => rfl

theorem ofTexts_cons {s : String} {rest : List String} (hs : s ≠ "--") :
    ofTexts (s :: rest) = do
      let part ← CommandPart.ofText s
      return part :: (← ofTexts rest) := by
  rw [ofTexts]
  exact hs

theorem ofTexts_dropExitCode (h : ofTexts arguments = .ok parts) :
    ofTexts (dropExitCode arguments) = .ok (parts.filter asksOther) := by
  fun_induction dropExitCode arguments generalizing parts with
  | case1 =>
    cases h
    rfl
  | case2 rest =>
    cases h
    have kept : ∀ part ∈ rest.map CommandPart.plain, asksOther part = true := by
      simp [asksOther]
    rw [filter_cons_of_pos rfl, filter_eq_self.mpr kept]
    rfl
  | case3 s rest hs ho ih =>
    rw [ofTexts_cons hs, ho] at h
    obtain ⟨others, hr, h⟩ := bind_ok (x := ofTexts rest) h
    cases h
    rw [filter_cons_of_neg Bool.false_ne_true]
    exact ih hr
  | case4 s rest hs ho ih =>
    rw [ofTexts_cons hs] at h
    obtain ⟨part, hp, h⟩ := bind_ok h
    obtain ⟨others, hr, h⟩ := bind_ok h
    cases h
    have other : asksOther part = true := by
      unfold asksOther
      split
      · exact absurd hp ho
      · rfl
    rw [ofTexts_cons hs, hp, ih hr, filter_cons_of_pos other]
    rfl

theorem apply_withoutExitCode {d : CommandLine} (hf : f ≠ .exitCode)
    (h : f.apply given c = .ok d) : f.apply given c.withoutExitCode = .ok d.withoutExitCode := by
  cases f with
  | exitCode => contradiction
  | help => cases h
  | outputDirectory | rootSuffix | ignoreAll | invalidAsIs | dryRun =>
    cases h
    rfl
  | ignoreExpressions | ignoreIdentifiers | ignoreNames | enumLocations | safeValues | extension =>
    obtain ⟨v, hv, h⟩ := bind_ok h
    cases h
    simp only [Flag.apply, hv]
    rfl
  | annotatedArrays | typeVariableArrays | bareArrays =>
    exact chooseArrays_map withoutExitCode (fun _ => rfl) (fun _ => rfl) h

def Taken.withoutExitCode (t : Taken) : Taken := { t with line := t.line.withoutExitCode }

theorem Taken.apply_withoutExitCode (hf : f ≠ .exitCode)
    (h : t.apply f given = .ok u) : t.withoutExitCode.apply f given = .ok u.withoutExitCode := by
  obtain ⟨line, hline, h⟩ := bind_ok h
  cases h
  unfold Taken.apply
  rw [show f.apply given t.withoutExitCode.line = .ok line.withoutExitCode from
    CommandLine.apply_withoutExitCode hf hline]
  rfl

theorem not_take_mark (hn : t.moduleName = some name) (h : take t (.mark :: parts) = .ok u) :
    u.left ≠ [] := by
  rcases parts with _ | ⟨part, rest⟩
  · cases h
    exact append_ne_nil_of_right_ne_nil _ (cons_ne_nil _ _)
  · cases part with
    | plain s =>
      simp only [take, hn] at h
      exact not_take_leave h
    | _ =>
      simp only [take] at h
      exact not_take_leave h

theorem take_plain {s : String} (hn : t.moduleName = none)
    (h : take { t with moduleName := some s } parts = .ok u) (hu : u.left = []) :
    take t (.plain s :: parts) = .ok u := by
  cases parts with
  | nil => simpa [take, hn] using h
  | cons part rest =>
    cases part with
    | mark => exact absurd hu (not_take_mark rfl h)
    | _ => simpa [take, hn] using h

/-- What is left of the arguments without an exit code is taken the same way. Nothing can come to
stand next to a flag that takes a value, or a mark next to the name of the module: with the flag
between them the arguments would have no meaning. -/
theorem take_withoutExitCode (h : take t parts = .ok u) (hu : u.left = []) :
    take t.withoutExitCode (parts.filter asksOther) = .ok u.withoutExitCode := by
  fun_induction take t parts with
  | case1 t =>
    cases h
    rfl
  | case2 t s rest hn ih | case5 t s rest hn ih =>
    have hn' : t.withoutExitCode.moduleName = none := hn
    rw [filter_cons_of_pos rfl, filter_cons_of_pos rfl]
    simp only [take, hn']
    exact ih h
  | case7 t s rest hr hn ih =>
    rw [filter_cons_of_pos rfl]
    exact take_plain hn (ih h) hu
  | case3 t s rest name hn ih | case6 t s rest name hn ih => exact absurd hu (not_take_leave h)
  | case4 t rest hr ih | case8 t s rest hr name hn ih | case9 t s rest ih =>
    exact absurd hu (not_take_leave h)
  | case10 t f hf v rest ih =>
    obtain ⟨t', ht, h⟩ := bind_ok h
    have other : f ≠ .exitCode := by
      rintro rfl
      cases hf
    rw [filter_cons_of_pos (asksOther_flag other none), filter_cons_of_pos rfl]
    simp only [take, hf, reduceIte, Taken.apply_withoutExitCode other ht]
    exact ih t' h
  | case12 t f rest hf ih =>
    obtain ⟨t', ht, h⟩ := bind_ok h
    by_cases asks : f = .exitCode
    · subst asks
      cases ht
      exact ih { t with line := { t.line with exitCode := true } } h
    · rw [filter_cons_of_pos (asksOther_flag asks none)]
      rw [take.eq_def]
      simp only [hf, Taken.apply_withoutExitCode asks ht]
      exact ih t' h
  | case13 t f v rest hf ih =>
    obtain ⟨t', ht, h⟩ := bind_ok h
    have other : f ≠ .exitCode := by
      rintro rfl
      cases hf
    rw [filter_cons_of_pos (asksOther_flag other (some v))]
    simp only [take, hf, reduceIte]
    rw [Taken.applyJoined, Taken.apply_withoutExitCode other ht]
    exact ih t' h
  | case11 | case14 | case15 | case16 => cases h

theorem ofArguments_dropExitCode (h : ofArguments arguments = .ok c) :
    ofArguments (dropExitCode arguments) = .ok c.withoutExitCode := by
  obtain ⟨parts, u, hparts, taken, nothing, hname, hc⟩ := ofArguments_ok h
  have taken' : take {} (parts.filter asksOther) = .ok u.withoutExitCode :=
    take_withoutExitCode taken nothing
  have left : u.withoutExitCode.left.isEmpty = true := isEmpty_iff.mpr nothing
  have moduleName : u.withoutExitCode.moduleName = some c.moduleName := hname
  rw [ofArguments, ofTexts_dropExitCode hparts, hc]
  simp only [bind, Except.bind, taken', moduleName, left]
  rfl

def Inspects (c : CommandLine) (w : World) : Prop :=
  ∃ o directory m p, c.options = .ok o ∧ o.outputDirectory = .value directory ∧
    (Inspection.named o.moduleName).outcome ⟨o, w⟩ {} = (.ok m, p)

theorem inspects_of_isOk {w : World} {o : Options} {directory : String} (ho : c.options = .ok o)
    (hd : o.outputDirectory = .value directory)
    (ok : ((Inspection.named o.moduleName).outcome ⟨o, w⟩ {}).1.isOk = true) : c.Inspects w := by
  cases hr : (Inspection.named o.moduleName).outcome ⟨o, w⟩ {} with
  | mk r p =>
    cases r with
    | error e =>
      rw [hr] at ok
      cases ok
    | ok m => exact ⟨o, directory, m, p, ho, hd, hr⟩

/-- The exit code is exact and atomic: if a command line asks for it, and the inspection of the
module returns, then the run ends early with the code 1 if and only if an error message was given.
In that case there are no directories and files. Otherwise the run is the same as that of the
arguments without the exit code. -/
theorem exit_code_exact (w : World) {arguments : List String} {c : CommandLine}
    (h : ofArguments arguments = .ok c) (exit : c.exitCode = true) (inspects : c.Inspects w) :
    Failure.terminated.message = "1" ∧ ((c.run w).error? = some (.inspection .terminated) ↔
      ∃ text, ⟨.error, text⟩ ∈ (c.run w).log) ∧ ((c.run w).error? = some (.inspection .terminated) →
      (c.run w).tree.directories = [] ∧ (c.run w).tree.files = []) ∧
    ∃ c', ofArguments (dropExitCode arguments) = .ok c' ∧ c'.exitCode = false ∧
      ((c.run w).error? ≠ some (.inspection .terminated) → c.run w = c'.run w) := by
  obtain ⟨o, directory, m, p, ho, hd, hm⟩ := inspects
  have asks : o.exitCode = true := (exitCode_of_options ho).trans exit
  have exits := Options.runInto_exits asks hm directory
  have hd' : o.withoutExitCode.outputDirectory = .value directory := hd
  have run_eq : c.run w = o.runInto directory w := by simp only [run, ho, Options.run, hd]
  have run_eq' : c.withoutExitCode.run w = o.withoutExitCode.runInto directory w := by
    simp only [run, options_withoutExitCode, ho, Except.map, Options.run, hd']
  rw [run_eq]
  refine ⟨rfl, exits.exact, ?_, c.withoutExitCode, ofArguments_dropExitCode h, rfl, ?_⟩
  · intro ends
    rw [exits.atomic ends]
    exact ⟨rfl, rfl⟩
  · rw [run_eq']
    exact exits.same

/-- The unknown type ends a run that asks for an exit code, unless problems are ignored. -/
theorem unknownType_exits :
    (({ moduleName := "m", exitCode := true } : CommandLine).run unknownType).tree.files = [] ∧
      ({ moduleName := "m", exitCode := true, ignoreAll := true } : CommandLine).run unknownType =
        ({ moduleName := "m", ignoreAll := true } : CommandLine).run unknownType := by
  have h : ofArguments ["--exit-code", "m"] = .ok { moduleName := "m", exitCode := true } := rfl
  have h' : ofArguments ["m", "--ignore-all-errors", "--exit"] =
    .ok { moduleName := "m", exitCode := true, ignoreAll := true } := rfl
  have inspects : Inspects { moduleName := "m", exitCode := true } unknownType :=
    inspects_of_isOk rfl rfl (by rw [unknownType, World.ofModules_eq]; decide +kernel)
  have inspects' : Inspects { moduleName := "m", exitCode := true, ignoreAll := true } unknownType :=
    inspects_of_isOk rfl rfl (by rw [unknownType, World.ofModules_eq]; decide +kernel)
  obtain ⟨-, -, atomic, -⟩ := exit_code_exact unknownType h rfl inspects
  obtain ⟨-, -, -, c', hc', -, same⟩ := exit_code_exact unknownType h' rfl inspects'
  cases hc'
  refine ⟨(atomic ?_).2, same ?_⟩
  · rw [unknownType, World.ofModules_eq]
    decide +kernel
  · rw [unknownType, World.ofModules_eq]
    decide +kernel

end CommandLine

end TypeStubs
