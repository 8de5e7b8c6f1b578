import TypeStubs.Options.Reader
import TypeStubs.Proofs.Ignoring

/-! Two command lines that differ only in the flags for ignoring problems make the same files, and
the one that ignores more has no error messages of its own. -/

namespace TypeStubs

open List

variable {f : Flag} {given : Given String} {c d : CommandLine} {t u : Taken}
variable {parts : List CommandPart} {o : Options}

def Flag.isIgnoring : Flag → Bool
  | ignoreExpressions | ignoreIdentifiers | ignoreNames | ignoreAll => true
  | _ => false

namespace CommandPart

/-- What a flag is given: the text joined to it, or the plain argument behind it. The mark is no
value. -/
def valueOf (f : Flag) : Option String → List CommandPart → Given String
  | some v, _ => if v = "--" then .nothing else .value v
  | none, .plain v :: _ => if f.takesValue then .value v else .nothing
  | none, _ => .nothing

def flagsGiven : List CommandPart → List (Flag × Given String)
  | [] => []
  | .flag f value :: rest => (f, valueOf f value rest) :: flagsGiven rest
  | _ :: rest => flagsGiven rest

/-- The plain arguments of a command line that no flag takes as its value. -/
def names : List CommandPart → List String
  | [] => []
  | .plain s :: rest => s :: names rest
  | .flag f none :: rest => if f.takesValue then (names rest).tail else names rest
  | _ :: rest => names rest

end CommandPart

namespace CommandLine

open CommandPart

variable {arguments : List String} {flags : List (Flag × Given String)}

/-- The command line as it is without any flag for ignoring problems. -/
def hearingAll (c : CommandLine) : CommandLine :=
  { c with ignoredExpressions := none, ignoredIdentifiers := none, ignoredNames := none,
           ignoreAll := false }

/-- What the arguments of a command line say besides what to ignore. -/
def others (arguments : List String) :
    Except OptionError (List (Flag × Given String) × List String) := do
  let parts ← CommandPart.ofTexts arguments
  return ((flagsGiven parts).filter (!·.1.isIgnoring), names parts)

/-- Lets flags do their work one after the other. -/
def applyAll (flags : List (Flag × Given String)) (c : CommandLine) :
    Except OptionError CommandLine :=
  flags.foldlM (fun c g => g.1.apply g.2 c) c

theorem applyAll_cons (h : f.apply given c = .ok d) :
    applyAll ((f, given) :: flags) c = applyAll flags d := by
  simp only [applyAll, foldlM_cons, h]
  rfl

theorem Taken.apply_ok (h : t.apply f given = .ok u) :
    f.apply given t.line = .ok u.line ∧ u.moduleName = t.moduleName ∧ u.left = t.left := by
  obtain ⟨line, applied, h⟩ := bind_ok h
  cases h
  exact ⟨applied, rfl, rfl⟩

theorem take_left (h : take t parts = .ok u) : t.left <+: u.left := by
  have leave (t : Taken) (text : String) : t.left <+: (t.leave text).left := prefix_append _ _
  fun_induction take t parts with
  | case1 t =>
    cases h
    exact prefix_rfl
  | case2 t s rest hn ih | case5 t s rest hn ih | case7 t s rest hr hn ih => exact ih h
  | case3 t s rest name hn ih | case6 t s rest name hn ih =>
    exact ((leave _ _).trans (leave _ _)).trans (ih h)
  | case4 t rest hr ih | case8 t s rest hr name hn ih | case9 t s rest ih =>
    exact (leave _ _).trans (ih h)
  | case10 t f hf v rest ih | case12 t f rest hf ih | case13 t f v rest hf ih =>
    obtain ⟨t', ht, h⟩ := bind_ok h
    rw [← (Taken.apply_ok ht).2.2]
    exact ih t' h
  | case11 | case14 | case15 | case16 => cases h

theorem not_take_leave {text : String} (h : take (t.leave text) parts = .ok u) : u.left ≠ [] := by
  intro hu
  have kept := take_left h
  rw [hu] at kept
  simp [Taken.leave] at kept

theorem valueOf_bare (hf : ¬ f.takesValue = true) (rest : List CommandPart) :
    valueOf f none rest = .nothing := by
  unfold valueOf
  split
  · contradiction
  · rw [if_neg hf]
  · rfl

/-- If all arguments of a command line have a meaning, then it is made by its flags, and its plain
arguments are the name of the module. -/
theorem take_spec (h : take t parts = .ok u) (hu : u.left = []) :
    applyAll (flagsGiven parts) t.line = .ok u.line ∧
      u.moduleName.toList = t.moduleName.toList ++ names parts := by
  fun_induction take t parts with
  | case1 t =>
    cases h
    exact ⟨rfl, (append_nil _).symm⟩
  | case2 t s rest hn ih | case5 t s rest hn ih | case7 t s rest hr hn ih =>
    simpa [flagsGiven, names, hn] using ih h
  | case3 t s rest name hn ih | case6 t s rest name hn ih => exact absurd hu (not_take_leave h)
  | case4 t rest hr ih | case8 t s rest hr name hn ih | case9 t s rest ih =>
    exact absurd hu (not_take_leave h)
  | case10 t f hf v rest ih =>
    obtain ⟨t', ht, h⟩ := bind_ok h
    obtain ⟨hline, hname, -⟩ := Taken.apply_ok ht
    simp only [flagsGiven, names, valueOf, hf, reduceIte, applyAll_cons hline, ← hname, tail_cons]
    exact ih t' h
  | case12 t f rest hf ih =>
    obtain ⟨t', ht, h⟩ := bind_ok h
    obtain ⟨hline, hname, -⟩ := Taken.apply_ok ht
    rw [flagsGiven, valueOf_bare hf, names, if_neg hf, applyAll_cons hline, ← hname]
    exact ih t' h
  | case13 t f v rest hf ih =>
    obtain ⟨t', ht, h⟩ := bind_ok h
    obtain ⟨hline, hname, -⟩ := Taken.apply_ok ht
    simp only [flagsGiven, names, valueOf, applyAll_cons hline, ← hname]
    exact ih t' h
  | case11 | case14 | case15 | case16 => cases h

theorem hearingAll_of_apply (hf : f.isIgnoring = true) (h : f.apply given c = .ok d) :
    d.hearingAll = c.hearingAll := by
  cases f with
  | ignoreAll =>
    cases h
    rfl
  | ignoreExpressions | ignoreIdentifiers | ignoreNames =>
    obtain ⟨r, -, h⟩ := bind_ok h
    cases h
    rfl
  | _ => cases hf

theorem chooseArrays_map {style : ArrayStyle} (g : CommandLine → CommandLine)
    (keeps : ∀ c, (g c).arrays = c.arrays)
    (sets : ∀ c, g { c with arrays := style } = { g c with arrays := style })
    (h : f.chooseArrays style c = .ok d) : f.chooseArrays style (g c) = .ok (g d) := by
  unfold Flag.chooseArrays at h ⊢
  rw [keeps]
  cases ho : Flag.ofArrayStyle? c.arrays with
  | none =>
    rw [ho] at h
    cases h
    rw [sets]
  | some other =>
    rw [ho] at h
    dsimp only at h ⊢
    split at h
    · rename_i same
      cases h
      rw [if_pos same]
    · cases h

theorem apply_hearingAll (hf : f.isIgnoring = false) (h : f.apply given c = .ok d) :
    f.apply given c.hearingAll = .ok d.hearingAll := by
  cases f with
  | ignoreAll | ignoreExpressions | ignoreIdentifiers | ignoreNames => cases hf
  | help => cases h
  | outputDirectory | rootSuffix | invalidAsIs | exitCode | dryRun =>
    cases h
    rfl
  | enumLocations | safeValues | extension =>
    obtain ⟨v, hv, h⟩ := bind_ok h
    cases h
    simp only [Flag.apply, hv]
    rfl
  | annotatedArrays | typeVariableArrays | bareArrays =>
    exact chooseArrays_map hearingAll (fun _ => rfl) (fun _ => rfl) h

theorem applyAll_hearingAll (h : applyAll flags c = .ok d) :
    applyAll (flags.filter (!·.1.isIgnoring)) c.hearingAll = .ok d.hearingAll := by
  induction flags generalizing c with
  | nil =>
    cases h
    rfl
  | cons g gs ih =>
    obtain ⟨f, given⟩ := g
    obtain ⟨c', hc, h⟩ := bind_ok h
    cases hf : f.isIgnoring with
    | true =>
      rw [filter_cons_of_neg (by simp [hf]), ← hearingAll_of_apply hf hc]
      exact ih h
    | false =>
      rw [filter_cons_of_pos (by simp [hf]), applyAll_cons (apply_hearingAll hf hc)]
      exact ih h

section

variable (h : ofArguments arguments = .ok c)
include h

theorem ofArguments_ok :
    ∃ parts u, CommandPart.ofTexts arguments = .ok parts ∧ take {} parts = .ok u ∧ u.left = [] ∧
      u.moduleName = some c.moduleName ∧ c = { u.line with moduleName := c.moduleName } := by
  obtain ⟨parts, hparts, h⟩ := bind_ok h
  obtain ⟨u, taken, h⟩ := bind_ok h
  cases hname : u.moduleName with
  | none =>
    rw [hname] at h
    cases h
  | some name =>
    rw [hname] at h
    dsimp only at h
    split at h
    · rename_i nothing
      cases h
      exact ⟨parts, u, hparts, taken, isEmpty_iff.mp nothing, hname, rfl⟩
    · cases h

theorem ofArguments_others : ∃ flags line, others arguments = .ok (flags, [c.moduleName]) ∧
      applyAll flags {} = .ok line ∧ c.hearingAll = { line with moduleName := c.moduleName } := by
  obtain ⟨parts, u, hparts, taken, nothing, hname, hc⟩ := ofArguments_ok h
  obtain ⟨hline, hnames⟩ := take_spec taken nothing
  refine ⟨_, u.line.hearingAll, ?_, applyAll_hearingAll hline, by rw [hc]; rfl⟩
  simp only [others, hparts, bind, Except.bind, pure, Except.pure]
  rw [hname] at hnames
  simp only [Option.toList, nil_append] at hnames
  rw [← hnames]

theorem hearingAll_eq {arguments' : List String} {c' : CommandLine} (h' : ofArguments arguments' = .ok c')
    (same : others arguments = others arguments') : c.hearingAll = c'.hearingAll := by
  obtain ⟨flags, line, ho, hl, hc⟩ := ofArguments_others h
  obtain ⟨flags', line', ho', hl', hc'⟩ := ofArguments_others h'
  rw [ho, ho'] at same
  simp only [Except.ok.injEq, Prod.mk.injEq, List.cons.injEq, and_true] at same
  obtain ⟨rfl, hname⟩ := same
  rw [hl] at hl'
  cases hl'
  rw [hc, hc', hname]

end

/-- The patterns of what to ignore are regular expressions: no flag for them was given nothing. -/
def PatternsGiven (c : CommandLine) : Prop :=
  c.ignoredExpressions ≠ some .nothing ∧ c.ignoredIdentifiers ≠ some .nothing ∧
    c.ignoredNames ≠ some .nothing

/-- What the first command line asks to ignore, the second asks to ignore too. -/
def OnlyAdds (c c' : CommandLine) : Prop :=
  (c.ignoreAll = true → c'.ignoreAll = true) ∧
  (c.ignoredExpressions = none ∨ c'.ignoredExpressions = c.ignoredExpressions) ∧
  (c.ignoredIdentifiers = none ∨ c'.ignoredIdentifiers = c.ignoredIdentifiers) ∧
  (c.ignoredNames = none ∨ c'.ignoredNames = c.ignoredNames)

def givenPattern : Option (Given Regex) → Option Regex
  | some (.value r) => some r
  | _ => none

def ignoring (o : Options) (c : CommandLine) : Options :=
  { o with
    ignoredExpressions := givenPattern c.ignoredExpressions
    ignoredIdentifiers := givenPattern c.ignoredIdentifiers
    ignoredNames := givenPattern c.ignoredNames
    ignoreAll := c.ignoreAll }

theorem ignored_eq {pattern : Option (Given Regex)} (h : pattern ≠ some .nothing) :
    ignored pattern = .ok (givenPattern pattern) := by
  match pattern with
  | none => rfl
  | some (.value r) => rfl
  | some .nothing => contradiction

/-- The options of a command line are those that hear all problems, with what is to be ignored put
into them. -/
theorem options_eq (h : c.PatternsGiven) : c.options = c.hearingAll.options.map (ignoring · c) := by
  unfold options
  rw [ignored_eq h.1, ignored_eq h.2.1, ignored_eq h.2.2]
  simp only [hearingAll]
  cases locationsFrom 0 c.enumLocations with
  | error e => rfl
  | ok locations => rfl

theorem exitCode_of_options (h : c.options = .ok o) : o.exitCode = c.exitCode := by
  unfold options at h
  obtain ⟨_, _, h⟩ := bind_ok h
  obtain ⟨_, _, h⟩ := bind_ok h
  obtain ⟨_, _, h⟩ := bind_ok h
  obtain ⟨_, _, h⟩ := bind_ok h
  cases h
  rfl

theorem ignoresMore_of_onlyAdds {c' : CommandLine} (h : OnlyAdds c c') (o : Options) (w : World) :
    Inspection.IgnoresMore ⟨ignoring o c, w⟩ ⟨ignoring o c', w⟩ := by
  obtain ⟨all, expressions, identifiers, names⟩ := h
  intro problem hp
  simp only [Options.ignores, ignoring, Bool.or_eq_true] at hp ⊢
  rcases hp with hp | hp
  · exact .inl (all hp)
  · right
    cases problem with
    | identifier found path =>
      rcases identifiers with he | he
      · simp [he, givenPattern] at hp
      · simpa only [he] using hp
    | expression text =>
      rcases expressions with he | he
      · simp [he, givenPattern] at hp
      · simpa only [he] using hp
    | name path =>
      rcases names with he | he
      · simp [he, givenPattern] at hp
      · simpa only [he] using hp

/-- Two runs that end the same way and leave the same files. If the second only adds to what is
ignored, its errors are among those of the first. -/
def SameStubs (adds : Prop) (r r' : Run) : Prop :=
  r.error? = r'.error? ∧ r.tree = r'.tree ∧
    (adds → ∀ text, ⟨.error, text⟩ ∈ r'.log → ⟨.error, text⟩ ∈ r.log)

theorem runInto_ignoring (hexit : o.exitCode = false) (c c' : CommandLine) (directory : String)
    (w : World) :
    SameStubs (OnlyAdds c c') ((ignoring o c).runInto directory w)
      ((ignoring o c').runInto directory w) := by
  have together := Inspection.whole_together (s := ⟨ignoring o c, w⟩) (t := ⟨ignoring o c', w⟩)
    ⟨rfl, rfl, rfl, rfl⟩ hexit hexit o.moduleName
  obtain ⟨r, p, q, hp, hq, hR⟩ := together.exists
  have errors (adds : OnlyAdds c c') := hR.errors (ignoresMore_of_onlyAdds adds o w)
  have name (c : CommandLine) : (ignoring o c).moduleName = o.moduleName := rfl
  unfold Options.runInto
  rw [name, name, hp, hq]
  cases r with
  | error e => exact ⟨rfl, rfl, errors⟩
  | ok m =>
    have dry (c : CommandLine) : (ignoring o c).dryRun = o.dryRun := rfl
    have write (c : CommandLine) : (ignoring o c).write directory m = o.write directory m := rfl
    dsimp only
    rw [dry, dry, write, write]
    split
    · exact ⟨rfl, rfl, errors⟩
    · split
      · exact ⟨rfl, rfl, errors⟩
      · exact ⟨rfl, rfl, errors⟩

theorem run_ignoring (hexit : o.exitCode = false) (c c' : CommandLine) (w : World) :
    SameStubs (OnlyAdds c c') ((ignoring o c).run w) ((ignoring o c').run w) := by
  have directory (c : CommandLine) : (ignoring o c).outputDirectory = o.outputDirectory := rfl
  unfold Options.run
  rw [directory, directory]
  cases o.outputDirectory with
  | value d => exact runInto_ignoring hexit c c' d w
  | nothing => exact ⟨rfl, rfl, fun _ _ h => h⟩

/-- Whatever a command line asks to ignore, it makes the same files and ends the same way: two
command lines without an exit code, whose arguments say the same besides what to ignore, both fail
for the same reason or both leave the same directories and files. If the second only adds to what is
ignored, its error messages are among those of the first. -/
theorem stubs_unaffected_by_ignoring (w : World) {arguments arguments' : List String}
    {c c' : CommandLine} (h : ofArguments arguments = .ok c) (h' : ofArguments arguments' = .ok c')
    (same : others arguments = others arguments') (exit : c.exitCode = false)
    (given : c.PatternsGiven) (given' : c'.PatternsGiven) :
    (c.run w).error? = (c'.run w).error? ∧ (c.run w).tree = (c'.run w).tree ∧
      (OnlyAdds c c' → ∀ text, ⟨.error, text⟩ ∈ (c'.run w).log → ⟨.error, text⟩ ∈ (c.run w).log) := by
  change SameStubs (OnlyAdds c c') (c.run w) (c'.run w)
  unfold run
  rw [options_eq given, options_eq given', ← hearingAll_eq h h' same]
  cases ho : c.hearingAll.options with
  | error e => exact ⟨rfl, rfl, fun _ _ h => h⟩
  | ok o => exact run_ignoring ((exitCode_of_options ho).trans exit) c c' w

/-- A module with a function that takes something of a type that is nowhere to be found. -/
def unknownType : World := .ofModules [.moduleDef "m" none [("f", .routine .function
  { name? := some "f", qualified? := some "f", module? := some "m" }
  (some { parameters := [{ name := "x", hint := some (.str "other.A") }] }))]]

/-- The message about the unknown type goes, and the stub stays. -/
theorem unknownType_stubs_unaffected : (({ moduleName := "m" } : CommandLine).run unknownType).log =
        [⟨.error, "In m.f : Can't find/import 'other.A'"⟩] ∧
      (({ moduleName := "m", ignoreAll := true } : CommandLine).run unknownType).log = [] ∧
      (({ moduleName := "m" } : CommandLine).run unknownType).tree =
        (({ moduleName := "m", ignoreAll := true } : CommandLine).run unknownType).tree := by
  have h : ofArguments ["m"] = .ok { moduleName := "m" } := rfl
  have h' : ofArguments ["--ignore-all-errors", "m"] =
    .ok { moduleName := "m", ignoreAll := true } := rfl
  have same : others ["m"] = others ["--ignore-all-errors", "m"] := rfl
  have given : PatternsGiven { moduleName := "m" } := ⟨nofun, nofun, nofun⟩
  have given' : PatternsGiven { moduleName := "m", ignoreAll := true } := ⟨nofun, nofun, nofun⟩
  exact ⟨by rw [unknownType, World.ofModules_eq]; decide +kernel,
    by rw [unknownType, World.ofModules_eq]; decide +kernel,
    (stubs_unaffected_by_ignoring unknownType h h' same rfl given given').2.1⟩

end CommandLine

end TypeStubs
