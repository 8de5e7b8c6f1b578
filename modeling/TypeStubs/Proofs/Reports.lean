import TypeStubs.Proofs.Composed

/-! What a report leaves behind. -/

namespace TypeStubs.Inspection

variable {s : Setting} {p : Progress} {problem : Problem}

/-- The problem gets a message: it is neither ignored nor harmless. -/
def isHeard (s : Setting) (p : Progress) (problem : Problem) : Bool :=
  !s.options.ignores problem && !problem.isHarmless s.options p.dimensions

def complaint (path : QualifiedName) (problem : Problem) : String :=
  "In " ++ path.text ++ " : " ++ problem.text

/-- The enumerations without a known place after a problem. -/
def notedEnums : Problem → List String → List String
  | .expression text, enums =>
    match EnumText.read? text.toList with
    | some e => insertText e.className enums
    | none => enums
  | _, enums => enums

/-- A text of the language of the extension is known after a problem. -/
def notedForeignText : Problem → Bool → Bool
  | .expression text, known => known || isForeignText text
  | _, known => known

theorem outcome_noteEnum (problem : Problem) (s : Setting) (p : Progress) :
    (noteEnum problem).outcome s p = (.ok (), { p with enums := notedEnums problem p.enums }) := by
  cases problem with
  | expression text =>
    simp only [noteEnum, notedEnums]
    cases EnumText.read? text.toList with
    | some e => rfl
    | none => rfl
  | _ => rfl

theorem outcome_noteForeignText (problem : Problem) (s : Setting) (p : Progress) :
    (noteForeignText problem).outcome s p =
      (.ok (), { p with foreignText := notedForeignText problem p.foreignText }) := by
  cases problem with
  | expression text =>
    simp only [noteForeignText, notedForeignText, outcome_ite, outcome_modify, outcome_pure]
    cases isForeignText text with
    | true => simp
    | false => simp
  | _ => rfl

theorem report_quiet (h : isHeard s p problem = false) : (report problem).outcome s p =
      (.ok (), { p with
        enums := if s.options.ignores problem then p.enums else notedEnums problem p.enums
        found := p.found ++ [problem] }) := by
  simp only [report, outcome_bind, noteProblem, outcome_modify, outcome_options]
  by_cases hi : s.options.ignores problem = true
  · rw [if_pos hi, if_pos hi]
    rfl
  · have hh : problem.isHarmless s.options (p.letters.foldl LetterEvent.next []) = true := by
      simpa [isHeard, hi, Progress.dimensions] using h
    rw [if_neg hi, if_neg hi]
    simp only [outcome_bind, outcome_noteEnum, outcome_get, Progress.dimensions, hh]
    rfl

/-- The layers after a message about a problem in what is on top, and the message, unless it was
given before. -/
def complaints (problem : Problem) : List Layer → List Layer × List Message
  | [] => ([], [])
  | top :: rest =>
    let text := complaint top.path problem
    if top.reported.contains text then (top :: rest, [])
    else ({ top with reported := top.reported ++ [text] } :: rest, [⟨.error, text⟩])

/-- The state after a message about a problem in what is on top. -/
def complained (problem : Problem) (p : Progress) : Progress :=
  { p with
    layers := (complaints problem p.layers).1
    log := p.log ++ (complaints problem p.layers).2 }

theorem outcome_complain (h : p.layers ≠ []) :
    (complain problem).outcome s p = (.ok (), complained problem p) := by
  obtain ⟨top, rest, hl⟩ := List.exists_cons_of_ne_nil h
  simp only [complain, outcome_bind, outcome_get, hl, outcome_ite, say, outcome_modify,
    outcome_pure]
  simp only [complained, complaints, complaint, hl]
  by_cases hm : top.reported.contains ("In " ++ top.path.text ++ " : " ++ problem.text) = true
  · simp only [hm, ← hl, reduceIte, List.append_nil, Bool.not_true, Bool.false_eq_true]
  · simp only [hm, reduceIte, Bool.not_false, Bool.false_eq_true]

theorem report_heard (h : isHeard s p problem = true) (hl : p.layers ≠ []) :
    (report problem).outcome s p = (.ok (), { complained problem p with
      enums := notedEnums problem p.enums
      foreignText := notedForeignText problem p.foreignText
      fatal := s.options.exitCode || p.fatal
      found := p.found ++ [problem] }) := by
  simp only [isHeard, Bool.and_eq_true, Bool.not_eq_true', Progress.dimensions] at h
  have hc (enums : List String) (found : List Problem) :
      (complain problem).outcome s { p with enums, found } =
        (.ok (), complained problem { p with enums, found }) := outcome_complain hl
  simp only [report, outcome_bind, noteProblem, outcome_modify, outcome_options, outcome_ite,
    outcome_noteEnum, outcome_noteForeignText, outcome_get, Progress.dimensions, h, hc,
    Bool.false_eq_true, reduceIte, outcome_pure]
  cases s.options.exitCode with
  | true => rfl
  | false => rfl

theorem report_placed (problem : Problem) (s : Setting) (hl : p.layers ≠ []) :
    ∃ q, (report problem).outcome s p = (.ok (), q) ∧
      q.layers = (if isHeard s p problem then (complaints problem p.layers).1 else p.layers) ∧
      q.log = p.log ++ (if isHeard s p problem then (complaints problem p.layers).2 else []) := by
  by_cases h : isHeard s p problem = true
  · rw [if_pos h, if_pos h]
    exact ⟨_, report_heard h hl, rfl, rfl⟩
  · rw [if_neg h, if_neg h, List.append_nil]
    exact ⟨_, report_quiet (Bool.not_eq_true _ ▸ h), rfl, rfl⟩

theorem report_unplaced (h : isHeard s p problem = true) (hl : p.layers = []) :
    (report problem).outcome s p = (.error .noLayer, { p with
      enums := notedEnums problem p.enums
      found := p.found ++ [problem] }) := by
  simp only [isHeard, Bool.and_eq_true, Bool.not_eq_true', Progress.dimensions] at h
  have hc (enums : List String) (found : List Problem) :
      (complain problem).outcome s { p with enums, found } =
        (.error .noLayer, { p with enums, found }) := by
    simp only [complain, outcome_bind, outcome_get]
    rw [hl]
    rfl
  simp only [report, outcome_bind, noteProblem, outcome_modify, outcome_options, outcome_noteEnum,
    outcome_get, Progress.dimensions, h, hc, Bool.false_eq_true, reduceIte]

def warnings (p : Progress) : List String :=
  (if p.enums.isEmpty then [] else [enumWarning p.enums]) ++
    if p.foreignText then [foreignTextWarning] else []

theorem outcome_finish (s : Setting) (p : Progress) :
    finish.outcome s p =
      if s.options.exitCode && p.fatal then (.error .terminated, { p with
          log := p.log ++ (warnings p).map (⟨.warning, ·⟩) ++
            [⟨.info, "Terminating due to previous errors"⟩] })
      else (.ok (), { p with log := p.log ++ (warnings p).map (⟨.warning, ·⟩) }) := by
  simp only [finish, warnings, outcome_bind, outcome_get, outcome_ite, say, outcome_modify,
    outcome_options, outcome_pure, outcome_throw]
  obtain ⟨layers, modulePath, module?, class?, imports, letters, enums, foreignText, rest⟩ := p
  cases enums <;> cases foreignText <;> simp

def pathsOf (p : Progress) : List QualifiedName := p.layers.map Layer.path

theorem pathsOf_complained (problem : Problem) (p : Progress) :
    pathsOf (complained problem p) = pathsOf p := by
  simp only [pathsOf, complained]
  cases p.layers with
  | nil => rfl
  | cons top rest =>
    simp only [complaints]
    split
    · rfl
    · rfl

theorem report_frame (problem : Problem) (s : Setting) (p : Progress) :
    scopeOf ((report problem).outcome s p).2 = scopeOf p ∧
      pathsOf ((report problem).outcome s p).2 = pathsOf p ∧
      ((report problem).outcome s p).2.found = p.found ++ [problem] := by
  by_cases h : isHeard s p problem = true
  · by_cases hl : p.layers = []
    · rw [report_unplaced h hl]
      exact ⟨rfl, rfl, rfl⟩
    · rw [report_heard h hl]
      exact ⟨rfl, pathsOf_complained problem p, rfl⟩
  · rw [report_quiet (Bool.not_eq_true _ ▸ h)]
    exact ⟨rfl, rfl, rfl⟩

end TypeStubs.Inspection
