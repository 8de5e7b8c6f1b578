import TypeStubs.Proofs.Runs
import TypeStubs.Run

/-! Ignoring problems changes messages only: the stubs that are written, and the failures that a run
ends with, do not depend on which problems the options ask to ignore. -/

namespace TypeStubs.Inspection

open List

variable {s t : Setting} {p q : Progress} {problem : Problem}

def isError (p : Progress) (text : String) : Prop := ⟨.error, text⟩ ∈ p.log

def Said (layers : List Layer) (log : List Message) : Prop :=
  ∀ l ∈ layers, ∀ text ∈ l.reported, ⟨.error, text⟩ ∈ log

/-- Two settings that are the same in all that decides about results. -/
structure Alike (s t : Setting) : Prop where
  world : s.world = t.world
  arrays : s.options.arrays = t.options.arrays
  safeValues : s.options.safeValues = t.options.safeValues
  enumPlaces : s.options.enumPlaces = t.options.enumPlaces

def IgnoresMore (s t : Setting) : Prop :=
  ∀ problem, s.options.ignores problem = true → t.options.ignores problem = true

/-- Two states that stand at the same place. If the second ignores more, then it has no error
messages that the first does not have. -/
structure SamePlace (s t : Setting) (p q : Progress) : Prop where
  scope : scopeOf p = scopeOf q
  paths : pathsOf p = pathsOf q
  /-- What a layer knows to be said was said. -/
  said : Said p.layers p.log
  errors : IgnoresMore s t → ∀ text, isError q text → isError p text

theorem Said.complaints {layers : List Layer} {log : List Message} (h : Said layers log)
    (problem : Problem) :
    Said (complaints problem layers).1 (log ++ (complaints problem layers).2) := by
  cases layers with
  | nil => exact fun l hl => nomatch hl
  | cons top rest =>
    simp only [Inspection.complaints]
    split
    · rwa [append_nil]
    · intro l hl text ht
      rcases mem_cons.mp hl with rfl | hl
      · rcases mem_append.mp ht with ht | ht
        · exact mem_append_left _ (h top mem_cons_self text ht)
        · rw [mem_singleton.mp ht]
          exact mem_append_right _ mem_cons_self
      · exact mem_append_left _ (h l (.tail _ hl) text ht)

theorem Said.mem_complaints {top : Layer} {rest : List Layer} {log : List Message}
    (h : Said (top :: rest) log) (problem : Problem) :
    ⟨.error, complaint top.path problem⟩ ∈ log ++ (Inspection.complaints problem (top :: rest)).2 := by
  simp only [Inspection.complaints]
  split
  · rename_i hm
    rw [append_nil]
    exact h top mem_cons_self _ (by simpa using hm)
  · exact mem_append_right _ mem_cons_self

theorem eq_of_mem_complaints {top : Layer} {rest : List Layer} {m : Message}
    (h : m ∈ (complaints problem (top :: rest)).2) : m = ⟨.error, complaint top.path problem⟩ := by
  simp only [complaints] at h
  split at h
  · cases h
  · exact mem_singleton.mp h

theorem isHeard_of_ignoresMore (h : Alike s t) (more : IgnoresMore s t)
    (hscope : scopeOf p = scopeOf q) (hq : isHeard t q problem = true) :
    isHeard s p problem = true := by
  have hd : p.dimensions = q.dimensions :=
    congrArg (fun c => c.letters.foldl LetterEvent.next []) hscope
  have harmless : problem.isHarmless s.options p.dimensions =
      problem.isHarmless t.options q.dimensions := by
    rw [hd]
    cases problem with
    | name path => simp only [Problem.isHarmless, Options.isDimension, h.arrays]
    | _ => rfl
  simp only [isHeard, Bool.and_eq_true, Bool.not_eq_true'] at hq ⊢
  refine ⟨?_, harmless.trans hq.2⟩
  cases hs : s.options.ignores problem with
  | false => rfl
  | true => exact (more problem hs).symm.trans hq.1

theorem mem_complaints_of_paths (hR : SamePlace s t p q) (hl : p.layers ≠ []) {m : Message}
    (hm : m ∈ (complaints problem q.layers).2) : m ∈ p.log ++ (complaints problem p.layers).2 := by
  obtain ⟨top, rest, hp⟩ := exists_cons_of_ne_nil hl
  obtain ⟨top', rest', hq⟩ := exists_cons_of_ne_nil (layers_ne_nil hR.paths hl)
  have paths := hR.paths
  simp only [pathsOf, hp, hq, map_cons, List.cons.injEq] at paths
  rw [hq] at hm
  rw [eq_of_mem_complaints hm, ← paths.1, hp]
  exact Said.mem_complaints (hp ▸ hR.said) problem

theorem samePlace_report (h : Alike s t) (problem : Problem) (hl : p.layers ≠ [])
    (hR : SamePlace s t p q) :
    Together (SamePlace s t) ((report problem).outcome s p) ((report problem).outcome t q) := by
  obtain ⟨p', hp, hpl, hplog⟩ := report_placed problem s hl
  obtain ⟨q', hq, hql, hqlog⟩ := report_placed problem t (layers_ne_nil hR.paths hl)
  have fp := report_frame problem s p
  have fq := report_frame problem t q
  rw [hp] at fp
  rw [hq] at fq
  rw [hp, hq]
  refine ⟨rfl, ?_, ?_, ?_, ?_⟩
  · rw [fp.1, fq.1, hR.scope]
  · rw [fp.2.1, fq.2.1, hR.paths]
  · rw [hpl, hplog]
    split
    · exact hR.said.complaints problem
    · rw [append_nil]
      exact hR.said
  · intro more text ht
    rw [isError, hqlog] at ht
    rw [isError, hplog]
    rcases mem_append.mp ht with ht | ht
    · exact mem_append_left _ (hR.errors more text ht)
    · split at ht
      · rename_i heard
        rw [if_pos (isHeard_of_ignoresMore h more hR.scope heard)]
        exact mem_complaints_of_paths hR hl ht
      · cases ht

theorem lockstep_samePlace (h : Alike s t) : Lockstep s t (SamePlace s t) where
  view hR := by simp only [viewOf, h.world, h.arrays, h.safeValues, h.enumPlaces, hR.scope]
  paths := SamePlace.paths
  within c hR := ⟨rfl, hR.paths, hR.said, hR.errors⟩
  push path hR := by
    refine ⟨hR.scope, congrArg (path :: ·) hR.paths, ?_, hR.errors⟩
    intro l hl
    rcases mem_cons.mp hl with rfl | hl
    · exact fun text ht => nomatch ht
    · exact hR.said l hl
  pop {p q} hR := by
    refine ⟨hR.scope, ?_, fun l hl => hR.said l (mem_of_mem_drop hl), hR.errors⟩
    simpa only [pathsOf, popped, map_drop] using congrArg (drop 1) hR.paths
  report := samePlace_report h

theorem finish_warns (h : s.options.exitCode = false) (p : Progress) :
    ∃ ws : List String, finish.outcome s p =
      (.ok (), { p with log := p.log ++ ws.map (⟨.warning, ·⟩) }) := by
  refine ⟨warnings p, ?_⟩
  rw [outcome_finish, h, Bool.false_and, if_neg Bool.false_ne_true]

theorem isError_warned (p : Progress) (warnings : List String) (text : String) :
    isError { p with log := p.log ++ warnings.map (⟨.warning, ·⟩) } text ↔ isError p text := by
  simp [isError]

theorem finish_together (hs : s.options.exitCode = false) (ht : t.options.exitCode = false)
    (hR : SamePlace s t p q) :
    Together (SamePlace s t) (finish.outcome s p) (finish.outcome t q) := by
  obtain ⟨ws, hp⟩ := finish_warns hs p
  obtain ⟨ws', hq⟩ := finish_warns ht q
  rw [hp, hq]
  refine ⟨rfl, hR.scope, hR.paths, ?_, ?_⟩
  · exact fun l hl text ht => mem_append_left _ (hR.said l hl text ht)
  · intro more text he
    exact (isError_warned p ws text).mpr (hR.errors more text ((isError_warned q ws' text).mp he))

/-- A module is asked for by its name in one of two related states if it is in the other. -/
theorem importModule_together {R : Progress → Progress → Prop} (hw : s.world = t.world)
    (hR : R p q) (name : String) :
    Together R ((importModule name).outcome s p) ((importModule name).outcome t q) := by
  have found : Together R ((findModule? ⟨[name]⟩).outcome s p)
      ((findModule? ⟨[name]⟩).outcome t q) := by
    rw [outcome_findModule?, outcome_findModule?, hw]
    exact ⟨rfl, hR⟩
  refine found.bind fun m? p' q' _ hR' => ?_
  cases m? with
  | none => exact ⟨rfl, hR'⟩
  | some m => exact ⟨rfl, hR'⟩

/-- A whole inspection goes the same way whatever is ignored. -/
theorem whole_together (h : Alike s t) (hs : s.options.exitCode = false)
    (ht : t.options.exitCode = false) (name : String) :
    Together (SamePlace s t) ((whole name).outcome s {}) ((whole name).outcome t {}) := by
  have start : SamePlace s t {} {} :=
    ⟨rfl, rfl, fun _ hl => (nomatch hl), fun _ _ ht => (nomatch ht)⟩
  refine (importModule_together h.world start name).bind fun o _ _ _ hR => ?_
  refine (moduleOf_together (lockstep_samePlace h) _ o hR).bind fun m _ _ _ hR => ?_
  exact (finish_together hs ht hR).bind fun _ _ _ _ hR => ⟨rfl, hR⟩

end TypeStubs.Inspection
