import TypeStubs.Proofs.ReadPatterns
import TypeStubs.Proofs.SourceCalls

/-! How the patterns of signatures match the lines of docstrings. -/

namespace TypeStubs

open List Option

variable {ps : List Pattern} {x : Char} {n : Nat} {more : List Char}

namespace Pattern

variable {tests : List CharTest} {negated : Bool} {p q : Pattern} {c d e : Cursor}
  {passed cs rest : List Char} {gs gs' : List (Nat × List Char)} {next : Cursor → Option Cursor}

/-- The character is one of those that a pattern asks for. -/
def Takes (tests : List CharTest) (negated : Bool) (x : Char) : Prop :=
  (tests.any (·.accepts x) != negated) = true

instance (x : Char) : Decidable (Takes tests negated x) := inferInstanceAs (Decidable (_ = _))

/-! Runs of characters. -/

def runOf (tests : List CharTest) (negated : Bool) (fuel : Nat) : Matcher :=
  Matcher.steps (oneOf tests negated).search true fuel 0 none

theorem runOf_nil (fuel : Nat) :
    runOf tests negated fuel ⟨passed, [], gs⟩ next = next ⟨passed, [], gs⟩ := by
  cases fuel with
  | zero => rfl
  | succ fuel => rfl

theorem runOf_cons (fuel : Nat) (x : Char) :
    runOf tests negated (fuel + 1) ⟨passed, x :: rest, gs⟩ next =
      if Takes tests negated x then (runOf tests negated fuel ⟨x :: passed, rest, gs⟩ next).orElse
        fun _ => next ⟨passed, x :: rest, gs⟩
      else next ⟨passed, x :: rest, gs⟩ := by
  have step (next : Cursor → Option Cursor) :
    (oneOf tests negated).search ⟨passed, x :: rest, gs⟩ next = if Takes tests negated x then next ⟨x :: passed, rest, gs⟩ else none := rfl
  rw [runOf, Matcher.steps]
  simp only [if_true, step, reduceCtorEq, if_false]
  by_cases takes : Takes tests negated x
  · rw [if_pos takes, if_pos takes, if_pos (by simp)]
    rfl
  · rw [if_neg takes, if_neg takes]
    rfl

theorem runOf_some {fuel : Nat} (h : runOf tests negated fuel ⟨passed, rest, gs⟩ next = some e) :
    ∃ more rest', rest = more ++ rest' ∧ (∀ x ∈ more, Takes tests negated x) ∧
      next ⟨more.reverse ++ passed, rest', gs⟩ = some e := by
  induction fuel generalizing passed rest with
  | zero => exact ⟨[], rest, rfl, forall_mem_nil _, h⟩
  | succ fuel ih =>
    cases rest with
    | nil =>
      rw [runOf_nil] at h
      exact ⟨[], [], rfl, forall_mem_nil _, h⟩
    | cons x rest =>
      rw [runOf_cons] at h
      split at h
      · rename_i takes
        cases hr : runOf tests negated fuel ⟨x :: passed, rest, gs⟩ next with
        | none =>
          rw [hr] at h
          exact ⟨[], x :: rest, rfl, forall_mem_nil _, h⟩
        | some d =>
          rw [hr] at h
          obtain ⟨more, rest', rfl, all, found⟩ := ih (hr.trans h)
          refine ⟨x :: more, rest', rfl, forall_mem_cons.mpr ⟨takes, all⟩, ?_⟩
          rw [reverse_cons, append_assoc]
          exact found
      · exact ⟨[], x :: rest, rfl, forall_mem_nil _, h⟩

theorem runOf_found {fuel : Nat} (enough : cs.length ≤ fuel) (takes : ∀ x ∈ cs, Takes tests negated x)
    (furthest : ∀ x more rest', rest = x :: more ++ rest' → (∀ y ∈ x :: more, Takes tests negated y) →
      next ⟨(x :: more).reverse ++ (cs.reverse ++ passed), rest', gs⟩ = none)
    (found : next ⟨cs.reverse ++ passed, rest, gs⟩ = some e) :
    runOf tests negated fuel ⟨passed, cs ++ rest, gs⟩ next = some e := by
  -- By induction on what the run takes; after that, a longer run is tried first and fails.
  induction cs generalizing passed fuel with
  | nil =>
    cases fuel with
    | zero => exact found
    | succ fuel =>
      cases rest with
      | nil => exact (runOf_nil _).trans found
      | cons x rest =>
        rw [nil_append, runOf_cons]
        split
        · rename_i first
          cases hr : runOf tests negated fuel ⟨x :: passed, rest, gs⟩ next with
          | none => exact found
          | some d =>
            obtain ⟨more, rest', rfl, all, further⟩ := runOf_some hr
            have stuck := furthest x more rest' rfl (forall_mem_cons.mpr ⟨first, all⟩)
            rw [reverse_cons, append_assoc] at stuck
            cases further.symm.trans stuck
        · exact found
  | cons x cs ih =>
    obtain ⟨first, takes⟩ := forall_mem_cons.mp takes
    obtain ⟨fuel, rfl⟩ := Nat.exists_eq_add_of_le' (Nat.le_trans (Nat.le_add_left 1 _) enough)
    rw [reverse_cons, append_assoc] at found furthest
    have inner : runOf tests negated fuel ⟨x :: passed, cs ++ rest, gs⟩ next = some e :=
      ih (Nat.le_of_succ_le_succ enough) takes furthest found
    rw [cons_append, runOf_cons, if_pos first, inner]
    rfl

/-! Ways to match that are the most preferred ones. -/

/-- The way from one place to another is taken if what follows can be found there. -/
def LeadsTo (p : Pattern) (c d : Cursor) : Prop :=
  ∀ next e, next d = some e → p.search c next = some e

theorem leadsTo_nil : LeadsTo (inTurn []) c c := fun _ _ h => h

theorem LeadsTo.cons (h : LeadsTo p c d) (hs : LeadsTo (inTurn ps) d e) :
    LeadsTo (inTurn (p :: ps)) c e :=
  fun _ _ found => h _ _ (hs _ _ found)

theorem search_append (ps qs : List Pattern) (c : Cursor) (next : Cursor → Option Cursor) :
    (inTurn (ps ++ qs)).search c next =
      (inTurn ps).search c fun d => (inTurn qs).search d next := by
  induction ps generalizing c with
  | nil => rfl
  | cons p ps ih => exact congrArg (p.search c) (funext ih)

theorem LeadsTo.append {qs : List Pattern} (h : LeadsTo (inTurn ps) c d)
    (hs : LeadsTo (inTurn qs) d e) : LeadsTo (inTurn (ps ++ qs)) c e := by
  intro next r found
  rw [search_append]
  exact h _ _ (hs _ _ found)

theorem takes_literal {y : Char} : Takes [.char x .exact] false y ↔ y = x := by
  have accepts : Takes [.char x .exact] false y ↔ x.toNat = y.toNat := by
    simp [Takes, CharTest.accepts, Folding.variants]
  rw [accepts, Char.toNat_inj, eq_comm]

theorem takes_point : Takes [.char '\n' .exact] true x ↔ x ≠ '\n' := by
  have accepts : Takes [.char '\n' .exact] true x ↔ ¬ Takes [.char '\n' .exact] false x := by
    simp [Takes]
  rw [accepts, takes_literal]

theorem leadsTo_oneOf (takes : Takes tests negated x) :
    LeadsTo (oneOf tests negated) ⟨passed, x :: rest, gs⟩ ⟨x :: passed, rest, gs⟩ := by
  intro next e found
  exact (if_pos takes).trans found

theorem leadsTo_literals (cs : List Char) :
    LeadsTo (inTurn (cs.map literal)) ⟨passed, cs ++ rest, gs⟩ ⟨cs.reverse ++ passed, rest, gs⟩ := by
  induction cs generalizing passed with
  | nil => exact leadsTo_nil
  | cons x cs ih =>
    rw [reverse_cons, append_assoc]
    exact (leadsTo_oneOf (takes_literal.mpr rfl)).cons ih

theorem leadsTo_run (cs : List Char) (takes : ∀ x ∈ cs, Takes tests negated x)
    (stops : ∀ x ∈ rest.head?, ¬ Takes tests negated x) :
    LeadsTo (run 0 (oneOf tests negated)) ⟨passed, cs ++ rest, gs⟩
      ⟨cs.reverse ++ passed, rest, gs⟩ := by
  intro next e found
  have enough : cs.length ≤ 0 + (cs ++ rest).length + 1 := by
    rw [length_append]
    omega
  refine runOf_found enough takes (fun x more rest' shape all => ?_) found
  exact absurd (all x mem_cons_self) (stops x (by rw [shape]; rfl))

theorem leadsTo_run_one (first : Takes tests negated x) (takes : ∀ x ∈ cs, Takes tests negated x)
    (stops : ∀ x ∈ rest.head?, ¬ Takes tests negated x) :
    LeadsTo (run 1 (oneOf tests negated)) ⟨passed, x :: cs ++ rest, gs⟩
      ⟨(x :: cs).reverse ++ passed, rest, gs⟩ := by
  intro next e found
  have unfolded : (run 1 (oneOf tests negated)).search ⟨passed, x :: cs ++ rest, gs⟩ next =
    (oneOf tests negated).search ⟨passed, x :: (cs ++ rest), gs⟩
      fun d => runOf tests negated (1 + (x :: cs ++ rest).length) d next := rfl
  have enough : cs.length ≤ 1 + (x :: cs ++ rest).length := by
    rw [length_append, length_cons]
    omega
  rw [reverse_cons, append_assoc] at found
  rw [unfolded]
  refine leadsTo_oneOf first _ _ ?_
  refine runOf_found enough takes (fun y more rest' shape all => ?_) found
  exact absurd (all y mem_cons_self) (stops y (by rw [shape]; rfl))

theorem textTo_append {passed' : List Char} :
    Cursor.textTo ⟨passed, cs ++ rest, gs⟩ ⟨passed', rest, gs'⟩ = cs := by
  rw [Cursor.textTo, length_append, Nat.add_sub_cancel, take_left]

theorem LeadsTo.group (h : LeadsTo p ⟨passed, cs ++ rest, gs⟩ ⟨cs.reverse ++ passed, rest, gs'⟩) :
    LeadsTo (.group n p) ⟨passed, cs ++ rest, gs⟩ ⟨cs.reverse ++ passed, rest, (n, cs) :: gs'⟩ := by
  intro next e found
  refine h _ _ ?_
  rw [textTo_append]
  exact found

theorem leadsTo_atStart : LeadsTo atStart ⟨[], rest, gs⟩ ⟨[], rest, gs⟩ := fun _ _ h => h

theorem leadsTo_final : LeadsTo atFinalBreak ⟨passed, [], gs⟩ ⟨passed, [], gs⟩ := fun _ _ h => h

theorem leadsTo_longest {qs : List Pattern} (line : ∀ x ∈ cs, x ≠ '\n')
    (furthest : ∀ x more rest', rest = x :: more ++ rest' → ∀ passed gs next,
      (inTurn qs).search ⟨passed, rest', gs⟩ next = none)
    (h : LeadsTo (inTurn qs) ⟨cs.reverse ++ passed, rest, (n, cs) :: gs⟩ d) :
    LeadsTo (inTurn (.group n (inTurn [run 0 point]) :: qs)) ⟨passed, cs ++ rest, gs⟩ d := by
  intro next e found
  have enough : cs.length ≤ 0 + (cs ++ rest).length + 1 := by
    rw [length_append]
    omega
  have takes : ∀ x ∈ cs, Takes [.char '\n' .exact] true x := fun x hx => takes_point.mpr (line x hx)
  refine runOf_found enough takes (fun x more rest' shape _ => ?_) ?_
  · exact furthest x more rest' shape _ _ _
  · show (inTurn qs).search ⟨cs.reverse ++ passed, rest, (n, Cursor.textTo ⟨passed, cs ++ rest, gs⟩
      ⟨cs.reverse ++ passed, rest, gs⟩) :: gs⟩ next = some e
    rw [textTo_append]
    exact h _ _ found

/-- There is an arrow behind a closing parenthesis, perhaps with blanks between them. -/
def HasArrow (cs : List Char) : Prop := ∃ before blanks after,
  cs = before ++ ')' :: (blanks ++ '-' :: '>' :: after) ∧ ∀ b ∈ blanks, isBlank b = true

def overloadEnd : List Pattern := [.literal ')', .run 0 .blank, .literal '-', .literal '>',
  .run 0 .blank, .group 4 (.inTurn [.run 1 .point]), .atFinalBreak]

theorem search_literal_some (h : (literal x).search ⟨passed, rest, gs⟩ next = some e) :
    ∃ rest', rest = x :: rest' ∧ next ⟨x :: passed, rest', gs⟩ = some e := by
  cases rest with
  | nil => cases h
  | cons y rest =>
    by_cases takes : Takes [.char x .exact] false y
    · obtain rfl := takes_literal.mp takes
      exact ⟨rest, rfl, (if_pos takes).symm.trans h⟩
    · cases (if_neg takes).symm.trans h

theorem takes_blank : Takes [.blank] false x ↔ isBlank x = true := by
  simp [Takes, CharTest.accepts]

theorem search_overloadEnd_some (h : (inTurn overloadEnd).search ⟨passed, rest, gs⟩ next = some e) :
    ∃ blanks after, rest = ')' :: (blanks ++ '-' :: '>' :: after) ∧
      ∀ b ∈ blanks, isBlank b = true := by
  obtain ⟨rest₁, rfl, h⟩ := search_literal_some h
  obtain ⟨blanks, rest₂, rfl, all, h⟩ := runOf_some h
  obtain ⟨rest₃, rfl, h⟩ := search_literal_some h
  obtain ⟨after, rfl, h⟩ := search_literal_some h
  exact ⟨blanks, after, rfl, fun b hb => takes_blank.mp (all b hb)⟩

theorem append_of_cons_ne {y : Char} (ne : x ≠ y) {after before : List Char}
    (h : x :: rest = before ++ y :: after) : ∃ before', rest = before' ++ y :: after := by
  cases before with
  | nil => exact absurd (List.cons.inj h).1 ne
  | cons z before => exact ⟨before, (List.cons.inj h).2⟩

theorem search_overloadEnd_none {returns : List Char} (noArrow : ¬ HasArrow returns) (shape : ')'
    :: ' ' :: '-' :: '>' :: ' ' :: returns = x :: more ++ rest)  :
    (inTurn overloadEnd).search ⟨passed, rest, gs⟩ next = none := by
  cases h : (inTurn overloadEnd).search ⟨passed, rest, gs⟩ next with
  | none => rfl
  | some e =>
    obtain ⟨blanks, after, rfl, all⟩ := search_overloadEnd_some h
    obtain ⟨_, shape⟩ := append_of_cons_ne (by decide) (List.cons.inj shape).2
    obtain ⟨_, shape⟩ := append_of_cons_ne (by decide) shape
    obtain ⟨_, shape⟩ := append_of_cons_ne (by decide) shape
    obtain ⟨before, shape⟩ := append_of_cons_ne (by decide) shape
    exact absurd ⟨before, blanks, after, shape, all⟩ noArrow

theorem takes_digit (h : x.isDigit = true) : Takes [.decimal] false x := by
  have all : ∀ x ∈ ['0', '1', '2', '3', '4', '5', '6', '7', '8', '9'], Takes [.decimal] false x :=
    forall_of_all (by decide)
  exact all x (Source.mem_digits h)

theorem not_takes_blank (h : isBlank x = false) : ¬ Takes [.blank] false x := by
  rw [takes_blank, h]
  exact Bool.false_ne_true

theorem isBlank_of_isDigit (h : x.isDigit = true) : isBlank x = false := by
  have all : ∀ x ∈ ['0', '1', '2', '3', '4', '5', '6', '7', '8', '9'], isBlank x = false :=
    forall_of_all (by decide)
  exact all x (Source.mem_digits h)

theorem leadsTo_number (isNumber : ∀ y ∈ x :: more, y.isDigit = true)
    (starts : ∀ x ∈ rest.head?, isBlank x = false) :
    LeadsTo (.group 1 (.inTurn [.run 0 .blank, .group 2 (.inTurn [.run 1 .digit]), .point,
      .run 0 .blank])) ⟨passed, x :: more ++ ['.', ' '] ++ rest, gs⟩
        ⟨(x :: more ++ ['.', ' ']).reverse ++ passed, rest,
          (1, x :: more ++ ['.', ' ']) :: (2, x :: more) :: gs⟩ := by
  obtain ⟨first, all⟩ := forall_mem_cons.mp isNumber
  have noBlanks : LeadsTo (.run 0 .blank) ⟨passed, x :: more ++ '.' :: ' ' :: rest, gs⟩
      ⟨passed, x :: more ++ '.' :: ' ' :: rest, gs⟩ := by
    refine leadsTo_run [] (forall_mem_nil _) fun y hy => ?_
    cases hy
    exact not_takes_blank (isBlank_of_isDigit first)
  have digits : LeadsTo (.group 2 (.inTurn [.run 1 .digit]))
      ⟨passed, x :: more ++ '.' :: ' ' :: rest, gs⟩
        ⟨(x :: more).reverse ++ passed, '.' :: ' ' :: rest, (2, x :: more) :: gs⟩ := by
    refine .group ((leadsTo_run_one (takes_digit first) ?_ fun y hy => ?_).cons leadsTo_nil)
    · exact fun y hy => takes_digit (all y hy)
    · cases hy
      decide
  have dot {passed : List Char} {gs : List (Nat × List Char)} : LeadsTo .point
      ⟨passed, '.' :: ' ' :: rest, gs⟩ ⟨'.' :: passed, ' ' :: rest, gs⟩ :=
    leadsTo_oneOf (takes_point.mpr (by decide))
  have blank {passed : List Char} {gs : List (Nat × List Char)} : LeadsTo (.run 0 .blank)
      ⟨passed, ' ' :: rest, gs⟩ ⟨' ' :: passed, rest, gs⟩ :=
    leadsTo_run [' '] (forall_of_all (by decide)) fun y hy => not_takes_blank (starts y hy)
  have body := noBlanks.cons (digits.cons (dot.cons (blank.cons leadsTo_nil)))
  refine .group ?_
  have text : x :: more ++ ['.', ' '] ++ rest = x :: more ++ '.' :: ' ' :: rest := by simp
  have back : (x :: more ++ ['.', ' ']).reverse ++ passed =
    ' ' :: '.' :: ((x :: more).reverse ++ passed) := by simp
  rw [text, back]
  exact body

theorem leadsTo_overloadEnd (line : ∀ y ∈ x :: more, y ≠ '\n') (starts : isBlank x = false) :
    ∃ passed',
      LeadsTo (inTurn overloadEnd) ⟨passed, ')' :: ' ' :: '-' :: '>' :: ' ' :: x :: more, gs⟩
        ⟨passed', [], (4, x :: more) :: gs⟩ := by
  obtain ⟨first, all⟩ := forall_mem_cons.mp line
  have sign {y : Char} {passed rest : List Char} : LeadsTo (literal y) ⟨passed, y :: rest, gs⟩
    ⟨y :: passed, rest, gs⟩ := leadsTo_oneOf (takes_literal.mpr rfl)
  have blank {y : Char} {passed rest : List Char} (h : isBlank y = false) : LeadsTo (.run 0 .blank)
      ⟨passed, ' ' :: y :: rest, gs⟩ ⟨' ' :: passed, y :: rest, gs⟩ := by
    refine leadsTo_run [' '] (forall_of_all (by decide)) fun z hz => ?_
    cases hz
    exact not_takes_blank h
  have result {passed : List Char} : LeadsTo (.group 4 (.inTurn [.run 1 .point]))
      ⟨passed, x :: more, gs⟩ ⟨(x :: more).reverse ++ passed, [], (4, x :: more) :: gs⟩ := by
    have run : LeadsTo (.run 1 .point) ⟨passed, x :: more ++ [], gs⟩
        ⟨(x :: more).reverse ++ passed, [], gs⟩ :=
      leadsTo_run_one (takes_point.mpr first) (fun y hy => takes_point.mpr (all y hy)) (by simp)
    have grouped := LeadsTo.group (n := 4) (run.cons leadsTo_nil)
    rwa [append_nil] at grouped
  exact ⟨_, sign.cons <| (blank (by decide)).cons <| sign.cons <| sign.cons <|
    (blank starts).cons <| result.cons <| leadsTo_final.cons leadsTo_nil⟩

theorem leadsTo_overload {name digits args returns : List Char}
    (isNumber : ∀ x ∈ digits, x.isDigit = true) (number : digits ≠ [])
    (name_starts : ∀ x ∈ (name ++ ['(']).head?, isBlank x = false)
    (args_line : ∀ x ∈ args, x ≠ '\n') (returns_line : ∀ x ∈ returns, x ≠ '\n')
    (returns_start : ∃ x ∈ returns.head?, isBlank x = false) (noArrow : ¬ HasArrow returns) :
    ∃ passed, LeadsTo (overload name) ⟨[], digits ++ ['.', ' '] ++ (name ++ '(' :: (args ++
      ')' :: ' ' :: '-' :: '>' :: ' ' :: returns)), []⟩
        ⟨passed, [], [(4, returns), (3, args), (1, digits ++ ['.', ' ']), (2, digits)]⟩ := by
  obtain ⟨d, ds, rfl⟩ := exists_cons_of_ne_nil number
  obtain ⟨x, head, starts⟩ := returns_start
  obtain ⟨more, rfl⟩ := head?_eq_some_iff.mp head
  obtain ⟨passed, ending⟩ := leadsTo_overloadEnd returns_line starts
  refine ⟨passed, leadsTo_atStart.cons <| (leadsTo_number isNumber ?_).cons <|
    (leadsTo_literals name).append <| (leadsTo_oneOf (takes_literal.mpr rfl)).cons <|
      leadsTo_longest args_line (fun _ _ _ shape _ _ _ => search_overloadEnd_none noArrow shape)
        ending⟩
  cases name with
  | nil => exact name_starts
  | cons y name => exact name_starts

theorem leadsTo_call (name : List Char) {args : List Char} (line : ∀ x ∈ args, x ≠ '\n') : ∃ passed,
    LeadsTo (signature name) ⟨[], name ++ '(' :: (args ++ [')']), []⟩ ⟨passed, [], [(1, args)]⟩ := by
  have ending {passed : List Char} {gs : List (Nat × List Char)} : LeadsTo (.inTurn [.literal ')',
      .run 0 .blank, .optional (.group 2 (.inTurn [.literal '-', .literal '>', .run 0 .blank,
        .group 3 (.inTurn [.run 1 .point])])), .atFinalBreak])
          ⟨passed, [')'], gs⟩ ⟨')' :: passed, [], gs⟩ := fun _ _ h => h
  refine ⟨_, leadsTo_atStart.cons <| (leadsTo_literals name).append <|
    (leadsTo_oneOf (takes_literal.mpr rfl)).cons <| leadsTo_longest line ?_ ending⟩
  -- Behind the parenthesis there is nothing that the arguments could take as well.
  intro x more rest shape passed gs next
  obtain ⟨-, rfl⟩ := append_eq_nil_iff.mp (List.cons.inj shape).2.symm
  rfl

end Pattern

end TypeStubs
