import TypeStubs.Proofs.HintRuns
import TypeStubs.Proofs.ReadableDocstrings

/-! The overloads that a docstring lists are recovered from its lines: each has its own parameters,
its own result and the lines up to the next one. -/

namespace TypeStubs

/-- What a docstring says of an overload: its parameters, its result, and the lines after them. -/
structure OverloadText where
  arguments : String
  returns : String
  doc : List String

namespace OverloadText

def line (name : String) (number : Nat) (t : OverloadText) : String :=
  toString number ++ ". " ++ name ++ "(" ++ t.arguments ++ ") -> " ++ t.returns

def lines (name : String) (number : Nat) : List OverloadText → List String
  | [] => []
  | t :: ts => t.line name number :: (t.doc ++ lines name (number + 1) ts)

def docstring (name : String) (ts : List OverloadText) : List String :=
  [name ++ "(*args, **kwargs)", overloadsLine, ""] ++ lines name 1 ts

def IsOther (name : String) (number : Nat) (line : String) : Prop :=
  ∀ c ∈ (overloadLine name).match? line.toList,
    c.named? "overload_number" ≠ some (toString number).toList

instance (name : String) (number : Nat) (line : String) : Decidable (IsOther name number line) :=
  inferInstanceAs (Decidable (∀ c ∈ _, _))

/-- The texts stand on one line, the result starts there and has no arrow after a parenthesis, and the
lines after them are not those of the overload with the next number. -/
structure IsFormed (name : String) (number : Nat) (t : OverloadText) : Prop where
  arguments : ∀ c ∈ t.arguments.toList, c ≠ '\n'
  returns : ∀ c ∈ t.returns.toList, c ≠ '\n'
  starts : ∃ c ∈ t.returns.toList.head?, isBlank c = false
  noArrow : ¬ Pattern.HasArrow t.returns.toList
  doc : ∀ line ∈ t.doc, IsOther name (number + 1) line

variable {name : String} {number : Nat} {t : OverloadText}

theorem match_line (hn : isIdentifier name = true) (ht : t.IsFormed name number) :
    (overloadLine name).match? (t.line name number).toList = some ⟨(overloadLine name).names,
      [(4, t.returns.toList), (3, t.arguments.toList), (1, (toString number).toList ++ ['.', ' ']),
        (2, (toString number).toList)]⟩ := by
  have digits : (toString number).toList = Nat.toDigits 10 number := Nat.toList_repr
  have chars : (t.line name number).toList = (toString number).toList ++ ['.', ' '] ++
      (name.toList ++ '(' :: (t.arguments.toList ++
        ')' :: ' ' :: '-' :: '>' :: ' ' :: t.returns.toList)) := by
    simp [line, String.toList_append]
  have starts : ∀ c ∈ (name.toList ++ ['(']).head?, isBlank c = false := by
    obtain ⟨c, rest, shape, start⟩ := exists_identifier_start hn
    intro d hd
    rw [shape] at hd
    cases hd
    exact Bool.eq_false_iff.mpr fun blank =>
      Bool.false_ne_true ((isIdentifierStart_of_isBlank blank).symm.trans start)
  have isNumber : ∀ c ∈ (toString number).toList, c.isDigit = true := fun c hc =>
    Nat.isDigit_of_mem_toDigits (by decide) (Nat.le_refl 10) (digits ▸ hc)
  obtain ⟨passed, leads⟩ := Pattern.leadsTo_overload isNumber (digits ▸ Nat.toDigits_ne_nil) starts
    ht.arguments ht.returns ht.starts ht.noArrow
  rw [chars, Regex.match?]
  exact congrArg _ (leads some _ rfl)

theorem match_generic (name : String) :
    ∃ c, (signatureLine name).match? (name ++ "(*args, **kwargs)").toList = some c := by
  have chars : (name ++ "(*args, **kwargs)").toList =
      name.toList ++ '(' :: ("*args, **kwargs".toList ++ [')']) := String.toList_append ..
  obtain ⟨passed, leads⟩ := Pattern.leadsTo_call name.toList
    (show ∀ c ∈ "*args, **kwargs".toList, c ≠ '\n' from forall_of_all (by decide))
  rw [chars]
  exact ⟨_, congrArg _ (leads some _ rfl)⟩

end OverloadText

namespace Inspection

variable {s : Setting} {site : Site} {name : String} {number : Nat} {p : Progress} {α : Type}

def Returned (s : Setting) (site : Site) (x : Inspection α) (a : α) : Prop :=
  ∃ p q, IsAt site p ∧ x.outcome s p = (.ok a, q)

theorem ReturnsWhen.gives {x : Inspection α} {C : Prop} (hx : ReturnsWhen s site x C) :
    GivesAt s site x (Returned s site x) := by
  obtain ⟨P, gives, -⟩ := hx
  refine ⟨?_, fun p hp a q h => ?_⟩
  · rintro p hp a ⟨p', q', hp', h⟩
    exact gives.returns p hp a (gives.only p' hp'.isIn a q' h).1
  · obtain ⟨ha, stays⟩ := gives.only p hp a q h
    have inside := hp.pushed site.path
    obtain ⟨q', h'⟩ := gives.returns _ inside a ha
    exact ⟨⟨_, q', inside, h'⟩, stays⟩

/-- The function of an overload has the parameters and the result that their texts are read as outside
of every module, and the docstring of the lines after them. -/
def IsOverloadOf (s : Setting) (name : String) (t : OverloadText) (f : Function) : Prop :=
  ∃ arguments returns, Returned s .outside (argumentsOfText t.arguments.toList) arguments ∧
    Returned s .outside (hintOfText t.returns.toList) returns ∧
    f = { name, arguments, returns := some returns, doc := docOfLines? t.doc,
          decorators := ["typing.overload"] }

theorem givesAt_overloadOfMatch (ho : s.options = {}) (name : String) {c : Captures}
    {args returns : List Char} (hargs : c.named? "args" = some args)
    (hreturns : c.named? "returns" = some returns) :
    GivesAt s .outside (overloadOfMatch name c) fun f => ∃ arguments hint,
      Returned s .outside (argumentsOfText args) arguments ∧
      Returned s .outside (hintOfText returns) hint ∧
      f = { name, arguments, returns := some hint, decorators := ["typing.overload"] } := by
  have known : GivesAt s .outside (wellKnown "typing.overload") (⟨["typing", "overload"]⟩ = ·) :=
    givesAt_wellKnown (by decide)
  rw [overloadOfMatch, groupText_eq hargs, groupText_eq hreturns]
  refine ((returnsWhen_argumentsOfText ho args).gives.bind fun arguments _ =>
    (returnsWhen_hintOfText ho returns).gives.bind fun hint _ => known.bind fun _ _ =>
      .pure _).iff fun f => ?_
  constructor
  · rintro ⟨arguments, first, hint, second, _, rfl, rfl⟩
    exact ⟨arguments, hint, first, second, rfl⟩
  · rintro ⟨arguments, hint, first, second, rfl⟩
    exact ⟨arguments, first, hint, second, _, rfl, rfl⟩

theorem givesAt_docLines {lines doc : List String} {F : List Function → Prop}
    (hdoc : ∀ line ∈ doc, OverloadText.IsOther name number line)
    (h : GivesAt s site (overloadsOfLines (overloadLine name) name number lines)
      fun r => r.1 = [] ∧ F r.2) :
    GivesAt s site (overloadsOfLines (overloadLine name) name number (doc ++ lines))
      fun r => r.1 = doc ∧ F r.2 := by
  induction doc with
  | nil => exact h
  | cons line doc ih =>
    obtain ⟨other, hdoc⟩ := List.forall_mem_cons.mp hdoc
    have skipped : overloadsOfLines (overloadLine name) name number (line :: (doc ++ lines)) =
        (overloadsOfLines (overloadLine name) name number (doc ++ lines) >>= fun r =>
          pure (line :: r.1, r.2)) := by
      rw [overloadsOfLines]
      cases found : (overloadLine name).match? line.toList with
      | none => rfl
      | some c => exact if_neg (other c found)
    rw [List.cons_append, skipped]
    refine ((ih hdoc).bind fun _ _ => .pure _).iff fun r => ?_
    constructor
    · rintro ⟨r', ⟨first, rest⟩, rfl⟩
      exact ⟨congrArg (line :: ·) first, rest⟩
    · rintro ⟨first, rest⟩
      exact ⟨(doc, r.2), ⟨rfl, rest⟩, Prod.ext first.symm rfl⟩

theorem givesAt_overloadsOfLines (ho : s.options = {}) (hn : isIdentifier name = true)
    {ts : List OverloadText}
    (formed : ∀ i (t : OverloadText), ts[i]? = some t → t.IsFormed name (number + i))
    {doc : List String} (hdoc : ∀ line ∈ doc, OverloadText.IsOther name number line) :
    GivesAt s .outside (overloadsOfLines (overloadLine name) name number
      (doc ++ OverloadText.lines name number ts))
        fun r => r.1 = doc ∧ List.Forall₂ (IsOverloadOf s name) ts r.2 := by
  -- The docstring of each overload is what the induction hypothesis is told to leave before the next.
  induction ts generalizing number doc with
  | nil =>
    refine givesAt_docLines hdoc ((GivesAt.pure _).iff fun r => ?_)
    rw [List.forall₂_nil_left_iff]
    exact ⟨fun h => h ▸ ⟨rfl, rfl⟩, fun h => Prod.ext h.1.symm h.2.symm⟩
  | cons t ts ih =>
    have ht : t.IsFormed name number := formed 0 t rfl
    have later : ∀ i (u : OverloadText), ts[i]? = some u → u.IsFormed name (number + 1 + i) := by
      intro i u hu
      rw [Nat.add_assoc, Nat.add_comm 1]
      exact formed (i + 1) u hu
    refine givesAt_docLines hdoc ?_
    rw [OverloadText.lines, overloadsOfLines, t.match_line hn ht]
    have counted : (⟨(overloadLine name).names, [(4, t.returns.toList), (3, t.arguments.toList),
        (1, (toString number).toList ++ ['.', ' ']), (2, (toString number).toList)]⟩ :
          Captures).named? "overload_number" = some (toString number).toList := rfl
    simp only [if_pos counted]
    refine ((givesAt_overloadOfMatch ho name rfl rfl).bind fun f _ =>
      (ih later ht.doc).bind fun _ _ => .pure _).iff fun r => ?_
    constructor
    · rintro ⟨_, ⟨arguments, hint, first, second, rfl⟩, ⟨doc', fs⟩, ⟨same, rest⟩, rfl⟩
      obtain rfl : doc' = t.doc := same
      exact ⟨rfl, .cons ⟨arguments, hint, first, second, rfl⟩ rest⟩
    · rintro ⟨nothing, all⟩
      obtain ⟨_, fs, ⟨arguments, hint, first, second, rfl⟩, rest, shape⟩ :=
        List.forall₂_cons_left_iff.mp all
      exact ⟨_, ⟨arguments, hint, first, second, rfl⟩, (t.doc, fs), ⟨rfl, rest⟩,
        Prod.ext nothing.symm shape.symm⟩

/-- Outside of every module the functions of a docstring that lists overloads are one for each of
them, in their order. -/
theorem overloads_recovered (ho : s.options = {}) (hn : isIdentifier name = true)
    {ts : List OverloadText}
    (formed : ∀ i (t : OverloadText), ts[i]? = some t → t.IsFormed name (i + 1))
    (hp : IsOutside p) (fs : List Function) :
    (∃ q, (functionsOfLines name (OverloadText.docstring name ts)).outcome s p = (.ok fs, q)) ↔
      List.Forall₂ (IsOverloadOf s name) ts fs := by
  have counted : ∀ i (t : OverloadText), ts[i]? = some t → t.IsFormed name (1 + i) := by
    intro i t ht
    rw [Nat.add_comm]
    exact formed i t ht
  have blank : ∀ line ∈ [""], OverloadText.IsOther name 1 line := by
    rintro line (_ | ⟨_, ⟨⟩⟩) c found
    have unmatched : (overloadLine name).match? "".toList = none := rfl
    cases unmatched.symm.trans found
  obtain ⟨c, generic⟩ := OverloadText.match_generic name
  have gives : GivesAt s .outside (functionsOfLines name (OverloadText.docstring name ts))
      (List.Forall₂ (IsOverloadOf s name) ts) := by
    rw [OverloadText.docstring, List.cons_append, functionsOfLines, patternOf_signature hn,
      patternOf_overload hn, pure_bind]
    simp only [generic]
    refine ((givesAt_overloadsOfLines ho hn counted blank).bind fun _ _ => .pure _).iff fun fs => ?_
    simp
  have hp := isAt_outside.mpr hp
  constructor
  · rintro ⟨q, h⟩
    exact (gives.only p hp.isIn fs q h).1
  · exact gives.returns p hp fs

theorem exists_returned {x : Inspection α} (hp : IsAt site p) (h : (x.outcome s p).1.isOk = true) :
    ∃ a, Returned s site x a := by
  rcases hx : x.outcome s p with ⟨e | a, q⟩
  · rw [hx] at h
    cases h
  · exact ⟨a, p, q, hp, hx⟩

def inFunction : Progress := { layers := [{ path := ⟨["f"]⟩ }] }

/-- Two overloads. The parameters of the first have an arrow after a parenthesis, and its docstring
has a line with another number. -/
def mappings : List OverloadText :=
  [⟨"x: 'g() -> a', y: int = 1", "int", ["Maps.", "7. f() -> a"]⟩, ⟨"*z", "list[int]", []⟩]

theorem mappings_recovered : ∃ f g q,
    (functionsOfLines "f" (OverloadText.docstring "f" mappings)).outcome ⟨{}, .ofModules []⟩
      inFunction = (.ok [f, g], q) ∧ f.doc = some "Maps.\n7. f() -> a" ∧ g.doc = none := by
  have hp : IsOutside inFunction := ⟨List.cons_ne_nil _ _, rfl, rfl, rfl⟩
  have noArrow {text : String} (h : ')' ∉ text.toList) : ¬ Pattern.HasArrow text.toList := by
    rintro ⟨before, blanks, after, shape, -⟩
    exact h (shape ▸ by simp)
  have formed : ∀ i (t : OverloadText), mappings[i]? = some t → t.IsFormed "f" (i + 1) := by
    rintro (_ | _ | i) t ht
    · cases ht
      exact ⟨forall_of_all (by decide), forall_of_all (by decide), ⟨'i', rfl, by decide⟩,
        noArrow (by decide), by decide⟩
    · cases ht
      exact ⟨forall_of_all (by decide), forall_of_all (by decide), ⟨'l', rfl, by decide⟩,
        noArrow (by decide), List.forall_mem_nil _⟩
    · cases ht
  have recovered := overloads_recovered (s := ⟨{}, .ofModules []⟩) rfl (by decide) formed hp
  obtain ⟨as, has⟩ := exists_returned (s := ⟨{}, .ofModules []⟩) (isAt_outside.mpr hp)
    (show ((argumentsOfText "x: 'g() -> a', y: int = 1".toList).outcome _ _).1.isOk = true by
      decide +kernel)
  obtain ⟨bs, hbs⟩ := exists_returned (s := ⟨{}, .ofModules []⟩) (isAt_outside.mpr hp)
    (show ((argumentsOfText "*z".toList).outcome _ _).1.isOk = true by decide +kernel)
  obtain ⟨a, ha⟩ := exists_returned (s := ⟨{}, .ofModules []⟩) (isAt_outside.mpr hp)
    (show ((hintOfText "int".toList).outcome _ _).1.isOk = true by decide +kernel)
  obtain ⟨b, hb⟩ := exists_returned (s := ⟨{}, .ofModules []⟩) (isAt_outside.mpr hp)
    (show ((hintOfText "list[int]".toList).outcome _ _).1.isOk = true by decide +kernel)
  obtain ⟨q, h⟩ := (recovered _).mpr
    (.cons ⟨as, a, has, ha, rfl⟩ (.cons ⟨bs, b, hbs, hb, rfl⟩ .nil))
  have doc : docOfLines? ["Maps.", "7. f() -> a"] = some "Maps.\n7. f() -> a" := by decide
  exact ⟨_, _, q, h, doc, rfl⟩

end Inspection

end TypeStubs
