import TypeStubs.Inspection.Signatures

/-! How the patterns of signatures are read. A name without signs of its own stands for itself in
them, so that there is one pattern for every name. -/

namespace TypeStubs

open List

variable {name : String}

namespace Pattern

def inTurn : List Pattern → Pattern
  | [] => .empty
  | p :: ps => .seq p (inTurn ps)

def literal (c : Char) : Pattern := .oneOf [.char c .exact] false

/-- Every character of a line. -/
def point : Pattern := .oneOf [.char '\n' .exact] true

/-- As many characters as possible that pass a test, and at least so many. -/
def run (least : Nat) (p : Pattern) : Pattern := .rep p least none true

def optional (p : Pattern) : Pattern := .rep p 0 (some 1) true

def blank : Pattern := .oneOf [.blank] false

def digit : Pattern := .oneOf [.decimal] false

end Pattern

namespace PatternReader

variable {β : Type}

/-- The character has a meaning of its own in patterns. -/
def isSign (c : Char) : Bool := ".^$[*+?\x7b\\()|".toList.contains c

theorem isSign_of_identifier (h : isIdentifier name = true) :
    ∀ c ∈ name.toList, isSign c = false := by
  have signs : ∀ d ∈ ['.', '^', '$', '[', '*', '+', '?', '\x7b', '\\', '(', ')', '|'],
      isIdentifierStart d = false ∧ isIdentifierContinue d = false := forall_of_all (by decide)
  intro c hc
  refine Bool.eq_false_iff.mpr fun sign => ?_
  obtain ⟨first, later⟩ := signs c (contains_iff_mem.mp sign)
  exact not_mem_identifier h first later hc

abbrev State.before (rest : List Char) (groups : Nat) (names : List (String × Nat))
    (widths : List (Nat × Width)) : State := { rest, groups, names, widths }

/-- From a state, after some items, the rest of a sequence is read as a pattern. The fuel is enough
for two steps at each character. -/
def Reads (st : State) (items : List Item) (p : Pattern) (st' : State) : Prop :=
  ∀ fuel first, 2 * st.rest.length + 1 ≤ fuel → (sequence fuel first items).run st = .ok (p, st')

variable {c : Char} {r r' : List Char} {g g' : Nat} {ns ns' : List (String × Nat)}
  {ws ws' : List (Nat × Width)} {items items' : List Item} {p q body : Pattern} {st : State}

theorem ok_bind {α : Type} (a : α) (f : α → Except PatternError β) :
    (Except.ok a >>= f) = f a := rfl

theorem peeked : peek.run (.before (c :: r) g ns ws) = .ok (some c, .before (c :: r) g ns ws) := rfl

theorem taken (f : Char → Reader β) : (next >>= f).run (.before (c :: r) g ns ws) =
    (f c).run (.before r g ns ws) := rfl

theorem got (f : State → Reader β) (st : State) : (get >>= f).run st = (f st).run st := rfl

theorem Reads.run_eq (h : Reads (.before r g ns ws) items p st) {fuel : Nat} {first : Bool}
    (enough : 2 * r.length + 1 ≤ fuel) :
    (sequence fuel first items).run (.before r g ns ws) = .ok (p, st) :=
  h fuel first enough

theorem Reads.step (h : Reads (.before r g ns ws) items' p st)
    (step : ∀ fuel first, (sequence (fuel + 1) first items).run (.before (c :: r) g ns ws) =
      (sequence fuel first items').run (.before r g ns ws)) :
    Reads (.before (c :: r) g ns ws) items p st := by
  intro fuel first enough
  rw [length_cons] at enough
  obtain ⟨fuel, rfl⟩ := Nat.exists_eq_add_of_le' (Nat.le_trans (Nat.le_add_left 1 _) enough)
  rw [step]
  exact h.run_eq (by omega)

theorem reads_end (h : joinItems items = p) :
    Reads (.before [] g ns ws) items p (.before [] g ns ws) := by
  intro fuel first enough
  obtain ⟨fuel, rfl⟩ := Nat.exists_eq_add_of_le' enough
  exact h ▸ rfl

theorem reads_closing :
    Reads (.before (')' :: r) g ns ws) items (joinItems items) (.before (')' :: r) g ns ws) := by
  intro fuel first enough
  obtain ⟨fuel, rfl⟩ := Nat.exists_eq_add_of_le' enough
  rfl

theorem reads_literal (plain : isSign c = false)
    (h : Reads (.before r g ns ws) (⟨.literal c, true⟩ :: items) p st) :
    Reads (.before (c :: r) g ns ws) items p st := by
  have ne {d : Char} (sign : isSign d = true) : c ≠ d := by
    rintro rfl
    exact Bool.false_ne_true (plain.symm.trans sign)
  refine h.step fun fuel first => ?_
  rw [sequence.eq_def]
  dsimp only
  rw [StateT.run_bind, peeked, ok_bind]
  dsimp only
  split
  · rename_i h
    cases h
  · rename_i h
    exact absurd (Option.some.inj h) (ne rfl)
  · rename_i h
    exact absurd (Option.some.inj h) (ne rfl)
  · rename_i h
    cases h
    rw [taken, got]
    simp only [Bool.false_and, Bool.false_eq_true, if_false]
    -- The last branch is that of the characters without a meaning.
    split
    iterate 10 · exact absurd rfl (ne rfl)
    · rfl

theorem reads_point (h : Reads (.before r g ns ws) (⟨.point, true⟩ :: items) p st) :
    Reads (.before ('.' :: r) g ns ws) items p st :=
  h.step fun _ _ => rfl

theorem reads_start (h : Reads (.before r g ns ws) (⟨.atStart, false⟩ :: items) p st) :
    Reads (.before ('^' :: r) g ns ws) items p st :=
  h.step fun _ _ => rfl

theorem reads_final (h : Reads (.before r g ns ws) (⟨.atFinalBreak, false⟩ :: items) p st) :
    Reads (.before ('$' :: r) g ns ws) items p st :=
  h.step fun _ _ => rfl

theorem accept_run {text : List Char} (h : text.isPrefixOf r = false) :
    (accept text).run (.before r g ns ws) = .ok (false, .before r g ns ws) := by
  unfold accept
  change StateT.run (if text.isPrefixOf r = true then _ else _) _ = _
  rw [if_neg (Bool.eq_false_iff.mp h)]
  rfl

theorem repeated_run {least : Nat} {most : Option Nat} (fewer : ['?'].isPrefixOf r = false)
    (once : ['+'].isPrefixOf r = false) :
    (repeated (⟨q, true⟩ :: items) least most).run (.before r g ns ws) =
      .ok (⟨.rep q least most true, false⟩ :: items, .before r g ns ws) := by
  unfold repeated
  dsimp only
  rw [StateT.run_bind, accept_run fewer, ok_bind]
  change StateT.run (accept ['+'] >>= _) _ = _
  rw [StateT.run_bind, accept_run once]
  rfl

/-- How often a sign asks for what stands before it. -/
inductive IsRepetition : Char → Nat → Option Nat → Prop
  | star : IsRepetition '*' 0 none
  | plus : IsRepetition '+' 1 none
  | question : IsRepetition '?' 0 (some 1)

theorem reads_repetition {least : Nat} {most : Option Nat} (sign : IsRepetition c least most)
    (fewer : ['?'].isPrefixOf r = false) (once : ['+'].isPrefixOf r = false)
    (h : Reads (.before r g ns ws) (⟨.rep q least most true, false⟩ :: items) p st) :
    Reads (.before (c :: r) g ns ws) (⟨q, true⟩ :: items) p st := by
  refine h.step fun fuel first => ?_
  have unfolded : (sequence (fuel + 1) first (⟨q, true⟩ :: items)).run (.before (c :: r) g ns ws) =
      (repeated (⟨q, true⟩ :: items) least most >>= sequence fuel first).run (.before r g ns ws) := by
    cases sign <;> rfl
  rw [unfolded, StateT.run_bind, repeated_run fewer once]
  rfl

def Escapes (c : Char) (t : CharTest) : Prop :=
  ∀ r g ns ws, escape.run (.before (c :: r) g ns ws) = .ok (.oneOf [t] false, .before r g ns ws)

theorem reads_escape {t : CharTest} (meaning : Escapes c t)
    (h : Reads (.before r g ns ws) (⟨.oneOf [t] false, true⟩ :: items) p st) :
    Reads (.before ('\\' :: c :: r) g ns ws) items p st := by
  intro fuel first enough
  simp only [length_cons] at enough
  obtain ⟨fuel, rfl⟩ := Nat.exists_eq_add_of_le' (Nat.le_trans (Nat.le_add_left 1 _) enough)
  rw [sequence.eq_def]
  dsimp only
  rw [StateT.run_bind, peeked, ok_bind]
  change StateT.run (next >>= _) _ = _
  rw [taken, got]
  simp only [Bool.false_and, Bool.false_eq_true, if_false]
  change StateT.run (escape >>= _) _ = _
  rw [StateT.run_bind, meaning, ok_bind]
  exact h.run_eq (by omega)

theorem choice_run (inner : Reads (.before r g ns ws) [] body (.before (')' :: r') g' ns' ws'))
    {fuel : Nat} (enough : 2 * r.length + 2 ≤ fuel) :
    (choice fuel false []).run (.before r g ns ws) = .ok (body, .before (')' :: r') g' ns' ws') := by
  obtain ⟨fuel, rfl⟩ := Nat.exists_eq_add_of_le' (Nat.le_trans (Nat.le_add_left 1 _) enough)
  rw [choice, StateT.run_bind, inner.run_eq (by omega)]
  rfl

theorem reads_group {l : List Char} {g₀ : Nat} {ns₀ : List (String × Nat)}
    {ws₀ : List (Nat × Width)} (opened : opening.run (.before l g₀ ns₀ ws₀) =
      .ok (.numbered g, .before r g ns ws))
    (inner : Reads (.before r g ns ws) [] body (.before (')' :: r') g' ns' ws'))
    (behind : r'.length ≤ l.length) (inside : r.length ≤ l.length)
    (h : Reads (.before r' g' ns' ((g, body.width ws') :: ws')) (⟨.group g body, true⟩ :: items) p
      st) :
    Reads (.before ('(' :: l) g₀ ns₀ ws₀) items p st := by
  intro fuel first enough
  simp only [length_cons] at enough
  obtain ⟨fuel, rfl⟩ := Nat.exists_eq_add_of_le' (Nat.le_trans (Nat.le_add_left 1 _) enough)
  rw [sequence.eq_def]
  dsimp only
  rw [StateT.run_bind, peeked, ok_bind]
  change StateT.run (next >>= _) _ = _
  rw [taken, got]
  simp only [Bool.false_and, Bool.false_eq_true, if_false]
  change StateT.run (opening >>= _) _ = _
  rw [StateT.run_bind, opened, ok_bind]
  change StateT.run (withFlags {} (choice fuel false []) >>= _) _ = _
  have read : (withFlags {} (choice fuel false [])).run (.before r g ns ws) =
      .ok (body, .before (')' :: r') g' ns' ws') := by
    have flagged : (withFlags {} (choice fuel false [])).run (.before r g ns ws) =
      ((choice fuel false []).run (.before r g ns ws) >>= fun x =>
        .ok (x.1, { x.2 with flags := {} })) := rfl
    rw [flagged, choice_run inner (by omega)]
    rfl
  rw [StateT.run_bind, read, ok_bind]
  exact h.run_eq (by omega)

theorem opening_unnamed (h : ['?'].isPrefixOf r = false) :
    opening.run (.before r g ns ws) = .ok (.numbered (g + 1), .before r (g + 1) ns ws) := by
  unfold opening
  rw [StateT.run_bind, accept_run h]
  rfl

theorem accept_append {text : List Char} :
    (accept text).run (.before (text ++ r) g ns ws) = .ok (true, .before r g ns ws) := by
  unfold accept
  change StateT.run (if text.isPrefixOf (text ++ r) = true then _ else _) _ = _
  rw [if_pos (List.isPrefixOf_iff_prefix.mpr (prefix_append text r))]
  change Except.ok (true, State.before ((text ++ r).drop text.length) g ns ws) = _
  rw [drop_left]

theorem textUpTo_run {n : List Char} (open' : c ∉ n) :
    (textUpTo c).run (.before (n ++ c :: r) g ns ws) = .ok (String.ofList n, .before r g ns ws) := by
  have taken : ((n ++ c :: r).take (n ++ c :: r).length).takeWhile (· != c) = n := by
    rw [take_length, takeWhile_append_of_pos, takeWhile_cons_of_neg, append_nil]
    · simp
    · intro d hd
      exact bne_iff_ne.mpr fun same => open' (same ▸ hd)
  have run : (takeRun (· != c) (n ++ c :: r).length).run (.before (n ++ c :: r) g ns ws) =
      .ok (n, .before (c :: r) g ns ws) := by
    change Except.ok (((n ++ c :: r).take (n ++ c :: r).length).takeWhile (· != c), State.before
      ((n ++ c :: r).drop (((n ++ c :: r).take (n ++ c :: r).length).takeWhile (· != c)).length)
        g ns ws) = _
    rw [taken, drop_left]
  unfold textUpTo
  rw [got, StateT.run_bind, run, ok_bind]
  dsimp only
  have closed : (accept [c]).run (.before (c :: r) g ns ws) = .ok (true, .before r g ns ws) :=
    accept_append
  rw [StateT.run_bind, closed]
  rfl

theorem opening_named {n : String} (valid : isIdentifier n = true) (fresh : ns.lookup n = none)
    (open' : '>' ∉ n.toList) :
    opening.run (.before ('?' :: 'P' :: '<' :: (n.toList ++ '>' :: r)) g ns ws) =
      .ok (.numbered (g + 1), .before r (g + 1) ((n, g + 1) :: ns) ws) := by
  have unfolded (cs : List Char) : opening.run (.before ('?' :: 'P' :: '<' :: cs) g ns ws) =
    (textUpTo '>' >>= fun name => newGroup (some name)).run (.before cs g ns ws) := rfl
  rw [unfolded, StateT.run_bind, textUpTo_run open', ok_bind, String.ofList_toList]
  unfold newGroup
  rw [got]
  dsimp only
  rw [if_pos (by rw [valid, fresh]; rfl)]
  rfl

/-- A name of a group is an identifier that no other group has. -/
theorem reads_named {n : String}
    (valid : isIdentifier n = true ∧ ns.lookup n = none ∧ '>' ∉ n.toList)
    (inner : Reads (.before r (g + 1) ((n, g + 1) :: ns) ws) [] body (.before (')' :: r') g' ns' ws'))
    (behind : r'.length ≤ r.length) (h : Reads (.before r' g' ns' ((g + 1, body.width ws') :: ws'))
      (⟨.group (g + 1) body, true⟩ :: items) p st) :
    Reads (.before ('(' :: '?' :: 'P' :: '<' :: (n.toList ++ '>' :: r)) g ns ws) items p st :=
  reads_group (opening_named valid.1 valid.2.1 valid.2.2) inner (by simp; omega) (by simp; omega) h

theorem reads_text {cs : List Char} (plain : ∀ c ∈ cs, isSign c = false)
    (h : Reads (.before r g ns ws) (cs.reverse.map (⟨.literal ·, true⟩) ++ items) p st) :
    Reads (.before (cs ++ r) g ns ws) items p st := by
  induction cs generalizing items with
  | nil => exact h
  | cons c cs ih =>
    obtain ⟨first, rest⟩ := forall_mem_cons.mp plain
    refine reads_literal first (ih rest ?_)
    simpa using h

theorem joinItems_eq (items : List Item) :
    joinItems items = .inTurn (items.reverse.map Item.pattern) := by
  have folded (ps : List Pattern) : Pattern.inTurn ps = ps.foldr .seq .empty := by
    induction ps with
    | nil => rfl
    | cons p ps ih => rw [Pattern.inTurn, ih, foldr_cons]
  rw [folded, foldr_map, foldr_reverse]
  rfl

theorem read_of_reads {source : String} {text : List Char} (same : source.toList = text)
    (h : Reads (.before text 0 [] []) [] p (.before [] g ns ws)) :
    Regex.read source = .ok ⟨source, p, ns⟩ := by
  subst same
  have chosen : (choice (3 * source.toList.length + 3) true []).run { rest := source.toList } =
      .ok (p, .before [] g ns ws) := by
    rw [choice, StateT.run_bind]
    rw [h (3 * source.toList.length + 2) true (by show 2 * source.toList.length + 1 ≤ _; omega)]
    rfl
  have read : PatternReader.whole.run { rest := source.toList } = .ok (p, .before [] g ns ws) := by
    unfold whole
    rw [got, StateT.run_bind, chosen]
    rfl
  unfold Regex.read
  rw [read]
  rfl

end PatternReader

/-! The patterns of signatures. -/

/-- The first line of a docstring: a call, and perhaps an arrow and the result. -/
def Pattern.signature (name : List Char) : Pattern :=
  .inTurn (.atStart :: (name.map .literal ++ [.literal '(', .group 1 (.inTurn [.run 0 .point]),
    .literal ')', .run 0 .blank, .optional (.group 2 (.inTurn [.literal '-', .literal '>',
      .run 0 .blank, .group 3 (.inTurn [.run 1 .point])])), .atFinalBreak]))

/-- The signature of an overload: a number, a call, an arrow and the result. -/
def Pattern.overload (name : List Char) : Pattern :=
  .inTurn (.atStart :: .group 1 (.inTurn [.run 0 .blank, .group 2 (.inTurn [.run 1 .digit]),
    .point, .run 0 .blank]) :: (name.map .literal ++ [.literal '(',
      .group 3 (.inTurn [.run 0 .point]), .literal ')', .run 0 .blank, .literal '-', .literal '>',
      .run 0 .blank, .group 4 (.inTurn [.run 1 .point]), .atFinalBreak]))

namespace PatternReader

theorem escapes_opening : Escapes '(' (.char '(' .exact) := fun _ _ _ _ => rfl

theorem escapes_closing : Escapes ')' (.char ')' .exact) := fun _ _ _ _ => rfl

theorem escapes_blank : Escapes 's' .blank := fun _ _ _ _ => rfl

theorem escapes_digit : Escapes 'd' .decimal := fun _ _ _ _ => rfl

theorem read_signature (plain : ∀ c ∈ name.toList, isSign c = false) :
    Regex.read (signaturePattern name) =
      .ok ⟨signaturePattern name, .signature name.toList, [("returns", 3), ("args", 1)]⟩ := by
  have text : (signaturePattern name).toList = '^' :: (name.toList ++ '\\' :: '(' :: '(' :: '?' ::
      'P' :: '<' :: ("args".toList ++ '>' :: '.' :: '*' :: ')' :: '\\' :: ')' :: '\\' :: 's' :: '*' ::
      '(' :: '-' :: '>' :: '\\' :: 's' :: '*' :: '(' :: '?' :: 'P' :: '<' :: ("returns".toList ++
      '>' :: '.' :: '+' :: ')' :: ')' :: '?' :: '$' :: []))) := by
    refine ((String.toList_append ..).trans (congrArg (· ++ _) (String.toList_append ..))).trans ?_
    rw [append_assoc]
    rfl
  refine read_of_reads text <| reads_start <| reads_text plain <| reads_escape escapes_opening <|
    reads_named (by decide) (reads_point <| reads_repetition .star rfl rfl reads_closing) (by decide) <|
    reads_escape escapes_closing <| reads_escape escapes_blank <| reads_repetition .star rfl rfl <|
    reads_group (opening_unnamed rfl) (reads_literal rfl <| reads_literal rfl <|
      reads_escape escapes_blank <| reads_repetition .star rfl rfl <| reads_named (by decide)
        (reads_point <| reads_repetition .plus rfl rfl reads_closing) (by decide) reads_closing)
      (by decide) (by decide) <|
    reads_repetition .question rfl rfl <| reads_final <| reads_end ?_
  rw [joinItems_eq]
  simp only [map_reverse, reverse_cons, reverse_append, reverse_nil, nil_append, reverse_reverse,
    cons_append, append_assoc, map_cons, map_append, map_map, map_nil]
  rfl

theorem read_overload (plain : ∀ c ∈ name.toList, isSign c = false) :
    Regex.read (overloadPattern name) = .ok ⟨overloadPattern name, .overload name.toList,
      [("returns", 4), ("args", 3), ("overload_number", 2)]⟩ := by
  have text : (overloadPattern name).toList = '^' :: '(' :: '\\' :: 's' :: '*' :: '(' :: '?' ::
      'P' :: '<' :: ("overload_number".toList ++ '>' :: '\\' :: 'd' :: '+' :: ')' :: '.' :: '\\' ::
      's' :: '*' :: ')' :: (name.toList ++ '\\' :: '(' :: '(' :: '?' :: 'P' :: '<' ::
      ("args".toList ++ '>' :: '.' :: '*' :: ')' :: '\\' :: ')' :: '\\' :: 's' :: '*' :: '-' ::
      '>' :: '\\' :: 's' :: '*' :: '(' :: '?' :: 'P' :: '<' :: ("returns".toList ++ '>' :: '.' ::
      '+' :: ')' :: '$' :: [])))) := by
    refine ((String.toList_append ..).trans (congrArg (· ++ _) (String.toList_append ..))).trans ?_
    rw [append_assoc]
    rfl
  refine read_of_reads text <| reads_start <| reads_group (opening_unnamed rfl)
      (reads_escape escapes_blank <| reads_repetition .star rfl rfl <| reads_named (by decide)
        (reads_escape escapes_digit <| reads_repetition .plus rfl rfl reads_closing) (by simp) <|
      reads_point <| reads_escape escapes_blank <| reads_repetition .star rfl rfl reads_closing)
      (by simp) (by simp) <|
    reads_text plain <| reads_escape escapes_opening <|
    reads_named (by decide) (reads_point <| reads_repetition .star rfl rfl reads_closing) (by decide) <|
    reads_escape escapes_closing <| reads_escape escapes_blank <| reads_repetition .star rfl rfl <|
    reads_literal rfl <| reads_literal rfl <| reads_escape escapes_blank <|
    reads_repetition .star rfl rfl <| reads_named (by decide) (reads_point <|
      reads_repetition .plus rfl rfl reads_closing) (by decide) <| reads_final <| reads_end ?_
  rw [joinItems_eq]
  simp only [map_reverse, reverse_cons, reverse_append, reverse_nil, nil_append, reverse_reverse,
    cons_append, append_assoc, map_cons, map_append, map_map, map_nil]
  rfl

end PatternReader

end TypeStubs
