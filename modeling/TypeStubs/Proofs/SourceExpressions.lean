import TypeStubs.Source

/-! Reading calls of a dotted name on integers from their tokens. -/

namespace TypeStubs.Source

open TokenReader List

variable {t : Token} {arg : List Token} {args : List (List Token)} {operand : TokenReader Expr}

def expressionEnds : List Token := [.op ",", .op ")", .op "]", .op "=", .newline]

def EndsExpression (ts : List Token) : Prop := ∃ t rest, ts = t :: rest ∧ t ∈ expressionEnds

variable {α : Type} {ts rest : List Token} {e : Expr} {rec : Rec}

theorem accept_self (t : Token) (rest : List Token) :
    (accept t).run (t :: rest) = some (true, rest) := by
  simp [accept]

theorem accept_other (h : ts.head? ≠ some t) : (accept t).run ts = some (false, ts) := by
  match ts with
  | [] => rfl
  | t' :: ts =>
    have differs : t' ≠ t := fun same => h (same ▸ rfl)
    simp [accept, differs]

theorem EndsExpression.head (h : EndsExpression ts) (ht : t ∉ expressionEnds) :
    ts.head? ≠ some t := by
  obtain ⟨t', rest, rfl, ht'⟩ := h
  intro same
  cases same
  exact ht ht'

theorem oneOf_other {ops : List String} (h : ∀ o ∈ ops, ts.head? ≠ some (.op o)) :
    (oneOf ops).run ts = some (none, ts) := by
  match ts with
  | [] => rfl
  | .op text :: ts =>
    have out : text ∉ ops := fun hin => h text hin rfl
    simp [oneOf, out]
  | .name _ :: _ | .keyword _ :: _ | .number _ :: _ | .string _ :: _ | .newline :: _ | .indent :: _
  | .dedent :: _ => rfl

theorem level_run {ops : List String}
    (h : operand.run ts = some (e, rest)) (hr : EndsExpression rest)
    (hops : ∀ o ∈ ops, .op o ∉ expressionEnds) : (level ops operand).run ts = some (e, rest) := by
  have stop : (oneOf ops).run rest = some (none, rest) := oneOf_other fun o ho => hr.head (hops o ho)
  simp [level, chain, h, stop]

theorem joined_run {joint : TokenReader Bool}
    (h : operand.run ts = some (e, rest)) (hj : joint.run rest = some (false, rest)) :
    (joined operand joint).run ts = some (e, rest) := by
  simp [joined, h, hj]

theorem power_run (h : (primary rec).run ts = some (e, rest)) (hr : EndsExpression rest)
    (ht : ts.head? ≠ some (.keyword "await")) : (power rec).run ts = some (e, rest) := by
  have first := accept_other ht
  have last := accept_other (hr.head (by decide) : rest.head? ≠ some (.op "**"))
  simp [power, word, op, first, last, h]

theorem factor_run (ht : ∀ sign ∈ ["+", "-", "~"], ts.head? ≠ some (.op sign)) :
    (factor rec).run ts = (power rec).run ts := by
  have none (sign : String) (hs : sign ∈ ["+", "-", "~"]) := accept_other (ht sign hs)
  simp [factor, op, none]

theorem factor_minus (h : (rec .factor).run ts = some (e, rest)) :
    (factor rec).run (.op "-" :: ts) = some (.unary "-" e, rest) := by
  have plus : (accept (.op "+")).run (.op "-" :: ts) = some (false, .op "-" :: ts) :=
    accept_other (by simp)
  have minus : (accept (.op "-")).run (.op "-" :: ts) = some (true, ts) := accept_self _ _
  simp [factor, op, plus, minus, h]

theorem comparisonOperator_run (hr : EndsExpression rest) :
    comparisonOperator.run rest = some (false, rest) := by
  obtain ⟨t, rest, rfl, ht⟩ := hr
  simp only [expressionEnds, mem_cons, not_mem_nil, or_false] at ht
  rcases ht with rfl | rfl | rfl | rfl | rfl <;> rfl

theorem expression_run (h : (factor rec).run ts = some (e, rest)) (hr : EndsExpression rest)
    (hnot : ts.head? ≠ some (.keyword "not")) (hlambda : ts.head? ≠ some (.keyword "lambda")) :
    (expression rec).run ts = some (e, rest) := by
  have bits : (bitOr rec).run ts = some (e, rest) := by
    unfold bitOr
    exact level_run (level_run (level_run (level_run (level_run (level_run h hr (by decide)) hr
      (by decide)) hr (by decide)) hr (by decide)) hr (by decide)) hr (by decide)
  have inverse : (inversion rec).run ts = some (e, rest) := by
    simp only [inversion, word, StateT.run_bind, accept_other hnot]
    exact joined_run bits (comparisonOperator_run hr)
  have disjoined : (disjunction rec).run ts = some (e, rest) :=
    joined_run (joined_run inverse (accept_other (hr.head (by decide))))
      (accept_other (hr.head (by decide)))
  have last := accept_other (hr.head (by decide) : rest.head? ≠ some (.keyword "if"))
  simp [expression, word, accept_other hlambda, disjoined, last]

theorem trailer_none (hr : EndsExpression rest) : (trailer rec e).run rest = some (none, rest) := by
  have dot := accept_other (hr.head (by decide) : rest.head? ≠ some (.op "."))
  have paren := accept_other (hr.head (by decide) : rest.head? ≠ some (.op "("))
  have bracket := accept_other (hr.head (by decide) : rest.head? ≠ some (.op "["))
  simp [trailer, op, dot, paren, bracket]

theorem primary_integer (hr : EndsExpression rest) :
    (primary rec).run (.number .integer :: rest) = some (.constant .integer, rest) := by
  simp [primary, atom, trailers, trailer_none hr]

def IsIntegerTokens (ts : List Token) : Prop :=
  ts = [.number .integer] ∨ ts = [.op "-", .number .integer]

theorem factor_integer (hr : EndsExpression rest) :
    (factor rec).run (.number .integer :: rest) = some (.constant .integer, rest) := by
  rw [factor_run (by simp)]
  exact power_run (primary_integer hr) hr (by simp)

theorem expression_integer (depth : Nat) (h : IsIntegerTokens ts) (hr : EndsExpression rest) :
    ∃ e, (phrase (depth + 2) .expression).run (ts ++ rest) = some (e, rest) := by
  rcases h with rfl | rfl
  · exact ⟨_, expression_run (factor_integer hr) hr (by simp) (by simp)⟩
  · exact ⟨_, expression_run (factor_minus (factor_integer hr)) hr (by simp) (by simp)⟩

theorem callArgument_run (h : (rec .expression).run ts = some (e, rest))
    (hstars : ∀ o ∈ ["**", "*"], ts.head? ≠ some (.op o)) (hname : ∀ n, ts.head? ≠ some (.name n)) :
    (callArgument rec).run ts = some (.positional, rest) := by
  have two := accept_other (hstars "**" (by simp))
  have one := accept_other (hstars "*" (by simp))
  have named : (namedExpression rec).run ts = some (e, rest) := by
    match ts with
    | .name n :: ts => exact absurd rfl (hname n)
    | [] | .op _ :: _ | .keyword _ :: _ | .number _ :: _ | .string _ :: _ | .newline :: _
    | .indent :: _ | .dedent :: _ => exact h
  match ts with
  | .name n :: ts => exact absurd rfl (hname n)
  | [] | .op _ :: _ | .keyword _ :: _ | .number _ :: _ | .string _ :: _ | .newline :: _
  | .indent :: _ | .dedent :: _ => simp [callArgument, op, two, one, named]

theorem callArgument_integer (depth : Nat) (h : IsIntegerTokens ts) (hr : EndsExpression rest) :
    (callArgument (phrase (depth + 2))).run (ts ++ rest) = some (.positional, rest) := by
  obtain ⟨e, read⟩ := expression_integer depth h hr
  refine callArgument_run read ?_ ?_
  · rcases h with rfl | rfl <;> simp
  · rcases h with rfl | rfl <;> simp

def argumentTokens (args : List (List Token)) : List Token := intercalate [.op ","] args

theorem IsIntegerTokens.head (h : IsIntegerTokens ts) (rest : List Token)
    (ht : t ≠ .number .integer) (ht' : t ≠ .op "-") : (ts ++ rest).head? ≠ some t := by
  rcases h with rfl | rfl
  · simp [ht.symm]
  · simp [ht'.symm]

theorem argumentTokens_cons (arg : List Token) (args : List (List Token)) :
    ∃ rest, argumentTokens (arg :: args) = arg ++ rest := by
  cases args with
  | nil => exact ⟨[], by simp [argumentTokens]⟩
  | cons arg' args =>
    exact ⟨_, by rw [argumentTokens, intercalate_cons_cons, append_assoc]⟩

theorem items_integers {depth : Nat} (h : ∀ a ∈ arg :: args, IsIntegerTokens a) {fuel : Nat}
    (hf : args.length < fuel) (rest : List Token) :
    (items (callArgument (phrase (depth + 2))) closes fuel).run
        (argumentTokens (arg :: args) ++ .op ")" :: rest) =
      some ((replicate (args.length + 1) .positional, false), .op ")" :: rest) := by
  induction args generalizing arg fuel with
  | nil =>
    obtain ⟨fuel, rfl⟩ := Nat.exists_eq_add_one_of_ne_zero (Nat.ne_of_gt hf)
    have closing : EndsExpression (.op ")" :: rest) := ⟨_, _, rfl, by decide⟩
    have read := callArgument_integer depth (h arg mem_cons_self) closing
    have comma : (accept (.op ",")).run (.op ")" :: rest) = some (false, .op ")" :: rest) :=
      accept_other (by simp)
    simp [items, argumentTokens, op, read, comma]
  | cons arg' args ih =>
    obtain ⟨fuel, rfl⟩ := Nat.exists_eq_add_one_of_ne_zero (Nat.ne_of_gt (Nat.zero_lt_of_lt hf))
    have others := ih (fun a ha => h a (.tail _ ha)) (Nat.lt_of_succ_lt_succ hf)
    obtain ⟨tail, shape⟩ := argumentTokens_cons arg' args
    have first : IsIntegerTokens arg' := h arg' (.tail _ (.head _))
    have split : argumentTokens (arg :: arg' :: args) ++ .op ")" :: rest =
        arg ++ .op "," :: (argumentTokens (arg' :: args) ++ .op ")" :: rest) := by
      rw [argumentTokens, intercalate_cons_cons]
      simp [argumentTokens]
    have comma : EndsExpression (.op "," :: (argumentTokens (arg' :: args) ++ .op ")" :: rest)) :=
      ⟨_, _, rfl, by decide⟩
    have read := callArgument_integer depth (h arg mem_cons_self) comma
    have more : closes.run (argumentTokens (arg' :: args) ++ .op ")" :: rest) =
        some (false, argumentTokens (arg' :: args) ++ .op ")" :: rest) := by
      rw [shape, append_assoc]
      rcases first with rfl | rfl <;> rfl
    rw [split]
    simp [items, op, read, accept_self, more, others]
    rfl

theorem loops_none (hr : EndsExpression rest) : (loops rec).run rest = some (false, rest) := by
  obtain ⟨t, rest, rfl, ht⟩ := hr
  simp only [expressionEnds, mem_cons, not_mem_nil, or_false] at ht
  rcases ht with rfl | rfl | rfl | rfl | rfl <;> rfl

theorem argumentsInOrder_positional (n : Nat) :
    argumentsInOrder (replicate n .positional) = true := by
  simp [argumentsInOrder]

theorem length_argumentTokens (arg : List Token) (args : List (List Token)) :
    args.length ≤ (argumentTokens (arg :: args)).length := by
  induction args generalizing arg with
  | nil => exact Nat.zero_le _
  | cons arg' args ih =>
    have rest := ih arg'
    rw [argumentTokens, intercalate_cons_cons] at *
    simp only [length_append, length_cons, length_nil]
    omega

theorem callArguments_integers (depth : Nat) (h : ∀ a ∈ arg :: args, IsIntegerTokens a)
    (rest : List Token) :
    (callArguments (phrase (depth + 2))).run (argumentTokens (arg :: args) ++ .op ")" :: rest) =
      some (true, rest) := by
  obtain ⟨tail, shape⟩ := argumentTokens_cons arg args
  have first : (accept (.op ")")).run (argumentTokens (arg :: args) ++ .op ")" :: rest) =
      some (false, argumentTokens (arg :: args) ++ .op ")" :: rest) := by
    rw [shape, append_assoc]
    exact accept_other ((h arg mem_cons_self).head _ (by simp) (by simp))
  have fuel : args.length < (argumentTokens (arg :: args) ++ .op ")" :: rest).length + 1 := by
    have := length_argumentTokens arg args
    rw [length_append]
    omega
  have list : (listOf (callArgument (phrase (depth + 2))) closes).run
      (argumentTokens (arg :: args) ++ .op ")" :: rest) =
        some ((replicate (args.length + 1) .positional, false), .op ")" :: rest) :=
    items_integers h fuel rest
  have loop : (loops (phrase (depth + 2))).run (.op ")" :: rest) = some (false, .op ")" :: rest) :=
    loops_none ⟨_, _, rfl, by decide⟩
  have order := argumentsInOrder_positional (args.length + 1)
  have closing : (expect (.op ")")).run (.op ")" :: rest) = some ((), rest) := by
    simp [expect, accept_self]
  simp only [callArguments, op, StateT.run_bind, first, Option.bind_eq_bind, Option.bind_some,
    Bool.false_eq_true, if_false, list, order, if_true]
  split
  · simp [loop, closing]
  · simp [closing]

def callTokens (package module member : String) (args : List (List Token)) : List Token :=
  .name package :: .op "." :: .name module :: .op "." :: .name member :: .op "(" ::
    (argumentTokens args ++ [.op ")"])

theorem primary_call (depth : Nat) (package module member : String)
    (h : ∀ a ∈ arg :: args, IsIntegerTokens a) (hr : EndsExpression rest) :
    ∃ e, (primary (phrase (depth + 2))).run
      (callTokens package module member (arg :: args) ++ rest) = some (e, rest) := by
  have call := callArguments_integers depth h rest
  have dot (e : Expr) (n : String) (ts : List Token) :
      (trailer (phrase (depth + 2)) e).run (.op "." :: .name n :: ts) = some (some .access, ts) := by
    simp [trailer, op, accept_self, name]
  have paren (e : Expr) : (trailer (phrase (depth + 2)) e).run
      (.op "(" :: (argumentTokens (arg :: args) ++ .op ")" :: rest)) =
        some (some (.call e true), rest) := by
    have noDot : (accept (.op ".")).run
        (.op "(" :: (argumentTokens (arg :: args) ++ .op ")" :: rest)) =
          some (false, .op "(" :: (argumentTokens (arg :: args) ++ .op ")" :: rest)) :=
      accept_other (by simp)
    simp [trailer, op, noDot, accept_self, call]
  refine ⟨.call .access true, ?_⟩
  simp [primary, callTokens, atom, trailers, dot, paren, trailer_none hr]

theorem expression_call (package module member : String)
    (h : ∀ a ∈ arg :: args, IsIntegerTokens a) (hr : EndsExpression rest) :
    ∃ e, (anyPhrase .expression).run
      (callTokens package module member (arg :: args) ++ rest) = some (e, rest) := by
  obtain ⟨depth, length⟩ : ∃ depth,
      (callTokens package module member (arg :: args) ++ rest).length = depth + 2 :=
    ⟨_, rfl⟩
  obtain ⟨e, call⟩ := primary_call depth package module member h hr
  have powered := power_run call hr (by simp [callTokens])
  rw [← factor_run (by simp [callTokens])] at powered
  refine ⟨e, ?_⟩
  have whole := expression_run powered hr (by simp [callTokens]) (by simp [callTokens])
  have start : (anyPhrase .expression).run (callTokens package module member (arg :: args) ++ rest) =
      (phrase ((callTokens package module member (arg :: args) ++ rest).length + 1) .expression).run
        (callTokens package module member (arg :: args) ++ rest) := rfl
  rw [start, length]
  exact whole

theorem statements_expression (h : ∃ e, (anyPhrase .expression).run (t :: ts) =
      some (e, [.newline])) (hname : ∃ n, t = .name n) (fuel : Nat) :
    (statements (fuel + 2)).run (t :: ts) = some ((), []) := by
  obtain ⟨e, read⟩ := h
  obtain ⟨n, rfl⟩ := hname
  have no (k : Token) (hk : k ≠ .name n) :
      (accept k).run (.name n :: ts) = some (false, .name n :: ts) :=
    accept_other (by simp [hk.symm])
  have item : (starredOr anyPhrase (anyPhrase .expression)).run (.name n :: ts) =
      some (e, [.newline]) := by
    simp [starredOr, op, no, read]
  have list : (starExpressions anyPhrase expressionsEnd).run (.name n :: ts) =
      some (e, [.newline]) := by
    have comma : (accept (.op ",")).run [.newline] = some (false, [.newline]) := rfl
    simp [starExpressions, listOf, items, item, op, comma]
  have assign : assignment.run (.name n :: ts) = some ((), [.newline]) := by
    have yielded : (comes [.keyword "yield"]).run (.name n :: ts) = some (false, .name n :: ts) := rfl
    have equals : (accept (.op "=")).run [.newline] = some (false, [.newline]) := rfl
    have colon : (accept (.op ":")).run [.newline] = some (false, [.newline]) := rfl
    have update : (oneOf updateOperators).run [.newline] = some (none, [.newline]) := rfl
    simp [assignment, yielded, yieldOrExpressions, word, no, expressions, list, op, equals, colon, update]
  have whole : line.run (.name n :: ts) = some ((), []) := by
    have semicolon : (accept (.op ";")).run [.newline] = some (false, [.newline]) := rfl
    simp [line, simpleStatements, simpleStatement, assign, op, semicolon, expect, accept_self]
  have undecorated : decorators.run (.name n :: ts) = some (false, .name n :: ts) := by
    simp [decorators, many, whileTaken, op, no]
  have rule (depth : Nat) : (statement (depth + 1)).run (.name n :: ts) = some ((), []) := by
    rw [statement, statementRule, StateT.run_bind, undecorated]
    exact whole
  simp [statements, rule]

end TypeStubs.Source
