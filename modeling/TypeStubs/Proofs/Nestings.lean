import TypeStubs.Signature.HintSyntax

/-! Texts in which all brackets and quotes are closed keep their pieces when they are put together. -/

namespace TypeStubs

open List

variable {α β : Type} {c e : Char} {ms : List (Char × Bool)} {ts : List (List Char)} {p : α → Bool}

/-- Marks every character with whether it stands outside. `quote` is the mark that ends the quoted
text at hand, `closers` are the brackets still to come, innermost first. There is no result for a text
that ends inside. -/
def nestingFrom? : (quote : Option Char) → (closers : List Char) → List Char →
    Option (List (Char × Bool))
  | none, [], [] => some []
  | _, _, [] => none
  | some q, closers, c :: cs =>
    (nestingFrom? (if c = q then none else some q) closers cs).map ((c, false) :: ·)
  | none, closers, c :: cs =>
    if isQuote c then (nestingFrom? (some c) closers cs).map ((c, false) :: ·)
    else match closer? c with
      | some e => (nestingFrom? none (e :: closers) cs).map ((c, false) :: ·)
      | none =>
        match closers with
        | [] => (nestingFrom? none [] cs).map ((c, true) :: ·)
        | e :: rest =>
          (nestingFrom? none (if e = c then rest else e :: rest) cs).map ((c, false) :: ·)

def nesting? (cs : List Char) : Option (List (Char × Bool)) := nestingFrom? none [] cs

theorem nestingFrom?_text {quote : Option Char} {closers cs : List Char}
    (h : nestingFrom? quote closers cs = some ms) : ms.map Prod.fst = cs := by
  fun_induction nestingFrom? quote closers cs generalizing ms with
  | case1 | case2 => simp_all
  | case3 | case4 | case5 | case6 | case7 =>
    obtain ⟨rest, hrest, rfl⟩ := Option.map_eq_some_iff.mp h
    simp_all

def cutWhere (p : α → Bool) : List α → List (List α)
  | [] => [[]]
  | x :: xs =>
    if p x then [] :: cutWhere p xs
    else match cutWhere p xs with
      | [] => [[x]]
      | piece :: pieces => (x :: piece) :: pieces

theorem cutWhere_ne_nil (p : α → Bool) (xs : List α) : cutWhere p xs ≠ [] := by
  cases xs with
  | nil => exact cons_ne_nil _ _
  | cons x xs =>
    rw [cutWhere]
    split
    · exact cons_ne_nil _ _
    · split <;> exact cons_ne_nil _ _

theorem cutWhere_cons_of_neg {x : α} (hx : p x = false) (xs : List α) :
    cutWhere p (x :: xs) = (cutWhere p xs).modifyHead (x :: ·) := by
  rw [cutWhere, hx, if_neg Bool.false_ne_true]
  cases rest : cutWhere p xs with
  | nil => exact absurd rest (cutWhere_ne_nil p xs)
  | cons piece pieces => rfl

theorem nestingFrom?_quote (hc : isQuote c = true) (closers cs : List Char) :
    nestingFrom? none closers (c :: cs) =
      (nestingFrom? (some c) closers cs).map ((c, false) :: ·) := by
  cases closers <;> simp [nestingFrom?, hc]

theorem nestingFrom?_opening (hq : isQuote c = false) (hc : closer? c = some e)
    (closers cs : List Char) : nestingFrom? none closers (c :: cs) =
      (nestingFrom? none (e :: closers) cs).map ((c, false) :: ·) := by
  cases closers <;> simp [nestingFrom?, hq, hc]

/-! A loop over the characters follows the marks. -/

/-- How many characters are the rest of a quoted text, with the mark that ends it. -/
def quoted : Option Char → List Char → Nat
  | none, _ => 0
  | some q, cs => cs.findIdx (· == q) + 1

theorem nestingFrom?_unclosed {q : Char} {cs : List Char} (h : q ∉ cs) (closers : List Char) :
    nestingFrom? (some q) closers cs = none := by
  induction cs with
  | nil => cases closers <;> rfl
  | cons c cs ih =>
    rw [mem_cons, not_or] at h
    rw [nestingFrom?, if_neg (Ne.symm h.1), ih h.2]
    rfl

theorem quoteLength?_eq (q : Char) (cs : List Char) :
    quoteLength? q cs = if q ∈ cs then some (quoted (some q) cs) else none := by
  rw [quoteLength?, findIdx?_eq_guard_findIdx_lt, Option.guard_apply]
  by_cases hin : q ∈ cs <;> simp [findIdx_lt_length, hin, quoted]

/-- A loop passes over quoted texts, keeps the brackets still to come and pushes every character to a
state. Behind its state it reads what is read from the marks. -/
structure Scans (loop : List Char → α → Nat → List Char → Option β) (push : α → Char → α)
    (read : α → List (Char × Bool) → β) : Prop where
  ended : ∀ closers s, loop closers s 0 [] = if closers = [] then some (read s []) else none
  skipped : ∀ closers s n c cs, loop closers s (n + 1) (c :: cs) = loop closers (push s c) n cs
  quote : ∀ closers s c cs, isQuote c = true →
    loop closers s 0 (c :: cs) = (quoteLength? c cs).bind fun n => loop closers (push s c) n cs
  opening : ∀ closers s c e cs, isQuote c = false → closer? c = some e →
    loop closers s 0 (c :: cs) = loop (e :: closers) (push s c) 0 cs
  closing : ∀ e rest s c cs, isQuote c = false → closer? c = none →
    loop (e :: rest) s 0 (c :: cs) = loop (if e = c then rest else e :: rest) (push s c) 0 cs
  inside : ∀ s c ms, read s ((c, false) :: ms) = read (push s c) ms
  outside : ∀ s c cs, isQuote c = false → closer? c = none →
    (∀ s, loop [] s 0 cs = (nesting? cs).map (read s)) →
    loop [] s 0 (c :: cs) = (nesting? cs).map fun ms => read s ((c, true) :: ms)

section

variable {loop : List Char → α → Nat → List Char → Option β} {push : α → Char → α}
  {read : α → List (Char × Bool) → β} (h : Scans loop push read)
include h

theorem Scans.eq_nestingFrom? (cs : List Char)
    (quote : Option Char) (closers : List Char) (s : α) (ends : ∀ q ∈ quote, q ∈ cs) :
    loop closers s (quoted quote cs) cs = (nestingFrom? quote closers cs).map (read s) := by
  induction cs generalizing quote closers s with
  | nil =>
    cases quote with
    | some q => cases ends q rfl
    | none => cases closers <;> simp [quoted, h.ended, nestingFrom?]
  | cons c cs ih =>
    have plain (closers : List Char) (s : α) : loop closers s 0 cs =
        (nestingFrom? none closers cs).map (read s) := ih none closers s (by simp)
    cases quote with
    | some q =>
      by_cases same : c = q
      · simp [h.skipped, h.inside, quoted, nestingFrom?, findIdx_cons, same, plain, Function.comp_def]
      · have rest := ih (some q) closers (push s c) fun x hx =>
          (mem_cons.mp (ends x hx)).resolve_left fun eq => same (by cases hx; exact eq.symm)
        simpa [h.skipped, h.inside, quoted, nestingFrom?, findIdx_cons, beq_false_of_ne same, same,
          Function.comp_def] using rest
    | none =>
      cases hq : isQuote c with
      | true =>
        rw [quoted, h.quote closers s c cs hq, nestingFrom?_quote hq, quoteLength?_eq]
        by_cases later : c ∈ cs
        · simp [later, ih (some c) closers (push s c), h.inside, Function.comp_def]
        · simp [later, nestingFrom?_unclosed]
      | false =>
        cases hc : closer? c with
        | some e =>
          simp [quoted, h.opening closers s c e cs hq hc, nestingFrom?_opening hq hc, plain, h.inside,
            Function.comp_def]
        | none =>
          cases closers with
          | cons e rest =>
            simp [quoted, h.closing e rest s c cs hq hc, nestingFrom?, hq, hc, plain, h.inside,
              Function.comp_def]
          | nil =>
            simpa [quoted, nestingFrom?, nesting?, hq, hc, Function.comp_def] using
              h.outside s c cs hq hc (plain [])

theorem Scans.eq (cs : List Char) (s : α) : loop [] s 0 cs = (nesting? cs).map (read s) :=
  h.eq_nestingFrom? cs none [] s (by simp)

end

theorem modifyHead_same (xs : List α) : xs.modifyHead (fun x => x) = xs := by
  cases xs <;> rfl

theorem scans_piecesFrom? (d : Char) : Scans (piecesFrom? d) (fun piece c => piece ++ [c])
    fun piece ms =>
      ((cutWhere (fun m => m.2 && m.1 == d) ms).map (·.map Prod.fst)).modifyHead (piece ++ ·) where
  ended closers piece := by cases closers <;> simp [piecesFrom?, cutWhere]
  skipped _ _ _ _ _ := rfl
  quote _ _ _ _ hq := by simp [piecesFrom?, hq]
  opening _ _ _ _ _ hq hc := by simp [piecesFrom?, hq, hc]
  closing _ _ _ _ _ hq hc := by simp [piecesFrom?, hq, hc]
  inside piece c ms := by
    rw [cutWhere_cons_of_neg rfl]
    cases cutWhere (fun m : Char × Bool => m.2 && m.1 == d) ms <;> simp
  outside piece c cs hq hc rest := by
    by_cases delimiter : c = d
    · subst delimiter
      simp [piecesFrom?, hq, hc, rest, modifyHead_same, cutWhere, Function.comp_def]
    · simp only [piecesFrom?, hq, hc, delimiter, rest, if_false, Bool.false_eq_true]
      refine congrArg (Option.map · _) (funext fun ms => ?_)
      rw [cutWhere_cons_of_neg (by simp [delimiter])]
      cases cutWhere (fun m : Char × Bool => m.2 && m.1 == d) ms <;> simp

theorem pieces?_eq (d : Char) (cs : List Char) : pieces? d cs =
    (nesting? cs).map fun ms => (cutWhere (fun m => m.2 && m.1 == d) ms).map (·.map Prod.fst) := by
  rw [pieces?, (scans_piecesFrom? d).eq]
  simp [modifyHead_same]

/-- All brackets and quotes of a text are closed, and none of some characters stands outside of
them. -/
def Closed (avoided cs : List Char) : Prop :=
  ∃ ms, nesting? cs = some ms ∧ ∀ c, (c, true) ∈ ms → c ∉ avoided

theorem closed_iff {avoided cs : List Char} : Closed avoided cs ↔
    (nesting? cs).any (·.all fun m => !(m.2 && avoided.contains m.1)) = true := by
  cases h : nesting? cs with
  | none => simp [Closed, h]
  | some ms => simp [Closed, h]

instance (avoided cs : List Char) : Decidable (Closed avoided cs) := decidable_of_iff' _ closed_iff

theorem Closed.mono {avoided avoided' cs : List Char} (h : Closed avoided cs)
    (hsub : avoided' ⊆ avoided) : Closed avoided' cs := by
  obtain ⟨ms, hms, outside⟩ := h
  exact ⟨ms, hms, fun c hc hin => outside c hc (hsub hin)⟩

theorem nestingFrom?_append {quote : Option Char} {closers a : List Char}
    (h : nestingFrom? quote closers a = some ms) (b : List Char) :
    nestingFrom? quote closers (a ++ b) = (nesting? b).map (ms ++ ·) := by
  fun_induction nestingFrom? quote closers a generalizing ms with
  | case1 =>
    cases h
    simp [nesting?]
  | case2 => cases h
  | case3 | case4 | case5 | case6 | case7 =>
    obtain ⟨rest, hrest, rfl⟩ := Option.map_eq_some_iff.mp h
    simp_all [nestingFrom?, nestingFrom?_quote, nestingFrom?_opening, Function.comp_def]

theorem nestingFrom?_append_within {quote : Option Char} {closers a : List Char}
    (h : nestingFrom? quote closers a = some ms) (he : ∀ c, (c, true) ∈ ms → c ≠ e)
    (outer b : List Char) :
    nestingFrom? quote (closers ++ e :: outer) (a ++ b) =
      (nestingFrom? none (e :: outer) b).map (a.map (·, false) ++ ·) := by
  fun_induction nestingFrom? quote closers a generalizing ms with
  | case1 =>
    cases h
    simp
  | case2 => cases h
  | case3 q closers c cs ih | case4 closers c cs hq ih | case5 closers c cs hq e' hc ih =>
    obtain ⟨rest, hrest, rfl⟩ := Option.map_eq_some_iff.mp h
    have inner := ih hrest fun c hc => he c (.tail _ hc)
    simp_all [nestingFrom?, nestingFrom?_quote, nestingFrom?_opening, Function.comp_def]
  | case6 c cs hq hc ih =>
    obtain ⟨rest, hrest, rfl⟩ := Option.map_eq_some_iff.mp h
    have inner := ih hrest fun c hc => he c (.tail _ hc)
    have differs : e ≠ c := fun h => he c mem_cons_self h.symm
    simp_all [nestingFrom?, Function.comp_def]
  | case7 c cs hq hc e' rest ih =>
    obtain ⟨rest, hrest, rfl⟩ := Option.map_eq_some_iff.mp h
    have inner := ih hrest fun c hc => he c (.tail _ hc)
    by_cases hec : e' = c
    · simp_all [nestingFrom?, Function.comp_def]
    · simp_all [nestingFrom?, Function.comp_def]

namespace Closed

variable {avoided a b cs : List Char}

protected theorem nil (avoided : List Char) : Closed avoided [] := ⟨[], rfl, nofun⟩

protected theorem append (ha : Closed avoided a) (hb : Closed avoided b) :
    Closed avoided (a ++ b) := by
  obtain ⟨ms, hms, outside⟩ := ha
  obtain ⟨ns, hns, outside'⟩ := hb
  refine ⟨ms ++ ns, ?_, fun c hc => (mem_append.mp hc).elim (outside c) (outside' c)⟩
  rw [nesting?, nestingFrom?_append hms, hns, Option.map_some]

protected theorem cons (hq : isQuote c = false) (hc : closer? c = none) (hav : c ∉ avoided)
    (h : Closed avoided cs) : Closed avoided (c :: cs) := by
  obtain ⟨ms, hms, outside⟩ := h
  refine ⟨(c, true) :: ms, ?_, fun d hd => ?_⟩
  · rw [nesting?] at hms ⊢
    simp [nestingFrom?, hq, hc, hms]
  · rcases mem_cons.mp hd with h | hd
    · cases h
      exact hav
    · exact outside d hd

theorem of_plain (h : ∀ c ∈ cs, isQuote c = false ∧ closer? c = none ∧ c ∉ avoided) :
    Closed avoided cs := by
  induction cs with
  | nil => exact .nil avoided
  | cons c cs ih =>
    obtain ⟨hq, hc, hav⟩ := h c mem_cons_self
    exact .cons hq hc hav (ih fun c hc => h c (.tail _ hc))

theorem enclosed {o : Char} (hq : isQuote o = false) (ho : closer? o = some e)
    (hqe : isQuote e = false) (he : closer? e = none) (h : Closed [e] cs) (avoided : List Char) :
    Closed avoided (o :: cs ++ [e]) := by
  obtain ⟨ms, hms, outside⟩ := h
  have differs : ∀ c, (c, true) ∈ ms → c ≠ e := fun c hc h => outside c hc (h ▸ mem_cons_self)
  have within := nestingFrom?_append_within hms differs [] [e]
  rw [nil_append] at within
  refine ⟨(o, false) :: (cs.map (·, false) ++ [(e, false)]), ?_, fun c hc => ?_⟩
  · rw [nesting?, cons_append, nestingFrom?_opening hq ho, within]
    simp [nestingFrom?, hqe, he]
  · simp at hc

theorem bracketed (h : Closed [']'] cs) (avoided : List Char) :
    Closed avoided ('[' :: cs ++ [']']) := enclosed rfl rfl rfl rfl h avoided

end Closed

theorem closed_intercalate {avoided separator : List Char} (hs : Closed avoided separator)
    (h : ∀ t ∈ ts, Closed avoided t) : Closed avoided (intercalate separator ts) := by
  induction ts with
  | nil => exact .nil avoided
  | cons t ts ih =>
    cases ts with
    | nil =>
      rw [intercalate_singleton]
      exact h t mem_cons_self
    | cons t' ts =>
      rw [intercalate_cons_cons]
      exact ((h t mem_cons_self).append hs).append (ih fun x hx => h x (.tail _ hx))

theorem cutWhere_of_all_false {xs : List α} (h : ∀ x ∈ xs, p x = false) :
    cutWhere p xs = [xs] := by
  induction xs with
  | nil => rfl
  | cons x xs ih =>
    simp [cutWhere, h x mem_cons_self, ih fun y hy => h y (.tail _ hy)]

theorem cutWhere_append {xs : List α} (h : ∀ x ∈ xs, p x = false) {d : α}
    (hd : p d = true) (ys : List α) : cutWhere p (xs ++ d :: ys) = xs :: cutWhere p ys := by
  induction xs with
  | nil => simp [cutWhere, hd]
  | cons x xs ih =>
    simp [cutWhere, h x mem_cons_self, ih fun y hy => h y (.tail _ hy)]

section

variable {d : Char} {a b cs : List Char}

theorem Closed.no_delimiter (outside : ∀ c, (c, true) ∈ ms → c ∉ [d]) (m : Char × Bool)
    (hm : m ∈ ms) : (m.2 && m.1 == d) = false := by
  obtain ⟨c, out⟩ := m
  cases out with
  | false => rfl
  | true =>
    have differs := outside c hm
    simpa using differs

theorem Closed.pieces? (h : Closed [d] cs) : TypeStubs.pieces? d cs = some [cs] := by
  obtain ⟨ms, hms, outside⟩ := h
  rw [pieces?_eq, hms, Option.map_some, cutWhere_of_all_false (Closed.no_delimiter outside),
    map_singleton, nestingFrom?_text hms]

theorem Closed.pieces?_append (h : Closed [d] a) (hq : isQuote d = false) (hc : closer? d = none)
    (b : List Char) :
    TypeStubs.pieces? d (a ++ d :: b) = (TypeStubs.pieces? d b).map (a :: ·) := by
  obtain ⟨ms, hms, outside⟩ := h
  have rest : nesting? (d :: b) = (nesting? b).map ((d, true) :: ·) := by
    simp [nesting?, nestingFrom?, hq, hc]
  rw [pieces?_eq, nesting?, nestingFrom?_append hms, rest]
  cases hb : nesting? b with
  | none => simp [pieces?_eq, hb]
  | some ns =>
    simp only [Option.map_some, pieces?_eq, hb,
      cutWhere_append (Closed.no_delimiter outside) (d := (d, true)) (by simp), map_cons,
      nestingFrom?_text hms]

/-- The pieces of texts that are put together with a delimiter between neighbours: `before` and
`after` stand around every delimiter, and `front` stands before the first text. -/
def padded (before after : List Char) : (front : List Char) → List (List Char) → List (List Char)
  | _, [] => []
  | front, [t] => [front ++ t]
  | front, t :: t' :: ts => (front ++ t ++ before) :: padded before after after (t' :: ts)

theorem pieces?_intercalate (hq : isQuote d = false) (hc : closer? d = none)
    {before after front : List Char} (hb : Closed [d] before) (ha : Closed [d] after)
    (hf : Closed [d] front) {t : List Char} (h : ∀ x ∈ t :: ts, Closed [d] x) :
    pieces? d (front ++ intercalate (before ++ d :: after) (t :: ts)) =
      some (padded before after front (t :: ts)) := by
  induction ts generalizing t front with
  | nil =>
    rw [intercalate_singleton, padded]
    exact (hf.append (h t mem_cons_self)).pieces?
  | cons t' ts ih =>
    have first := (hf.append (h t mem_cons_self)).append hb
    have rest := ih ha fun x hx => h x (.tail _ hx)
    rw [intercalate_cons_cons]
    have shape : front ++ (t ++ (before ++ d :: after) ++
        intercalate (before ++ d :: after) (t' :: ts)) =
        (front ++ t ++ before) ++ d :: (after ++
          intercalate (before ++ d :: after) (t' :: ts)) := by simp
    rw [shape, first.pieces?_append hq hc, rest, Option.map_some, padded]

end

/-! Blanks around a text. -/

theorem trim_cons_blank (hc : isBlank c = true) (cs : List Char) : trim (c :: cs) = trim cs := by
  rw [trim, trim, trimStart, dropWhile_cons, if_pos hc, trimStart]

theorem trimEnd_append_blank (hc : isBlank c = true) (cs : List Char) :
    trimEnd (cs ++ [c]) = trimEnd cs := by
  simp [trimEnd, hc]

theorem trim_append_blank (hc : isBlank c = true) (cs : List Char) :
    trim (cs ++ [c]) = trim cs := by
  induction cs with
  | nil => exact trim_cons_blank hc []
  | cons d cs ih =>
    by_cases hd : isBlank d = true
    · rw [cons_append, trim_cons_blank hd, trim_cons_blank hd, ih]
    · have start (xs : List Char) : trimStart (d :: xs) = d :: xs := by
        rw [trimStart, dropWhile_cons, if_neg hd]
      rw [cons_append, trim, trim, start, start, ← cons_append, trimEnd_append_blank hc]

theorem trim_eq_self {cs : List Char} (hfirst : ∀ c ∈ cs.head?, isBlank c = false)
    (hlast : ∀ c ∈ cs.getLast?, isBlank c = false) : trim cs = cs := by
  have drop (xs : List Char) (h : ∀ c ∈ xs.head?, isBlank c = false) :
      xs.dropWhile isBlank = xs := by
    cases xs with
    | nil => rfl
    | cons c xs => rw [dropWhile_cons, h c rfl, if_neg Bool.false_ne_true]
  rw [trim, trimStart, drop cs hfirst, trimEnd, drop _ (by simpa using hlast), reverse_reverse]

/-! The structure of texts. -/

theorem HintSyntax.ofText_eq (cs : List Char) : HintSyntax.ofText cs =
    match pieces? '|' cs with
    | some [piece] => .single (TypeSyntax.ofText piece)
    | some (first :: second :: rest) => .union ((first :: second :: rest).map TypeSyntax.ofText)
    | _ => .malformed cs := by
  rw [HintSyntax.ofText]
  split <;> simp_all

theorem TypeSyntax.ofText_eq (cs : List Char) : TypeSyntax.ofText cs =
    match trim (cutName (trim cs)).2 with
    | [] => .named (nameOfText (cutName (trim cs)).1) none
    | rest =>
      match (bracketed? rest).bind (pieces? ',') with
      | none => .value (trim cs)
      | some ps => .named (nameOfText (cutName (trim cs)).1) (some (ps.map HintSyntax.ofText)) := by
  rw [TypeSyntax.ofText]
  split
  · simp_all
  · split
    · simp_all
    · split <;> simp_all

theorem TypeSyntax.ofText_eq_value {cs text : List Char} (h : TypeSyntax.ofText cs = .value text) :
    text = trim cs := by
  rw [TypeSyntax.ofText_eq] at h
  split at h
  · cases h
  · split at h
    · injection h with same
      exact same.symm
    · cases h

theorem TypeSyntax.ofText_congr {a b : List Char} (h : trim a = trim b) :
    TypeSyntax.ofText a = TypeSyntax.ofText b := by
  rw [TypeSyntax.ofText_eq, TypeSyntax.ofText_eq, h]

theorem TypeSyntax.ofText_space (cs : List Char) :
    TypeSyntax.ofText (' ' :: cs) = TypeSyntax.ofText cs :=
  TypeSyntax.ofText_congr (trim_cons_blank rfl cs)

theorem TypeSyntax.ofText_append_space (cs : List Char) :
    TypeSyntax.ofText (cs ++ [' ']) = TypeSyntax.ofText cs :=
  TypeSyntax.ofText_congr (trim_append_blank rfl cs)

theorem intercalate_cons_head (separator : List α) (x : α) (piece : List α)
    (pieces : List (List α)) : intercalate separator ((x :: piece) :: pieces) =
      x :: intercalate separator (piece :: pieces) := by
  cases pieces with
  | nil => simp only [intercalate_singleton]
  | cons next pieces => simp only [intercalate_cons_cons, cons_append]

theorem intercalate_cutWhere {β : Type} {f : α → β} {y : β}
    (h : ∀ x, p x = true → f x = y) (xs : List α) :
    intercalate [y] ((cutWhere p xs).map (map f)) = xs.map f := by
  induction xs with
  | nil => rfl
  | cons x xs ih =>
    obtain ⟨piece, pieces, cut⟩ := exists_cons_of_ne_nil (cutWhere_ne_nil p xs)
    rw [cut, map_cons] at ih
    rw [cutWhere, cut]
    split
    · rename_i delimiter
      rw [map_cons, map_cons, map_nil, intercalate_cons_cons, ih, map_cons, h x delimiter]
      rfl
    · rw [map_cons, map_cons, intercalate_cons_head, ih, map_cons]

theorem pieces?_space {d : Char} (hd : d ≠ ' ') (cs : List Char) :
    pieces? d (' ' :: cs) = (pieces? d cs).map fun ps => (' ' :: ps.headD []) :: ps.tail := by
  have space : nesting? (' ' :: cs) = (nesting? cs).map ((' ', true) :: ·) := by
    simp [nesting?, nestingFrom?, isQuote, closer?]
  cases hcs : nesting? cs with
  | none => simp [pieces?_eq, space, hcs]
  | some ms =>
    have outside : (true && ' ' == d) = false := by simp [hd.symm]
    cases hm : cutWhere (fun m : Char × Bool => m.2 && m.1 == d) ms with
    | nil => exact absurd hm (cutWhere_ne_nil _ _)
    | cons first rest =>
      simp only [pieces?_eq, space, hcs, Option.map_some, cutWhere, hm, outside, Bool.false_eq_true,
        if_false, map_cons, headD_cons, tail_cons]

/-- A space before the text of a hint does not matter, if all brackets and quotes are closed. -/
theorem HintSyntax.ofText_space {cs : List Char} (h : (nesting? cs).isSome) :
    HintSyntax.ofText (' ' :: cs) = HintSyntax.ofText cs := by
  rw [HintSyntax.ofText_eq, HintSyntax.ofText_eq, pieces?_space (by decide)]
  obtain ⟨ms, hms⟩ := Option.isSome_iff_exists.mp h
  rw [pieces?_eq, hms, Option.map_some, Option.map_some]
  match cutWhere (fun m : Char × Bool => m.2 && m.1 == '|') ms, cutWhere_ne_nil _ ms with
  | [first], _ => simp [TypeSyntax.ofText_space]
  | first :: second :: rest, _ => simp [TypeSyntax.ofText_space]

theorem HintSyntax.ofText_of_closed {cs : List Char} (h : Closed ['|'] cs) :
    HintSyntax.ofText cs = .single (TypeSyntax.ofText cs) := by
  rw [HintSyntax.ofText_eq, h.pieces?]

theorem map_padded {β : Type} {f : List Char → β} {before after front : List Char}
    (h : ∀ x ∈ ts, ∀ l ∈ [front, after], ∀ r ∈ [[], before], f (l ++ x ++ r) = f x) :
    (padded before after front ts).map f = ts.map f := by
  induction ts generalizing front with
  | nil => rfl
  | cons t ts ih =>
    have rest : (padded before after after ts).map f = ts.map f := by
      refine ih fun x hx l hl r hr => h x (.tail _ hx) l ?_ r hr
      simp only [mem_cons, not_mem_nil, or_false, or_self] at hl ⊢
      exact .inr hl
    cases ts with
    | nil => simpa [padded] using h t mem_cons_self front mem_cons_self [] mem_cons_self
    | cons t' ts =>
      have first := h t mem_cons_self front mem_cons_self before (.tail _ (.head _))
      rw [padded, map_cons, rest, first]
      rfl

theorem HintSyntax.ofText_of_pieces {cs : List Char} {ps : List (List Char)}
    (h : pieces? '|' cs = some ps) (hlen : 2 ≤ ps.length) :
    HintSyntax.ofText cs = .union (ps.map TypeSyntax.ofText) := by
  rw [HintSyntax.ofText_eq, h]
  match ps, hlen with
  | _ :: _ :: _, _ => rfl

theorem HintSyntax.ofText_bars (hlen : 2 ≤ ts.length) (h : ∀ x ∈ ts, Closed ['|'] x) :
    HintSyntax.ofText (intercalate " | ".toList ts) = .union (ts.map TypeSyntax.ofText) := by
  have space : Closed ['|'] [' '] := .of_plain (forall_of_all (by decide))
  have same : (padded [' '] [' '] [] ts).map TypeSyntax.ofText = ts.map TypeSyntax.ofText := by
    refine map_padded fun x _ l hl r hr => ?_
    simp only [mem_cons, not_mem_nil, or_false] at hl hr
    rcases hl with rfl | rfl <;> rcases hr with rfl | rfl <;>
      simp [TypeSyntax.ofText_space, TypeSyntax.ofText_append_space]
  have length : (padded [' '] [' '] [] ts).length = ts.length := by
    simpa using congrArg length same
  match ts, hlen with
  | t :: ts, hlen =>
    have pieces := pieces?_intercalate (d := '|') rfl rfl space space (.nil _) h
    exact (HintSyntax.ofText_of_pieces pieces (by omega)).trans (congrArg HintSyntax.union same)

theorem pieces?_commas {t : List Char} (h : ∀ x ∈ t :: ts, Closed [','] x) :
    ∃ ps, pieces? ',' (intercalate ", ".toList (t :: ts)) = some ps ∧
      ps.map HintSyntax.ofText = (t :: ts).map HintSyntax.ofText := by
  have space : Closed [','] [' '] := .of_plain (forall_of_all (by decide))
  have pieces := pieces?_intercalate (d := ',') rfl rfl (.nil _) space (.nil _) h
  refine ⟨padded [] [' '] [] (t :: ts), pieces, map_padded fun x hx l hl r hr => ?_⟩
  obtain ⟨ms, hms, -⟩ := h x hx
  simp only [mem_cons, not_mem_nil, or_false, or_self] at hl hr
  subst hr
  rcases hl with rfl | rfl
  · simp
  · simp [HintSyntax.ofText_space (Option.isSome_iff_exists.mpr ⟨ms, hms⟩)]

end TypeStubs
