import TypeStubs.Proofs.Nestings

/-! The pieces that a closed text is cut into are closed, and so is what is left without the blanks at
its ends. -/

namespace TypeStubs

open List Option

variable {quote : Option Char} {closers : List Char} {ms : List (Char × Bool)} {c : Char}

theorem first_where {α : Type} (p : α → Bool) (xs : List α) :
    (∀ x ∈ xs, p x = false) ∨ ∃ as d bs, xs = as ++ d :: bs ∧ p d = true ∧
      ∀ a ∈ as, p a = false := by
  induction xs with
  | nil => exact .inl nofun
  | cons x xs ih =>
    cases hx : p x with
    | true => exact .inr ⟨[], x, xs, rfl, hx, nofun⟩
    | false =>
      rcases ih with whole | ⟨as, d, bs, rfl, hd, has⟩
      · exact .inl (forall_mem_cons.mpr ⟨hx, whole⟩)
      · exact .inr ⟨x :: as, d, bs, rfl, hd, forall_mem_cons.mpr ⟨hx, has⟩⟩

/-- What one character does to the mark that ends the quoted text at hand and to the brackets still
to come, and whether it stands outside. -/
def nestingStep (quote : Option Char) (closers : List Char) (c : Char) :
    Option Char × List Char × Bool :=
  match quote with
  | some q => (if c = q then none else some q, closers, false)
  | none =>
    if isQuote c then (some c, closers, false)
    else match closer? c with
      | some e => (none, e :: closers, false)
      | none =>
        match closers with
        | [] => (none, [], true)
        | e :: rest => (none, if e = c then rest else e :: rest, false)

theorem nestingFrom?_cons (quote : Option Char) (closers : List Char) (c : Char) (cs : List Char) :
    nestingFrom? quote closers (c :: cs) =
      (nestingFrom? (nestingStep quote closers c).1 (nestingStep quote closers c).2.1 cs).map
        ((c, (nestingStep quote closers c).2.2) :: ·) := by
  match quote, closers with
  | some q, closers => simp [nestingFrom?, nestingStep]
  | none, [] =>
    simp only [nestingFrom?, nestingStep]
    split
    · rfl
    · cases closer? c with
      | none => rfl
      | some e => rfl
  | none, e :: rest =>
    simp only [nestingFrom?, nestingStep]
    split
    · rfl
    · cases closer? c with
      | none => rfl
      | some e => rfl

theorem nestingFrom?_nil :
    nestingFrom? quote closers [] = some ms ↔ quote = none ∧ closers = [] ∧ ms = [] := by
  match quote, closers with
  | some q, closers => simp [nestingFrom?]
  | none, [] => simp [nestingFrom?, eq_comm]
  | none, e :: rest => simp [nestingFrom?]

theorem nestingStep_outside (h : (nestingStep quote closers c).2.2 = true) :
    quote = none ∧ closers = [] ∧ isQuote c = false ∧ closer? c = none := by
  unfold nestingStep at h
  split at h
  · cases h
  · split at h
    · cases h
    · split at h
      · cases h
      · split at h
        · rename_i hq _ hc _
          exact ⟨rfl, rfl, by simpa using hq, hc⟩
        · cases h

theorem nestingFrom?_split {cs : List Char} {d : Char} {ns : List (Char × Bool)}
    (h : nestingFrom? quote closers cs = some (ms ++ (d, true) :: ns)) :
    nestingFrom? quote closers (ms.map Prod.fst) = some ms ∧ nesting? (ns.map Prod.fst) = some ns := by
  induction ms generalizing quote closers cs with
  | nil =>
    match cs with
    | [] => simp [nestingFrom?_nil] at h
    | c :: cs =>
      rw [nestingFrom?_cons] at h
      obtain ⟨rest, hrest, hms⟩ := map_eq_some_iff.mp h
      simp only [nil_append, List.cons.injEq, Prod.mk.injEq] at hms
      obtain ⟨⟨rfl, outside⟩, rfl⟩ := hms
      obtain ⟨rfl, rfl, hq, hc⟩ := nestingStep_outside outside
      refine ⟨rfl, ?_⟩
      simp only [nestingStep, hq, hc, Bool.false_eq_true, if_false] at hrest
      rw [nestingFrom?_text hrest]
      exact hrest
  | cons m ms ih =>
    match cs with
    | [] => simp [nestingFrom?_nil] at h
    | c :: cs =>
      rw [nestingFrom?_cons] at h
      obtain ⟨rest, hrest, hms⟩ := map_eq_some_iff.mp h
      simp only [cons_append, List.cons.injEq] at hms
      obtain ⟨rfl, rfl⟩ := hms
      obtain ⟨front, back⟩ := ih hrest
      exact ⟨by rw [map_cons, nestingFrom?_cons, front, map_some], back⟩

section

variable {d : Char} {avoided cs : List Char} {piece : List (Char × Bool)}

theorem nesting?_of_mem_cutWhere (h : nesting? (ms.map Prod.fst) = some ms)
    (hp : piece ∈ cutWhere (fun m => m.2 && m.1 == d) ms) :
    nesting? (piece.map Prod.fst) = some piece ∧ piece <+ ms ∧
      ∀ m ∈ piece, (m.2 && m.1 == d) = false := by
  induction hn : ms.length using Nat.strongRecOn generalizing ms with
  | ind n ih =>
    rcases first_where (fun m : Char × Bool => m.2 && m.1 == d) ms with
      whole | ⟨as, ⟨c, mark⟩, bs, rfl, hd, has⟩
    · rw [cutWhere_of_all_false whole, mem_singleton] at hp
      subst hp
      exact ⟨h, .refl _, whole⟩
    · obtain ⟨rfl, hc⟩ := Bool.and_eq_true_iff.mp hd
      obtain ⟨front, back⟩ := nestingFrom?_split h
      rw [cutWhere_append has hd] at hp
      rcases mem_cons.mp hp with rfl | hp
      · exact ⟨front, sublist_append_left _ _, has⟩
      · obtain ⟨marks, sub, none⟩ := ih bs.length (by simp [← hn]; omega) back hp rfl
        exact ⟨marks, sub.trans ((sublist_cons_self _ _).trans (sublist_append_right _ _)), none⟩

theorem closed_of_mem_cutWhere (h : nesting? (ms.map Prod.fst) = some ms)
    (outside : ∀ c, (c, true) ∈ ms → c ∉ avoided)
    (hp : piece ∈ cutWhere (fun m => m.2 && m.1 == d) ms) :
    Closed (d :: avoided) (piece.map Prod.fst) := by
  obtain ⟨marks, sub, none⟩ := nesting?_of_mem_cutWhere h hp
  refine ⟨piece, marks, fun c hc hin => ?_⟩
  rcases mem_cons.mp hin with rfl | hin
  · simpa using none (c, true) hc
  · exact outside c (sub.subset hc) hin

theorem Closed.of_mem_pieces? (h : Closed avoided cs) {ps : List (List Char)}
    (hps : TypeStubs.pieces? d cs = some ps) {piece : List Char} (hp : piece ∈ ps) :
    Closed (d :: avoided) piece := by
  obtain ⟨ms, hms, outside⟩ := h
  rw [pieces?_eq, hms, map_some, some.injEq] at hps
  subst hps
  obtain ⟨marked, hm, rfl⟩ := mem_map.mp hp
  exact closed_of_mem_cutWhere (by rw [nestingFrom?_text hms]; exact hms) outside hm

end

theorem nestingFrom?_concat (hq : isQuote c = false) (hc : closer? c = none)
    (hclose : ∀ o, closer? o ≠ some c) {cs : List Char} (hquote : quote ≠ some c)
    (hclosers : c ∉ closers) (h : nestingFrom? quote closers (cs ++ [c]) = some ms) :
    ∃ ns, nestingFrom? quote closers cs = some ns ∧ ms = ns ++ [(c, true)] := by
  induction cs generalizing quote closers ms with
  | nil =>
    rw [nil_append, nestingFrom?_cons] at h
    obtain ⟨rest, hrest, rfl⟩ := map_eq_some_iff.mp h
    obtain ⟨ends, closed, rfl⟩ := nestingFrom?_nil.mp hrest
    match quote, closers with
    | some q, closers =>
      have differs : c ≠ q := fun h => hquote (h ▸ rfl)
      simp [nestingStep, differs] at ends
    | none, [] => exact ⟨[], rfl, by simp [nestingStep, hq, hc]⟩
    | none, e :: closers =>
      have differs : e ≠ c := fun h => hclosers (h ▸ mem_cons_self)
      simp [nestingStep, hq, hc, differs] at closed
  | cons x cs ih =>
    rw [cons_append, nestingFrom?_cons] at h
    obtain ⟨rest, hrest, rfl⟩ := map_eq_some_iff.mp h
    have kept : (nestingStep quote closers x).1 ≠ some c ∧
        c ∉ (nestingStep quote closers x).2.1 := by
      unfold nestingStep
      split
      · rename_i q
        exact ⟨by split <;> simp_all, hclosers⟩
      · split
        · rename_i hx
          exact ⟨fun h => by cases h; simp [hq] at hx, hclosers⟩
        · split
          · rename_i e he
            have differs : c ≠ e := fun h => hclose x (h ▸ he)
            exact ⟨nofun, fun h => (mem_cons.mp h).elim differs hclosers⟩
          · split
            · exact ⟨nofun, hclosers⟩
            · refine ⟨nofun, ?_⟩
              split
              · exact fun h => hclosers (.tail _ h)
              · exact hclosers
    obtain ⟨ns, hns, rfl⟩ := ih kept.1 kept.2 hrest
    exact ⟨_ :: ns, by rw [nestingFrom?_cons, hns, map_some], rfl⟩

theorem isBlank_plain (h : isBlank c = true) :
    isQuote c = false ∧ closer? c = none ∧ ∀ o, closer? o ≠ some c := by
  have differs (d : Char) (hd : isBlank d = false) : c ≠ d := fun hc => by
    rw [hc, hd] at h
    cases h
  refine ⟨?_, ?_, fun o => ?_⟩
  · simp [isQuote, differs '"' rfl, differs '\'' rfl]
  · simp [closer?, differs '(' rfl, differs '[' rfl, differs '\x7b' rfl]
  · simp only [closer?]
    split
    · exact fun hc => differs ')' rfl (some.inj hc).symm
    · split
      · exact fun hc => differs ']' rfl (some.inj hc).symm
      · split
        · exact fun hc => differs '\x7d' rfl (some.inj hc).symm
        · exact (some_ne_none c).symm

theorem Closed.trim {avoided cs : List Char} (h : Closed avoided cs) :
    Closed avoided (TypeStubs.trim cs) := by
  have start : Closed avoided (trimStart cs) := by
    induction cs with
    | nil => exact h
    | cons c cs ih =>
      rw [trimStart, dropWhile_cons]
      split
      · rename_i blank
        obtain ⟨hq, hc, -⟩ := isBlank_plain blank
        obtain ⟨ms, hms, outside⟩ := h
        rw [nesting?, nestingFrom?_cons] at hms
        obtain ⟨ns, hns, rfl⟩ := map_eq_some_iff.mp hms
        simp only [nestingStep, hq, hc, Bool.false_eq_true, if_false] at hns
        exact ih ⟨ns, hns, fun d hd => outside d (.tail _ hd)⟩
      · exact h
  have finish (l : List Char) (hl : Closed avoided l.reverse) :
      Closed avoided (l.dropWhile isBlank).reverse := by
    induction l with
    | nil => exact hl
    | cons c l ih =>
      rw [dropWhile_cons]
      split
      · rename_i blank
        obtain ⟨hq, hc, hclose⟩ := isBlank_plain blank
        obtain ⟨ms, hms, outside⟩ := hl
        rw [reverse_cons, nesting?] at hms
        obtain ⟨ns, hns, rfl⟩ := nestingFrom?_concat hq hc hclose (by simp) (by simp) hms
        exact ih ⟨ns, hns, fun d hd => outside d (mem_append_left _ hd)⟩
      · exact hl
  exact finish _ (by rwa [reverse_reverse])

end TypeStubs
