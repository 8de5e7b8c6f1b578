import TypeStubs.Proofs.ArgumentTexts
import TypeStubs.Proofs.PlacedHints
import TypeStubs.Proofs.QuotedTexts
import TypeStubs.Proofs.ScopedModules

/-! Quoted texts as defaults of parameters. The scanner takes the next quote of the same kind for the
end of a quoted text, also one behind a backslash. A text with one kind of quotes or none is therefore
kept as it is, and a text with both kinds is kept exactly when what the scanner takes for the outside
of the quotes holds nothing that it looks at. -/

namespace TypeStubs

open List Option

variable {name : String}

/-! Marks. -/

theorem nesting?_append_plain {a tail : List Char} {ms : List (Char × Bool)}
    (plain : ∀ c ∈ tail, c ∉ enclosing) (h : nesting? (a ++ tail) = some ms) :
    ∃ ns, nesting? a = some ns ∧ ms = ns ++ tail.map (·, true) := by
  induction tail generalizing a ms with
  | nil => exact ⟨ms, by rwa [append_nil] at h, by simp⟩
  | cons c tail ih =>
    obtain ⟨hq, hc, hclose⟩ := of_not_enclosing (plain c mem_cons_self)
    rw [← singleton_append, ← append_assoc] at h
    obtain ⟨longer, marks, rfl⟩ := ih (fun d hd => plain d (.tail _ hd)) h
    rw [nesting?] at marks
    obtain ⟨ns, shorter, rfl⟩ := nestingFrom?_concat hq hc hclose (by simp) (by simp) marks
    exact ⟨ns, shorter, by simp⟩

theorem nesting?_of_plain {cs : List Char} (plain : ∀ c ∈ cs, c ∉ enclosing) :
    nesting? cs = some (cs.map (·, true)) := by
  induction cs with
  | nil => rfl
  | cons c cs ih =>
    have first := of_not_enclosing (plain c mem_cons_self)
    have rest := ih fun d hd => plain d (.tail _ hd)
    rw [nesting?] at rest ⊢
    simp [nestingFrom?, first, rest]

theorem nesting?_between_plain {front tail : List Char} (hf : ∀ c ∈ front, c ∉ enclosing)
    (ht : ∀ c ∈ tail, c ∉ enclosing) (cs : List Char) : nesting? (front ++ cs ++ tail) =
      (nesting? cs).map fun ms => front.map (·, true) ++ ms ++ tail.map (·, true) := by
  have start : nesting? (front ++ cs) = (nesting? cs).map (front.map (·, true) ++ ·) :=
    nestingFrom?_append (nesting?_of_plain hf) cs
  cases hc : nesting? cs with
  | none =>
    rw [map_none, eq_none_iff_forall_ne_some]
    intro ms marks
    obtain ⟨ns, marks, -⟩ := nesting?_append_plain ht marks
    rw [start, hc] at marks
    cases marks
  | some ms =>
    rw [hc, map_some] at start
    rw [nesting?, nestingFrom?_append start, nesting?_of_plain ht]
    rfl

namespace ArgumentText

theorem split?_of_comma {cs : List Char} {piece rest : List (Char × Bool)}
    (h : nesting? cs = some (piece ++ (',', true) :: rest)) (hp : (',', true) ∉ piece) :
    split? cs = some (ofMarks piece ::
      (filled (cutWhere (fun m => m.2 && m.1 == ',') rest)).map ofMarks) := by
  have inside : ∀ m ∈ piece, (m.2 && m.1 == ',') = false := by
    rintro ⟨c, out⟩ hm
    refine Bool.eq_false_iff.mpr fun comma => hp ?_
    simp only [Bool.and_eq_true, beq_iff_eq] at comma
    rwa [comma.1, comma.2] at hm
  rw [split?_eq, h, map_some, cutWhere_append inside rfl]
  cases others : cutWhere (fun m => m.2 && m.1 == ',') rest with
  | nil => exact absurd others (cutWhere_ne_nil _ _)
  | cons second others => rfl

/-- What is left of a default that holds an equals sign outside is shorter, any other one is kept. -/
theorem ofMarks_default {a : List (Char × Bool)} (h : nesting? (a.map Prod.fst) = some a) :
    ∃ hint default, ofMarks ("x: str = ".toList.map (·, true) ++ a) =
        ⟨['x'], some hint, some default⟩ ∧ (('=', true) ∈ a ∧ default.length < a.length ∨
        ('=', true) ∉ a ∧ hint = " str ".toList ∧ default = ' ' :: a.map Prod.fst) := by
  by_cases sign : ('=', true) ∈ a
  · obtain ⟨behind, ahead, split, last⟩ := eq_append_cons_of_mem (mem_reverse.mpr sign)
    have cut : a = ahead.reverse ++ ('=', true) :: behind.reverse := by
      rw [← reverse_reverse a, split]
      simp
    rw [cut] at h ⊢
    have rest := (nestingFrom?_split h).2
    have last' : ('=', true) ∉ behind.reverse := fun hm => last (mem_reverse.mp hm)
    -- An equals sign right behind one that stands outside would stand outside as well.
    have head : (behind.reverse.map Prod.fst).head? ≠ some '=' := by
      intro first
      obtain ⟨text, same⟩ := head?_eq_some_iff.mp first
      rw [same, nesting?, nestingFrom?_cons] at rest
      obtain ⟨ms, -, marks⟩ := map_eq_some_iff.mp rest
      exact last' (marks ▸ mem_cons_self)
    have parts := ofMarks_parts [('x', true)]
      (" str = ".toList.map (·, true) ++ ahead.reverse) (by decide) last' head
    rw [append_assoc] at parts
    refine ⟨_, _, parts, .inl ⟨by simp, ?_⟩⟩
    simp
    omega
  · have first : ('=', true) ∉ (' ', true) :: a := by simpa using sign
    have parts := ofMarks_parts [('x', true)] (" str ".toList.map (·, true)) (by decide) first
      (by simp)
    exact ⟨_, _, parts, .inr ⟨sign, rfl, rfl⟩⟩

section

variable {cs : List Char} {ms : List (Char × Bool)}

theorem nesting?_second_parameter (h : nesting? cs = some ms) :
    nesting? ("x: str = ".toList ++ cs ++ ", y: int".toList) =
      some ("x: str = ".toList.map (·, true) ++ ms ++
        (',', true) :: " y: int".toList.map (·, true)) := by
  rw [nesting?_between_plain (forall_of_all (by decide)) (forall_of_all (by decide)), h]
  rfl

/-- A default with neither a comma nor an equals sign outside is kept, and so is what follows. -/
theorem split?_kept_default (h : nesting? cs = some ms) (comma : (',', true) ∉ ms)
    (sign : ('=', true) ∉ ms) : split? ("x: str = ".toList ++ cs ++ ", y: int".toList) =
      some [⟨['x'], some " str ".toList, some (' ' :: cs)⟩,
        ⟨" y".toList, some " int".toList, none⟩] := by
  have text := nestingFrom?_text h
  have inside : (',', true) ∉ "x: str = ".toList.map (·, true) ++ ms := by
    rw [mem_append]
    exact fun hm => hm.elim (by decide) comma
  obtain ⟨hint, default, parts, kept⟩ := ofMarks_default (a := ms) (by rwa [text])
  obtain ⟨-, rfl, rfl⟩ := kept.resolve_left fun torn => sign torn.1
  have second : (filled (cutWhere (fun m => m.2 && m.1 == ',') (" y: int".toList.map (·, true)))).map
      ofMarks = [⟨" y".toList, some " int".toList, none⟩] := by decide
  rw [split?_of_comma (nesting?_second_parameter h) inside, parts, text, second]

theorem split?_torn_default (h : nesting? cs = some ms)
    (outside : (',', true) ∈ ms ∨ ('=', true) ∈ ms) : ∃ hint default rest,
    split? ("x: str = ".toList ++ cs ++ ", y: int".toList) =
        some (⟨['x'], some hint, some default⟩ :: rest) ∧ (trim default).length < cs.length := by
  have text := nestingFrom?_text h
  -- The first parameter ends at the first comma outside, in the default or behind it.
  obtain ⟨a, rest, whole, comma, closed, size⟩ : ∃ a rest,
      ms ++ (',', true) :: " y: int".toList.map (·, true) = a ++ (',', true) :: rest ∧ (',', true) ∉ a ∧
        nesting? (a.map Prod.fst) = some a ∧
        (a.length < ms.length ∨ a.length ≤ ms.length ∧ ('=', true) ∈ a) := by
    by_cases comma : (',', true) ∈ ms
    · obtain ⟨a, b, rfl, first⟩ := eq_append_cons_of_mem comma
      exact ⟨a, _, append_assoc .., first, (nestingFrom?_split h).1, .inl (by simp)⟩
    · exact ⟨ms, _, rfl, comma, by rwa [text], .inr ⟨Nat.le_refl _, outside.resolve_left comma⟩⟩
  obtain ⟨hint, default, parts, kept⟩ := ofMarks_default closed
  have inside : (',', true) ∉ "x: str = ".toList.map (·, true) ++ a := by
    rw [mem_append]
    exact fun hm => hm.elim (by decide) comma
  have marks := nesting?_second_parameter h
  rw [append_assoc ("x: str = ".toList.map _), whole, ← append_assoc] at marks
  refine ⟨hint, default, _, by rw [split?_of_comma marks inside, parts], ?_⟩
  have length : cs.length = ms.length := by rw [← text, length_map]
  rcases kept with ⟨-, shorter⟩ | ⟨sign, -, rfl⟩
  · have := length_trim_le default
    omega
  · have := length_trim_le (a.map Prod.fst)
    rw [length_map] at this
    rw [trim_cons_blank rfl]
    have := size.resolve_right fun h => sign h.2
    omega

end

end ArgumentText

namespace Quoted

theorem closed_encode {cs : List Char} (h : mark cs ∉ cs) (avoided : List Char) :
    Closed avoided (encode cs) := by
  have hq := isQuote_mark cs
  have inside (quote : Char) (text : List Char) (ht : quote ∉ text) :
      nestingFrom? (some quote) [] (text ++ [quote]) = some ((text ++ [quote]).map (·, false)) := by
    induction text with
    | nil => simp [nestingFrom?]
    | cons c text ih =>
      have other : c ≠ quote := fun hc => ht (hc ▸ mem_cons_self)
      have rest := ih fun hin => ht (.tail _ hin)
      simp [nestingFrom?, other, rest]
  have absent : mark cs ∉ body (mark cs) cs := by
    intro hin
    obtain ⟨c, hc, hin⟩ := mem_flatMap.mp hin
    have stands := stands_encodeChar (mark cs) c
    generalize encodeChar (mark cs) c = text at stands hin
    cases stands with
    | plain other _ =>
      rw [mem_singleton] at hin
      exact h (hin ▸ hc)
    | escape known =>
      simp only [mem_cons, not_mem_nil, or_false, Prod.mk.injEq] at known hin
      rcases known with ⟨rfl, -⟩ | ⟨-, rfl⟩ | ⟨-, rfl⟩ | ⟨-, rfl⟩ | ⟨-, rfl⟩
      · exact h hc
      all_goals rcases hq with quote | quote <;> simp [quote] at hin
    | @code letter width known small =>
      simp only [mem_cons, not_mem_nil, or_false, Prod.mk.injEq] at known hin
      rcases hin with slash | same | digit
      · rcases hq with quote | quote <;> simp [quote] at slash
      · rcases known with ⟨rfl, -⟩ | ⟨rfl, -⟩ | ⟨rfl, -⟩ <;>
          rcases hq with quote | quote <;> simp [quote] at same
      · have plain := (of_mem_hexDigits digit).2.1
        rcases hq with quote | quote <;> simp [quote] at plain
  have opening : isQuote (mark cs) = true := by rcases hq with quote | quote <;> rw [quote] <;> rfl
  refine ⟨(mark cs, false) :: (body (mark cs) cs ++ [mark cs]).map (·, false), ?_, fun c hc => ?_⟩
  · rw [encode_eq, nesting?, nestingFrom?_quote opening, inside _ _ absent, map_some]
  · simp at hc

theorem mark_not_mem {cs : List Char} (h : ¬ ('\'' ∈ cs ∧ '"' ∈ cs)) : mark cs ∉ cs := by
  unfold mark
  split
  · rename_i single
    simpa using (Bool.and_eq_true_iff.mp single).2
  · rename_i other
    intro single
    simp only [Bool.and_eq_true, contains_iff_mem, Bool.not_eq_true', not_and] at other
    exact h ⟨single, by simpa using other single⟩

theorem trim_encode (cs : List Char) : trim (' ' :: encode cs) = encode cs := by
  have blank : isBlank (mark cs) = false := by
    rcases isQuote_mark cs with h | h <;> rw [h] <;> rfl
  rw [trim_cons_blank rfl]
  refine trim_eq_self (fun c hc => ?_) fun c hc => ?_
  · cases hc
    exact blank
  · rw [encode_eq, ← cons_append, getLast?_concat] at hc
    cases hc
    exact blank

end Quoted

theorem QualifiedName.inside_other {path : QualifiedName} (h : path ≠ ⟨[name]⟩) :
    (⟨[name]⟩ : QualifiedName).inside path = ⟨[name]⟩ := by
  obtain ⟨_ | ⟨part, _ | ⟨part', parts⟩⟩⟩ := path
  · rfl
  · have other : part ≠ name := fun same => h (by rw [same])
    simp [QualifiedName.inside, QualifiedName.dropBase?, other]
  · simp [QualifiedName.inside, QualifiedName.dropBase?]

namespace Inspection

variable {s : Setting} {p q : Progress} {text : List Char}

/-! What the parts of the list are read as. -/

theorem outcome_refine_class (ho : s.options = {}) (hr : 2 ≤ s.world.reach)
    (path : p.modulePath ≠ ⟨[name]⟩)
    (known : (Builtins.asModule.ownMember? name).any Object.isClass = true)
    (bare : Hint.isBareElementType ⟨[name]⟩ none = false)
    (plain : ((⟨[name]⟩ : QualifiedName).qualifyTyping false).plainCollection = ⟨[name]⟩) :
    (refine (.type ⟨[name]⟩ none)).outcome s p = (.ok (.type ⟨[name]⟩ none), p) := by
  have inside : (Hint.type ⟨[name]⟩ none).inside p.modulePath = .type ⟨[name]⟩ none := by
    rw [Hint.inside, QualifiedName.inside_other path]
  have has : knows (viewOf s p) ⟨[name]⟩ = true := by
    have builtin := World.has_class hr known
    simp only [knows, Bool.or_eq_true]
    exact .inl (.inl (.inr builtin))
  have required : (requireHintImport (.type ⟨[name]⟩ none)).outcome s p = (.ok (), p) := by
    rw [requireHintImport, requireImport, outcome_bind, outcome_isKnown, has]
    rfl
  have completed : (completeElementType (Hint.type ⟨[name]⟩ none).withQualifiedFlags).outcome s p =
      (.ok (.type ⟨[name]⟩ none), p) := by
    simp [Hint.withQualifiedFlags, completeElementType, bare]
  have styled : (styledArray (.type ⟨[name]⟩ none)).outcome s p = (.ok (.type ⟨[name]⟩ none), p) :=
    outcome_styledArray (by rw [ho]) _ _
  have sized : (completeFixedSize (.type ⟨[name]⟩ none)).outcome s p =
      (.ok (.type ⟨[name]⟩ none), p) := rfl
  have last : (Hint.type ⟨[name]⟩ none).withoutSparseParameters.qualifyTyping.plainCollection =
      .type ⟨[name]⟩ none := by
    have sparse : (Hint.type ⟨[name]⟩ none).withoutSparseParameters = .type ⟨[name]⟩ none := by
      simp [Hint.withoutSparseParameters]
    rw [sparse, Hint.qualifyTyping, Hint.plainCollection, plain]
  rw [refine, bind_of_ok (outcome_hintWithoutModule _ _ _), inside,
    bind_of_ok completed,
    bind_of_ok styled, bind_of_ok sized, last, bind_of_ok required]
  rfl

theorem outcome_hintOfText?_class (ho : s.options = {}) (hr : 2 ≤ s.world.reach)
    (path : p.modulePath ≠ ⟨[name]⟩)
    (known : (Builtins.asModule.ownMember? name).any Object.isClass = true)
    (bare : Hint.isBareElementType ⟨[name]⟩ none = false)
    (plain : ((⟨[name]⟩ : QualifiedName).qualifyTyping false).plainCollection = ⟨[name]⟩)
    (written : (⟨[name]⟩ : QualifiedName).IsWritten) (closed : Closed ['|'] text)
    (same : trim text = trim (⟨[name]⟩ : QualifiedName).text.toList) :
    (hintOfText? (some text)).outcome s p = (.ok (some (.type ⟨[name]⟩ none)), p) := by
  have read : (hintOfText text).outcome s p = (.ok (.type ⟨[name]⟩ none), p) := by
    rw [hintOfText, HintSyntax.ofText_of_closed closed, TypeSyntax.ofText_congr same, written.ofText,
      hintOfSyntax, typeOfSyntax]
    exact outcome_refine_class ho hr path known bare plain
  rw [hintOfText?, bind_of_ok read]
  rfl

theorem outcome_expressionOfText?_encode (ho : s.options = {}) (t : String) :
    (expressionOfText? (some (' ' :: Quoted.encode t.toList))).outcome s p =
      (.ok (some (.value ⟨Quoted.text t, true⟩)), p) := by
  have read : (expressionOfText (' ' :: Quoted.encode t.toList)).outcome s p =
      (.ok (.value ⟨Quoted.text t, true⟩), p) := by
    rw [outcome_expressionOfText ho, plainExpression, Quoted.trim_encode,
      if_pos (Quoted.isModule_encode _), Quoted.isLiteral_encode]
    rfl
  rw [expressionOfText?, bind_of_ok read]
  rfl

theorem argumentsOfTexts_plain (text name : List Char) (slash : trim text ≠ ['/'])
    (star : trim text ≠ ['*']) (hn : ArgumentText.starredName? text = some (0, name))
    (hint? default? : Option (List Char)) (read : List Argument) (keywordOnly : Bool)
    (as : List ArgumentText) :
    argumentsOfTexts read keywordOnly (⟨text, hint?, default?⟩ :: as) = (do
      let hint ← hintOfText? hint?
      let default ← expressionOfText? default?
      argumentsOfTexts (read ++ [{ name := some (String.ofList name), keywordOnly, default, hint }])
        keywordOnly as) := by
  rw [argumentsOfTexts, if_neg slash, if_neg star, hn]
  rfl

/-- Reading on changes nothing of the parameters read so far but whether they are positional only. -/
theorem argumentsOfTexts_keeps {β : Type} {g : Argument → β}
    (hg : ∀ a, g { a with positionOnly := true } = g a) {read args : List Argument}
    {keywordOnly : Bool} {texts : List ArgumentText}
    (h : (argumentsOfTexts read keywordOnly texts).outcome s p = (.ok args, q)) :
    args = genericArguments ∨ read.map g <+: args.map g := by
  induction texts generalizing read keywordOnly p with
  | nil =>
    cases h
    exact .inr (prefix_refl _)
  | cons a as ih =>
    rw [argumentsOfTexts, outcome_ite] at h
    split at h
    · have later := ih h
      rwa [List.map_map, show g ∘ _ = g from funext hg] at later
    · rw [outcome_ite] at h
      split at h
      · exact ih h
      · cases hn : ArgumentText.starredName? a.name with
        | none =>
          rw [hn] at h
          cases h
          exact .inl rfl
        | some starred =>
          rw [hn] at h
          obtain ⟨hint, _, _, h⟩ := bind_ok_iff.mp h
          obtain ⟨default, _, _, h⟩ := bind_ok_iff.mp h
          refine (ih h).imp_right fun later => ?_
          rw [map_append] at later
          exact (prefix_append _ _).trans later

def quotedDefaultArguments (t : String) : List Argument :=
  [{ name := some "x"
     hint := some (.type ⟨["str"]⟩ none)
     default := some (.value ⟨Quoted.text t, true⟩) },
    { name := some "y", hint := some (.type ⟨["int"]⟩ none) }]

theorem argumentsOfText_torn (ho : s.options = {}) {t : String} {hint default : List Char}
    {rest : List ArgumentText}
    (split : ArgumentText.split? text = some (⟨['x'], some hint, some default⟩ :: rest))
    (shorter : (trim default).length < (Quoted.encode t.toList).length) :
    (argumentsOfText text).outcome s p ≠ (.ok (quotedDefaultArguments t), p) := by
  intro h
  rw [argumentsOfText, split] at h
  simp only [argumentsOfTexts_plain ['x'] ['x'] (by decide) (by decide) (by decide)] at h
  obtain ⟨_, _, _, h⟩ := bind_ok_iff.mp h
  obtain ⟨first, _, hd, h⟩ := bind_ok_iff.mp h
  obtain ⟨value, _, hv, hd⟩ := bind_ok_iff.mp hd
  cases hd
  rcases argumentsOfTexts_keeps (g := Argument.default) (fun _ => rfl) h with generic | kept
  · simp [quotedDefaultArguments, genericArguments] at generic
  · -- The first default is the one that was read, and its text is what was left of it.
    have same : value = .value ⟨Quoted.text t, true⟩ := by simpa [quotedDefaultArguments] using kept
    have read := ((givesAt_expressionOfText ho _).ok hv).trans same
    rw [Expression.ofText] at read
    split at read
    · simp only [Expression.value.injEq, Value.mk.injEq, Quoted.text, String.ofList_inj] at read
      rw [read.1] at shorter
      exact Nat.lt_irrefl _ shorter
    · cases read

theorem argumentsOfText_kept (ho : s.options = {}) (hr : 2 ≤ s.world.reach)
    (hstr : p.modulePath ≠ ⟨["str"]⟩) (hint : p.modulePath ≠ ⟨["int"]⟩) {t : String}
    (split : ArgumentText.split? text =
      some [⟨['x'], some " str ".toList, some (' ' :: Quoted.encode t.toList)⟩,
        ⟨" y".toList, some " int".toList, none⟩]) :
    (argumentsOfText text).outcome s p = (.ok (quotedDefaultArguments t), p) := by
  have first : (hintOfText? (some " str ".toList)).outcome s p =
      (.ok (some (.type ⟨["str"]⟩ none)), p) :=
    outcome_hintOfText?_class ho hr hstr rfl (by decide) (by decide) (by decide +kernel)
      (.of_plain (forall_of_all (by decide))) (by decide)
  have second : (hintOfText? (some " int".toList)).outcome s p =
      (.ok (some (.type ⟨["int"]⟩ none)), p) :=
    outcome_hintOfText?_class ho hr hint rfl (by decide) (by decide) (by decide +kernel)
      (.of_plain (forall_of_all (by decide))) (by decide)
  simp only [argumentsOfText, split]
  rw [argumentsOfTexts_plain ['x'] ['x'] (by decide) (by decide) (by decide),
    bind_of_ok first, bind_of_ok (outcome_expressionOfText?_encode ho t),
    argumentsOfTexts_plain " y".toList ['y'] (by decide) (by decide)
      (by decide), bind_of_ok second]
  rfl

/-- A quoted text is kept as the default of a parameter, and the parameter behind it is read, exactly
when no comma and no equals sign of it stands outside for the scanner. This holds for all texts but
some that have both kinds of quotes. -/
theorem quoted_default_kept_iff (described : List Object) (hstr : p.modulePath ≠ ⟨["str"]⟩)
    (hint : p.modulePath ≠ ⟨["int"]⟩) (t : String) :
    ((argumentsOfText ("x: str = " ++ Quoted.text t ++ ", y: int").toList).outcome
        ⟨{}, .ofModules described⟩ p = (.ok (quotedDefaultArguments t), p) ↔
      Closed [',', '='] (Quoted.text t).toList) ∧
    (¬ ('\'' ∈ t.toList ∧ '"' ∈ t.toList) → Closed [',', '='] (Quoted.text t).toList) := by
  have encoded : (Quoted.text t).toList = Quoted.encode t.toList := String.toList_ofList
  rw [String.toList_append, String.toList_append, encoded]
  refine ⟨⟨fun h => ?_, fun ⟨ms, marks, outside⟩ => ?_⟩, fun single =>
    Quoted.closed_encode (Quoted.mark_not_mem single) _⟩
  · cases marks : nesting? (Quoted.encode t.toList) with
    | none =>
      have none : ArgumentText.split?
          ("x: str = ".toList ++ Quoted.encode t.toList ++ ", y: int".toList) = none := by
        rw [ArgumentText.split?_eq, nesting?_between_plain (forall_of_all (by decide))
          (forall_of_all (by decide)), marks]
        rfl
      rw [argumentsOfText, none] at h
      simp [quotedDefaultArguments, genericArguments] at h
    | some ms =>
      refine ⟨ms, marks, fun c hc avoided => ?_⟩
      have torn : (',', true) ∈ ms ∨ ('=', true) ∈ ms := by
        rw [mem_pair] at avoided
        rcases avoided with rfl | rfl
        · exact .inl hc
        · exact .inr hc
      obtain ⟨_, _, _, split, shorter⟩ := ArgumentText.split?_torn_default marks torn
      exact argumentsOfText_torn rfl split shorter h
  · exact argumentsOfText_kept rfl (Nat.le_add_left 2 _) hstr hint
      (ArgumentText.split?_kept_default marks (fun hm => outside _ hm (by simp)) fun hm => outside _ hm (by simp))

/-- Brackets, commas, colons, equals signs, backslashes and one kind of quotes do not matter. -/
theorem marked_default_kept :
    Progress.modulePath {} ≠ ⟨["str"]⟩ ∧ Progress.modulePath {} ≠ ⟨["int"]⟩ ∧
      (argumentsOfText ("x: str = " ++ Quoted.text "it's [a, b: \x7bc=\\" ++ ", y: int").toList).outcome
        ⟨{}, .ofModules []⟩ {} = (.ok (quotedDefaultArguments "it's [a, b: \x7bc=\\"), {}) :=
  have kept := quoted_default_kept_iff (p := {}) [] (by decide) (by decide) "it's [a, b: \x7bc=\\"
  ⟨by decide, by decide, kept.1.mpr (kept.2 (by decide))⟩

/-- The scanner takes the escaped quote for the end of the quoted text. What follows then opens a quoted
text that nothing ends, and the function takes anything. -/
theorem escaped_quote_ends_default :
    (argumentsOfText ("x: str = " ++ Quoted.text "'\"" ++ ", y: int").toList).outcome
        ⟨{}, .ofModules []⟩ {} = (.ok genericArguments, {}) ∧
      genericArguments ≠ quotedDefaultArguments "'\"" := by
  have none : ArgumentText.split? ("x: str = " ++ Quoted.text "'\"" ++ ", y: int").toList = none := by
    decide
  rw [argumentsOfText, none]
  exact ⟨rfl, by simp [quotedDefaultArguments, genericArguments]⟩

end Inspection

end TypeStubs
