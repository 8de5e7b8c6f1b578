import TypeStubs.Inspection.Arrays
import TypeStubs.Proofs.NameTexts

/-! The texts that are names, and the names that they denote. -/

namespace TypeStubs

open List

variable {c : Char} {part ds cs : List Char}

/-- A letter or underscore and word characters after it. -/
def IsNamePart (cs : List Char) : Prop :=
  ∃ c rest, cs = c :: rest ∧ isNameStart c = true ∧ ∀ x ∈ rest, isWord x = true

/-- Parts of a name, each after a dot that may have blanks around it. -/
inductive DottedParts : List Char → Prop where
  | nil : DottedParts []
  | cons {before after part rest : List Char} (hb : ∀ c ∈ before, isBlank c = true)
    (ha : ∀ c ∈ after, isBlank c = true) (hp : IsNamePart part) (hr : DottedParts rest) :
    DottedParts (before ++ '.' :: (after ++ (part ++ rest)))

def blankCodes : List Nat :=
  [9, 10, 11, 12, 13, 28, 29, 30, 31, 32, 0x85, 0xA0, 0x1680, 0x2000, 0x2001, 0x2002, 0x2003,
   0x2004, 0x2005, 0x2006, 0x2007, 0x2008, 0x2009, 0x200A, 0x2028, 0x2029, 0x202F, 0x205F, 0x3000]

theorem mem_blankCodes (h : isBlank c = true) : c.toNat ∈ blankCodes := by
  simp only [isBlank, Bool.or_eq_true, Bool.and_eq_true, decide_eq_true_eq, beq_iff_eq] at h
  simp only [blankCodes, mem_cons, not_mem_nil, or_false]
  omega

theorem isWord_of_isBlank (h : isBlank c = true) : isWord c = false := by
  have codes : ∀ n ∈ blankCodes, isWord (Char.ofNat n) = false := by decide +kernel
  simpa using codes _ (mem_blankCodes h)

theorem isIdentifierStart_of_isBlank (h : isBlank c = true) : isIdentifierStart c = false := by
  have codes : ∀ n ∈ blankCodes, isIdentifierStart (Char.ofNat n) = false := by decide +kernel
  simpa using codes _ (mem_blankCodes h)

theorem isBlank_of_isWord (h : isWord c = true) : isBlank c = false :=
  Bool.eq_false_iff.mpr fun blank => Bool.false_ne_true ((isWord_of_isBlank blank).symm.trans h)

theorem isWord_of_mem_namePart (h : IsNamePart part) : ∀ c ∈ part, isWord c = true := by
  obtain ⟨c, rest, rfl, start, word⟩ := h
  exact forall_mem_cons.mpr ⟨isWord_of_isNameStart start, word⟩

theorem DottedParts.head (h : DottedParts ds) : ∀ c ∈ ds.head?, isWord c = false := by
  intro c hc
  cases h with
  | nil => cases hc
  | @cons before after part rest hb ha hp hr =>
    cases before with
    | nil =>
      cases hc
      decide
    | cons b before =>
      cases hc
      exact isWord_of_isBlank (hb c mem_cons_self)

theorem takeWhile_append_of_head {α : Type} {p : α → Bool} {xs rest : List α}
    (h : ∀ x ∈ xs, p x = true) (hr : ∀ x ∈ rest.head?, p x = false) :
    (xs ++ rest).takeWhile p = xs ∧ (xs ++ rest).dropWhile p = rest := by
  rw [takeWhile_append_of_pos h, dropWhile_append_of_pos h]
  cases rest with
  | nil => simp
  | cons x rest => simp [hr x rfl]

theorem namePart_append {rest : List Char} (h : IsNamePart part)
    (hr : ∀ c ∈ rest.head?, isWord c = false) : namePart (part ++ rest) = part := by
  obtain ⟨c, cs, rfl, start, word⟩ := h
  rw [cons_append, namePart, if_pos start, (takeWhile_append_of_head word hr).1]

theorem IsNamePart.head_not_blank (h : IsNamePart part) (rest : List Char) :
    ∀ c ∈ (part ++ rest).head?, isBlank c = false := by
  obtain ⟨c, cs, rfl, start, word⟩ := h
  intro d hd
  cases hd
  exact isBlank_of_isWord (isWord_of_isNameStart start)

theorem dottedPart_append {before after rest : List Char} (hb : ∀ c ∈ before, isBlank c = true)
    (ha : ∀ c ∈ after, isBlank c = true) (hp : IsNamePart part)
    (hr : ∀ c ∈ rest.head?, isWord c = false) :
    dottedPart (before ++ '.' :: (after ++ (part ++ rest))) = before ++ '.' :: after ++ part := by
  have dot : ∀ c ∈ ('.' :: (after ++ (part ++ rest))).head?, isBlank c = false := by
    intro c hc
    cases hc
    decide
  have front := takeWhile_append_of_head hb dot
  have back := takeWhile_append_of_head ha (hp.head_not_blank rest)
  rw [dottedPart, front.1, front.2]
  simp only [back, namePart_append hp hr]
  obtain ⟨c, cs, rfl, -⟩ := hp
  rfl

theorem DottedParts.dottedLength (h : DottedParts ds) : TypeStubs.dottedLength ds = ds.length := by
  induction h with
  | nil =>
    rw [dottedLength_eq]
    rfl
  | @cons before after part rest hb ha hp hr ih =>
    have first := dottedPart_append hb ha hp hr.head
    have shape : before ++ '.' :: (after ++ (part ++ rest)) =
        (before ++ '.' :: after ++ part) ++ rest := by simp
    rw [dottedLength_eq, first, if_neg (by simp), shape, drop_left, ih]
    simp only [length_append]

/-- A name: a part that may be missing and parts after dots, without blanks in front. -/
def IsNameText (cs : List Char) : Prop :=
  ∃ part rest, (part = [] ∨ IsNamePart part) ∧ DottedParts rest ∧ cs = part ++ rest ∧
    ∀ c ∈ cs.head?, isBlank c = false

theorem IsNameText.cutName (h : IsNameText cs) : TypeStubs.cutName cs = (cs, []) := by
  obtain ⟨part, rest, hp, hr, rfl, -⟩ := h
  have first : namePart (part ++ rest) = part := by
    rcases hp with rfl | hp
    · match rest, hr.head with
      | [], _ => rfl
      | c :: rest, head =>
        have start : isNameStart c = false := Bool.eq_false_iff.mpr fun start =>
          Bool.false_ne_true ((head c rfl).symm.trans (isWord_of_isNameStart start))
        simp [namePart, start]
    · exact namePart_append hp hr.head
  simp [TypeStubs.cutName, first, hr.dottedLength, take_of_length_le]

theorem namePart_cases (cs : List Char) : namePart cs = [] ∨ IsNamePart (namePart cs) := by
  cases cs with
  | nil => exact .inl rfl
  | cons c cs =>
    rw [namePart]
    split
    · rename_i start
      exact .inr ⟨c, cs.takeWhile isWord, rfl, start, all_eq_true.mp all_takeWhile⟩
    · exact .inl rfl

theorem dottedPart_cases (cs : List Char) : dottedPart cs = [] ∨ ∃ before after part,
    (∀ c ∈ before, isBlank c = true) ∧ (∀ c ∈ after, isBlank c = true) ∧ IsNamePart part ∧
      dottedPart cs = before ++ '.' :: (after ++ part) := by
  rw [dottedPart]
  split
  · rename_i rest _
    rcases namePart_cases (rest.dropWhile isBlank) with none | some
    · exact .inl (by rw [none])
    · refine .inr ⟨cs.takeWhile isBlank, rest.takeWhile isBlank, _,
        all_eq_true.mp all_takeWhile, all_eq_true.mp all_takeWhile, some, ?_⟩
      obtain ⟨c, ds, shape, -⟩ := some
      rw [shape]
      simp
  · exact .inl rfl

theorem dottedParts_take (cs : List Char) : DottedParts (cs.take (dottedLength cs)) := by
  induction hn : cs.length using Nat.strongRecOn generalizing cs with
  | ind n ih =>
    rw [dottedLength_eq]
    split
    · exact .nil
    · rename_i found
      rcases dottedPart_cases cs with none | ⟨before, after, part, hb, ha, hp, shape⟩
      · exact absurd none found
      · have short := length_pos_iff.mpr found
        have fits := (dottedPart_isPrefix cs).length_le
        obtain ⟨rest, hrest⟩ := dottedPart_isPrefix cs
        generalize dottedPart cs = front at *
        have others := ih rest.length (by rw [← hn, ← hrest, length_append]; omega) rest rfl
        rw [← hrest, drop_left, take_length_add_append, shape]
        simpa using DottedParts.cons hb ha hp others

theorem isNameText_cutName (h : ∀ c ∈ cs.head?, isBlank c = false) : IsNameText (cutName cs).1 := by
  refine ⟨namePart cs, _, namePart_cases cs, dottedParts_take (cs.drop (namePart cs).length), ?_,
    fun c hc => h c ?_⟩
  · obtain ⟨rest, hrest⟩ := namePart_isPrefix cs
    simp only [cutName]
    generalize namePart cs = front at *
    rw [← hrest, drop_left, take_length_add_append]
  · obtain ⟨rest, hrest⟩ : (cutName cs).1 <+: cs := take_prefix _ _
    rw [← hrest]
    cases hname : (cutName cs).1 with
    | nil =>
      rw [hname] at hc
      cases hc
    | cons d ds => rwa [hname] at hc

/-! Leaving out the spaces of a name. -/

def withoutSpaces (cs : List Char) : List Char := cs.filter (· != ' ')

theorem IsNamePart.withoutSpaces (h : IsNamePart part) : TypeStubs.withoutSpaces part = part := by
  refine filter_eq_self.mpr fun c hc => bne_iff_ne.mpr fun space => ?_
  subst space
  exact absurd (isWord_of_mem_namePart h _ hc) (by decide)

theorem DottedParts.withoutSpaces (h : DottedParts ds) :
    DottedParts (TypeStubs.withoutSpaces ds) := by
  induction h with
  | nil => exact .nil
  | @cons before after part rest hb ha hp hr ih =>
    have shape : TypeStubs.withoutSpaces (before ++ '.' :: (after ++ (part ++ rest))) =
        TypeStubs.withoutSpaces before ++ '.' :: (TypeStubs.withoutSpaces after ++
          (part ++ TypeStubs.withoutSpaces rest)) := by
      have same := hp.withoutSpaces
      simp only [TypeStubs.withoutSpaces] at same ⊢
      simp [same]
    rw [shape]
    exact .cons (fun c hc => hb c (mem_filter.mp hc).1)
      (fun c hc => ha c (mem_filter.mp hc).1) hp ih

theorem IsNameText.withoutSpaces (h : IsNameText cs) : IsNameText (TypeStubs.withoutSpaces cs) := by
  obtain ⟨part, rest, hp, hr, rfl, head⟩ := h
  refine ⟨part, TypeStubs.withoutSpaces rest, hp, hr.withoutSpaces, ?_, ?_⟩
  · have same : TypeStubs.withoutSpaces part = part := by
      rcases hp with rfl | hp
      · rfl
      · exact hp.withoutSpaces
    rw [TypeStubs.withoutSpaces, filter_append]
    exact congrArg (· ++ _) same
  · cases hcs : part ++ rest with
    | nil => exact nofun
    | cons c cs =>
      have keep : (c != ' ') = true := by
        rw [bne_iff_ne]
        rintro rfl
        exact absurd (head ' ' (by rw [hcs]; rfl)) (by decide)
      intro d hd
      rw [TypeStubs.withoutSpaces, filter_cons, if_pos keep] at hd
      exact head d (by rw [hcs]; exact hd)

/-! The characters of a name. -/

theorem DottedParts.mem (h : DottedParts ds) :
    ∀ c ∈ ds, isWord c = true ∨ isBlank c = true ∨ c = '.' := by
  induction h with
  | nil => exact nofun
  | cons hb ha hp hr ih =>
    intro c hc
    simp only [mem_append, mem_cons] at hc
    rcases hc with hc | rfl | hc | hc | hc
    · exact .inr (.inl (hb c hc))
    · exact .inr (.inr rfl)
    · exact .inr (.inl (ha c hc))
    · exact .inl (isWord_of_mem_namePart hp c hc)
    · exact ih c hc

theorem IsNameText.mem (h : IsNameText cs) :
    ∀ c ∈ cs, isWord c = true ∨ isBlank c = true ∨ c = '.' := by
  obtain ⟨part, rest, hp, hr, rfl, -⟩ := h
  intro c hc
  rcases mem_append.mp hc with hc | hc
  · rcases hp with rfl | hp
    · cases hc
    · exact .inl (isWord_of_mem_namePart hp c hc)
  · exact hr.mem c hc

theorem IsNameText.closed (h : IsNameText cs) {avoided : List Char}
    (hav : avoided ⊆ [',', ']', '|'])  : Closed avoided cs := by
  refine .of_plain fun c hc => ?_
  have differs (d : Char) (hd : (isWord d || isBlank d || d == '.') = false) : c ≠ d := by
    rintro rfl
    rcases h.mem c hc with word | blank | rfl
    · simp [word] at hd
    · simp [blank] at hd
    · simp at hd
  refine ⟨?_, ?_, fun hin => ?_⟩
  · simp [isQuote, differs '"' (by decide), differs '\'' (by decide)]
  · simp [closer?, differs '(' (by decide), differs '[' (by decide), differs '\x7b' (by decide)]
  · have mark := hav hin
    simp [differs ',' (by decide), differs ']' (by decide), differs '|' (by decide)] at mark

theorem getLast?_append_cons {α : Type} (xs : List α) (d : α) (ds : List α) :
    (xs ++ d :: ds).getLast? = (d :: ds).getLast? := by
  rw [getLast?_append, getLast?_cons, Option.some_or]

theorem DottedParts.getLast (h : DottedParts ds) : ∀ c ∈ ds.getLast?, isWord c = true := by
  induction h with
  | nil => exact nofun
  | @cons before after part rest hb ha hp hr ih =>
    have shape : before ++ '.' :: (after ++ (part ++ rest)) =
        (before ++ '.' :: after) ++ (part ++ rest) := by simp
    intro c hc
    rw [shape] at hc
    cases rest with
    | nil =>
      obtain ⟨d, ds, rfl, -⟩ := id hp
      rw [append_nil, getLast?_append_cons] at hc
      exact isWord_of_mem_namePart hp c (mem_of_getLast? hc)
    | cons d ds =>
      rw [← append_assoc, getLast?_append_cons] at hc
      exact ih c hc

theorem IsNameText.trim (h : IsNameText cs) : TypeStubs.trim cs = cs := by
  obtain ⟨part, rest, hp, hr, rfl, head⟩ := h
  refine trim_eq_self head fun c hc => ?_
  have word : isWord c = true := by
    cases rest with
    | nil =>
      rw [append_nil] at hc
      rcases hp with rfl | hp
      · cases hc
      · exact isWord_of_mem_namePart hp c (mem_of_getLast? hc)
    | cons d ds =>
      rw [getLast?_append_cons] at hc
      exact hr.getLast c hc
  exact isBlank_of_isWord word

theorem isNameText_iff :
    IsNameText cs ↔ (cutName cs).2 = [] ∧ ∀ c ∈ cs.head?, isBlank c = false := by
  constructor
  · intro h
    obtain ⟨part, rest, -, -, -, head⟩ := id h
    exact ⟨congrArg Prod.snd h.cutName, head⟩
  · rintro ⟨whole, head⟩
    have same : (cutName cs).1 ++ (cutName cs).2 = cs := take_append_drop _ _
    rw [whole, append_nil] at same
    rw [← same]
    exact isNameText_cutName (by rwa [same] at *)

instance (cs : List Char) : Decidable (IsNameText cs) :=
  have : Decidable (∀ c ∈ cs.head?, isBlank c = false) := Option.decidableForallMem _
  decidable_of_iff' _ isNameText_iff

/-! Names and their texts. -/

theorem splitAtChar_eq_cutWhere (d : Char) (cs : List Char) :
    splitAtChar d cs = cutWhere (· == d) cs := by
  induction cs with
  | nil => rfl
  | cons c cs ih =>
    rw [splitAtChar, cutWhere, ih]
    simp only [beq_iff_eq]
    cases cutWhere (· == d) cs <;> rfl

theorem intercalate_splitAtChar (d : Char) (cs : List Char) :
    intercalate [d] (splitAtChar d cs) = cs := by
  have joined := intercalate_cutWhere (p := (· == d)) (f := id) (fun _ => eq_of_beq) cs
  rw [← splitAtChar_eq_cutWhere, map_id_fun, map_id_fun] at joined
  exact joined

theorem QualifiedName.toList_text (n : QualifiedName) :
    n.text.toList = intercalate ['.'] (n.parts.map String.toList) := String.toList_intercalate

theorem toList_text_nameOfText (cs : List Char) :
    (nameOfText cs).text.toList = withoutSpaces cs := by
  rw [QualifiedName.toList_text, nameOfText, map_map]
  have same : String.toList ∘ String.ofList = id := funext fun _ => String.toList_ofList
  rw [same, map_id, intercalate_splitAtChar, withoutSpaces]

theorem nameOfText_withoutSpaces (cs : List Char) :
    nameOfText (withoutSpaces cs) = nameOfText cs := by
  simp [nameOfText, withoutSpaces]

def QualifiedName.IsWritten (n : QualifiedName) : Prop :=
  IsNameText n.text.toList ∧ nameOfText n.text.toList = n

instance (n : QualifiedName) : Decidable n.IsWritten :=
  inferInstanceAs (Decidable (IsNameText _ ∧ _))

theorem splitAtChar_intercalate {d : Char} {piece : List Char} {pieces : List (List Char)}
    (h : ∀ p ∈ piece :: pieces, d ∉ p) :
    splitAtChar d (intercalate [d] (piece :: pieces)) = piece :: pieces := by
  induction pieces generalizing piece with
  | nil =>
    rw [intercalate_singleton]
    exact splitAtChar_of_not_mem (h piece mem_cons_self)
  | cons next pieces ih =>
    obtain ⟨first, others⟩ := forall_mem_cons.mp h
    rw [intercalate_cons_cons, append_assoc, singleton_append,
      splitAtChar_append, splitAtChar_of_not_mem first, ih others]
    rfl

theorem isNamePart_iff {cs : List Char} : IsNamePart cs ↔ cs ≠ [] ∧ namePart cs = cs := by
  constructor
  · intro h
    have whole := @namePart_append cs [] h (by simp)
    rw [append_nil] at whole
    obtain ⟨c, rest, rfl, -⟩ := h
    exact ⟨cons_ne_nil _ _, whole⟩
  · rintro ⟨nonempty, whole⟩
    rcases namePart_cases cs with none | part
    · exact absurd (whole.symm.trans none) nonempty
    · rwa [whole] at part

instance (cs : List Char) : Decidable (IsNamePart cs) := decidable_of_iff' _ isNamePart_iff

theorem IsNamePart.not_mem {part : List Char} (h : IsNamePart part) (hc : isWord c = false) :
    c ∉ part :=
  fun hin => Bool.false_ne_true (hc.symm.trans (isWord_of_mem_namePart h c hin))

theorem isNameText_intercalate {part : List Char} {parts : List (List Char)}
    (h : ∀ p ∈ part :: parts, IsNamePart p) : IsNameText (intercalate ['.'] (part :: parts)) := by
  obtain ⟨first, others⟩ := forall_mem_cons.mp h
  have shape : ∃ rest, DottedParts rest ∧ intercalate ['.'] (part :: parts) = part ++ rest := by
    clear h
    induction parts generalizing part with
    | nil => exact ⟨[], .nil, by rw [intercalate_singleton, append_nil]⟩
    | cons next parts ih =>
      obtain ⟨second, more⟩ := forall_mem_cons.mp others
      obtain ⟨rest, dotted, text⟩ := ih second more
      refine ⟨_, @DottedParts.cons [] [] next rest (by simp) (by simp) second dotted, ?_⟩
      rw [intercalate_cons_cons, text]
      simp
  obtain ⟨rest, dotted, text⟩ := shape
  rw [text]
  exact ⟨part, rest, .inr first, dotted, rfl, first.head_not_blank rest⟩

theorem QualifiedName.isWritten_of_parts {n : QualifiedName} (nonempty : n.parts ≠ [])
    (h : ∀ part ∈ n.parts, IsNamePart part.toList) : n.IsWritten := by
  obtain ⟨parts⟩ := n
  obtain ⟨part, parts, rfl⟩ := exists_cons_of_ne_nil nonempty
  have named : ∀ p ∈ part.toList :: parts.map String.toList, IsNamePart p := by
    rw [← map_cons]
    exact forall_mem_map.mpr h
  have dotless : ∀ p ∈ part.toList :: parts.map String.toList, '.' ∉ p :=
    fun p hp => (named p hp).not_mem (by decide)
  have text := isNameText_intercalate named
  have spaceless : (intercalate ['.'] (part.toList :: parts.map String.toList)).filter (· != ' ') =
      intercalate ['.'] (part.toList :: parts.map String.toList) := by
    refine filter_eq_self.mpr fun c hc => bne_iff_ne.mpr ?_
    rintro rfl
    rcases mem_intercalate hc with dot | ⟨p, hp, hin⟩
    · simp at dot
    · exact (named p hp).not_mem (by decide) hin
  refine ⟨by rw [toList_text]; exact text, ?_⟩
  have same : String.ofList ∘ String.toList = id := funext fun _ => String.ofList_toList
  rw [toList_text, nameOfText, map_cons, spaceless, splitAtChar_intercalate dotless,
    ← map_cons, map_map, same, map_id]

theorem QualifiedName.areWritten {ns : List QualifiedName}
    (h : ∀ n ∈ ns, n.parts ≠ [] ∧ ∀ part ∈ n.parts, IsNamePart part.toList) : ∀ n ∈ ns, n.IsWritten :=
  fun n hn => isWritten_of_parts (h n hn).1 (h n hn).2

theorem isWritten_cutName (h : ∀ c ∈ cs.head?, isBlank c = false) :
    (nameOfText (cutName cs).1).IsWritten := by
  rw [QualifiedName.IsWritten, toList_text_nameOfText]
  exact ⟨(isNameText_cutName h).withoutSpaces, nameOfText_withoutSpaces _⟩

namespace QualifiedName.IsWritten

variable {n : QualifiedName}

theorem ofText (h : n.IsWritten) : TypeSyntax.ofText n.text.toList = .named n none := by
  rw [TypeSyntax.ofText_eq, h.1.trim, h.1.cutName, h.2]
  rfl

theorem ofText_bracketed (h : n.IsWritten) {t : List Char} {ts : List (List Char)}
    (hts : ∀ x ∈ t :: ts, Closed [','] x) :
    TypeSyntax.ofText (n.text.toList ++ '[' :: (intercalate ", ".toList (t :: ts) ++ [']'])) =
      .named n (some ((t :: ts).map HintSyntax.ofText)) := by
  rw [TypeSyntax.ofText_bracketed h.1.cutName (isNameText_iff.mp h.1).2 hts, h.2]

protected theorem qualifyTyping (h : n.IsWritten) (b : Bool) : (n.qualifyTyping b).IsWritten := by
  have words : ∀ word ∈ typingNames, (⟨[if typingExtensionNames.contains word then
      "typing_extensions" else "typing", capitalized word]⟩ : QualifiedName).IsWritten :=
    forall_mem_map.mp (areWritten (by decide +kernel))
  unfold QualifiedName.qualifyTyping
  split
  · split
    · rename_i word _ known
      exact words word (by simpa using known)
    · split
      · decide +kernel
      · split
        · decide +kernel
        · exact h
  · exact h

protected theorem plainCollection (h : n.IsWritten) : n.plainCollection.IsWritten := by
  have lower : ∀ word ∈ collectionNames, word.map Char.toLower ∈
      ["dict", "list", "set", "tuple", "frozenset", "type"] := by decide +kernel
  have words : ∀ word ∈ ["dict", "list", "set", "tuple", "frozenset", "type"],
      (⟨[word]⟩ : QualifiedName).IsWritten := forall_mem_map.mp (areWritten (by decide))
  unfold QualifiedName.plainCollection
  split
  · split
    · rename_i word _ known
      exact words _ (lower word (by simpa using known))
    · exact h
  · exact h

end QualifiedName.IsWritten

end TypeStubs
