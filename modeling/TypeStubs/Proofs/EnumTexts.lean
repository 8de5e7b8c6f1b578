import Mathlib.Data.List.TakeDrop
import Mathlib.Data.List.TakeWhile
import TypeStubs.Proofs.SourceCalls
import TypeStubs.Proofs.WrittenNames

/-! The texts of values of enumerations. A value is read where its dotted name and its number stand
between angle brackets at the front of a text. -/

namespace TypeStubs

open List

variable {cs : List Char}

theorem mem_of_mem_splitAtChar {d : Char} {part : List Char} (h : part ∈ splitAtChar d cs) :
    ∀ c ∈ part, c ∈ cs ∧ c ≠ d := by
  induction cs generalizing part with
  | nil =>
    cases mem_singleton.mp h
    exact forall_mem_nil _
  | cons b cs ih =>
    have later {part : List Char} (h : part ∈ splitAtChar d cs) :
        ∀ c ∈ part, c ∈ b :: cs ∧ c ≠ d := fun c hc => (ih h c hc).imp_left (.tail b)
    obtain ⟨piece, pieces, cut⟩ := exists_cons_of_ne_nil (splitAtChar_ne_nil d cs)
    rw [splitAtChar] at h
    split at h
    · rcases mem_cons.mp h with rfl | h
      · exact forall_mem_nil _
      · exact later h
    · rename_i other
      rw [cut] at h later
      rcases mem_cons.mp h with rfl | h
      · exact forall_mem_cons.mpr ⟨⟨mem_cons_self, other⟩, later mem_cons_self⟩
      · exact later (.tail _ h)

theorem splitAtLast?_eq_some_iff {d : Char} {before after : List Char} :
    splitAtLast? d cs = some (before, after) ↔ cs = before ++ d :: after ∧ d ∉ after := by
  unfold splitAtLast?
  rw [span_eq_takeWhile_dropWhile]
  constructor
  · intro h
    have whole := takeWhile_append_dropWhile (p := (· != d)) (l := cs.reverse)
    have others : ∀ c ∈ cs.reverse.takeWhile (· != d), (c != d) = true := fun c => mem_takeWhile_imp
    have stop := head?_dropWhile_not (· != d) cs.reverse
    split at h
    · cases h
    · rename_i found
      obtain ⟨take, drop⟩ := Prod.mk.inj found
      cases h
      rw [drop, head?_cons] at stop
      rw [take, drop] at whole
      rw [take] at others
      have last := congrArg reverse whole
      rw [reverse_append, reverse_cons, reverse_reverse, append_assoc, singleton_append] at last
      refine ⟨by simpa [← last] using stop, fun hd => ?_⟩
      simpa using others d (mem_reverse.mp hd)
  · rintro ⟨rfl, last⟩
    have passed : ∀ c ∈ after.reverse, (c != d) = true := by
      intro c hc
      exact bne_iff_ne.mpr fun same => last (same ▸ mem_reverse.mp hc)
    rw [reverse_append, reverse_cons, append_assoc, takeWhile_append_of_pos passed,
      dropWhile_append_of_pos passed]
    simp

/-- Words with dots between them. -/
def IsDotted (cs : List Char) : Prop :=
  ∀ part ∈ splitAtChar '.' cs, part ≠ [] ∧ ∀ c ∈ part, isWord c = true

theorem isDotted_iff :
    IsDotted cs ↔ (∀ c ∈ cs, isWord c = true ∨ c = '.') ∧ [] ∉ splitAtChar '.' cs := by
  constructor
  · intro h
    refine ⟨fun c hc => ?_, fun empty => (h [] empty).1 rfl⟩
    rw [← intercalate_splitAtChar '.' cs] at hc
    rcases mem_intercalate hc with dot | ⟨part, hp, hc⟩
    · exact .inr (mem_singleton.mp dot)
    · exact .inl ((h part hp).2 c hc)
  · rintro ⟨words, full⟩ part hp
    refine ⟨fun empty => full (empty ▸ hp), fun c hc => ?_⟩
    obtain ⟨listed, other⟩ := mem_of_mem_splitAtChar hp c hc
    exact (words c listed).resolve_right other

namespace EnumText

/-- The class has a dotted name, and the value a name without dots. -/
structure IsNamed (e : EnumText) : Prop where
  className : IsDotted e.className.toList
  entry : IsDotted e.entry.toList
  single : '.' ∉ e.entry.toList

/-- The text starts with the value and its number between angle brackets. -/
def Starts (e : EnumText) (cs : List Char) : Prop :=
  ∃ sign ∈ [[], ['-']], ∃ digits rest, digits ≠ [] ∧ (∀ c ∈ digits, isDecimal c = true) ∧
    cs = '<' :: (e.className.toList ++ '.' :: e.entry.toList ++
      ':' :: ' ' :: (sign ++ (digits ++ '>' :: rest)))

theorem exists_sign (cs : List Char) :
    ∃ sign ∈ [[], ['-']], cs = sign ++ (dropFront? ['-'] cs).getD cs := by
  cases h : dropFront? ['-'] cs with
  | none => exact ⟨[], .head _, rfl⟩
  | some rest => exact ⟨['-'], .tail _ (.head _), dropFront?_eq_some_iff.mp h⟩

theorem starts_of_read? {e : EnumText} (h : read? cs = some e) :
    e.IsNamed ∧ e.Starts cs := by
  simp only [read?, span_eq_takeWhile_dropWhile] at h
  obtain ⟨cs₁, front, h⟩ := Option.bind_eq_some_iff.mp h
  obtain ⟨cs₂, colon, h⟩ := Option.bind_eq_some_iff.mp h
  obtain ⟨sign, hs, signed⟩ := exists_sign cs₂
  generalize (dropFront? ['-'] cs₂).getD cs₂ = cs₃ at h signed
  have name := takeWhile_append_dropWhile (p := fun c => isWord c || c == '.') (l := cs₁)
  have chars : ∀ c ∈ cs₁.takeWhile (fun c => isWord c || c == '.'), isWord c = true ∨ c = '.' :=
    fun c hc => by simpa using mem_takeWhile_imp hc
  have number := takeWhile_append_dropWhile (p := isDecimal) (l := cs₃)
  have digits : ∀ c ∈ cs₃.takeWhile isDecimal, isDecimal c = true := fun c => mem_takeWhile_imp
  generalize cs₁.takeWhile (fun c => isWord c || c == '.') = text at h name chars
  split at h
  · cases h
  · rename_i checked
    simp only [Bool.or_eq_true, not_or, any_eq_true, List.isEmpty_iff, exists_eq_right,
      bne_iff_ne, ne_eq, Decidable.not_not] at checked
    obtain ⟨⟨⟨-, full⟩, nonempty⟩, close⟩ := checked
    obtain ⟨rest, close⟩ := head?_eq_some_iff.mp close
    obtain ⟨⟨className, entry⟩, cut, h⟩ := Option.bind_eq_some_iff.mp h
    cases h
    obtain ⟨rfl, single⟩ := splitAtLast?_eq_some_iff.mp cut
    rw [close] at number
    generalize cs₃.takeWhile isDecimal = ds at nonempty digits number
    have dotted : IsDotted (className ++ '.' :: entry) := isDotted_iff.mpr ⟨chars, full⟩
    rw [IsDotted, splitAtChar_append, forall_mem_append] at dotted
    refine ⟨⟨?_, ?_, ?_⟩, sign, hs, ds, rest, nonempty, digits, ?_⟩
    · rw [String.toList_ofList]
      exact dotted.1
    · rw [String.toList_ofList]
      exact dotted.2
    · rwa [String.toList_ofList]
    · rw [dropFront?_eq_some_iff.mp front, ← name, dropFront?_eq_some_iff.mp colon, signed, ← number,
        String.toList_ofList, String.toList_ofList]
      rfl

theorem read?_of_starts {e : EnumText} (named : e.IsNamed) (h : e.Starts cs) :
    read? cs = some e := by
  obtain ⟨sign, hs, digits, rest, nonempty, decimals, rfl⟩ := h
  have dotted : IsDotted (e.className.toList ++ '.' :: e.entry.toList) := by
    rw [IsDotted, splitAtChar_append]
    exact forall_mem_append.mpr ⟨named.className, named.entry⟩
  obtain ⟨chars, full⟩ := isDotted_iff.mp dotted
  have cut := splitAtLast?_eq_some_iff.mpr
    ⟨(rfl : e.className.toList ++ '.' :: e.entry.toList = _), named.single⟩
  have long : 2 ≤ (splitAtChar '.' (e.className.toList ++ '.' :: e.entry.toList)).length := by
    have first := length_pos_iff.mpr (splitAtChar_ne_nil '.' e.className.toList)
    have last := length_pos_iff.mpr (splitAtChar_ne_nil '.' e.entry.toList)
    rw [splitAtChar_append, length_append]
    omega
  generalize e.className.toList ++ '.' :: e.entry.toList = text at *
  have front : dropFront? ['<'] ('<' :: (text ++ ':' :: ' ' :: (sign ++ (digits ++ '>' :: rest)))) =
      some (text ++ ':' :: ' ' :: (sign ++ (digits ++ '>' :: rest))) := dropFront?_eq_some_iff.mpr rfl
  have name := takeWhile_append_of_head (p := fun c => isWord c || c == '.')
    (fun c hc => by simpa using chars c hc)
    (show ∀ c ∈ (':' :: ' ' :: (sign ++ (digits ++ '>' :: rest))).head?, _ from
      fun c hc => by cases hc; decide)
  have colon : dropFront? [':', ' '] (':' :: ' ' :: (sign ++ (digits ++ '>' :: rest))) =
      some (sign ++ (digits ++ '>' :: rest)) := dropFront?_eq_some_iff.mpr rfl
  have signed : (dropFront? ['-'] (sign ++ (digits ++ '>' :: rest))).getD
      (sign ++ (digits ++ '>' :: rest)) = digits ++ '>' :: rest := by
    rcases mem_cons.mp hs with rfl | hs
    · cases digits with
      | nil => exact absurd rfl nonempty
      | cons c digits =>
        have other : '-' ≠ c := by
          rintro rfl
          cases decimals '-' mem_cons_self
        simp [dropFront?, other]
    · cases mem_singleton.mp hs
      rw [dropFront?_eq_some_iff.mpr rfl]
      rfl
  have number := takeWhile_append_of_head decimals
    (show ∀ c ∈ ('>' :: rest).head?, isDecimal c = false from fun c hc => by cases hc; decide)
  have short : ¬ (splitAtChar '.' text).length < 2 := by omega
  rw [read?, front]
  simp only [Option.bind_eq_bind, Option.bind_some, span_eq_takeWhile_dropWhile, name, colon, signed,
    number, cut]
  simp [full, short, nonempty]

end EnumText

end TypeStubs
