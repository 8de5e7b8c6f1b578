import Mathlib.Data.List.Forall2
import TypeStubs.Proofs.ClosedPieces
import TypeStubs.Proofs.WrittenNames
import TypeStubs.Signature.ArgumentText

/-! How the text of a parameter list is cut. There is a parameter for every segment between the commas
that stand outside, and its parts depend on the segment alone. The default is what follows the last
equals sign that stands outside, not the first one. -/

namespace TypeStubs

open List Option

namespace ArgumentText

variable {ms : List (Char × Bool)}

/-! The parameters of marked characters. -/

/-- The place of the last equals sign outside that has no equals sign after it. -/
def assignment? : List (Char × Bool) → Option Nat
  | [] => none
  | m :: ms =>
    match assignment? ms with
    | some i => some (i + 1)
    | none => if m.2 && m.1 == '=' && (ms.head?.map Prod.fst) != some '=' then some 0 else none

def colon? (ms : List (Char × Bool)) : Option Nat := ms.findIdx? fun m => m.2 && m.1 == ':'

def ofMarks (ms : List (Char × Bool)) : ArgumentText :=
  Segment.cut ⟨ms.map Prod.fst, colon? ms, assignment? ms⟩

/-- The segments that hold parameters: all but a blank last one. -/
def filled : List (List (Char × Bool)) → List (List (Char × Bool))
  | [] => []
  | [last] => if (last.map Prod.fst).all isBlank then [] else [last]
  | first :: second :: rest => first :: filled (second :: rest)

/-- What is read from marked characters behind the start of a parameter. -/
def readMarks (s : Segment) : List (Char × Bool) → List ArgumentText
  | [] => if s.text.all isBlank then [] else [s.cut]
  | (c, outside) :: ms =>
    if outside && c == ',' then s.cut :: readMarks {} ms
    else readMarks ((if outside then s.note c (ms.head?.map Prod.fst) else s).push c) ms

theorem scans_splitFrom? : Scans splitFrom? Segment.push readMarks where
  ended closers s := by cases closers <;> simp [splitFrom?, readMarks, apply_ite some]
  skipped _ _ _ _ _ := rfl
  quote _ _ _ _ hq := by simp [splitFrom?, hq]
  opening _ _ _ _ _ hq hc := by simp [splitFrom?, hq, hc]
  closing _ _ _ _ _ hq hc := by simp [splitFrom?, hq, hc]
  inside _ _ _ := rfl
  outside s c cs hq hc rest := by
    by_cases comma : c = ','
    · subst comma
      simp [splitFrom?, hq, hc, rest, readMarks, Function.comp_def]
    · simp only [splitFrom?, hq, hc, comma, rest, if_false, Bool.false_eq_true]
      refine Option.map_congr fun ms hms => ?_
      rw [← nestingFrom?_text hms, head?_map]
      simp [readMarks, comma]

/-- The parameter at hand after marks without a comma outside. -/
def Segment.after (s : Segment) (ms : List (Char × Bool)) : Segment :=
  { text := s.text ++ ms.map Prod.fst
    colon := s.colon.or ((colon? ms).map (s.text.length + ·))
    assignment := ((assignment? ms).map (s.text.length + ·)).or s.assignment }

theorem Segment.after_cons (s : Segment) (m : Char × Bool) {piece : List (Char × Bool)}
    {next : Option Char} (same : next = some '=' ↔ piece.head?.map Prod.fst = some '=') :
    ((if m.2 then s.note m.1 next else s).push m.1).after piece = s.after (m :: piece) := by
  obtain ⟨c, outside⟩ := m
  have shift (n : Nat) : s.text.length + 1 + n = s.text.length + (n + 1) := by omega
  cases outside <;> cases sign : assignment? piece <;>
    simp [after, push, note, assignment?, colon?, findIdx?_cons, sign, shift, same, Option.or_assoc,
      Function.comp_def]
  · constructor <;> split <;> simp [Function.comp_def]
  · split <;> simp [Function.comp_def]

theorem readMarks_append (s : Segment) {piece ms : List (Char × Bool)}
    (none : ∀ m ∈ piece, (m.2 && m.1 == ',') = false) (next : ms.head?.map Prod.fst ≠ some '=') :
    readMarks s (piece ++ ms) = readMarks (s.after piece) ms := by
  induction piece generalizing s with
  | nil => simp [Segment.after, colon?, assignment?]
  | cons m piece ih =>
    obtain ⟨first, others⟩ := forall_mem_cons.mp none
    have same : (piece ++ ms).head?.map Prod.fst = some '=' ↔
        piece.head?.map Prod.fst = some '=' := by
      cases piece with
      | nil => simp [next]
      | cons => rfl
    rw [cons_append, readMarks, first, if_neg Bool.false_ne_true, ih _ others, s.after_cons m same]

theorem Segment.cut_after (piece : List (Char × Bool)) :
    (Segment.after {} piece).cut = ofMarks piece := by
  simp [after, ofMarks]

theorem readMarks_eq (ms : List (Char × Bool)) : readMarks {} ms =
    (filled (cutWhere (fun m => m.2 && m.1 == ',') ms)).map ofMarks := by
  induction hn : ms.length using Nat.strongRecOn generalizing ms with
  | ind n ih =>
    rcases first_where (fun m : Char × Bool => m.2 && m.1 == ',') ms with
      whole | ⟨piece, ⟨c, mark⟩, rest, rfl, hd, has⟩
    · rw [← append_nil ms, readMarks_append _ whole (by simp), readMarks, append_nil,
        Segment.cut_after, cutWhere_of_all_false whole, filled]
      exact (apply_ite (map ofMarks) _ [] [ms]).symm
    · obtain ⟨rfl, hc⟩ := Bool.and_eq_true_iff.mp hd
      obtain rfl := eq_of_beq hc
      rw [readMarks_append _ has (by simp), readMarks, hd, if_pos rfl, ih _ (by simp [← hn]; omega) rest rfl,
        Segment.cut_after, cutWhere_append has hd]
      cases others : cutWhere (fun m : Char × Bool => m.2 && m.1 == ',') rest with
      | nil => exact absurd others (cutWhere_ne_nil _ _)
      | cons => rfl

theorem split?_eq (cs : List Char) : split? cs = (nesting? cs).map fun ms =>
    (filled (cutWhere (fun m => m.2 && m.1 == ',') ms)).map ofMarks := by
  rw [split?, scans_splitFrom?.eq, funext readMarks_eq]

/-! Segments. -/

/-- The segments that hold a parameter: all but a blank last one. -/
def held (segments : List (List Char)) : List (List Char) :=
  if segments.getLast?.all isBlankText then segments.dropLast else segments

/-- What a segment is read as: a name and nothing else if it is blank, otherwise the one parameter
that it is read as alone. -/
def ReadsAs (segment : List Char) (a : ArgumentText) : Prop :=
  if isBlankText segment then a = ⟨segment, none, none⟩ else split? segment = some [a]

theorem filled_subset (pieces : List (List (Char × Bool))) : filled pieces ⊆ pieces := by
  fun_induction filled pieces with
  | case1 => exact Subset.refl _
  | case2 last blank => exact nil_subset _
  | case3 last filled => exact Subset.refl _
  | case4 first second rest ih => exact cons_subset_cons first ih

theorem map_filled (pieces : List (List (Char × Bool))) :
    (filled pieces).map (·.map Prod.fst) = held (pieces.map (·.map Prod.fst)) := by
  fun_induction filled pieces with
  | case1 => rfl
  | case2 last blank => simp [held, isBlankText, blank]
  | case3 last filled => simp [held, isBlankText, filled]
  | case4 first second rest ih =>
    rw [map_cons, ih]
    simp only [held, map_cons, getLast?_cons_cons, dropLast_cons_cons]
    split
    · rfl
    · rfl

theorem assignment?_eq_none (h : ('=', true) ∉ ms) :
    assignment? ms = none := by
  induction ms with
  | nil => rfl
  | cons m ms ih =>
    obtain ⟨c, outside⟩ := m
    rw [assignment?, ih fun hin => h (.tail _ hin)]
    refine if_neg fun sign => h ?_
    simp only [Bool.and_eq_true, beq_iff_eq] at sign
    rw [sign.1.1, sign.1.2]
    exact mem_cons_self

theorem colon?_eq_none (h : (':', true) ∉ ms) : colon? ms = none := by
  refine findIdx?_eq_none_iff.mpr fun m hm => ?_
  obtain ⟨c, outside⟩ := m
  refine Bool.eq_false_iff.mpr fun mark => h ?_
  simp only [Bool.and_eq_true, beq_iff_eq] at mark
  rwa [mark.1, mark.2] at hm

theorem not_mem_of_blank (h : isBlankText (ms.map Prod.fst) = true) {c : Char}
    (hc : isBlank c = false) (outside : Bool) : (c, outside) ∉ ms := by
  intro hm
  have blank := all_eq_true.mp h c (mem_map_of_mem hm)
  exact Bool.false_ne_true (hc.symm.trans blank)

theorem readsAs_ofMarks {piece : List (Char × Bool)} (h : nesting? (ms.map Prod.fst) = some ms)
    (hp : piece ∈ cutWhere (fun m => m.2 && m.1 == ',') ms) :
    ReadsAs (piece.map Prod.fst) (ofMarks piece) := by
  obtain ⟨alone, -, none⟩ := nesting?_of_mem_cutWhere h hp
  unfold ReadsAs
  split
  · rename_i blank
    simp [ofMarks, Segment.cut, assignment?_eq_none (not_mem_of_blank blank (by decide) true),
      colon?_eq_none (not_mem_of_blank blank (by decide) true), take_of_length_le]
  · rename_i filled
    rw [isBlankText] at filled
    rw [split?_eq, alone, map_some, cutWhere_of_all_false none, ArgumentText.filled, if_neg filled]
    rfl

/-- A parameter list and a plain list are cut at the same places: both or none of them are closed,
and then there is a parameter for every segment in order, except for a blank last one, and each is
read as its segment. -/
theorem parameters_match_segments (cs : List Char) :
    Option.Rel (fun segments texts => List.Forall₂ ReadsAs (held segments) texts)
      (pieces? ',' cs) (split? cs) := by
  rw [pieces?_eq, split?_eq]
  cases marks : nesting? cs with
  | none => exact .none
  | some ms =>
    have own : nesting? (ms.map Prod.fst) = some ms := by rwa [nestingFrom?_text marks]
    refine .some ?_
    rw [← map_filled, List.forall₂_map_left_iff, List.forall₂_map_right_iff, List.forall₂_same]
    exact fun piece hp => readsAs_ofMarks own (filled_subset _ hp)

example : split? " a=1, ,(b,), ".toList =
    some [⟨" a".toList, none, some ['1']⟩, ⟨[' '], none, none⟩, ⟨"(b,)".toList, none, none⟩] := by
  decide

/-! Defaults. -/

end ArgumentText

/-- The characters that open or close something. -/
def enclosing : List Char := ['"', '\'', '(', ')', '[', ']', '\x7b', '\x7d']

theorem closer?_cases {o e : Char} (h : closer? o = some e) :
    (o, e) ∈ [('(', ')'), ('[', ']'), ('\x7b', '\x7d')] := by
  unfold closer? at h
  split at h
  · cases h
    simp [*]
  · split at h
    · cases h
      simp [*]
    · split at h
      · cases h
        simp [*]
      · cases h

theorem of_not_enclosing {c : Char} (h : c ∉ enclosing) :
    isQuote c = false ∧ closer? c = none ∧ ∀ o, closer? o ≠ some c := by
  simp only [enclosing, mem_cons, not_mem_nil, or_false, not_or] at h
  refine ⟨by simp [isQuote, h], by simp [closer?, h], fun o ho => ?_⟩
  have pair := closer?_cases ho
  simp [h] at pair

/-- A text without quotes whose brackets are paired, and the characters of it that stand outside of
all brackets. -/
inductive Balanced : (outside text : List Char) → Prop
  | nil : Balanced [] []
  | plain {c : Char} {outside text : List Char} : c ∉ enclosing → Balanced outside text →
      Balanced (c :: outside) (c :: text)
  | group {o e : Char} {within inner outside text : List Char} : closer? o = some e →
      Balanced within inner → Balanced outside text → Balanced outside (o :: (inner ++ e :: text))

namespace Balanced

variable {c : Char} {outside outside' text text' : List Char}

theorem of_plain (h : ∀ c ∈ text, c ∉ enclosing) : Balanced text text := by
  induction text with
  | nil => exact .nil
  | cons c text ih => exact .plain (h c mem_cons_self) (ih fun d hd => h d (.tail _ hd))

section

variable (h : Balanced outside text)
include h

protected theorem append (h' : Balanced outside' text') :
    Balanced (outside ++ outside') (text ++ text') := by
  induction h with
  | nil => exact h'
  | plain hc _ ih => exact .plain hc ih
  | @group o e within inner outside text ho hi _ _ ih =>
    have whole := Balanced.group ho hi ih
    rwa [cons_append, append_assoc, cons_append]

theorem not_enclosing (hc : c ∈ outside) : c ∉ enclosing := by
  induction h with
  | nil => cases hc
  | plain hd _ ih =>
    rcases mem_cons.mp hc with rfl | hc
    · exact hd
    · exact ih hc
  | group _ _ _ _ ih => exact ih hc

theorem nesting? : ∃ ms, TypeStubs.nesting? text = some ms ∧ ∀ c, (c, true) ∈ ms ↔ c ∈ outside := by
  induction h with
  | nil => exact ⟨[], rfl, by simp⟩
  | @plain c outside text hc _ ih =>
    obtain ⟨ms, marks, same⟩ := ih
    have plain := of_not_enclosing hc
    refine ⟨(c, true) :: ms, ?_, fun d => by simp [same]⟩
    rw [TypeStubs.nesting?] at marks ⊢
    simp [nestingFrom?, plain, marks]
  | @group o e within inner outside text ho hi _ ihi ih =>
    obtain ⟨ns, inside, sameInside⟩ := ihi
    obtain ⟨ms, marks, same⟩ := ih
    -- No bracket of the inner text stands outside in it, so it cannot close the group.
    have differs : ∀ c, (c, true) ∈ ns → c ≠ e := by
      rintro c hc rfl
      exact (of_not_enclosing (hi.not_enclosing ((sameInside c).mp hc))).2.2 o ho
    have pair : isQuote o = false ∧ isQuote e = false ∧ closer? e = none := by
      have pair := closer?_cases ho
      simp only [mem_cons, not_mem_nil, or_false, Prod.mk.injEq] at pair
      rcases pair with ⟨rfl, rfl⟩ | ⟨rfl, rfl⟩ | ⟨rfl, rfl⟩ <;> decide
    obtain ⟨hq, hqe, hce⟩ := pair
    refine ⟨(o, false) :: (inner.map (·, false) ++ (e, false) :: ms), ?_, fun c => by simp [same]⟩
    rw [TypeStubs.nesting?, nestingFrom?_opening hq ho]
    have within := nestingFrom?_append_within inside differs [] (e :: text)
    rw [nil_append] at within
    rw [within]
    rw [TypeStubs.nesting?] at marks
    simp [nestingFrom?, hqe, hce, marks]

theorem cut_last (hc : c ∈ outside) :
    ∃ front back ahead behind, text = front ++ c :: back ∧ outside = ahead ++ c :: behind ∧
      Balanced ahead front ∧ Balanced behind back ∧ c ∉ behind := by
  induction h with
  | nil => cases hc
  | @plain d outside text hd h ih =>
    by_cases later : c ∈ outside
    · obtain ⟨front, back, ahead, behind, rfl, rfl, hf, hb, last⟩ := ih later
      exact ⟨d :: front, back, d :: ahead, behind, rfl, rfl, .plain hd hf, hb, last⟩
    · obtain rfl : c = d := (mem_cons.mp hc).resolve_right later
      exact ⟨[], text, [], outside, rfl, rfl, .nil, h, later⟩
  | @group o e within inner outside text ho hi _ _ ih =>
    obtain ⟨front, back, ahead, behind, rfl, rfl, hf, hb, last⟩ := ih hc
    exact ⟨o :: (inner ++ e :: front), back, ahead, behind, by simp, rfl, .group ho hi hf, hb, last⟩

theorem mem_of_head? (hc : text.head? = some c) (ho : closer? c = none) :
    c ∈ outside := by
  cases h with
  | nil => cases hc
  | plain =>
    cases hc
    exact mem_cons_self
  | group hg =>
    cases hc
    rw [ho] at hg
    cases hg

end

end Balanced

namespace ArgumentText

theorem assignment?_append (as : List (Char × Bool)) {bs : List (Char × Bool)} (h : ('=', true) ∉ bs)
    (head : (bs.map Prod.fst).head? ≠ some '=') :
    assignment? (as ++ ('=', true) :: bs) = some as.length := by
  induction as with
  | nil =>
    rw [nil_append, assignment?, assignment?_eq_none h]
    rw [head?_map] at head
    simp [head]
  | cons a as ih => rw [cons_append, assignment?, ih]; rfl

theorem colon?_append {as : List (Char × Bool)} (h : (':', true) ∉ as) (bs : List (Char × Bool)) :
    colon? (as ++ (':', true) :: bs) = some as.length := by
  have none := colon?_eq_none h
  rw [colon?] at none ⊢
  simp [findIdx?_append, none, findIdx?_cons]

theorem ofMarks_parts (name hint : List (Char × Bool)) {default : List (Char × Bool)}
    (hn : (':', true) ∉ name) (hd : ('=', true) ∉ default)
    (head : (default.map Prod.fst).head? ≠ some '=') :
    ofMarks (name ++ (':', true) :: (hint ++ ('=', true) :: default)) =
      ⟨name.map Prod.fst, some (hint.map Prod.fst), some (default.map Prod.fst)⟩ := by
  have place := assignment?_append (name ++ (':', true) :: hint) hd head
  rw [append_assoc, cons_append] at place
  simp only [ofMarks, Segment.cut, place, colon?_append hn, getD_some, map_some, mk.injEq,
    some.injEq]
  refine ⟨by simp, ?_, ?_⟩
  · simp [take_append, drop_append]
  · have front : (name.map Prod.fst ++ ':' :: (hint.map Prod.fst ++ ['='])).length =
        (name ++ (':', true) :: hint).length + 1 := by simp; omega
    have whole : (name ++ (':', true) :: (hint ++ ('=', true) :: default)).map Prod.fst =
        (name.map Prod.fst ++ ':' :: (hint.map Prod.fst ++ ['='])) ++ default.map Prod.fst := by simp
    rw [whole, ← front, drop_left]

theorem isIdentifier_plain {name : String} (h : isIdentifier name = true) :
    ∀ c ∈ name.toList, c ∉ enclosing ++ [',', ':'] := by
  intro c hc mark
  have never : ∀ c ∈ enclosing ++ [',', ':'],
      isIdentifierStart c = false ∧ isIdentifierContinue c = false := forall_of_all (by decide)
  obtain ⟨first, later⟩ := never c mark
  exact not_mem_identifier h first later hc

section

variable {name : String} {hint default outside outside' : List Char}

theorem split?_parts (hn : isIdentifier name = true) (hh : Balanced outside hint)
    (hcomma : ',' ∉ outside) (hd : Balanced outside' default) (hcomma' : ',' ∉ outside')
    (hsign : '=' ∉ outside') :
    split? (name.toList ++ ':' :: (hint ++ '=' :: default)) =
      some [⟨name.toList, some hint, some default⟩] := by
  have plain := isIdentifier_plain hn
  have plainName : Balanced name.toList name.toList := .of_plain fun c hc hb =>
    plain c hc (mem_append_left _ hb)
  obtain ⟨ns, nameMarks, nameOutside⟩ := plainName.nesting?
  obtain ⟨hs, hintMarks, hintOutside⟩ := hh.nesting?
  obtain ⟨ds, defaultMarks, defaultOutside⟩ := hd.nesting?
  have marks : nesting? (name.toList ++ ':' :: (hint ++ '=' :: default)) =
      some (ns ++ (':', true) :: (hs ++ ('=', true) :: ds)) := by
    have sign : nesting? ('=' :: default) = some (('=', true) :: ds) := by
      rw [nesting?] at defaultMarks ⊢
      simp [nestingFrom?, isQuote, closer?, defaultMarks]
    have rest : nesting? (hint ++ '=' :: default) = some (hs ++ ('=', true) :: ds) := by
      rw [nesting?, nestingFrom?_append hintMarks, sign, map_some]
    have colon : nesting? (':' :: (hint ++ '=' :: default)) =
        some ((':', true) :: (hs ++ ('=', true) :: ds)) := by
      rw [nesting?] at rest ⊢
      simp [nestingFrom?, isQuote, closer?, rest]
    rw [nesting?, nestingFrom?_append nameMarks, colon, map_some]
  have noComma : ∀ m ∈ ns ++ (':', true) :: (hs ++ ('=', true) :: ds), (m.2 && m.1 == ',') = false := by
    rintro ⟨c, out⟩ hm
    refine Bool.eq_false_iff.mpr fun comma => ?_
    simp only [Bool.and_eq_true, beq_iff_eq] at comma
    obtain ⟨rfl, rfl⟩ := comma
    simp only [mem_append, mem_cons, Prod.mk.injEq, Char.reduceEq, false_and,
      nameOutside, hintOutside, defaultOutside, hcomma, hcomma', or_false] at hm
    exact plain ',' hm (by simp)
  have filled :
      (((ns ++ (':', true) :: (hs ++ ('=', true) :: ds)).map Prod.fst).all isBlank) = false := by
    rw [nestingFrom?_text marks]
    obtain ⟨c, rest, first, start⟩ := exists_identifier_start hn
    have notBlank : isBlank c = false := Bool.eq_false_iff.mpr fun blank =>
      Bool.false_ne_true ((isIdentifierStart_of_isBlank blank).symm.trans start)
    simp [first, notBlank]
  have head : (ds.map Prod.fst).head? ≠ some '=' := by
    rw [nestingFrom?_text defaultMarks]
    exact fun first => hsign (hd.mem_of_head? first (by decide))
  rw [split?_eq, marks, map_some, cutWhere_of_all_false noComma, ArgumentText.filled,
    if_neg (Bool.eq_false_iff.mp filled), map_singleton,
    ofMarks_parts ns hs (fun hm => plain ':' ((nameOutside ':').mp hm) (by simp))
      (fun hm => hsign ((defaultOutside '=').mp hm)) head,
    nestingFrom?_text nameMarks, nestingFrom?_text hintMarks, nestingFrom?_text defaultMarks]

end

/-- The text behind the colon is cut at the last equals sign that stands outside, so the default starts
at the equals sign after the hint exactly when none stands outside in the default. -/
theorem default_cut_at_last_equals {name : String} {hint default outside outside' : List Char}
    (hn : isIdentifier name = true) (hh : Balanced outside hint)
    (houtside : ',' ∉ outside ∧ '=' ∉ outside) (hd : Balanced outside' default)
    (hcomma : ',' ∉ outside') :
    ∃ hint' default' rest,
      split? (name.toList ++ ": ".toList ++ hint ++ " = ".toList ++ default) =
        some [⟨name.toList, some hint', some default'⟩] ∧
      hint' ++ '=' :: default' = [' '] ++ hint ++ " = ".toList ++ default ∧
      Balanced rest default' ∧ '=' ∉ rest ∧
      (hint' = [' '] ++ hint ++ [' '] ∧ default' = [' '] ++ default ↔ '=' ∉ outside') := by
  have space : Balanced [' '] [' '] := .of_plain (forall_of_all (by decide))
  have sign : Balanced " = ".toList " = ".toList := .of_plain (forall_of_all (by decide))
  have front := (space.append hh).append space
  by_cases later : '=' ∈ outside'
  · obtain ⟨before, after, ahead, behind, rfl, rfl, hb, ha, last⟩ := hd.cut_last later
    have comma : ',' ∉ ahead ∧ ',' ∉ behind := by simpa using hcomma
    refine ⟨[' '] ++ hint ++ " = ".toList ++ before, after, behind, ?_, by simp, ha, last, ?_⟩
    · have parts := split?_parts hn (((space.append hh).append sign).append hb)
        (by simp [houtside.1, comma.1]) ha comma.2 last
      simpa using parts
    · simp only [later, not_true_eq_false, iff_false, not_and]
      intro _ whole
      have := congrArg List.length whole
      simp at this
      omega
  · have own : Balanced ([' '] ++ outside') ([' '] ++ default) := space.append hd
    refine ⟨[' '] ++ hint ++ [' '], [' '] ++ default, _, ?_, by simp, own, by simp [later], ?_⟩
    · have parts := split?_parts hn front (by simp [houtside.1]) own (by simp [hcomma])
        (by simp [later])
      simpa using parts
    · simp [later]

/-- Equals signs inside of brackets and colons do not end a hint or a default. -/
theorem call_default_cut : ∃ hint' default' rest,
    split? ("x".toList ++ ": ".toList ++ "A[b=1]".toList ++ " = ".toList ++ "f(c=2): d".toList) =
      some [⟨"x".toList, some hint', some default'⟩] ∧
    hint' ++ '=' :: default' = [' '] ++ "A[b=1]".toList ++ " = ".toList ++ "f(c=2): d".toList ∧
    Balanced rest default' ∧ '=' ∉ rest ∧ (hint' = [' '] ++ "A[b=1]".toList ++ [' '] ∧
      default' = [' '] ++ "f(c=2): d".toList ↔ '=' ∉ "f: d".toList) :=
  have inner : Balanced "b=1".toList "b=1".toList := .of_plain (forall_of_all (by decide))
  have inner' : Balanced "c=2".toList "c=2".toList := .of_plain (forall_of_all (by decide))
  have tail : Balanced ": d".toList ": d".toList := .of_plain (forall_of_all (by decide))
  default_cut_at_last_equals (by decide) (.plain (by decide) (.group (by decide) inner .nil))
    (by decide) (.plain (by decide) (.group (by decide) inner' tail)) (by decide)

/-- A comparison is torn apart: its last equals sign is taken for the assignment. -/
theorem compared_default_torn :
    Balanced "bool".toList "bool".toList ∧ Balanced "a == b".toList "a == b".toList ∧
      split? ("x".toList ++ ": ".toList ++ "bool".toList ++ " = ".toList ++ "a == b".toList) =
        some [⟨"x".toList, some " bool = a =".toList, some " b".toList⟩] ∧
      " b".toList ≠ [' '] ++ "a == b".toList :=
  ⟨.of_plain (forall_of_all (by decide)), .of_plain (forall_of_all (by decide)), by decide,
    by decide⟩

end ArgumentText

end TypeStubs
