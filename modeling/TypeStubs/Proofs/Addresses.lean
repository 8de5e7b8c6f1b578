import Mathlib.Data.List.TakeDrop
import TypeStubs.Proofs.QuotedTexts
import TypeStubs.Proofs.WrittenNames

/-! Texts without the addresses of objects: what is left out stands between two stops, a second pass
changes nothing, and a quoted text stays a quoted text. -/

namespace TypeStubs

open List Option

variable {c : Char} {cs name rest text : List Char}

/-! The text of an object with its address. -/

/-- A character that may stand behind the first one in the text of an object with its address. -/
def isAddressChar (c : Char) : Bool := isWord c || isBlank c || isHexDigit c || c == '.' || c == '>'

theorem isAddressChar_of_word (h : (isWord c || c == '.') = true) : isAddressChar c = true := by
  rcases Bool.or_eq_true_iff.mp h with word | point
  · simp [isAddressChar, word]
  · simp [isAddressChar, point]

theorem isAddressChar_of_hex (h : isHexDigit c = true) : isAddressChar c = true := by
  simp [isAddressChar, h]

theorem lastWord_split (word : List Char) {current : List Char} (hc : ∀ c ∈ current, isWord c = true)
    (cs : List Char) :
    ∃ words, current ++ cs = words ++ (lastWord word current cs).2 ∧
      ∀ c ∈ words, isAddressChar c = true := by
  induction cs generalizing word current with
  | nil => exact ⟨[], by simp [lastWord], by simp⟩
  | cons c cs ih =>
    rw [lastWord]
    split
    · rename_i isWord
      have longer : ∀ d ∈ current ++ [c], TypeStubs.isWord d = true := fun d hd => by
        rcases mem_append.mp hd with hd | hd
        · exact hc d hd
        · rw [mem_singleton.mp hd, isWord]
      simpa using ih word longer
    · split
      · rename_i blank
        obtain ⟨words, whole, plain⟩ := ih (current ++ [c]) (forall_mem_nil _)
        refine ⟨current ++ c :: words, ?_, fun d hd => ?_⟩
        · rw [nil_append] at whole
          rw [append_assoc, cons_append, ← whole]
        · rcases mem_append.mp hd with hd | hd
          · simp [isAddressChar, hc d hd]
          · rcases mem_cons.mp hd with rfl | hd
            · simp [isAddressChar, (Bool.and_eq_true_iff.mp blank).1]
            · exact plain d hd
      · exact ⟨[], rfl, by simp⟩

/-- The text of an object with its address, and the name in it. -/
structure IsAddressed (name inner : List Char) : Prop where
  chars : ∀ c ∈ inner, isAddressChar c = true
  subset : name ⊆ inner
  named : ∀ c ∈ name, (isWord c || c == '.') = true
  length : name.length + 11 ≤ inner.length

theorem exists_addressed (h : addressed? cs = some (name, rest)) :
    ∃ inner, cs = '<' :: (inner ++ rest) ∧ IsAddressed name inner := by
  unfold addressed? at h
  simp only [bind_eq_bind, bind_eq_some_iff, span_eq_takeWhile_dropWhile] at h
  obtain ⟨cs1, front, cs2, object, cs3, zero, cs4, close, h⟩ := h
  split at h
  · cases h
  obtain ⟨named, rfl⟩ := Prod.mk.inj (some.inj h)
  obtain ⟨words, behind, plain⟩ := lastWord_split [] (forall_mem_nil _) cs2
  have whole : cs1 = name ++ cs1.dropWhile fun c => isWord c || c == '.' :=
    named ▸ takeWhile_append_dropWhile.symm
  have number : cs3 = cs3.takeWhile isHexDigit ++ cs3.dropWhile isHexDigit :=
    takeWhile_append_dropWhile.symm
  have word : ∀ c ∈ name, (isWord c || c == '.') = true := fun c hc =>
    all_eq_true.mp all_takeWhile c (named ▸ hc)
  rw [dropFront?_eq_some_iff.mp object] at whole
  rw [dropFront?_eq_some_iff.mp close] at number
  rw [nil_append, dropFront?_eq_some_iff.mp zero, number] at behind
  refine ⟨name ++ (" object ".toList ++ (words ++ (['0', 'x'] ++ (cs3.takeWhile isHexDigit ++ ['>'])))),
    ?_, fun c hc => ?_, subset_append_left _ _, word, ?_⟩
  · rw [dropFront?_eq_some_iff.mp front, whole, behind]
    simp
  · simp only [mem_append] at hc
    have fixed {chars : List Char} (all : chars.all isAddressChar = true) (hc : c ∈ chars) :
        isAddressChar c = true := all_eq_true.mp all c hc
    rcases hc with hc | hc | hc | hc | hc | hc
    · exact isAddressChar_of_word (word c hc)
    · exact fixed (by decide) hc
    · exact plain c hc
    · exact fixed (by decide) hc
    · exact isAddressChar_of_hex (all_eq_true.mp all_takeWhile c hc)
    · exact fixed (by decide) hc
  · have object : " object ".toList.length = 8 := rfl
    simp only [length_append, length_cons, length_nil, object]
    omega

theorem length_rest_lt (h : addressed? cs = some (name, rest)) : rest.length < cs.length := by
  obtain ⟨inner, rfl, -⟩ := exists_addressed h
  rw [length_cons, length_append]
  omega

/-! Stops. -/

section

variable {stop : Char} (hs : isAddressChar stop = false)

include hs

theorem stop_not_mem {chars : List Char} (hc : chars.all isAddressChar = true) : stop ∉ chars := by
  intro h
  have := all_eq_true.mp hc stop h
  rw [hs] at this
  cases this

theorem dropFront?_append_stop {front : List Char} (hf : front.all isAddressChar = true)
    (cs rest : List Char) : dropFront? front (cs ++ stop :: rest) = (dropFront? front cs).map (· ++ stop :: rest) := by
  have step {d c : Char} {ds cs : List Char} :
      dropFront? (d :: ds) (c :: cs) = if d = c then dropFront? ds cs else none := by
    by_cases h : d = c <;> simp [dropFront?, h]
  induction front generalizing cs with
  | nil => simp [dropFront?]
  | cons d front ih =>
    have differs : d ≠ stop := fun h => stop_not_mem hs hf (h ▸ mem_cons_self)
    cases cs with
    | nil =>
      rw [nil_append, step, if_neg differs]
      rfl
    | cons c cs =>
      rw [all_cons, Bool.and_eq_true] at hf
      rw [cons_append, step, step, ih hf.2]
      split <;> rfl

theorem span_append_stop {p : Char → Bool} (hp : ∀ c, p c = true → isAddressChar c = true)
    (cs rest : List Char) :
    (cs ++ stop :: rest).span p = ((cs.span p).1, (cs.span p).2 ++ stop :: rest) := by
  have other : p stop = false := by
    by_contra h
    rw [hp stop (by simpa using h)] at hs
    cases hs
  simp only [span_eq_takeWhile_dropWhile]
  induction cs with
  | nil => simp [other]
  | cons c cs ih =>
    simp only [Prod.mk.injEq] at ih ⊢
    by_cases h : p c = true
    · simpa [h] using ih
    · simp [h]

theorem lastWord_append_stop (word current cs rest : List Char) :
    lastWord word current (cs ++ stop :: rest) =
      ((lastWord word current cs).1, (lastWord word current cs).2 ++ stop :: rest) := by
  have plain : isWord stop = false ∧ isBlank stop = false := by
    simp only [isAddressChar, Bool.or_eq_false_iff] at hs
    exact ⟨hs.1.1.1.1, hs.1.1.1.2⟩
  induction cs generalizing word current with
  | nil => simp [lastWord, plain]
  | cons c cs ih =>
    rw [cons_append, lastWord, lastWord]
    split
    · exact ih _ _
    · split
      · exact ih _ _
      · simp

theorem addressed?_append_stop (c : Char) (cs rest : List Char) :
    addressed? (c :: (cs ++ stop :: rest)) = (addressed? (c :: cs)).map fun r => (r.1, r.2 ++ stop :: rest) := by
  have first (tail : List Char) :
      dropFront? ['<'] (c :: tail) = if c = '<' then some tail else none := by
    by_cases h : c = '<' <;> simp [dropFront?, h, Ne.symm]
  unfold addressed?
  simp only [first]
  split
  · simp only [bind_eq_bind, bind_some, span_append_stop hs fun _ => isAddressChar_of_word,
      dropFront?_append_stop hs (show " object ".toList.all isAddressChar = true by decide)]
    cases dropFront? " object ".toList (cs.span fun c => isWord c || c == '.').2 with
    | none => rfl
    | some cs2 =>
      simp only [map_some, bind_some, lastWord_append_stop hs,
        dropFront?_append_stop hs (show ['0', 'x'].all isAddressChar = true by decide)]
      cases dropFront? ['0', 'x'] (lastWord [] [] cs2).2 with
      | none => rfl
      | some cs3 =>
        simp only [map_some, bind_some, span_append_stop hs fun _ => isAddressChar_of_hex,
          dropFront?_append_stop hs (show ['>'].all isAddressChar = true by decide)]
        cases dropFront? ['>'] (cs3.span isHexDigit).2 with
        | none => rfl
        | some cs4 =>
          simp only [map_some, bind_some]
          split <;> rfl
  · rfl

end

/-! What is left of a text. -/

theorem withoutAddressesFrom_length (skipped rest : List Char) :
    withoutAddressesFrom skipped.length (skipped ++ rest) = withoutAddressesFrom 0 rest := by
  induction skipped with
  | nil => rfl
  | cons c skipped ih => exact ih

def withoutAddress (name : List Char) : List Char := '<' :: (name ++ " object>".toList)

theorem withoutAddresses_of_none (h : addressed? (c :: cs) = none) :
    withoutAddressesFrom 0 (c :: cs) = c :: withoutAddressesFrom 0 cs := by
  rw [withoutAddressesFrom, h]

theorem withoutAddresses_of_some (h : addressed? cs = some (name, rest)) :
    withoutAddressesFrom 0 cs = withoutAddress name ++ withoutAddressesFrom 0 rest := by
  obtain ⟨inner, rfl, -⟩ := exists_addressed h
  rw [withoutAddressesFrom, h]
  simp only [length_append, Nat.add_sub_cancel, withoutAddressesFrom_length]
  simp [withoutAddress]

theorem addressed?_eq_none (h : c ≠ '<') (cs : List Char) : addressed? (c :: cs) = none := by
  cases found : addressed? (c :: cs) with
  | none => rfl
  | some r =>
    obtain ⟨inner, whole, -⟩ := exists_addressed found
    exact absurd (cons_eq_cons.mp whole).1 h

def Stays (text : List Char) : Prop :=
  ∀ rest, withoutAddressesFrom 0 (text ++ rest) = text ++ withoutAddressesFrom 0 rest

theorem stays_of_not_mem (h : '<' ∉ text) : Stays text := by
  intro rest
  induction text with
  | nil => rfl
  | cons c text ih =>
    have first := addressed?_eq_none (fun hc => h (hc ▸ mem_cons_self) : c ≠ '<') (text ++ rest)
    rw [cons_append, withoutAddresses_of_none first, ih fun hin => h (.tail _ hin)]
    rfl

theorem Stays.eq_self (h : Stays text) : withoutAddressesFrom 0 text = text := by
  have := h []
  rwa [append_nil, withoutAddressesFrom, append_nil] at this

theorem address_induction {P : List Char → Prop} (nil : P [])
    (plain : ∀ c cs, addressed? (c :: cs) = none → P cs → P (c :: cs))
    (address : ∀ c cs name tail, addressed? (c :: cs) = some (name, tail) → P tail → P (c :: cs))
    (cs : List Char) : P cs := by
  induction h : cs.length using Nat.strongRecOn generalizing cs with
  | ind n ih =>
    cases cs with
    | nil => exact nil
    | cons c cs =>
      cases found : addressed? (c :: cs) with
      | none => exact plain c cs found (ih cs.length (by simp at h; omega) cs rfl)
      | some r => exact address c cs _ _ found (ih _ (h ▸ length_rest_lt found) r.2 rfl)

theorem withoutAddresses_append_stop {stop : Char} (hs : isAddressChar stop = false)
    (cs rest : List Char) : withoutAddressesFrom 0 (cs ++ stop :: rest) =
      withoutAddressesFrom 0 cs ++ withoutAddressesFrom 0 (stop :: rest) := by
  induction cs using address_induction with
  | nil => rfl
  | plain c cs found ih =>
    have before := addressed?_append_stop hs c cs rest
    rw [found, map_none] at before
    rw [cons_append, withoutAddresses_of_none found, withoutAddresses_of_none before, ih]
    rfl
  | address c cs name tail found ih =>
    have before := addressed?_append_stop hs c cs rest
    rw [found, map_some] at before
    rw [cons_append, withoutAddresses_of_some found, withoutAddresses_of_some before, ih, append_assoc]

theorem addressed?_withoutAddress (h : ∀ c ∈ name, (isWord c || c == '.') = true)
    (rest : List Char) : addressed? (withoutAddress name ++ rest) = none := by
  have named : (name ++ (" object>".toList ++ rest)).span (fun c => isWord c || c == '.') =
      (name, " object>".toList ++ rest) := by
    have stops : ∀ c ∈ (" object>".toList ++ rest).head?, (isWord c || c == '.') = false := by
      intro c hc
      cases hc
      decide
    obtain ⟨taken, left⟩ := takeWhile_append_of_head h stops
    rw [span_eq_takeWhile_dropWhile, taken, left]
  have first : dropFront? ['<'] (withoutAddress name ++ rest) =
      some (name ++ (" object>".toList ++ rest)) := by
    simp [dropFront?, withoutAddress]
  have second : dropFront? " object ".toList (" object>".toList ++ rest) = none := by
    simp [dropFront?]
  unfold addressed?
  simp only [first, named, second, bind_eq_bind, bind_some, bind_none]

theorem stays_withoutAddress (h : ∀ c ∈ name, (isWord c || c == '.') = true) :
    Stays (withoutAddress name) := by
  intro rest
  have plain : '<' ∉ name ++ " object>".toList := fun hin => by
    rcases mem_append.mp hin with hin | hin
    · exact absurd (h _ hin) (by decide)
    · revert hin
      decide
  have first := addressed?_withoutAddress h rest
  rw [withoutAddress, cons_append] at first ⊢
  rw [withoutAddresses_of_none first, stays_of_not_mem plain]
  rfl

theorem withoutAddresses_lt (cs : List Char) :
    ∃ ds, withoutAddressesFrom 0 ('<' :: cs) = '<' :: ds := by
  cases found : addressed? ('<' :: cs) with
  | none => exact ⟨_, withoutAddresses_of_none found⟩
  | some r => exact ⟨_, withoutAddresses_of_some found⟩

theorem addressed?_withoutAddresses (h : addressed? (c :: cs) = none) :
    addressed? (c :: withoutAddressesFrom 0 cs) = none := by
  -- Up to the next start of an address nothing is left out, and what stands behind it does not matter.
  let front := cs.takeWhile (· != '<')
  have split : cs = front ++ cs.dropWhile (· != '<') := takeWhile_append_dropWhile.symm
  have plain : '<' ∉ front := fun hin => by
    have := all_eq_true.mp all_takeWhile _ hin
    simp at this
  cases behind : cs.dropWhile (· != '<') with
  | nil =>
    rw [behind, append_nil] at split
    rwa [(stays_of_not_mem (split ▸ plain)).eq_self]
  | cons d tail =>
    have first : d = '<' := by
      have := head?_dropWhile_not (· != '<') cs
      rw [behind] at this
      simpa using this
    subst first
    obtain ⟨ds, left⟩ := withoutAddresses_lt tail
    have stop : isAddressChar '<' = false := by decide
    rw [split, behind] at h ⊢
    rw [addressed?_append_stop stop, map_eq_none_iff] at h
    rw [stays_of_not_mem plain, left, addressed?_append_stop stop, h, map_none]

theorem withoutAddresses_idempotent (cs : List Char) :
    withoutAddressesFrom 0 (withoutAddressesFrom 0 cs) = withoutAddressesFrom 0 cs := by
  induction cs using address_induction with
  | nil => rfl
  | plain c cs found ih =>
    rw [withoutAddresses_of_none found, withoutAddresses_of_none (addressed?_withoutAddresses found), ih]
  | address c cs name tail found ih =>
    obtain ⟨inner, -, addressed⟩ := exists_addressed found
    rw [withoutAddresses_of_some found, stays_withoutAddress addressed.named, ih]

def holdsAddress : List Char → Bool
  | [] => false
  | c :: cs => (addressed? (c :: cs)).isSome || holdsAddress cs

theorem length_withoutAddresses_le (cs : List Char) :
    (withoutAddressesFrom 0 cs).length ≤ cs.length := by
  induction cs using address_induction with
  | nil => exact Nat.zero_le _
  | plain c cs found ih =>
    rw [withoutAddresses_of_none found]
    exact Nat.succ_le_succ ih
  | address c cs name tail found ih =>
    obtain ⟨inner, whole, addressed⟩ := exists_addressed found
    have shorter := addressed.length
    rw [withoutAddresses_of_some found, whole]
    simp [withoutAddress]
    omega

theorem withoutAddresses_eq_self_iff (cs : List Char) :
    withoutAddressesFrom 0 cs = cs ↔ holdsAddress cs = false := by
  induction cs with
  | nil => exact ⟨fun _ => rfl, fun _ => rfl⟩
  | cons c cs ih =>
    rw [holdsAddress]
    cases found : addressed? (c :: cs) with
    | none => simpa [withoutAddresses_of_none found] using ih
    | some r =>
      obtain ⟨name, rest⟩ := r
      obtain ⟨inner, whole, addressed⟩ := exists_addressed found
      refine ⟨fun same => absurd (congrArg length same) ?_, fun none => by cases none⟩
      have left := length_withoutAddresses_le rest
      have shorter := addressed.length
      rw [withoutAddresses_of_some found, whole]
      simp [withoutAddress]
      omega

theorem Stays.append {more : List Char} (h : Stays text) (h' : Stays more) :
    Stays (text ++ more) := by
  intro rest
  rw [append_assoc, h, h', append_assoc]

theorem stays_intercalate {separator : List Char} (hs : Stays separator) {texts : List (List Char)}
    (h : ∀ text ∈ texts, Stays text) : Stays (intercalate separator texts) := by
  induction texts with
  | nil => exact stays_of_not_mem (not_mem_nil)
  | cons text texts ih =>
    have first := h text mem_cons_self
    have later := ih fun t ht => h t (.tail _ ht)
    cases texts with
    | nil => rwa [intercalate_singleton]
    | cons second texts =>
      rw [intercalate_cons_cons]
      exact (first.append hs).append later

/-! Quoted texts. -/

namespace Quoted

variable {quote : Char} (hq : quote = '"' ∨ quote = '\'')

theorem body_append (quote : Char) (cs ds : List Char) :
    body quote (cs ++ ds) = body quote cs ++ body quote ds := flatMap_append

theorem body_eq_self (h : ∀ c ∈ cs, encodeChar quote c = [c]) : body quote cs = cs := by
  induction cs with
  | nil => rfl
  | cons c cs ih =>
    rw [body_cons, h c mem_cons_self, ih fun d hd => h d (.tail _ hd)]
    rfl

theorem exists_of_body_eq (h : body quote cs = text ++ rest) (plain : '\\' ∉ text) :
    (∀ c ∈ text, encodeChar quote c = [c]) ∧ ∃ ds, cs = text ++ ds ∧ rest = body quote ds := by
  induction text generalizing cs with
  | nil => exact ⟨by simp, cs, rfl, h.symm⟩
  | cons d text ih =>
    cases cs with
    | nil => cases h
    | cons c cs =>
      rw [body_cons] at h
      have stands := stands_encodeChar quote c
      generalize same : encodeChar quote c = piece at h stands
      cases stands with
      | plain _ _ =>
        obtain ⟨rfl, behind⟩ := cons_eq_cons.mp h
        obtain ⟨each, ds, rfl, later⟩ := ih behind fun hin => plain (.tail _ hin)
        refine ⟨fun x hx => ?_, ds, rfl, later⟩
        rcases mem_cons.mp hx with rfl | hx
        · exact same
        · exact each x hx
      | escape _ | code _ _ =>
        obtain ⟨rfl, -⟩ := cons_eq_cons.mp h
        exact absurd mem_cons_self plain

include hq

theorem not_mem_encodeChar {d : Char} (hd : d = '<' ∨ d = '\n') (h : c ≠ d) :
    d ∉ encodeChar quote c := by
  have stands := stands_encodeChar quote c
  generalize encodeChar quote c = text at stands
  cases stands with
  | plain _ _ => simpa using h.symm
  | escape known =>
    simp only [mem_cons, not_mem_nil, or_false, Prod.mk.injEq] at known ⊢
    rcases hq with rfl | rfl <;> rcases hd with rfl | rfl <;>
      rcases known with ⟨-, rfl⟩ | ⟨-, rfl⟩ | ⟨-, rfl⟩ | ⟨-, rfl⟩ | ⟨-, rfl⟩ <;> decide
  | @code letter width known _ =>
    simp only [mem_cons, not_mem_nil, or_false, Prod.mk.injEq] at known ⊢
    rintro (slash | rfl | digit)
    · rcases hd with rfl | rfl <;> revert slash <;> decide
    · rcases hd with rfl | rfl <;> simp at known
    · rcases hd with rfl | rfl <;> exact absurd (of_mem_hexDigits digit).1 (by decide)

theorem encodeChar_withoutAddress (h : ∀ c ∈ name, encodeChar quote c = [c]) :
    ∀ c ∈ withoutAddress name, encodeChar quote c = [c] := by
  have fixed : ∀ c ∈ '<' :: " object>".toList, encodeChar quote c = [c] := by
    rcases hq with rfl | rfl <;> exact forall_of_all (by decide)
  intro c hc
  rcases mem_cons.mp hc with rfl | hc
  · exact fixed _ mem_cons_self
  · rcases mem_append.mp hc with hc | hc
    · exact h c hc
    · exact fixed c (.tail _ hc)

theorem exists_withoutAddresses_body (cs : List Char) :
    ∃ ds, withoutAddressesFrom 0 (body quote cs) = body quote ds ∧
      ∀ d ∈ ['\'', '"'], d ∈ ds ↔ d ∈ cs := by
  induction h : cs.length using Nat.strongRecOn generalizing cs with
  | ind n ih =>
    cases cs with
    | nil => exact ⟨[], rfl, fun _ _ => Iff.rfl⟩
    | cons c cs =>
      obtain ⟨ds, left, quotes⟩ := ih cs.length (by simp at h; omega) cs rfl
      by_cases first : c = '<'
      · subst first
        have same : encodeChar quote '<' = ['<'] := by rcases hq with rfl | rfl <;> decide
        rw [body_cons, same, singleton_append]
        cases found : addressed? ('<' :: body quote cs) with
        | none =>
          refine ⟨'<' :: ds, ?_, fun d hd => by rw [mem_cons, mem_cons, quotes d hd]⟩
          rw [withoutAddresses_of_none found, left, body_cons, same, singleton_append]
        | some r =>
          obtain ⟨name, rest⟩ := r
          obtain ⟨inner, whole, addressed⟩ := exists_addressed found
          -- An address has no backslash, so its characters stand for themselves between the quotes.
          obtain ⟨each, tail, rfl, rfl⟩ := exists_of_body_eq (cons_eq_cons.mp whole).2
            (fun hin => absurd (addressed.chars _ hin) (by decide))
          obtain ⟨ds, left, quotes⟩ := ih tail.length (by simp at h; omega) tail rfl
          refine ⟨withoutAddress name ++ ds, ?_, fun d hd => ?_⟩
          · rw [withoutAddresses_of_some found, left, body_append,
              body_eq_self (encodeChar_withoutAddress hq fun c hc => each c (addressed.subset hc))]
          · have stop : isAddressChar d = false := by
              simp only [mem_cons, not_mem_nil, or_false] at hd
              rcases hd with rfl | rfl <;> decide
            have outside : d ∉ inner := fun hin => by simp [addressed.chars d hin] at stop
            have other : d ∉ withoutAddress name := fun hin => by
              rcases mem_cons.mp hin with rfl | hin
              · revert hd
                decide
              · rcases mem_append.mp hin with hin | hin
                · exact outside (addressed.subset hin)
                · exact stop_not_mem stop (by decide) hin
            have differs : d ≠ '<' := fun h => other (h ▸ mem_cons_self)
            simp [quotes d hd, outside, other, differs]
      · refine ⟨c :: ds, ?_, fun d hd => by rw [mem_cons, mem_cons, quotes d hd]⟩
        rw [body_cons, stays_of_not_mem (not_mem_encodeChar hq (.inl rfl) first), left, body_cons]

omit hq in
theorem exists_withoutAddresses_encode (cs : List Char) :
    ∃ ds, withoutAddressesFrom 0 (encode cs) = encode ds ∧ Stays (encode ds) := by
  have hq := isQuote_mark cs
  obtain ⟨ds, left, quotes⟩ := exists_withoutAddresses_body hq cs
  have same : mark ds = mark cs := by
    simp [mark, quotes '\'' (by decide), quotes '"' (by decide)]
  have stop : isAddressChar (mark cs) = false := by rcases hq with h | h <;> rw [h] <;> decide
  have differs : '<' ∉ [mark cs] := by rcases hq with h | h <;> rw [h] <;> decide
  have enclosed (inner rest : List Char) :
      withoutAddressesFrom 0 (mark cs :: (inner ++ mark cs :: rest)) =
        mark cs :: (withoutAddressesFrom 0 inner ++ mark cs :: withoutAddressesFrom 0 rest) := by
    have first := stays_of_not_mem differs (inner ++ mark cs :: rest)
    have last := stays_of_not_mem differs rest
    rw [singleton_append, singleton_append] at first last
    rw [first, withoutAddresses_append_stop stop, last]
  have stable : withoutAddressesFrom 0 (body (mark cs) ds) = body (mark cs) ds := by
    rw [← left, withoutAddresses_idempotent]
  refine ⟨ds, ?_, fun rest => ?_⟩
  · rw [encode_eq, encode_eq, same, enclosed, left]
    rfl
  · simp only [encode_eq, same, cons_append, append_assoc, nil_append, enclosed, stable]

end Quoted

end TypeStubs
