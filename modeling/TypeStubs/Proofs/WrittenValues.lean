import TypeStubs.Proofs.Addresses
import TypeStubs.Proofs.EqualObjects
import TypeStubs.Proofs.Outcome
import TypeStubs.Proofs.WrittenNumbers

/-! Values as they are written into stubs: the text denotes an equal value of the same type, unless a
text holds the address of an object or a tuple has one item. -/

namespace TypeStubs

open List Source

namespace Object

mutual

/-- The object is not taken for another one when it is written: no text holds an address, and no tuple
has one item. -/
def hasOwnText : Object → Bool
  | str s => !holdsAddress (Quoted.encode s.toList)
  | list xs => haveOwnTexts xs
  | tuple xs => xs.length != 1 && haveOwnTexts xs
  | set xs => haveOwnTexts xs
  | dict es => entriesHaveOwnTexts es
  | _ => true

/-- None of the objects is taken for another one. -/
def haveOwnTexts : List Object → Bool
  | [] => true
  | x :: xs => x.hasOwnText && haveOwnTexts xs

def entriesHaveOwnTexts : List (Object × Object) → Bool
  | [] => true
  | (k, v) :: es => k.hasOwnText && v.hasOwnText && entriesHaveOwnTexts es

end

end Object

namespace Inspection

variable {o : Object} {x : Binary}

/-- How an object is written: the text and the object that the text denotes. -/
structure Written (o : Object) (text : List Char) (read : Object) : Prop where
  value (follow : Object → Inspection Value) (s : Setting) (p : Progress) :
    (valueWith follow o).outcome s p = (.ok ⟨String.ofList text, true⟩, p)
  stays : Stays text
  denotes : Denotes text read
  equal : read.equals o = true ↔ o.hasOwnText = true
  key : read.isKey = o.isKey
  single (x : Object) : read ≠ .tuple [x]

/-! Objects that hold no others. -/

theorem outcome_simpleValue (routine : o.isRoutine = false) (cls : o.isClass = false)
    (s : Setting) (p : Progress) : (simpleValue o).outcome s p =
      (.ok (Value.mk o.displayText o.isLiteral).withoutAddresses, p) := by
  simp [simpleValue, routine, cls]

theorem withoutAddresses_of_stays {text : String} (h : Stays text.toList) (safe : Bool) :
    (Value.mk text safe).withoutAddresses = ⟨text, safe⟩ := by
  rw [Value.withoutAddresses, withoutAddresses, h.eq_self, String.ofList_toList]

theorem outcome_literal (routine : o.isRoutine = false) (cls : o.isClass = false)
    (literal : o.isLiteral = true) (stays : Stays o.displayText.toList) (s : Setting) (p : Progress) :
    (simpleValue o).outcome s p = (.ok ⟨String.ofList o.displayText.toList, true⟩, p) := by
  rw [outcome_simpleValue routine cls, withoutAddresses_of_stays stays, literal, String.ofList_toList]

theorem written_none : Written .none "None".toList .none where
  value follow s p := rfl
  stays := stays_of_not_mem (by decide)
  denotes := denotes_none
  equal := by decide
  key := rfl
  single x := by rintro ⟨⟩

theorem written_bool (b : Bool) :
    Written (.bool b) (if b then "True" else "False").toList (.bool b) where
  value follow s p := by cases b <;> rfl
  stays := stays_of_not_mem (by cases b <;> decide)
  denotes := denotes_bool b
  equal := by simp [Object.equals, Object.hasOwnText]
  key := rfl
  single x := by rintro ⟨⟩

theorem lt_pow_of_length {n k : Nat} (hk : 0 < k) (h : (Nat.toDigits 10 n).length ≤ k) :
    n < Nat.pow 10 k :=
  (Nat.length_toDigits_le_iff (by decide) hk).mp h

theorem written_int {n : Int} (short : (Nat.toDigits 10 n.natAbs).length ≤ maxIntegerDigits) :
    Written (.int n) (toString n).toList (.int n) :=
  have stays := stays_of_not_mem (lt_not_mem_toString n)
  { value := fun _ s p => outcome_literal (o := .int n) rfl rfl rfl stays s p
    stays := stays
    denotes := denotes_int (lt_pow_of_length (by decide) short)
    equal := by simp [Object.equals, Object.hasOwnText]
    key := rfl
    single := by rintro x ⟨⟩ }

theorem equals_refl_of_isDouble (h : x.isDouble = true) {y : Binary}
    (same : NumberKey.ofBinary y = NumberKey.ofBinary x) : y.equals x = true := by
  cases x with
  | nan => cases h
  | infinite => cases h
  | finite =>
    rw [Binary.equals, same]
    exact Bool.and_eq_true_iff.mpr ⟨rfl, decide_eq_true rfl⟩

theorem isFinite_of_isDouble (h : x.isDouble = true) : x.isFinite = true := by
  cases x with
  | nan => cases h
  | infinite => cases h
  | finite => rfl

theorem written_float (double : x.isDouble = true) :
    Written (.float x) x.text.toList (.float x) :=
  have stays := stays_of_not_mem (lt_not_mem_formatted .plain (by decide) double)
  have finite := isFinite_of_isDouble double
  { value := fun _ s p => outcome_literal (o := .float x) rfl rfl finite stays s p
    stays := stays
    denotes := denotes_float double
    equal := ⟨fun _ => rfl, fun _ => equals_refl_of_isDouble double rfl⟩
    key := rfl
    single := by rintro x ⟨⟩ }

theorem written_complex {re im : Binary} (hre : re.isDouble = true) (him : im.isDouble = true) :
    ∃ read, Written (.complex re im) (Binary.complexText re im).toList read := by
  have stays := stays_of_not_mem (lt_not_mem_complexText hre him)
  have literal : (Object.complex re im).isLiteral = true :=
    Bool.and_eq_true_iff.mpr ⟨isFinite_of_isDouble hre, isFinite_of_isDouble him⟩
  obtain ⟨re', im', denotes, res, ims⟩ := denotes_complexText hre him
  have equal : (Object.complex re' im').equals (.complex re im) = true :=
    Bool.and_eq_true_iff.mpr ⟨equals_refl_of_isDouble hre res, equals_refl_of_isDouble him ims⟩
  exact ⟨.complex re' im', fun _ s p => outcome_literal (o := .complex re im) rfl rfl literal stays s p,
    stays, denotes, ⟨fun _ => rfl, fun _ => equal⟩, rfl, by rintro x ⟨⟩⟩

theorem written_str (s : String) : ∃ text read, Written (.str s) text read := by
  obtain ⟨ds, left, stays⟩ := Quoted.exists_withoutAddresses_encode s.toList
  refine ⟨Quoted.encode ds, .str (String.ofList ds), fun _ setting p => ?_, stays,
    denotes_encode ds, ?_, rfl, by rintro x ⟨⟩⟩
  · have cleaned : (Value.mk (Quoted.text s) true).withoutAddresses =
        ⟨String.ofList (Quoted.encode ds), true⟩ := by
      simp only [Value.withoutAddresses, withoutAddresses, Quoted.text, String.toList_ofList, left]
    rw [← cleaned]
    exact outcome_simpleValue (o := .str s) rfl rfl setting p
  · have same : Quoted.encode ds = Quoted.encode s.toList ↔ String.ofList ds = s := by
      refine ⟨fun h => ?_, fun h => ?_⟩
      · rw [encode_injective h, String.ofList_toList]
      · rw [← h, String.toList_ofList]
    rw [Object.equals, Object.hasOwnText, decide_eq_true_iff, ← same, ← left,
      withoutAddresses_eq_self_iff, Bool.not_eq_true']

/-! Collections. -/

def safeValue (text : List Char) : Value := ⟨String.ofList text, true⟩

theorem withoutAddresses_safeValue {text : List Char} (h : Stays text) :
    (safeValue text).withoutAddresses = safeValue text :=
  withoutAddresses_of_stays (by rwa [String.toList_ofList]) true

def collectionText (left right : Char) (texts : List (List Char)) : List Char :=
  left :: (intercalate ", ".toList texts ++ [right])

theorem stays_collectionText {left right : Char} (hl : left ≠ '<') (hr : right ≠ '<')
    {texts : List (List Char)} (h : ∀ text ∈ texts, Stays text) : Stays (collectionText left right texts) := by
  have first : Stays [left] := stays_of_not_mem (by simpa using hl.symm)
  have last : Stays [right] := stays_of_not_mem (by simpa using hr.symm)
  exact first.append ((stays_intercalate (stays_of_not_mem (by decide)) h).append last)

section

variable {xs : List Object} {ws : List (List Char × Object)}
  (h : Forall₂ (fun x w => Written x w.1 w.2) xs ws)

include h

theorem outcome_valuesWith (follow : Object → Inspection Value) (s : Setting) (p : Progress) :
    (valuesWith follow xs).outcome s p = (.ok (ws.map fun w => safeValue w.1), p) := by
  induction h with
  | nil => rfl
  | cons first _ ih =>
    rw [valuesWith, bind_of_ok (first.value follow s p), bind_of_ok ih]
    rfl

theorem stays_items : ∀ text ∈ ws.map Prod.fst, Stays text := by
  induction h with
  | nil => exact forall_mem_nil _
  | cons first _ ih => exact forall_mem_cons.mpr ⟨first.stays, ih⟩

theorem denotes_items : Forall₂ Denotes (ws.map Prod.fst) (ws.map Prod.snd) := by
  induction h with
  | nil => exact .nil
  | cons first _ ih => exact .cons first.denotes ih

theorem areEqual_items :
    Object.areEqual (ws.map Prod.snd) xs = true ↔ Object.haveOwnTexts xs = true := by
  induction h with
  | nil => exact Iff.rfl
  | cons first _ ih =>
    rw [map_cons, Object.areEqual, Object.haveOwnTexts, Bool.and_eq_true, Bool.and_eq_true,
      first.equal, ih]

theorem isKey_items (keys : ∀ x ∈ xs, x.isKey = true) : (ws.map Prod.snd).all Object.isKey = true := by
  induction h with
  | nil => rfl
  | cons first _ ih =>
    rw [map_cons, all_cons, first.key, keys _ mem_cons_self,
      ih fun x hx => keys x (.tail _ hx), Bool.and_true]

theorem areKeys_items : Object.isKey.areKeys (ws.map Prod.snd) = Object.isKey.areKeys xs := by
  induction h with
  | nil => rfl
  | cons first _ ih => rw [map_cons, Object.isKey.areKeys, Object.isKey.areKeys, first.key, ih]

theorem outcome_collection (hne : xs ≠ []) {left right : String} {l r : Char} (hl : left.toList = [l])
    (hr : right.toList = [r]) (stays : Stays (collectionText l r (ws.map Prod.fst))) (type : String)
    (follow : Object → Inspection Value) (s : Setting) (p : Progress) :
    (valuesWith follow xs >>= fun vs => pure (collectionValue type left right vs)).outcome s p =
      (.ok (safeValue (collectionText l r (ws.map Prod.fst))), p) := by
  have some : ws ≠ [] := by
    rintro rfl
    cases h
    exact hne rfl
  have text : left ++ joinWith ", " ((ws.map fun w => safeValue w.1).map Value.text) ++ right =
      String.ofList (collectionText l r (ws.map Prod.fst)) := by
    apply String.toList_injective
    simp [joinWith, String.toList_intercalate, collectionText, safeValue, Function.comp_def, hl, hr]
  have safe : (ws.map fun w => safeValue w.1).all Value.printSafe = true := by
    simp [safeValue]
  rw [bind_of_ok (outcome_valuesWith h follow s p), outcome_pure, collectionValue,
    if_neg (by simpa using some), text, safe]
  exact congrArg (fun v => (Except.ok v, p)) (withoutAddresses_safeValue stays)

theorem exists_written_list : ∃ text read, Written (.list xs) text read := by
  by_cases hne : xs = []
  · subst hne
    exact ⟨"list()".toList, .list [], fun _ _ _ => rfl, stays_of_not_mem (by decide),
      denotes_emptyList, by decide, rfl, by rintro x ⟨⟩⟩
  · have stays : Stays (collectionText '[' ']' (ws.map Prod.fst)) :=
      stays_collectionText (by decide) (by decide) (stays_items h)
    refine ⟨_, .list (ws.map Prod.snd), outcome_collection h hne rfl rfl stays "list", stays,
      denotes_list (denotes_items h), ?_, rfl, by rintro x ⟨⟩⟩
    rw [Object.equals, Object.hasOwnText]
    exact areEqual_items h

omit h in
/-- A tuple of one item is written as the item is between parentheses, and the text denotes the item. -/
theorem written_tuple_single {x : Object} {text : List Char} {read : Object} (h : Written x text read) :
    Written (.tuple [x]) (collectionText '(' ')' [text]) read := by
  have stays : Stays (collectionText '(' ')' [text]) :=
    stays_collectionText (by decide) (by decide) (forall_mem_singleton.mpr h.stays)
  have items : Forall₂ (fun x w => Written x w.1 w.2) [x] [(text, read)] := .cons h .nil
  refine ⟨outcome_collection items (cons_ne_nil _ _) rfl rfl stays "tuple", stays,
    ?_, ?_, ?_, h.single⟩
  · rw [collectionText, intercalate_singleton]
    exact h.denotes.parenthesised
  · have own : (Object.tuple [x]).hasOwnText = false := by simp [Object.hasOwnText]
    -- The item itself is never read as a tuple of one item, so it cannot stand for this one.
    refine ⟨fun equal => ?_, fun same => by rw [own] at same; cases same⟩
    cases read with
    | tuple ys =>
      have length := (Object.areEqual_iff.mp equal).length_eq
      obtain ⟨y, rfl⟩ := length_eq_one_iff.mp length
      exact absurd rfl (h.single y)
    | _ => cases equal
  · rw [h.key, Object.isKey, Object.isKey.areKeys, Object.isKey.areKeys, Bool.and_true]

theorem written_tuple_several (several : 2 ≤ xs.length) :
    Written (.tuple xs) (collectionText '(' ')' (ws.map Prod.fst)) (.tuple (ws.map Prod.snd)) := by
  have stays : Stays (collectionText '(' ')' (ws.map Prod.fst)) :=
    stays_collectionText (by decide) (by decide) (stays_items h)
  have hne : xs ≠ [] := ne_nil_of_length_pos (by omega)
  have length : (ws.map Prod.snd).length = xs.length := by rw [length_map, h.length_eq]
  refine ⟨outcome_collection h hne rfl rfl stays "tuple", stays,
    denotes_tuple (denotes_items h) (length ▸ several), ?_, ?_, fun x single => ?_⟩
  · have notOne : (xs.length != 1) = true := by simp; omega
    rw [Object.equals, Object.hasOwnText, notOne, Bool.true_and]
    exact areEqual_items h
  · rw [Object.isKey, Object.isKey]
    exact areKeys_items h
  · rw [Object.tuple.inj single, length_singleton] at length
    omega

theorem exists_written_tuple : ∃ text read, Written (.tuple xs) text read := by
  cases h with
  | nil =>
    exact ⟨"tuple()".toList, .tuple [], fun _ _ _ => rfl, stays_of_not_mem (by decide),
      denotes_emptyTuple, by decide, rfl, by rintro x ⟨⟩⟩
  | @cons x w xs ws first more =>
    cases more with
    | nil => exact ⟨_, _, written_tuple_single first⟩
    | cons second more =>
      exact ⟨_, _, written_tuple_several (.cons first (.cons second more)) (Nat.le_add_left 2 _)⟩

theorem exists_written_set (plain : ∀ x ∈ xs, x.IsPlain) (keys : ∀ x ∈ xs, x.isKey = true)
    (differ : xs.Pairwise fun x y => x.isSameKey y = false) :
    ∃ text read, Written (.set xs) text read := by
  by_cases hne : xs = []
  · subst hne
    exact ⟨"set()".toList, .set [], fun _ _ _ => rfl, stays_of_not_mem (by decide),
      denotes_emptySet, by decide, rfl, by rintro x ⟨⟩⟩
  · have stays : Stays (collectionText '\x7b' '\x7d' (ws.map Prod.fst)) :=
      stays_collectionText (by decide) (by decide) (stays_items h)
    have some : ws.map Prod.fst ≠ [] := by
      rintro none
      rw [map_eq_nil_iff] at none
      subst none
      cases h
      exact hne rfl
    refine ⟨_, Object.setOf (ws.map Prod.snd), outcome_collection h hne rfl rfl stays "set", stays,
      denotes_set (denotes_items h) some (isKey_items h keys), ?_, rfl, by rintro x ⟨⟩⟩
    rw [Object.hasOwnText, ← areEqual_items h]
    refine ⟨fun equal => ?_, fun equal => ?_⟩
    -- Texts that lose their addresses can become the same key; then items are missing.
    · rcases Object.setOf_cases (ws.map Prod.snd) with ⟨fewer, set, less⟩ | set
      · rw [set, Object.equals] at equal
        have length := (Object.areEqual_iff.mp equal).length_eq
        rw [length_map, ← h.length_eq] at less
        omega
      · rwa [set, Object.equals] at equal
    · have same := Object.pairwise_of_equal (Object.areEqual_iff.mp equal) plain differ
      rwa [Object.setOf_of_pairwise same, Object.equals]

end

/-- An entry of a dictionary as it is written: the texts of its key and of its value, each with the
object that it denotes. -/
structure WrittenEntry where
  keyText : List Char
  key : Object
  valueText : List Char
  value : Object

def WrittenEntry.text (w : WrittenEntry) : List Char := entryText w.keyText w.valueText

def WrittenEntry.read (w : WrittenEntry) : Object × Object := (w.key, w.value)

section

variable {es : List (Object × Object)} {ws : List WrittenEntry}
  (h : Forall₂ (fun e w => Written e.1 w.keyText w.key ∧ Written e.2 w.valueText w.value) es ws)

include h

theorem outcome_entriesWith (follow : Object → Inspection Value) (s : Setting) (p : Progress) :
    (entriesWith follow es).outcome s p =
      (.ok (ws.map fun w => (safeValue w.keyText, safeValue w.valueText)), p) := by
  induction h with
  | nil => rfl
  | cons first _ ih =>
    rw [entriesWith, bind_of_ok (first.1.value follow s p),
      bind_of_ok (first.2.value follow s p), bind_of_ok ih]
    rfl

theorem stays_entries : ∀ text ∈ ws.map WrittenEntry.text, Stays text := by
  induction h with
  | nil => exact forall_mem_nil _
  | cons first _ ih =>
    refine forall_mem_cons.mpr ⟨?_, ih⟩
    exact (first.1.stays.append (stays_of_not_mem (by decide))).append first.2.stays

theorem denotes_entries : Forall₂ (fun t e => Denotes t.1 e.1 ∧ Denotes t.2 e.2)
    (ws.map fun w => (w.keyText, w.valueText)) (ws.map WrittenEntry.read) := by
  induction h with
  | nil => exact .nil
  | cons first _ ih => exact .cons ⟨first.1.denotes, first.2.denotes⟩ ih

theorem entriesEqual_entries : Object.entriesEqual (ws.map WrittenEntry.read) es = true ↔
    Object.entriesHaveOwnTexts es = true := by
  induction h with
  | nil => exact Iff.rfl
  | cons first _ ih =>
    rw [map_cons, WrittenEntry.read, Object.entriesEqual, Object.entriesHaveOwnTexts,
      Bool.and_eq_true, Bool.and_eq_true, Bool.and_eq_true, Bool.and_eq_true, first.1.equal,
      first.2.equal, ih]

theorem isKey_entries (keys : ∀ e ∈ es, e.1.isKey = true) :
    (ws.map WrittenEntry.read).all (fun e => e.1.isKey) = true := by
  induction h with
  | nil => rfl
  | cons first _ ih =>
    rw [map_cons, all_cons, WrittenEntry.read, first.1.key, keys _ mem_cons_self,
      ih fun e he => keys e (.tail _ he), Bool.and_true]

theorem outcome_dictValue (stays : Stays (collectionText '\x7b' '\x7d' (ws.map WrittenEntry.text)))
    (follow : Object → Inspection Value) (s : Setting) (p : Progress) :
    (valueWith follow (.dict es)).outcome s p =
      (.ok (safeValue (collectionText '\x7b' '\x7d' (ws.map WrittenEntry.text))), p) := by
  let values := ws.map fun w => (safeValue w.keyText, safeValue w.valueText)
  have text : "\x7b" ++ joinWith ", " (values.map fun e => e.1.text ++ ": " ++ e.2.text) ++ "\x7d" =
      String.ofList (collectionText '\x7b' '\x7d' (ws.map WrittenEntry.text)) := by
    have each : WrittenEntry.text = fun w => w.keyText ++ ": ".toList ++ w.valueText := rfl
    apply String.toList_injective
    simp [values, joinWith, String.toList_intercalate, collectionText, safeValue, Function.comp_def, each]
  have safe : (values.all fun e => e.1.printSafe && e.2.printSafe) = true := by
    simp [values, safeValue]
  rw [valueWith, bind_of_ok (outcome_entriesWith h follow s p), outcome_pure, dictValue, text, safe]
  exact congrArg (fun v => (Except.ok v, p)) (withoutAddresses_safeValue stays)

theorem exists_written_dict (plain : ∀ e ∈ es, e.1.IsPlain) (keys : ∀ e ∈ es, e.1.isKey = true)
    (differ : es.Pairwise fun e f => e.1.isSameKey f.1 = false) :
    ∃ text read, Written (.dict es) text read := by
  have stays : Stays (collectionText '\x7b' '\x7d' (ws.map WrittenEntry.text)) :=
    stays_collectionText (by decide) (by decide) (stays_entries h)
  have denotes : Denotes (collectionText '\x7b' '\x7d' (ws.map WrittenEntry.text))
      (Object.dictOf (ws.map WrittenEntry.read)) := by
    have := denotes_dict (denotes_entries h) (isKey_entries h keys)
    rwa [map_map] at this
  refine ⟨_, _, outcome_dictValue h stays, stays, denotes, ?_, rfl, by rintro x ⟨⟩⟩
  rw [Object.hasOwnText, ← entriesEqual_entries h]
  refine ⟨fun equal => ?_, fun equal => ?_⟩
  · rcases Object.dictOf_cases (ws.map WrittenEntry.read) with ⟨fewer, dict, less⟩ | dict
    · rw [dict, Object.equals] at equal
      have length := (Object.entriesEqual_iff.mp equal).length_eq
      rw [length_map, ← h.length_eq] at less
      omega
    · rwa [dict, Object.equals] at equal
  · have equalKeys : Forall₂ (fun x y => x.equals y = true)
        ((ws.map WrittenEntry.read).map Prod.fst) (es.map Prod.fst) :=
      forall₂_map_left_iff.mpr (forall₂_map_right_iff.mpr
        ((Object.entriesEqual_iff.mp equal).imp fun _ _ both => both.1))
    have same := Object.pairwise_of_equal equalKeys (by simpa using plain) (pairwise_map.mpr differ)
    rwa [Object.dictOf_of_pairwise (pairwise_map.mp same), Object.equals]

end

/-! All values. -/

theorem exists_forall₂ {α β : Type} {R : α → β → Prop} {xs : List α} (h : ∀ x ∈ xs, ∃ y, R x y) :
    ∃ ys, Forall₂ R xs ys := by
  induction xs with
  | nil => exact ⟨[], .nil⟩
  | cons x xs ih =>
    obtain ⟨y, hy⟩ := h x mem_cons_self
    obtain ⟨ys, hys⟩ := ih fun x hx => h x (.tail _ hx)
    exact ⟨y :: ys, .cons hy hys⟩

theorem exists_written (h : o.IsPlain) : ∃ text read, Written o text read := by
  have items {xs : List Object} (each : ∀ x ∈ xs, ∃ text read, Written x text read) :
      ∃ ws : List (List Char × Object), Forall₂ (fun x w => Written x w.1 w.2) xs ws :=
    exists_forall₂ fun x hx => by
      obtain ⟨text, read, written⟩ := each x hx
      exact ⟨(text, read), written⟩
  induction h with
  | none => exact ⟨_, _, written_none⟩
  | bool b => exact ⟨_, _, written_bool b⟩
  | int n short => exact ⟨_, _, written_int short⟩
  | str s => exact written_str s
  | float x double => exact ⟨_, _, written_float double⟩
  | complex re im hre him => exact ⟨_, written_complex hre him⟩
  | list xs _ ih =>
    obtain ⟨ws, each⟩ := items ih
    exact exists_written_list each
  | tuple xs _ ih =>
    obtain ⟨ws, each⟩ := items ih
    exact exists_written_tuple each
  | set xs plain keys differ ih =>
    obtain ⟨ws, each⟩ := items ih
    exact exists_written_set each plain keys differ
  | dict es plain _ keys differ ihKeys ihValues =>
    have entries : ∀ e ∈ es, ∃ w : WrittenEntry,
        Written e.1 w.keyText w.key ∧ Written e.2 w.valueText w.value := fun e he => by
      obtain ⟨keyText, key, hk⟩ := ihKeys e he
      obtain ⟨valueText, value, hv⟩ := ihValues e he
      exact ⟨⟨keyText, key, valueText, value⟩, hk, hv⟩
    obtain ⟨ws, each⟩ := exists_forall₂ entries
    exact exists_written_dict each plain keys differ

/-- Every plain value is written as a text that can stand in a stub. The text denotes an equal value of
the same type at every level exactly when the value has a text of its own. -/
theorem value_reads_back_iff (described : List Object) (options : Options) (p : Progress) {o : Object}
    (plain : o.IsPlain) : ∃ text read,
      (value o).outcome ⟨options, .ofModules described⟩ p = (.ok ⟨text, true⟩, p) ∧
      Source.evaluate? text.toList = some read ∧ (read.equals o = true ↔ o.hasOwnText = true) := by
  obtain ⟨text, read, written⟩ := exists_written plain
  refine ⟨String.ofList text, read, written.value _ _ p, ?_, written.equal⟩
  rw [String.toList_ofList, written.denotes.evaluate?]

/-- A value with all kinds of collections, one inside of the other. -/
def nestedValue : Object :=
  .dict [(.tuple [.str "it's <b>", .int (-3)],
    .list [.float (.finite true 6755399441055744 (-52)), .set [.none, .bool true,
      .complex (.finite false 0 Binary.minExponent) (.finite false 5629499534213120 (-51))]])]

theorem nested_value_reads_back : ∃ text read,
    (value nestedValue).outcome ⟨{}, .ofModules []⟩ {} = (.ok ⟨text, true⟩, {}) ∧
      Source.evaluate? text.toList = some read ∧ read.equals nestedValue = true := by
  have plain : nestedValue.IsPlain := by
    refine .dict _ (forall_mem_singleton.mpr ?_) (forall_mem_singleton.mpr ?_)
      (by decide) (by decide)
    · refine .tuple _ (forall_mem_cons.mpr ⟨.str _, forall_mem_singleton.mpr ?_⟩)
      exact .int _ (by decide)
    · refine .list _ (forall_mem_cons.mpr ⟨.float _ (by decide), forall_mem_singleton.mpr ?_⟩)
      refine .set _ ?_ (by decide) (by decide)
      exact forall_mem_cons.mpr ⟨.none, forall_mem_cons.mpr ⟨.bool _,
        forall_mem_singleton.mpr (.complex _ _ (by decide) (by decide))⟩⟩
  obtain ⟨text, read, written, evaluated, equal⟩ := value_reads_back_iff [] {} {} plain
  exact ⟨text, read, written, evaluated, equal.mpr (by decide)⟩

/-- The parentheses around one item make no tuple, and a text that holds an address loses it. -/
theorem single_item_and_address_lost :
    ((value (.tuple [.int 1])).outcome ⟨{}, .ofModules []⟩ {} = (.ok ⟨"(1)", true⟩, {}) ∧
      Source.evaluate? "(1)".toList = some (.int 1) ∧ (Object.int 1).equals (.tuple [.int 1]) = false) ∧
    (value (.str "<a object at 0x1>")).outcome ⟨{}, .ofModules []⟩ {} =
        (.ok ⟨"'<a object>'", true⟩, {}) ∧
      Source.evaluate? "'<a object>'".toList = some (.str "<a object>") ∧
      (Object.str "<a object>").equals (.str "<a object at 0x1>") = false :=
  ⟨⟨rfl, rfl, rfl⟩, rfl, rfl, by decide⟩

end Inspection

end TypeStubs
