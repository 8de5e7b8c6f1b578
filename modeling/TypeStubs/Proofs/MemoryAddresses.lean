import TypeStubs.Proofs.Addresses
import TypeStubs.Proofs.Outcome

/-! Where objects lie in memory shows in the values of stubs by nothing but the order of sets, as long as
the names of their classes are made of words and dots and capsules have no names. Objects of local classes
and capsules with names show where they lie. -/

namespace TypeStubs

open List

/-! The text of an object with its address, as it is read. -/

theorem isWord_of_isHexDigit {c : Char} (h : isHexDigit c = true) : isWord c = true := by
  have ranges : 48 ≤ c.toNat ∧ c.toNat ≤ 57 ∨ 97 ≤ c.toNat ∧ c.toNat ≤ 102 ∨
      65 ≤ c.toNat ∧ c.toNat ≤ 70 := by
    simp only [isHexDigit, Char.isDigit, Bool.or_eq_true, Bool.and_eq_true, decide_eq_true_eq,
      UInt32.le_iff_toNat_le, ge_iff_le, Char.le_def] at h
    rcases h with (digit | lower) | upper
    · exact .inl digit
    · exact .inr (.inl lower)
    · exact .inr (.inr upper)
  have digits : ∀ n < 128, isHexDigit (Char.ofNat n) = true → isWord (Char.ofNat n) = true := by
    decide
  have word := digits c.toNat (by omega)
  rw [Char.ofNat_toNat] at word
  exact word h

theorem lastWord_append {word current ws : List Char} (hw : ∀ c ∈ ws, isWord c = true)
    (rest : List Char) : lastWord word current (ws ++ rest) = lastWord word (current ++ ws) rest := by
  induction ws generalizing current with
  | nil => rw [nil_append, append_nil]
  | cons c ws ih =>
    obtain ⟨first, others⟩ := forall_mem_cons.mp hw
    rw [cons_append, lastWord, if_pos first, ih others, append_assoc]
    rfl

structure Address where
  digits : List Char
  some : digits ≠ []
  hex : ∀ c ∈ digits, isHexDigit c = true

def addressText (address : Address) : List Char := "at 0x".toList ++ (address.digits ++ ['>'])

theorem Address.not_mem_text (address : Address) : '<' ∉ addressText address := by
  intro h
  simp only [addressText, mem_append] at h
  rcases h with h | h | h
  · exact absurd h (by decide)
  · exact absurd (address.hex _ h) (by decide)
  · exact absurd h (by decide)

theorem Address.eq_of_text {before : List Char} {address address' : Address}
    (h : before ++ addressText address = before ++ addressText address') :
    address.digits = address'.digits :=
  append_cancel_right (append_cancel_left (append_cancel_left h))

/-- Behind the word `object` there may be the word that capsules without a name have. -/
theorem addressed?_of_front {name word : List Char} (some : name ≠ [])
    (named : ∀ c ∈ name, (isWord c || c == '.') = true) (hw : word = [] ∨ word = "NULL ".toList)
    (address : Address) :
    addressed? ('<' :: (name ++ (" object ".toList ++ (word ++ addressText address)))) =
      Option.some (name, []) := by
  let number := "0x".toList ++ (address.digits ++ ['>'])
  let later := word ++ ("at ".toList ++ number)
  have span : (name ++ (" object ".toList ++ later)).span (fun c => isWord c || c == '.') =
      (name, " object ".toList ++ later) := by
    have stops : ∀ c ∈ (" object ".toList ++ later).head?, (isWord c || c == '.') = false := by
      rintro c ⟨⟩
      decide
    obtain ⟨taken, left⟩ := takeWhile_append_of_head named stops
    rw [span_eq_takeWhile_dropWhile, taken, left]
  have last : lastWord [] [] later = ("at ".toList, number) := by
    have digits : ∀ c ∈ "0x".toList ++ address.digits, isWord c = true :=
      forall_mem_append.mpr ⟨forall_of_all (by decide), fun c hc =>
        isWord_of_isHexDigit (address.hex c hc)⟩
    have words : lastWord [] [] later = lastWord "at ".toList [] number := by
      rcases hw with rfl | rfl <;> rfl
    have split : number = ("0x".toList ++ address.digits) ++ ['>'] := by simp [number]
    rw [words, split, lastWord_append digits]
    rfl
  have hex : (address.digits ++ ['>']).span isHexDigit = (address.digits, ['>']) := by
    have stops : ∀ c ∈ ['>'].head?, isHexDigit c = false := by
      rintro c ⟨⟩
      decide
    obtain ⟨taken, left⟩ := takeWhile_append_of_head address.hex stops
    rw [span_eq_takeWhile_dropWhile, taken, left]
  have first : dropFront? ['<'] ('<' :: (name ++ (" object ".toList ++ later))) =
      Option.some (name ++ (" object ".toList ++ later)) := dropFront?_eq_some_iff.mpr rfl
  have object : dropFront? " object ".toList (" object ".toList ++ later) = Option.some later :=
    dropFront?_eq_some_iff.mpr rfl
  have zero : dropFront? ['0', 'x'] number = Option.some (address.digits ++ ['>']) :=
    dropFront?_eq_some_iff.mpr rfl
  have valid : (name.isEmpty || address.digits.isEmpty || "at ".toList != ['a', 't', ' ']) = false := by
    rw [isEmpty_eq_false_iff.mpr some, isEmpty_eq_false_iff.mpr address.some]
    decide
  have text : addressText address = "at ".toList ++ number := rfl
  rw [text, addressed?, first]
  simp only [Option.bind_eq_bind, Option.bind_some, span, object, last, zero, hex, valid]
  rfl

/-! Texts of objects. -/

/-- The text of an object without its address: an object of a class with a name, or a capsule that may
have a name. -/
inductive ObjectText where
  | ofClass (name : String)
  | capsule (name? : Option String)

namespace ObjectText

/-- What stands between the bracket and the address. -/
def front : ObjectText → List Char
  | ofClass name => name.toList ++ " object ".toList
  | capsule none => "capsule object NULL ".toList
  | capsule (some name) => "capsule object \"".toList ++ (name.toList ++ "\" ".toList)

def placed (t : ObjectText) (address : Address) : String :=
  String.ofList ('<' :: (t.front ++ addressText address))

/-- The class has a name of words and dots, or the capsule has no name. -/
inductive IsPlain : ObjectText → Prop
  | ofClass {name : String} : name.toList ≠ [] → (∀ c ∈ name.toList, (isWord c || c == '.') = true) →
      IsPlain (ofClass name)
  | capsule : IsPlain (capsule none)

/-- The class stands in a function or has a sign in its name that is in no word, or the capsule has a
name. -/
inductive IsMarked : ObjectText → Prop
  | nested {name : String} {outer inner : List Char} :
      name.toList = outer ++ ("<locals>".toList ++ inner) → '<' ∉ inner → IsMarked (ofClass name)
  | signed {name : String} {outer inner : List Char} {c : Char} : name.toList = outer ++ c :: inner →
      isAddressChar c = false → '<' ∉ c :: inner → IsMarked (ofClass name)
  | capsule (name : String) : IsMarked (capsule (some name))

theorem IsPlain.withoutAddresses {t : ObjectText} (h : t.IsPlain) :
    ∃ text, ∀ address, withoutAddresses (t.placed address) = text := by
  obtain ⟨name, word, split, some, named, hw⟩ : ∃ name word : List Char,
      t.front = name ++ (" object ".toList ++ word) ∧ name ≠ [] ∧
        (∀ c ∈ name, (isWord c || c == '.') = true) ∧ (word = [] ∨ word = "NULL ".toList) := by
    cases h with
    | @ofClass name some named => exact ⟨name.toList, [], rfl, some, named, .inl rfl⟩
    | capsule =>
      exact ⟨"capsule".toList, _, rfl, by decide, forall_of_all (by decide), .inr rfl⟩
  refine ⟨String.ofList (withoutAddress name), fun address => ?_⟩
  have read := addressed?_of_front some named hw address
  rw [TypeStubs.withoutAddresses, placed, String.toList_ofList, split, append_assoc,
    append_assoc, withoutAddresses_of_some read, withoutAddressesFrom, append_nil]

theorem withoutAddresses_behind_sign {c : Char} (hc : isAddressChar c = false) {inner : List Char}
    (fresh : '<' ∉ c :: inner) (outer : List Char) (address : Address) :
    withoutAddressesFrom 0 (outer ++ c :: (inner ++ addressText address)) =
      (withoutAddressesFrom 0 outer ++ c :: inner) ++ addressText address := by
  have plain : '<' ∉ c :: (inner ++ addressText address) := by
    rw [← cons_append]
    exact fun h => (mem_append.mp h).elim fresh address.not_mem_text
  rw [withoutAddresses_append_stop hc, (stays_of_not_mem plain).eq_self, append_assoc, cons_append]

theorem addressed?_locals (tail : List Char) : addressed? ('<' :: ("locals>".toList ++ tail)) = none :=
  rfl

theorem IsMarked.withoutAddresses {t : ObjectText} (h : t.IsMarked) :
    ∃ before, ∀ address, withoutAddresses (t.placed address) =
      String.ofList (before ++ addressText address) := by
  have shown {outer inner : List Char} {c : Char} (split : '<' :: t.front = outer ++ c :: inner)
      (hc : isAddressChar c = false) (fresh : '<' ∉ c :: inner) :
      ∃ before, ∀ address, TypeStubs.withoutAddresses (t.placed address) =
        String.ofList (before ++ addressText address) := by
    refine ⟨withoutAddressesFrom 0 outer ++ c :: inner, fun address => ?_⟩
    rw [TypeStubs.withoutAddresses, placed, String.toList_ofList, ← cons_append, split,
      append_assoc, cons_append, withoutAddresses_behind_sign hc fresh]
  cases h with
  | @nested name outer inner split fresh =>
    -- What stands between the brackets is a name, but no object comes behind it.
    refine ⟨withoutAddressesFrom 0 ('<' :: outer) ++ ("<locals>".toList ++ (inner ++ " object ".toList)),
      fun address => ?_⟩
    have text : (placed (ofClass name) address).toList = ('<' :: outer) ++
        '<' :: ("locals>".toList ++ (inner ++ (" object ".toList ++ addressText address))) := by
      rw [placed, String.toList_ofList]
      change '<' :: (name.toList ++ " object ".toList ++ addressText address) = _
      rw [split]
      simp
    have plain : '<' ∉ "locals>".toList ++ (inner ++ (" object ".toList ++ addressText address)) := by
      simp only [mem_append, not_or]
      exact ⟨by decide, fresh, by decide, address.not_mem_text⟩
    rw [TypeStubs.withoutAddresses, text, withoutAddresses_append_stop (by decide),
      withoutAddresses_of_none (addressed?_locals _), (stays_of_not_mem plain).eq_self]
    simp
  | @signed name outer inner c split hc fresh =>
    have whole : '<' :: front (ofClass name) = ('<' :: outer) ++ c :: (inner ++ " object ".toList) := by
      change '<' :: (name.toList ++ " object ".toList) = _
      rw [split]
      simp
    refine shown whole hc ?_
    rw [← cons_append, mem_append, not_or]
    exact ⟨fresh, by decide⟩
  | capsule name =>
    have whole : '<' :: front (ObjectText.capsule (some name)) =
        ('<' :: ("capsule object \"".toList ++ name.toList)) ++ '"' :: [' '] := by
      change '<' :: ("capsule object \"".toList ++ (name.toList ++ "\" ".toList)) = _
      simp
    exact shown whole (by decide) (by decide)

end ObjectText

/-! Values in memory. -/

/-- Where the objects with their numbers lie. -/
abbrev Memory := Nat → Address

/-- A value before its objects have got their places: an object with a number and with its text, any
other object, or a collection. An object can be there several times. -/
inductive Unplaced where
  | object (number : Nat) (type : TypeName) (base : BaseType) (text : ObjectText)
  | other (o : Object)
  | list (items : List Unplaced)
  | tuple (items : List Unplaced)
  | set (items : List Unplaced)
  | dict (entries : List (Unplaced × Unplaced))

namespace Unplaced

mutual

/-- The value with its objects where a memory has them. -/
def within (m : Memory) : Unplaced → Object
  | object number type base text => .value type base (text.placed (m number))
  | other o => o
  | list items => .list (allWithin m items)
  | tuple items => .tuple (allWithin m items)
  | set items => .set (allWithin m items)
  | dict entries => .dict (entriesWithin m entries)

def allWithin (m : Memory) : List Unplaced → List Object
  | [] => []
  | v :: vs => v.within m :: allWithin m vs

def entriesWithin (m : Memory) : List (Unplaced × Unplaced) → List (Object × Object)
  | [] => []
  | (k, v) :: es => (k.within m, v.within m) :: entriesWithin m es

end

mutual

/-- The value with all that stands in it, at every depth. -/
def parts : Unplaced → List Unplaced
  | object number type base text => [object number type base text]
  | other o => [other o]
  | list items => list items :: allParts items
  | tuple items => tuple items :: allParts items
  | set items => set items :: allParts items
  | dict entries => dict entries :: entryParts entries

def allParts : List Unplaced → List Unplaced
  | [] => []
  | v :: vs => v.parts ++ allParts vs

def entryParts : List (Unplaced × Unplaced) → List Unplaced
  | [] => []
  | (k, v) :: es => k.parts ++ v.parts ++ entryParts es

end

/-- The values that differ in the order of the sets in them. -/
inductive Rearranged : Unplaced → Unplaced → Prop
  | refl (u : Unplaced) : Rearranged u u
  | trans {u v w : Unplaced} : Rearranged u v → Rearranged v w → Rearranged u w
  | order {items items' : List Unplaced} : items' ~ items → Rearranged (set items) (set items')
  | list {v v' : Unplaced} (front back : List Unplaced) : Rearranged v v' →
      Rearranged (list (front ++ v :: back)) (list (front ++ v' :: back))
  | tuple {v v' : Unplaced} (front back : List Unplaced) : Rearranged v v' →
      Rearranged (tuple (front ++ v :: back)) (tuple (front ++ v' :: back))
  | set {v v' : Unplaced} (front back : List Unplaced) : Rearranged v v' →
      Rearranged (set (front ++ v :: back)) (set (front ++ v' :: back))
  | dict {k k' v v' : Unplaced} (front back : List (Unplaced × Unplaced)) : Rearranged k k' →
      Rearranged v v' → Rearranged (dict (front ++ (k, v) :: back)) (dict (front ++ (k', v') :: back))

/-- What the value can be in a memory. The order of a set follows from where its items lie, so that it
can be any. -/
def Stands (m : Memory) (u : Unplaced) (o : Object) : Prop := ∃ v, Rearranged u v ∧ v.within m = o

def ArePlain (us : List Unplaced) : Prop :=
  ∀ number type base text, object number type base text ∈ us → text.IsPlain

def IsPlain (u : Unplaced) : Prop := ArePlain u.parts

/-- No set in the value has an order. -/
def HasLoneSets (u : Unplaced) : Prop := ∀ items, set items ∈ u.parts → items.length ≤ 1

theorem allParts_eq (vs : List Unplaced) : allParts vs = vs.flatMap parts := by
  induction vs with
  | nil => rfl
  | cons v vs ih => rw [allParts, ih, flatMap_cons]

theorem entryParts_eq (es : List (Unplaced × Unplaced)) :
    entryParts es = es.flatMap fun e => e.1.parts ++ e.2.parts := by
  induction es with
  | nil => rfl
  | cons e es ih => rw [entryParts, ih, flatMap_cons]

theorem arePlain_append {us vs : List Unplaced} :
    ArePlain (us ++ vs) ↔ ArePlain us ∧ ArePlain vs := by
  simp only [ArePlain, mem_append, or_imp, forall_and]

theorem Rearranged.mem_parts {number : Nat} {type : TypeName} {base : BaseType} {text : ObjectText}
    {u v : Unplaced} (h : Rearranged u v) (hm : object number type base text ∈ v.parts) :
    object number type base text ∈ u.parts := by
  induction h with
  | refl => exact hm
  | trans _ _ ih ih' => exact ih (ih' hm)
  | order same => simpa [parts, allParts_eq, same.mem_iff] using hm
  | list front back _ ih | tuple front back _ ih | set front back _ ih =>
    simp only [parts, allParts_eq, flatMap_append, flatMap_cons, mem_cons, mem_append, reduceCtorEq,
      false_or] at hm ⊢
    exact hm.imp_right (.imp_left ih)
  | dict front back _ _ ihk ihv =>
    simp only [parts, entryParts_eq, flatMap_append, flatMap_cons, mem_cons, mem_append, reduceCtorEq,
      false_or] at hm ⊢
    exact hm.imp_right (.imp_left (.imp ihk ihv))

theorem HasLoneSets.eq_of_rearranged {u v : Unplaced} (h : Rearranged u v) (lone : u.HasLoneSets) :
    v = u := by
  induction h with
  | refl => rfl
  | trans _ _ ih ih' =>
    obtain rfl := ih lone
    exact ih' lone
  | @order items items' same =>
    have short : items.length ≤ 1 := lone items (by simp [parts])
    rcases items with - | ⟨v, - | ⟨w, rest⟩⟩
    · rw [same.eq_nil]
    · rw [same.eq_singleton]
    · simp at short
  | list front back _ ih | tuple front back _ ih | set front back _ ih =>
    rw [ih fun items h => lone items (by simp [parts, allParts_eq, flatMap_append, h])]
  | dict front back _ _ ihk ihv =>
    rw [ihk fun items h => lone items (by simp [parts, entryParts_eq, flatMap_append, h]),
      ihv fun items h => lone items (by simp [parts, entryParts_eq, flatMap_append, h])]

end Unplaced

namespace Inspection

theorem valueWith_object (follow : Object → Inspection Value) (type : TypeName) (base : BaseType)
    (text : String) : valueWith follow (.value type base text) =
      pure ⟨withoutAddresses text, false⟩ := by
  have simple : valueWith follow (.value type base text) = simpleValue (.value type base text) := by
    simp only [valueWith]
  rw [simple, simpleValue, if_neg (by exact Bool.false_ne_true), if_neg (by exact Bool.false_ne_true)]
  rfl

section

open Unplaced

variable (follow : Object → Inspection Value) (m m' : Memory)

mutual

theorem valueWith_within (v : Unplaced) (h : v.IsPlain) :
    valueWith follow (v.within m) = valueWith follow (v.within m') := by
  rw [IsPlain, parts.eq_def] at h
  cases v with
  | object number type base text =>
    obtain ⟨shown, same⟩ := (h number type base text mem_cons_self).withoutAddresses
    rw [Unplaced.within, Unplaced.within, valueWith_object, valueWith_object, same, same]
  | other o => simp only [Unplaced.within]
  | list items | tuple items | set items =>
    simp only [Unplaced.within, valueWith,
      valuesWith_within items fun n t b x hx => h n t b x (.tail _ hx)]
  | dict entries =>
    simp only [Unplaced.within, valueWith,
      entriesWith_within entries fun n t b x hx => h n t b x (.tail _ hx)]

theorem valuesWith_within (vs : List Unplaced) (h : ArePlain (allParts vs)) :
    valuesWith follow (allWithin m vs) = valuesWith follow (allWithin m' vs) := by
  cases vs with
  | nil => simp only [allWithin]
  | cons v vs =>
    rw [allParts, arePlain_append] at h
    simp only [allWithin, valuesWith, valueWith_within v h.1, valuesWith_within vs h.2]

theorem entriesWith_within (es : List (Unplaced × Unplaced)) (h : ArePlain (entryParts es)) :
    entriesWith follow (entriesWithin m es) = entriesWith follow (entriesWithin m' es) := by
  cases es with
  | nil => simp only [entriesWithin]
  | cons e es =>
    obtain ⟨k, v⟩ := e
    rw [entryParts, arePlain_append, arePlain_append] at h
    simp only [entriesWithin, entriesWith, valueWith_within k h.1.1, valueWith_within v h.1.2,
      entriesWith_within es h.2]

end

end

/-- A value whose sets keep their orders is the same in every memory. -/
theorem value_within {u : Unplaced} (plain : u.IsPlain) (m m' : Memory) :
    value (u.within m) = value (u.within m') := by
  have follows (n : Nat) : valueWithin n (u.within m) = valueWithin n (u.within m') := by
    cases n with
    | zero => rfl
    | succ n => exact valueWith_within _ m m' u plain
  exact congrArg (world >>= ·) (funext fun w => follows w.reach)

theorem outcome_value_object (type : TypeName) (base : BaseType) (text : String) :
    (value (.value type base text)).outcome ⟨{}, .ofModules []⟩ {} =
      (.ok ⟨withoutAddresses text, false⟩, {}) := by
  have run : (value (.value type base text)).outcome ⟨{}, .ofModules []⟩ {} =
      (valueWith (valueWithin 0) (.value type base text)).outcome ⟨{}, .ofModules []⟩ {} := rfl
  rw [run, valueWith_object]
  rfl

/-- Where all texts of objects are plain, however deep they stand, a value can be written in every memory
as it can be written in one, and it is always written the same if no set in it has an order. The value of
an object whose text is marked is another one for every address. -/
theorem value_in_every_memory (m m' : Memory) :
    (∀ (u : Unplaced) (o : Object), u.IsPlain → u.Stands m o →
      (∃ o', u.Stands m' o' ∧ value o = value o') ∧
        (u.HasLoneSets → ∀ o', u.Stands m' o' → value o = value o')) ∧
    ∀ number type base text, ObjectText.IsMarked text →
      value ((Unplaced.object number type base text).within m) =
        value ((Unplaced.object number type base text).within m') →
      (m number).digits = (m' number).digits := by
  constructor
  · rintro u _ plain ⟨v, hv, rfl⟩
    refine ⟨⟨v.within m', ⟨v, hv, rfl⟩, ?_⟩, ?_⟩
    · exact value_within (fun number type base text h => plain number type base text (hv.mem_parts h)) m m'
    · rintro lone _ ⟨v', hv', rfl⟩
      obtain rfl := lone.eq_of_rearranged hv
      obtain rfl := lone.eq_of_rearranged hv'
      exact value_within plain m m'
  · intro number type base text marked same
    obtain ⟨before, shown⟩ := marked.withoutAddresses
    have outcomes := congrArg (fun x => (x.outcome ⟨{}, .ofModules []⟩ {}).1) same
    simp only [Unplaced.within, outcome_value_object, shown, Except.ok.injEq, Value.mk.injEq, and_true]
      at outcomes
    exact Address.eq_of_text (String.ofList_inj.mp outcomes)

/-- A dictionary with one object as a key and, deeper, among its values. -/
def storedValue : Unplaced :=
  let key := Unplaced.object 1 ⟨some "m", "Key"⟩ .object (.ofClass "m.Key")
  .dict [(key, .list [.set [.object 2 ⟨some "builtins", "PyCapsule"⟩ .object (.capsule none)], key,
    .other (.int 7)])]

theorem stored_and_local_value :
    (∀ m m' o o', storedValue.Stands m o → storedValue.Stands m' o' → value o = value o') ∧
      ∀ m m', value ((Unplaced.object 1 ⟨some "m", "C"⟩ .object (.ofClass "m.f.<locals>.C")).within m) =
        value ((Unplaced.object 1 ⟨some "m", "C"⟩ .object (.ofClass "m.f.<locals>.C")).within m') →
      (m 1).digits = (m' 1).digits := by
  have name : "m.f.<locals>.C".toList = "m.f.".toList ++ ("<locals>".toList ++ ".C".toList) := rfl
  have marked : (ObjectText.ofClass "m.f.<locals>.C").IsMarked := .nested name (by decide)
  have key : (ObjectText.ofClass "m.Key").IsPlain := .ofClass (by decide) (forall_of_all (by decide))
  have plain : storedValue.IsPlain := by
    intro number type base text h
    simp [storedValue, Unplaced.parts, Unplaced.allParts, Unplaced.entryParts] at h
    rcases h with ⟨-, -, -, rfl⟩ | ⟨-, -, -, rfl⟩ | ⟨-, -, -, rfl⟩
    · exact key
    · exact .capsule
    · exact key
  have lone : storedValue.HasLoneSets := by
    intro items h
    simp [storedValue, Unplaced.parts, Unplaced.allParts, Unplaced.entryParts] at h
    simp [h]
  exact ⟨fun m m' o o' h h' => ((value_in_every_memory m m').1 storedValue o plain h).2 lone o' h',
    fun m m' => (value_in_every_memory m m').2 1 ⟨some "m", "C"⟩ .object _ marked⟩

/-- Texts of the same objects at two addresses. -/
theorem local_class_and_capsule_show_address :
    ((value (.value ⟨some "m", "f.<locals>.C"⟩ .object "<m.f.<locals>.C object at 0x1>")).outcome
        ⟨{}, .ofModules []⟩ {} = (.ok ⟨"<m.f.<locals>.C object at 0x1>", false⟩, {}) ∧
      (value (.value ⟨some "m", "f.<locals>.C"⟩ .object "<m.f.<locals>.C object at 0x2>")).outcome
        ⟨{}, .ofModules []⟩ {} = (.ok ⟨"<m.f.<locals>.C object at 0x2>", false⟩, {})) ∧
    (value (.value ⟨some "builtins", "PyCapsule"⟩ .object "<capsule object \"n\" at 0x1>")).outcome
        ⟨{}, .ofModules []⟩ {} = (.ok ⟨"<capsule object \"n\" at 0x1>", false⟩, {}) ∧
      (value (.value ⟨some "builtins", "PyCapsule"⟩ .object "<capsule object \"n\" at 0x2>")).outcome
        ⟨{}, .ofModules []⟩ {} = (.ok ⟨"<capsule object \"n\" at 0x2>", false⟩, {}) :=
  ⟨⟨rfl, rfl⟩, rfl, rfl⟩

end Inspection

end TypeStubs
