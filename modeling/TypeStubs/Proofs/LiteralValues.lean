import Mathlib.Data.List.Forall2
import TypeStubs.Object.Key
import TypeStubs.Proofs.QuotedTexts

/-! The values that literals denote: numbers, texts, `None`, truth values, collections of them, and the
calls that make empty collections. -/

namespace TypeStubs

open List Option

variable {c : Char} {text : List Char} {o : Object} {depth : Nat}

/-- The number with the other sign. -/
def Binary.negated : Binary → Binary
  | nan => nan
  | infinite negative => infinite !negative
  | finite negative mantissa exponent => finite (!negative) mantissa exponent

/-- The sum of the number and zero. Only a negative zero changes. -/
def Binary.plusZero : Binary → Binary
  | finite _ 0 exponent => finite false 0 exponent
  | x => x

def Binary.zero : Binary := finite false 0 minExponent

def Object.setOf (items : List Object) : Object :=
  .set ((items.foldl (fun es x => putEntry x x es) []).map Prod.fst)

namespace Source

/-! Characters of strings. -/

def escapeLetter? (c : Char) : Option Char :=
  [('\\', '\\'), ('\'', '\''), ('"', '"'), ('n', '\n'), ('r', '\r'), ('t', '\t')].lookup c

/-- The character with the number that hexadecimal digits at the front of a text denote, and how many
characters it takes with the letter before it. -/
def escapeCode? (width : Nat) (cs : List Char) : Option (Char × Nat) :=
  if hexPrefix width cs && (hexNumber (cs.take width)).isValidChar then
    some (Char.ofNat (hexNumber (cs.take width)), width + 1)
  else none

/-- The character that is escaped behind a backslash, and how many characters it takes. -/
def escape? : List Char → Option (Char × Nat)
  | [] => none
  | c :: cs =>
    if c = 'x' then escapeCode? 2 cs
    else if c = 'u' then escapeCode? 4 cs
    else if c = 'U' then escapeCode? 8 cs
    else (escapeLetter? c).map (·, 1)

/-- The characters that stand between the quotes of a literal. The first `skip` ones belong to the
escape read last. -/
def unescapeFrom? : (skip : Nat) → List Char → Option (List Char)
  | _, [] => some []
  | skip + 1, _ :: cs => unescapeFrom? skip cs
  | 0, c :: cs =>
    if c = '\\' then (escape? cs).bind fun e => (unescapeFrom? e.2 cs).map (e.1 :: ·)
    else (unescapeFrom? 0 cs).map (c :: ·)

/-! Numbers. -/

def numberValue? (kind : NumberKind) (text : List Char) : Option Object :=
  let text := text.filter (· != '_')
  match kind with
  | .integer => (readNatural? text).map fun n => .int n
  | .float => (Binary.unsigned? false text).map .float
  | .imaginary => (Binary.unsigned? false text.dropLast).map (.complex .zero)

/-- The number with the other sign. -/
def negated? : Object → Option Object
  | .int n => some (.int (-n))
  | .float x => some (.float x.negated)
  | .complex re im => some (.complex re.negated im.negated)
  | _ => none

/-- A number that is not complex, as a floating point number. -/
def real? : Object → Option Binary
  | .int n => some (.ofDecimal (n < 0) n.natAbs 0)
  | .float x => some x
  | _ => none

/-- The sum or the difference of a real and an imaginary number. -/
def combined? (minus : Bool) (left right : Object) : Option Object :=
  match real? left, right with
  | some re, .complex _ im =>
    if minus then some (.complex re im.negated.plusZero) else some (.complex re.plusZero im.plusZero)
  | _, _ => none

abbrev TextReader (α : Type) := List Char → Option (α × List Char)

def withoutBlanks (cs : List Char) : List Char := cs.dropWhile (· == ' ')

def readNumber? : TextReader Object := fun cs =>
  match token cs with
  | some (.number kind, rest) =>
    (numberValue? kind (cs.take (cs.length - rest.length))).map (·, rest)
  | _ => none

/-- What may follow a number: a sign and an imaginary number. -/
def readSum? (left : Object) : TextReader Object := fun cs =>
  match withoutBlanks cs with
  | '+' :: cs => (readNumber? (withoutBlanks cs)).bind fun r =>
    (combined? false left r.1).map (·, r.2)
  | '-' :: cs => (readNumber? (withoutBlanks cs)).bind fun r =>
    (combined? true left r.1).map (·, r.2)
  | _ => some (left, cs)

/-! Single values. -/

def emptyCollection? : String → Option Object
  | "list" => some (.list [])
  | "tuple" => some (.tuple [])
  | "set" => some (.set [])
  | _ => none

/-- A value that is no sign, bracket or number. -/
def atom? : Token → TextReader Object
  | .keyword "None", rest => some (.none, rest)
  | .keyword "True", rest => some (.bool true, rest)
  | .keyword "False", rest => some (.bool false, rest)
  | .string ⟨false, false, false, body⟩, rest =>
    (unescapeFrom? 0 body).map fun cs => (.str (String.ofList cs), rest)
  | .name name, '(' :: ')' :: rest => (emptyCollection? name).map (·, rest)
  | _, _ => none

/-! Collections. -/

/-- Items with commas between them up to a closing bracket: the items, whether no comma is missing
before the bracket, and the rest. -/
def readItems? {α : Type} (read : TextReader α) (close : Char) :
    (fuel : Nat) → TextReader (List α × Bool)
  | 0, _ => none
  | fuel + 1, cs =>
    match withoutBlanks cs with
    | [] => none
    | c :: cs =>
      if c = close then some (([], true), cs)
      else (read (c :: cs)).bind fun first =>
        match withoutBlanks first.2 with
        | [] => none
        | d :: rest =>
          if d = ',' then (readItems? read close fuel rest).map fun more =>
            ((first.1 :: more.1.1, more.1.2), more.2)
          else if d = close then some (([first.1], false), rest)
          else none

def readPair? (read : TextReader Object) : TextReader (Object × Object) := fun cs =>
  (read cs).bind fun key =>
    match withoutBlanks key.2 with
    | ':' :: rest => (read (withoutBlanks rest)).map fun val => ((key.1, val.1), val.2)
    | _ => none

/-- What stands between braces: the entries of a dictionary or the items of a set. All keys and items
have to be hashable. -/
def readBraces? (read : TextReader Object) : TextReader Object := fun cs =>
  match readItems? (readPair? read) '\x7d' (cs.length + 1) cs with
  | some ((es, _), rest) => if es.all (·.1.isKey) then some (Object.dictOf es, rest) else none
  | none => (readItems? read '\x7d' (cs.length + 1) cs).bind fun r =>
    if r.1.1.all Object.isKey then some (Object.setOf r.1.1, r.2) else none

/-- What stands between parentheses: the items of a tuple, or one value if there is no comma. -/
def readParentheses? (read : TextReader Object) : TextReader Object := fun cs =>
  (readItems? read ')' (cs.length + 1) cs).map fun r =>
    match r.1 with
    | ([o], false) => (o, r.2)
    | (os, _) => (.tuple os, r.2)

def readToken? : TextReader Object := fun cs =>
  match token cs with
  | some (.number kind, rest) =>
    (numberValue? kind (cs.take (cs.length - rest.length))).bind fun x => readSum? x rest
  | some (t, rest) => atom? t rest
  | none => none

def readValue? (inner : TextReader Object) : TextReader Object := fun cs =>
  match withoutBlanks cs with
  | '(' :: cs => readParentheses? inner cs
  | '[' :: cs => (readItems? inner ']' (cs.length + 1) cs).map fun r => (.list r.1.1, r.2)
  | '\x7b' :: cs => readBraces? inner cs
  | '-' :: cs => (readNumber? (withoutBlanks cs)).bind fun n =>
    (negated? n.1).bind fun x => readSum? x n.2
  | cs => readToken? cs

/-- A value with brackets inside of each other up to a depth. -/
def readWithin? : (depth : Nat) → TextReader Object
  | 0, _ => none
  | depth + 1, cs => readValue? (readWithin? depth) cs

/-- The value that a text denotes, with no limit to its depth. -/
def evaluate? (text : List Char) : Option Object :=
  match readWithin? (text.length + 1) text with
  | some (o, rest) => if (withoutBlanks rest).isEmpty then some o else none
  | none => none

/-! Reading what was written. -/

/-- What may follow a value. -/
def Follows (rest : List Char) : Prop := ∀ c ∈ rest.head?, c ∈ [',', ')', ']', '\x7d', ':']

/-- The text starts with something else than a blank or a closing bracket. -/
def Starts (text : List Char) : Prop := ∃ c ∈ text.head?, c ∉ [' ', ')', ']', '\x7d']

/-- The text is a value, wherever it stands. -/
structure Denotes (text : List Char) (o : Object) : Prop where
  starts : Starts text
  read (depth : Nat) (rest : List Char) (h : text.length ≤ depth) (hr : Follows rest) :
    readWithin? depth (text ++ rest) = some (o, rest)

theorem Follows.cons (hc : c ∈ [',', ')', ']', '\x7d', ':']) (rest : List Char)  :
    Follows (c :: rest) := fun d hd => by
  cases hd
  exact hc

theorem withoutBlanks_space (cs : List Char) : withoutBlanks (' ' :: cs) = withoutBlanks cs := rfl

theorem withoutBlanks_cons (h : c ≠ ' ') (cs : List Char) : withoutBlanks (c :: cs) = c :: cs := by
  simp [withoutBlanks, h]

theorem Starts.withoutBlanks (h : Starts text) (rest : List Char) :
    withoutBlanks (text ++ rest) = text ++ rest := by
  obtain ⟨c, hc, plain⟩ := h
  obtain ⟨cs, rfl⟩ := head?_eq_some_iff.mp hc
  exact withoutBlanks_cons (fun h => plain (h ▸ mem_cons_self)) _

theorem Starts.ne_nil (h : Starts text) : text ≠ [] := by
  obtain ⟨c, hc, -⟩ := h
  rintro rfl
  cases hc

theorem Denotes.evaluate? (h : Denotes text o) : evaluate? text = some o := by
  have read := h.read _ [] (Nat.le_succ text.length) (fun _ hc => by cases hc)
  rw [append_nil] at read
  rw [Source.evaluate?, read]
  rfl

section

variable {α : Type} {read : TextReader α} {close : Char}

theorem readItems?_space (fuel : Nat) (cs : List Char) :
    readItems? read close fuel (' ' :: cs) = readItems? read close fuel cs := by
  cases fuel with
  | zero => rfl
  | succ fuel =>
    rw [readItems?, readItems?, withoutBlanks_space]

theorem readItems?_intercalate (hc : close ∈ [')', ']', '\x7d']) {texts : List (List Char)}
    {os : List α} (h : Forall₂ (fun text o => Starts text ∧
      ∀ rest, Follows rest → read (text ++ rest) = some (o, rest)) texts os) (fuel : Nat)
    (hf : texts.length < fuel) (rest : List Char) :
    readItems? read close fuel (intercalate ", ".toList texts ++ close :: rest) =
      some ((os, texts.isEmpty), rest) := by
  have closing : close ≠ ' ' ∧ close ≠ ',' := by
    simp only [mem_cons, not_mem_nil, or_false] at hc
    rcases hc with rfl | rfl | rfl <;> decide
  have stop := withoutBlanks_cons closing.1 rest
  have follows : Follows (close :: rest) := .cons (by
    simp only [mem_cons, not_mem_nil, or_false] at hc ⊢
    exact .inr (hc.imp_right (Or.imp_right .inl))) rest
  induction h generalizing fuel with
  | nil =>
    obtain ⟨fuel, rfl⟩ : ∃ k, fuel = k + 1 := ⟨fuel - 1, by simp at hf; omega⟩
    rw [readItems?]
    simp [stop]
  | @cons text o texts os first more ih =>
    obtain ⟨fuel, rfl⟩ : ∃ k, fuel = k + 1 := ⟨fuel - 1, by simp at hf; omega⟩
    obtain ⟨starts, reads⟩ := first
    have other : ∀ tail, ∃ c cs, text ++ tail = c :: cs ∧ c ≠ close := by
      intro tail
      obtain ⟨c, hd, plain⟩ := starts
      obtain ⟨cs, rfl⟩ := head?_eq_some_iff.mp hd
      exact ⟨c, cs ++ tail, rfl, fun h => plain (h ▸ .tail _ hc)⟩
    cases more with
    | nil =>
      obtain ⟨c, cs, same, differs⟩ := other (close :: rest)
      have value := reads (close :: rest) follows
      rw [readItems?, intercalate_singleton, starts.withoutBlanks]
      rw [same] at value ⊢
      simp [differs, value, stop, closing.2]
    | @cons second o' texts os next more =>
      let tail := intercalate ", ".toList (second :: texts) ++ close :: rest
      have value := reads (',' :: ' ' :: tail) (.cons mem_cons_self _)
      have text' : intercalate ", ".toList (text :: second :: texts) ++ close :: rest =
          text ++ ',' :: ' ' :: tail := by
        simp [intercalate_cons_cons, tail]
      have comma := withoutBlanks_cons (show ',' ≠ ' ' by decide) (' ' :: tail)
      have later := ih fuel (show _ < fuel by simp at hf ⊢; omega)
      obtain ⟨c, cs, same, differs⟩ := other (',' :: ' ' :: tail)
      rw [readItems?, text', starts.withoutBlanks]
      rw [same] at value ⊢
      simp only [differs, if_false, value, bind_some, comma, if_true, readItems?_space]
      rw [later]
      rfl

end

theorem length_le_intercalate {separator : List Char} {texts : List (List Char)}
    (h : text ∈ texts) : text.length ≤ (intercalate separator texts).length := by
  induction texts with
  | nil => cases h
  | cons t ts ih =>
    cases ts with
    | nil => simp_all
    | cons t' ts =>
      rw [intercalate_cons_cons, length_append, length_append]
      rcases mem_cons.mp h with rfl | h
      · omega
      · have := ih h
        omega

theorem count_le_intercalate (separator : List Char) {texts : List (List Char)}
    (h : ∀ text ∈ texts, text ≠ []) : texts.length ≤ (intercalate separator texts).length := by
  induction texts with
  | nil => simp
  | cons t ts ih =>
    have first := length_pos_iff.mpr (h t mem_cons_self)
    cases ts with
    | nil =>
      rw [intercalate_singleton]
      exact first
    | cons t' ts =>
      have := ih fun t ht => h t (.tail _ ht)
      rw [intercalate_cons_cons, length_append, length_append, length_cons]
      omega

section

variable {texts : List (List Char)} {os : List Object}

variable (h : Forall₂ Denotes texts os)
include h

theorem starts_of_denote : ∀ text ∈ texts, Starts text :=
  ((forall₂_and_left _ _).mp (h.imp fun _ _ d => ⟨d.starts, d⟩)).1

theorem readItems?_denote {close : Char}
    (hc : close ∈ [')', ']', '\x7d']) (hd : (intercalate ", ".toList
    texts).length ≤ depth) (rest : List Char)  :
    readItems? (readWithin? depth) close
        ((intercalate ", ".toList texts ++ close :: rest).length + 1)
        (intercalate ", ".toList texts ++ close :: rest) = some ((os, texts.isEmpty), rest) := by
  have short : ∀ text ∈ texts, text.length ≤ depth := fun text ht =>
    Nat.le_trans (length_le_intercalate ht) hd
  have count := count_le_intercalate ", ".toList fun text ht =>
    (starts_of_denote h text ht).ne_nil
  refine readItems?_intercalate hc ?_ _ (by rw [length_append]; omega) rest
  exact ((forall₂_and_left _ _).mpr ⟨short, h⟩).imp fun text o ⟨length, d⟩ =>
    ⟨d.starts, fun rest hr => d.read depth rest length hr⟩

omit h in
theorem exists_depth {o close : Char} (h : (o :: (text ++ [close])).length ≤ depth) :
    ∃ d, depth = d + 1 ∧ text.length ≤ d :=
  ⟨depth - 1, by simp at h; omega, by simp at h; omega⟩

theorem denotes_list : Denotes ('[' :: (intercalate ", ".toList texts ++ [']'])) (.list os) where
  starts := ⟨'[', rfl, by decide⟩
  read depth rest hd hr := by
    obtain ⟨d, rfl, short⟩ := exists_depth hd
    have items := readItems?_denote h (by decide : ']' ∈ _) short rest
    rw [cons_append, append_assoc, singleton_append, readWithin?, readValue?,
      withoutBlanks_cons (by decide)]
    simp only [items, map_some]

theorem denotes_tuple (several : 2 ≤ os.length) :
    Denotes ('(' :: (intercalate ", ".toList texts ++ [')'])) (.tuple os) where
  starts := ⟨'(', rfl, by decide⟩
  read depth rest hd hr := by
    obtain ⟨d, rfl, short⟩ := exists_depth hd
    have items := readItems?_denote h (by decide : ')' ∈ _) short rest
    rw [cons_append, append_assoc, singleton_append, readWithin?, readValue?,
      withoutBlanks_cons (by decide)]
    simp only [readParentheses?, items, map_some]
    rcases os with _ | ⟨o, _ | ⟨o', os⟩⟩
    · simp at several
    · simp at several
    · rfl

omit h in
theorem Denotes.parenthesised (h : Denotes text o) :
    Denotes ('(' :: (text ++ [')'])) o where
  starts := ⟨'(', rfl, by decide⟩
  read depth rest hd hr := by
    obtain ⟨d, rfl, short⟩ := exists_depth hd
    have inner : (intercalate ", ".toList [text]).length ≤ d := by
      rwa [intercalate_singleton]
    have items := readItems?_denote (.cons h .nil) (by decide : ')' ∈ _) inner rest
    rw [intercalate_singleton] at items
    rw [cons_append, append_assoc, singleton_append, readWithin?, readValue?,
      withoutBlanks_cons (by decide)]
    simp only [readParentheses?, items, map_some]
    rfl

omit h in
theorem readItems?_entries_eq_none (h : Denotes text o)
    (hd : text.length ≤ depth) (fuel : Nat) (rest : List Char) :
    readItems? (readPair? (readWithin? depth)) '\x7d' fuel
      (intercalate ", ".toList (text :: texts) ++ '\x7d' :: rest) = none := by
  cases fuel with
  | zero => rfl
  | succ fuel =>
    obtain ⟨d, tail, whole, mark⟩ : ∃ d tail,
        intercalate ", ".toList (text :: texts) ++ '\x7d' :: rest = text ++ d :: tail ∧ d ∈ [',', '\x7d'] := by
      cases texts with
      | nil => exact ⟨'\x7d', rest, by rw [intercalate_singleton], by decide⟩
      | cons second texts =>
        refine ⟨',', ' ' :: (intercalate ", ".toList (second :: texts) ++ '\x7d' :: rest), ?_, by decide⟩
        rw [intercalate_cons_cons, append_assoc, append_assoc]
        rfl
    have value := h.read depth (d :: tail) hd (.cons (by
      simp only [mem_cons, not_mem_nil, or_false] at mark ⊢
      rcases mark with rfl | rfl <;> simp) tail)
    have entry : readPair? (readWithin? depth) (text ++ d :: tail) = none := by
      rw [readPair?, value, bind_some]
      simp only [mem_cons, not_mem_nil, or_false] at mark
      rcases mark with rfl | rfl <;> rfl
    rw [readItems?, whole, h.starts.withoutBlanks]
    obtain ⟨c, hc, plain⟩ := h.starts
    obtain ⟨cs, rfl⟩ := head?_eq_some_iff.mp hc
    have differs : c ≠ '\x7d' := by
      rintro rfl
      exact plain (by decide)
    rw [cons_append] at entry ⊢
    simp [differs, entry]

theorem denotes_set (hne : texts ≠ [])
    (keys : os.all Object.isKey = true) : Denotes ('\x7b' :: (intercalate ", ".toList texts ++ ['\x7d'])) (Object.setOf os) where
  starts := ⟨'\x7b', rfl, by decide⟩
  read depth rest hd hr := by
    obtain ⟨d, rfl, short⟩ := exists_depth hd
    have items := readItems?_denote h (by decide : '\x7d' ∈ _) short rest
    have entries : readItems? (readPair? (readWithin? d)) '\x7d'
        ((intercalate ", ".toList texts ++ '\x7d' :: rest).length + 1)
        (intercalate ", ".toList texts ++ '\x7d' :: rest) = none := by
      cases h with
      | nil => exact absurd rfl hne
      | cons first _ =>
        exact readItems?_entries_eq_none first
          (Nat.le_trans (length_le_intercalate mem_cons_self) short) _ rest
    rw [cons_append, append_assoc, singleton_append, readWithin?, readValue?,
      withoutBlanks_cons (by decide)]
    simp only [readBraces?, entries, items, bind_some, keys, if_true]

end

def entryText (key val : List Char) : List Char := key ++ ": ".toList ++ val

theorem readPair?_denote {key val : List Char} {k v : Object} (hk : Denotes key k)
    (hv : Denotes val v) (hd : (entryText key val).length ≤ depth) {rest : List Char}
    (hr : Follows rest) :
    readPair? (readWithin? depth) (entryText key val ++ rest) = some ((k, v), rest) := by
  rw [entryText, length_append, length_append] at hd
  have first := hk.read depth (':' :: ' ' :: (val ++ rest)) (by omega) (.cons (by decide) _)
  have second := hv.read depth rest (by omega) hr
  have text : entryText key val ++ rest = key ++ ':' :: ' ' :: (val ++ rest) := by simp [entryText]
  rw [readPair?, text, first, bind_some, withoutBlanks_cons (by decide)]
  simp only [withoutBlanks_space, hv.starts.withoutBlanks, second, map_some]

theorem denotes_dict {texts : List (List Char × List Char)} {es : List (Object × Object)}
    (h : Forall₂ (fun t e => Denotes t.1 e.1 ∧ Denotes t.2 e.2) texts es)
    (keys : es.all (fun e => e.1.isKey) = true) :
    Denotes ('\x7b' :: (intercalate ", ".toList (texts.map fun t => entryText t.1 t.2) ++ ['\x7d']))
      (Object.dictOf es) where
  starts := ⟨'\x7b', rfl, by decide⟩
  read depth rest hd hr := by
    obtain ⟨d, rfl, short⟩ := exists_depth hd
    have starts {key val : List Char} (hk : Starts key) : Starts (entryText key val) := by
      obtain ⟨c, hc, plain⟩ := hk
      obtain ⟨cs, rfl⟩ := head?_eq_some_iff.mp hc
      exact ⟨c, rfl, plain⟩
    have each : Forall₂ (fun text e => Starts text ∧ ∀ rest, Follows rest → text.length ≤ d →
        readPair? (readWithin? d) (text ++ rest) = some (e, rest))
        (texts.map fun t => entryText t.1 t.2) es :=
      forall₂_map_left_iff.mpr (h.imp fun t e ⟨hk, hv⟩ =>
        ⟨starts hk.starts, fun rest hr hd => readPair?_denote hk hv hd hr⟩)
    have short' : ∀ text ∈ texts.map fun t => entryText t.1 t.2, text.length ≤ d := fun text ht =>
      Nat.le_trans (length_le_intercalate ht) short
    have count := count_le_intercalate ", ".toList
      fun text ht => ((forall₂_and_left _ _).mp each).1 text ht |>.ne_nil
    have entries := readItems?_intercalate (by decide : '\x7d' ∈ _)
      (((forall₂_and_left _ _).mpr ⟨short', each⟩).imp fun text e ⟨length, starts, reads⟩ =>
        ⟨starts, fun rest hr => reads rest hr length⟩)
      ((intercalate ", ".toList (texts.map fun t => entryText t.1 t.2) ++
        '\x7d' :: rest).length + 1) (by rw [length_append]; omega) rest
    rw [cons_append, append_assoc, singleton_append, readWithin?, readValue?,
      withoutBlanks_cons (by decide)]
    simp only [readBraces?, entries, keys, if_true]

/-! Single values. -/

theorem readValue?_token {inner : TextReader Object} (h : c ∉ [' ', '(', '[', '\x7b', '-'])
    (cs : List Char)  : readValue? inner (c :: cs) = readToken? (c :: cs) := by
  simp only [mem_cons, not_mem_nil, or_false, not_or] at h
  rw [readValue?, withoutBlanks_cons h.1]
  split <;> simp_all

theorem denotes_of_value (starts : Starts text)
    (h : ∀ inner rest, Follows rest → readValue? inner (text ++ rest) = some (o, rest)) :
    Denotes text o where
  starts := starts
  read depth rest hd hr := by
    have positive := length_pos_iff.mpr starts.ne_nil
    obtain ⟨d, rfl⟩ : ∃ d, depth = d + 1 := ⟨depth - 1, by omega⟩
    exact h _ rest hr

theorem denotes_of_token
    (start : ∃ c ∈ text.head?, c ∉ [' ', '(', '[', '\x7b', '-', ')', ']', '\x7d'])
    (h : ∀ rest, Follows rest → readToken? (text ++ rest) = some (o, rest)) : Denotes text o := by
  obtain ⟨c, hc, plain⟩ := start
  obtain ⟨cs, rfl⟩ := head?_eq_some_iff.mp hc
  refine denotes_of_value ⟨c, hc, fun hin => plain (by simp_all)⟩ fun inner rest hr => ?_
  rw [cons_append, readValue?_token fun hin => plain (by simp_all)]
  exact h rest hr

theorem Follows.cases {rest : List Char} (h : Follows rest) : rest = [] ∨
    ∃ c cs, rest = c :: cs ∧ c ∈ [',', ')', ']', '\x7d', ':'] := by
  cases rest with
  | nil => exact .inl rfl
  | cons c cs => exact .inr ⟨c, cs, rfl, h c rfl⟩

theorem denotes_none : Denotes "None".toList .none := by
  refine denotes_of_token ⟨'N', rfl, by decide⟩ fun rest hr => ?_
  rcases hr.cases with rfl | ⟨c, cs, rfl, hc⟩
  · rfl
  · simp only [mem_cons, not_mem_nil, or_false] at hc
    rcases hc with rfl | rfl | rfl | rfl | rfl <;> rfl

theorem denotes_bool (b : Bool) : Denotes (if b then "True" else "False").toList (.bool b) := by
  refine denotes_of_token (by cases b <;> exact ⟨_, rfl, by decide⟩) fun rest hr => ?_
  rcases hr.cases with rfl | ⟨c, cs, rfl, hc⟩
  · cases b <;> rfl
  · simp only [mem_cons, not_mem_nil, or_false] at hc
    cases b <;> rcases hc with rfl | rfl | rfl | rfl | rfl <;> rfl

theorem denotes_emptyList : Denotes "list()".toList (.list []) :=
  denotes_of_token ⟨'l', rfl, by decide⟩ fun rest hr => rfl

theorem denotes_emptyTuple : Denotes "tuple()".toList (.tuple []) :=
  denotes_of_token ⟨'t', rfl, by decide⟩ fun rest hr => rfl

theorem denotes_emptySet : Denotes "set()".toList (.set []) :=
  denotes_of_token ⟨'s', rfl, by decide⟩ fun rest hr => rfl

/-! Quoted texts. -/

open Quoted (encode encodeChar body mark)

theorem unescapeFrom?_skip (skipped cs : List Char) :
    unescapeFrom? skipped.length (skipped ++ cs) = unescapeFrom? 0 cs := by
  induction skipped with
  | nil => rfl
  | cons c skipped ih => exact ih

theorem unescapeFrom?_encodeChar {quote : Char} (hq : quote = '"' ∨ quote = '\'') (c : Char)
    (cs : List Char) :
    unescapeFrom? 0 (encodeChar quote c ++ cs) = (unescapeFrom? 0 cs).map (c :: ·) := by
  have stands := Quoted.stands_encodeChar quote c
  generalize encodeChar quote c = text at stands
  cases stands with
  | plain other printable =>
    have plain : c ≠ '\\' := fun h => other (h ▸ mem_cons_self)
    rw [singleton_append, unescapeFrom?, if_neg plain]
  | @escape d known =>
    have letter : escape? (d :: cs) = some (c, 1) := by
      simp only [mem_cons, not_mem_nil, or_false, Prod.mk.injEq] at known
      rcases hq with rfl | rfl <;>
        rcases known with ⟨rfl, rfl⟩ | ⟨rfl, rfl⟩ | ⟨rfl, rfl⟩ | ⟨rfl, rfl⟩ | ⟨rfl, rfl⟩ <;> rfl
    rw [cons_append, singleton_append, unescapeFrom?, if_pos rfl, letter, bind_some]
    rfl
  | @code letter width known small =>
    have positive : 0 < width := by
      simp only [mem_cons, not_mem_nil, or_false, Prod.mk.injEq] at known
      omega
    have length := Quoted.length_hexDigits positive small
    have code : escapeCode? width (Quoted.hexDigits width c.toNat ++ cs) = some (c, width + 1) := by
      have front := Quoted.hexPrefix_hexDigits positive small cs
      have digits : (Quoted.hexDigits width c.toNat ++ cs).take width =
          Quoted.hexDigits width c.toNat := take_left' length
      rw [escapeCode?, front, digits, Quoted.hexNumber_hexDigits]
      have valid : c.toNat.isValidChar := c.valid
      rw [if_pos (by simpa using valid), Char.ofNat_toNat]
    have read : escape? (letter :: (Quoted.hexDigits width c.toNat ++ cs)) = some (c, width + 1) := by
      simp only [mem_cons, not_mem_nil, or_false, Prod.mk.injEq] at known
      rcases known with ⟨rfl, rfl⟩ | ⟨rfl, rfl⟩ | ⟨rfl, rfl⟩ <;>
        simpa only [escape?, Char.reduceEq, if_true, if_false] using code
    have skipped := unescapeFrom?_skip (letter :: Quoted.hexDigits width c.toNat) cs
    rw [length_cons, length, cons_append] at skipped
    rw [cons_append, cons_append, unescapeFrom?, if_pos rfl, read, bind_some, skipped]

theorem unescapeFrom?_body {quote : Char} (hq : quote = '"' ∨ quote = '\'') (cs : List Char) :
    unescapeFrom? 0 (body quote cs) = some cs := by
  induction cs with
  | nil => rfl
  | cons c cs ih => rw [Quoted.body_cons, unescapeFrom?_encodeChar hq, ih, map_some]

theorem denotes_encode (cs : List Char) : Denotes (encode cs) (.str (String.ofList cs)) := by
  have hq := Quoted.isQuote_mark cs
  refine denotes_of_token ⟨mark cs, rfl, ?_⟩ fun rest hr => ?_
  · rcases hq with h | h <;> rw [h] <;> decide
  · have noQuote : rest.head? ≠ some (mark cs) := by
      intro same
      have follows := hr _ same
      rcases hq with h | h <;> rw [h] at follows <;> revert follows <;> decide
    rw [readToken?, Quoted.token_encode cs rest noQuote]
    simp only [atom?, unescapeFrom?_body hq, map_some]

theorem encode_injective {cs ds : List Char} (h : encode cs = encode ds) : cs = ds := by
  have same := (denotes_encode cs).evaluate?
  rw [h, (denotes_encode ds).evaluate?] at same
  simpa [String.ofList_inj] using same.symm

end Source

end TypeStubs
