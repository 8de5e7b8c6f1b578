import TypeStubs.CharSet.Blank

/-! Cutting texts at a character and at line ends. -/

namespace TypeStubs

def splitAtChar (d : Char) : List Char → List (List Char)
  | [] => [[]]
  | c :: cs =>
    if c = d then [] :: splitAtChar d cs
    else match splitAtChar d cs with
      | [] => [[c]]
      | piece :: pieces => (c :: piece) :: pieces

theorem splitAtChar_ne_nil (d : Char) (cs : List Char) : splitAtChar d cs ≠ [] := by
  cases cs with
  | nil => exact List.cons_ne_nil _ _
  | cons c cs =>
    rw [splitAtChar]
    split
    · exact List.cons_ne_nil _ _
    · split <;> exact List.cons_ne_nil _ _

theorem splitAtChar_of_not_mem {d : Char} {cs : List Char} (h : d ∉ cs) :
    splitAtChar d cs = [cs] := by
  induction cs with
  | nil => rfl
  | cons c cs ih =>
    have first : c ≠ d := fun hc => h (hc ▸ List.mem_cons_self)
    rw [splitAtChar, if_neg first, ih fun hin => h (.tail _ hin)]

theorem splitAtChar_append (d : Char) (cs rest : List Char) :
    splitAtChar d (cs ++ d :: rest) = splitAtChar d cs ++ splitAtChar d rest := by
  induction cs with
  | nil => simp [splitAtChar]
  | cons c cs ih =>
    obtain ⟨piece, pieces, cut⟩ := List.exists_cons_of_ne_nil (splitAtChar_ne_nil d cs)
    rw [List.cons_append, splitAtChar, splitAtChar, ih, cut]
    split <;> rfl

theorem mem_intercalate {α : Type} {separator : List α} {xs : List (List α)} {c : α}
    (h : c ∈ List.intercalate separator xs) : c ∈ separator ∨ ∃ x ∈ xs, c ∈ x := by
  induction xs with
  | nil => cases h
  | cons x xs ih =>
    cases xs with
    | nil => exact .inr ⟨x, List.mem_cons_self, by rwa [List.intercalate_singleton] at h⟩
    | cons y xs =>
      rw [List.intercalate_cons_cons, List.mem_append, List.mem_append] at h
      rcases h with (h | h) | h
      · exact .inr ⟨x, List.mem_cons_self, h⟩
      · exact .inl h
      · exact (ih h).imp id fun ⟨x, hx, hc⟩ => ⟨x, .tail _ hx, hc⟩

def splitText (d : Char) (s : String) : List String :=
  (splitAtChar d s.toList).map String.ofList

def splitAtLast? (d : Char) (s : List Char) : Option (List Char × List Char) :=
  match s.reverse.span (· != d) with
  | (_, []) => none
  | (after, _ :: before) => some (before.reverse, after.reverse)

/-- The characters that end a line. A carriage return and a line feed together end one line. -/
def isLineEnd (c : Char) : Bool :=
  let n := c.toNat
  (10 ≤ n && n ≤ 13) || (28 ≤ n && n ≤ 30) || n == 0x85 || n == 0x2028 || n == 0x2029

/-- The lines of a text without their ends. A text that ends with a line end has no empty line
after it. -/
def splitLines : List Char → List (List Char)
  | [] => []
  | '\r' :: '\n' :: cs => [] :: splitLines cs
  | c :: cs =>
    if isLineEnd c then [] :: splitLines cs
    else match splitLines cs with
      | [] => [[c]]
      | line :: lines => (c :: line) :: lines

def textLines (s : String) : List String := (splitLines s.toList).map String.ofList

def hasFront (front s : String) : Bool := front.toList.isPrefixOf s.toList

def hasBack (back s : String) : Bool := back.toList.isSuffixOf s.toList

def holdsText (inner : List Char) : List Char → Bool
  | [] => inner.isEmpty
  | c :: cs => inner.isPrefixOf (c :: cs) || holdsText inner cs

def joinWith (separator : String) (pieces : List String) : String :=
  separator.intercalate pieces

end TypeStubs
