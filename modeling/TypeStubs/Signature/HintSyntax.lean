import TypeStubs.CharSet.Word
import TypeStubs.Name
import TypeStubs.Signature.Pieces

/-! The structure of the text of a hint, before any name in it is looked up. -/

namespace TypeStubs

mutual

inductive HintSyntax where
  | malformed (text : List Char)
  | single (t : TypeSyntax)
  | union (ts : List TypeSyntax)

inductive TypeSyntax where
  | named (name : QualifiedName) (parameters : Option (List HintSyntax))
  | value (text : List Char)

end

def isNameStart (c : Char) : Bool := c == '_' || c.isAlpha

/-- The characters of a name at the front of a text: a letter or underscore and the word characters
after it. -/
def namePart (cs : List Char) : List Char :=
  match cs with
  | c :: rest => if isNameStart c then c :: rest.takeWhile isWord else []
  | [] => []

/-- The characters of a dot and a name after it at the front of a text, with the blanks around the
dot; nothing if there is no name after a dot. -/
def dottedPart (cs : List Char) : List Char :=
  match cs.dropWhile isBlank with
  | '.' :: rest =>
    match namePart (rest.dropWhile isBlank) with
    | [] => []
    | part => cs.takeWhile isBlank ++ '.' :: rest.takeWhile isBlank ++ part
  | _ => []

def dottedLength (cs : List Char) : Nat :=
  match h : (dottedPart cs).length with
  | 0 => 0
  | n + 1 => if cs.length ≤ n then cs.length else n + 1 + dottedLength (cs.drop (n + 1))
termination_by cs.length
decreasing_by simp; omega

/-- Cuts the longest dotted name off a text. The name may be empty and may start with a dot. -/
def cutName (cs : List Char) : List Char × List Char :=
  let first := (namePart cs).length
  let n := first + dottedLength (cs.drop first)
  (cs.take n, cs.drop n)

def nameOfText (cs : List Char) : QualifiedName :=
  ⟨(splitAtChar '.' (cs.filter (· != ' '))).map String.ofList⟩

def bracketed? : List Char → Option (List Char)
  | '[' :: cs =>
    match cs.getLast? with
    | some ']' => some cs.dropLast
    | _ => none
  | _ => none

theorem length_bracketed? {cs inside : List Char} (h : bracketed? cs = some inside) :
    inside.length < cs.length := by
  unfold bracketed? at h
  split at h
  · split at h
    · cases h
      rw [List.length_dropLast, List.length_cons]
      omega
    · cases h
  · cases h

theorem length_trim_le (cs : List Char) : (trim cs).length ≤ cs.length := by
  have start (s : List Char) : (s.dropWhile isBlank).length ≤ s.length := by
    induction s with
    | nil => simp
    | cons c s ih =>
      simp only [List.dropWhile_cons]
      split
      · simp; omega
      · simp
  have h := start (trimStart cs).reverse
  have h' := start cs
  simp only [trim, trimEnd, trimStart, List.length_reverse] at *
  omega

theorem length_cutName_le (cs : List Char) : (cutName cs).2.length ≤ cs.length := by
  simp [cutName]

mutual

def HintSyntax.ofText (cs : List Char) : HintSyntax :=
  match _cut : pieces? '|' cs with
  | none => .malformed cs
  | some [] => .malformed cs
  | some [piece] => .single (TypeSyntax.ofText piece)
  | some (first :: second :: rest) =>
    .union ((first :: second :: rest).attach.map fun ⟨piece, _⟩ => TypeSyntax.ofText piece)
termination_by 2 * cs.length + 1
decreasing_by
  · have := length_of_mem_pieces? _cut List.mem_cons_self
    omega
  · rename_i hp
    have := length_of_mem_pieces? _cut hp
    omega

def TypeSyntax.ofText (cs : List Char) : TypeSyntax :=
  let text := trim cs
  let name := nameOfText (cutName text).1
  match _behind : trim (cutName text).2 with
  | [] => .named name none
  | c :: rest =>
    match _inside : bracketed? (c :: rest) with
    | none => .value text
    | some inside =>
      match _cut : pieces? ',' inside with
      | none => .value text
      | some parameters =>
        .named name (some (parameters.attach.map fun ⟨piece, _⟩ => HintSyntax.ofText piece))
termination_by 2 * cs.length
decreasing_by
  rename_i hp
  have h1 := length_of_mem_pieces? _cut hp
  have h2 := length_bracketed? _inside
  have h3 := length_trim_le (cutName text).2
  have h4 := length_cutName_le text
  have h5 := length_trim_le cs
  rw [_behind] at h3
  simp only [text] at *
  simp only [List.length_cons] at h2 h3
  omega

end

end TypeStubs
