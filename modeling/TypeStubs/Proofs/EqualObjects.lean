import TypeStubs.Proofs.LiteralValues
import TypeStubs.Proofs.RoundedDecimals

/-! Equal objects. -/

namespace TypeStubs

open List

/-- Two floating point numbers are equal. What is no number is not equal to itself. -/
def Binary.equals (x y : Binary) : Bool :=
  (NumberKey.ofBinary x).isSome && NumberKey.ofBinary x = NumberKey.ofBinary y

namespace Object

variable {es fs : List (Object × Object)} {a : Object}

mutual

/-- Two objects are equal and of the same type, and so are the objects that they hold, one by one. -/
def equals : Object → Object → Bool
  | none, none => true
  | bool a, bool b => a = b
  | int m, int n => m = n
  | str s, str t => s = t
  | float x, float y => x.equals y
  | complex re im, complex re' im' => re.equals re' && im.equals im'
  | list xs, list ys => areEqual xs ys
  | tuple xs, tuple ys => areEqual xs ys
  | set xs, set ys => areEqual xs ys
  | dict es, dict fs => entriesEqual es fs
  | _, _ => false

def areEqual : List Object → List Object → Bool
  | [], [] => true
  | x :: xs, y :: ys => x.equals y && areEqual xs ys
  | _, _ => false

def entriesEqual : List (Object × Object) → List (Object × Object) → Bool
  | [], [] => true
  | (k, v) :: es, (l, w) :: fs => k.equals l && v.equals w && entriesEqual es fs
  | _, _ => false

end

theorem areEqual_iff {xs ys : List Object} :
    areEqual xs ys = true ↔ Forall₂ (fun x y => x.equals y = true) xs ys := by
  induction xs generalizing ys with
  | nil => cases ys <;> simp [areEqual]
  | cons x xs ih => cases ys <;> simp [areEqual, ih]

theorem entriesEqual_iff : entriesEqual es fs = true ↔
    Forall₂ (fun e f => e.1.equals f.1 = true ∧ e.2.equals f.2 = true) es fs := by
  induction es generalizing fs with
  | nil => cases fs <;> simp [entriesEqual]
  | cons e es ih => cases fs <;> simp [entriesEqual, ih]

/-- A value that is written as a literal: a number, a text, `None`, a truth value, or a collection of
such values. The items of sets and the keys of dictionaries are hashable and differ. -/
inductive IsPlain : Object → Prop
  | none : IsPlain none
  | bool (b : Bool) : IsPlain (bool b)
  | int (n : Int) : (Nat.toDigits 10 n.natAbs).length ≤ Source.maxIntegerDigits → IsPlain (int n)
  | str (s : String) : IsPlain (str s)
  | float (x : Binary) : x.isDouble = true → IsPlain (float x)
  | complex (re im : Binary) : re.isDouble = true → im.isDouble = true → IsPlain (complex re im)
  | list (xs : List Object) : (∀ x ∈ xs, IsPlain x) → IsPlain (list xs)
  | tuple (xs : List Object) : (∀ x ∈ xs, IsPlain x) → IsPlain (tuple xs)
  | set (xs : List Object) : (∀ x ∈ xs, IsPlain x) → (∀ x ∈ xs, x.isKey = true) →
      xs.Pairwise (fun x y => x.isSameKey y = false) → IsPlain (set xs)
  | dict (es : List (Object × Object)) : (∀ e ∈ es, IsPlain e.1) → (∀ e ∈ es, IsPlain e.2) →
      (∀ e ∈ es, e.1.isKey = true) → es.Pairwise (fun e f => e.1.isSameKey f.1 = false) →
      IsPlain (dict es)

/-! Equal objects are the same keys. -/

/-- Two objects are equal numbers or equal texts. -/
def isSameAtom (a b : Object) : Bool :=
  match a.number?, b.number?, a.text?, b.text? with
  | some m, some n, _, _ => m = n
  | _, _, some s, some t => s = t
  | _, _, _, _ => false

/-- As a key, the object is a number or a text or nothing. -/
def isSimple : Object → Bool
  | bool _ | int _ | str _ | float _ | complex .. | list _ | set _ | dict _ => true
  | _ => false

theorem isSameKey_left (h : a.isSimple = true) (b : Object) :
    a.isSameKey b = a.isSameAtom b := by
  rw [isSameKey.eq_def]
  cases a <;> cases h <;> rfl

theorem isSameKey_right (h : a.isSimple = true) (b : Object) :
    b.isSameKey a = b.isSameAtom a := by
  rw [isSameKey.eq_def]
  cases b with
  | value type base text => cases base <;> cases a <;> cases h <;> rfl
  | _ => cases a <;> cases h <;> rfl

theorem isSameKey_congr_of_simple (a' a : Object) (ha' : a'.isSimple = true) (ha : a.isSimple = true)
    (numbers : a'.number? = a.number?) (texts : a'.text? = a.text?) (b : Object) :
    a'.isSameKey b = a.isSameKey b ∧ b.isSameKey a' = b.isSameKey a := by
  rw [isSameKey_left ha', isSameKey_left ha, isSameKey_right ha', isSameKey_right ha]
  unfold isSameAtom
  rw [numbers, texts]
  exact ⟨rfl, rfl⟩

theorem ofBinary_eq_of_equals {x y : Binary} (h : x.equals y = true) :
    NumberKey.ofBinary x = NumberKey.ofBinary y :=
  of_decide_eq_true (Bool.and_eq_true_iff.mp h).2

theorem areSameKeys_congr {xs' xs : List Object}
    (equal : Forall₂ (fun x' x => x'.equals x = true) xs' xs)
    (h : ∀ x ∈ xs, ∀ x', x'.equals x = true → ∀ b,
      x'.isSameKey b = x.isSameKey b ∧ b.isSameKey x' = b.isSameKey x)
    (ys : List Object) : isSameKey.areSameKeys xs' ys = isSameKey.areSameKeys xs ys ∧
      isSameKey.areSameKeys ys xs' = isSameKey.areSameKeys ys xs := by
  induction equal generalizing ys with
  | nil => exact ⟨rfl, rfl⟩
  | @cons x' x xs' xs first _ ih =>
    cases ys with
    | nil => exact ⟨rfl, rfl⟩
    | cons y ys =>
      obtain ⟨left, right⟩ := h x mem_cons_self x' first y
      obtain ⟨lefts, rights⟩ := ih (fun x hx => h x (.tail _ hx)) ys
      simp only [isSameKey.areSameKeys, left, right, lefts, rights, and_self]

theorem IsPlain.isSameKey_congr {a' : Object} (h : IsPlain a) (equal : a'.equals a = true)
    (b : Object) : a'.isSameKey b = a.isSameKey b ∧ b.isSameKey a' = b.isSameKey a := by
  induction h generalizing a' b with
  | none =>
    cases a' <;> cases equal
    exact ⟨rfl, rfl⟩
  | bool c =>
    cases a' with
    | bool c' =>
      cases of_decide_eq_true equal
      exact ⟨rfl, rfl⟩
    | _ => cases equal
  | int n =>
    cases a' with
    | int n' =>
      cases of_decide_eq_true equal
      exact ⟨rfl, rfl⟩
    | _ => cases equal
  | str s =>
    cases a' with
    | str s' =>
      cases of_decide_eq_true equal
      exact ⟨rfl, rfl⟩
    | _ => cases equal
  | float x =>
    cases a' with
    | float x' =>
      have numbers := ofBinary_eq_of_equals equal
      refine isSameKey_congr_of_simple (.float x') (.float x) rfl rfl ?_ rfl b
      simp only [number?, numbers]
    | _ => cases equal
  | complex re im =>
    cases a' with
    | complex re' im' =>
      obtain ⟨hre, him⟩ := Bool.and_eq_true_iff.mp equal
      have res := ofBinary_eq_of_equals hre
      have ims := ofBinary_eq_of_equals him
      refine isSameKey_congr_of_simple (.complex re' im') (.complex re im) rfl rfl ?_ rfl b
      simp only [number?, res, ims]
    | _ => cases equal
  | list xs =>
    cases a' with
    | list xs' => exact isSameKey_congr_of_simple (.list xs') (.list xs) rfl rfl rfl rfl b
    | _ => cases equal
  | set xs =>
    cases a' with
    | set xs' => exact isSameKey_congr_of_simple (.set xs') (.set xs) rfl rfl rfl rfl b
    | _ => cases equal
  | dict es =>
    cases a' with
    | dict es' => exact isSameKey_congr_of_simple (.dict es') (.dict es) rfl rfl rfl rfl b
    | _ => cases equal
  | tuple xs _ ih =>
    cases a' with
    | tuple xs' =>
      have items := areEqual_iff.mp equal
      cases b with
      | tuple ys => exact areSameKeys_congr items (fun x hx x' hx' b => ih x hx hx' b) ys
      | value type base text =>
        have empty : xs'.isEmpty = xs.isEmpty := by cases items <;> rfl
        cases base with
        | tuple => exact ⟨empty, empty⟩
        | _ => exact ⟨rfl, rfl⟩
      | _ => exact ⟨rfl, rfl⟩
    | _ => cases equal

theorem pairwise_of_equal {keys' keys : List Object}
    (equal : Forall₂ (fun x' x => x'.equals x = true) keys' keys) (plain : ∀ x ∈ keys, IsPlain x)
    (h : keys.Pairwise fun x y => x.isSameKey y = false) :
    keys'.Pairwise fun x y => x.isSameKey y = false := by
  obtain ⟨length, each⟩ := forall₂_iff_get.mp equal
  rw [pairwise_iff_get] at h ⊢
  intro i j less
  have left := each i i.2 (length ▸ i.2)
  have right := each j j.2 (length ▸ j.2)
  rw [((plain _ (get_mem ..)).isSameKey_congr right _).2,
    ((plain _ (get_mem ..)).isSameKey_congr left _).1]
  exact h _ _ less

/-! Collections of different keys. -/

theorem putEntry_of_new {key val : Object}
    (h : ∀ e ∈ es, e.1.isSameKey key = false) : putEntry key val es = es ++ [(key, val)] := by
  induction es with
  | nil => rfl
  | cons e es ih =>
    rw [putEntry, if_neg (by rw [h e mem_cons_self]; decide), ih fun f hf => h f (.tail _ hf)]
    rfl

theorem putEntry_cases (key val : Object) (es : List (Object × Object)) :
    (putEntry key val es).length = es.length ∨ putEntry key val es = es ++ [(key, val)] := by
  induction es with
  | nil => exact .inr rfl
  | cons e es ih =>
    rw [putEntry]
    split
    · exact .inl rfl
    · rcases ih with same | new
      · exact .inl (by simp [same])
      · exact .inr (by rw [new]; rfl)

def putEntries (es fs : List (Object × Object)) : List (Object × Object) :=
  fs.foldl (fun es e => putEntry e.1 e.2 es) es

theorem putEntries_of_pairwise
    (h : (es ++ fs).Pairwise fun e f => e.1.isSameKey f.1 = false) : putEntries es fs = es ++ fs := by
  induction fs generalizing es with
  | nil => simp [putEntries]
  | cons f fs ih =>
    have new : ∀ e ∈ es, e.1.isSameKey f.1 = false := fun e he =>
      (pairwise_append.mp h).2.2 e he f mem_cons_self
    have whole : (es ++ [f] ++ fs).Pairwise fun e f => e.1.isSameKey f.1 = false := by simpa using h
    rw [putEntries, foldl_cons, putEntry_of_new new]
    simpa [putEntries] using ih whole

theorem putEntries_cases (es fs : List (Object × Object)) :
    (putEntries es fs).length < es.length + fs.length ∨ putEntries es fs = es ++ fs := by
  induction fs generalizing es with
  | nil => exact .inr (by simp [putEntries])
  | cons f fs ih =>
    obtain ⟨key, val⟩ := f
    have next : putEntries es ((key, val) :: fs) = putEntries (putEntry key val es) fs := rfl
    rw [next, length_cons]
    rcases putEntry_cases key val es with same | new
    · rcases ih (putEntry key val es) with fewer | all
      · exact .inl (by omega)
      · exact .inl (by rw [all, length_append]; omega)
    · rw [new]
      rcases ih (es ++ [(key, val)]) with fewer | all
      · exact .inl (by simp at fewer; omega)
      · exact .inr (by simp [all])

theorem setOf_eq (items : List Object) :
    setOf items = set ((putEntries [] (items.map fun x => (x, x))).map Prod.fst) := by
  rw [setOf, putEntries, foldl_map]

theorem setOf_of_pairwise {items : List Object} (h : items.Pairwise fun x y => x.isSameKey y = false) :
    setOf items = set items := by
  rw [setOf_eq, putEntries_of_pairwise (pairwise_map.mpr h)]
  simp [Function.comp_def]

theorem setOf_cases (items : List Object) :
    (∃ fewer, setOf items = set fewer ∧ fewer.length < items.length) ∨ setOf items = set items := by
  rw [setOf_eq]
  rcases putEntries_cases [] (items.map fun x => (x, x)) with fewer | all
  · exact .inl ⟨_, rfl, by simpa using fewer⟩
  · exact .inr (by simp [all, Function.comp_def])

theorem dictOf_cases (es : List (Object × Object)) :
    (∃ fewer, dictOf es = dict fewer ∧ fewer.length < es.length) ∨ dictOf es = dict es := by
  rcases putEntries_cases [] es with fewer | all
  · exact .inl ⟨putEntries [] es, rfl, by simpa using fewer⟩
  · exact .inr (congrArg dict all)

theorem dictOf_of_pairwise
    (h : es.Pairwise fun e f => e.1.isSameKey f.1 = false) : dictOf es = dict es :=
  congrArg dict (putEntries_of_pairwise h)

end Object

end TypeStubs
