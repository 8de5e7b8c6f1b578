/-! Sets of characters, given by the lengths of their runs. -/

namespace TypeStubs

/-- A set of code points: how many of them come before the first member, how many members follow, how
many others come before the next member, and so on in turn. -/
structure CharSet where
  runs : List Nat

def CharSet.containsFrom : (inside : Bool) → List Nat → (distance : Nat) → Bool
  | _, [], _ => false
  | inside, run :: runs, distance =>
    if distance < run then inside else containsFrom (!inside) runs (distance - run)

def CharSet.contains (s : CharSet) (c : Char) : Bool := containsFrom false s.runs c.toNat

theorem forall_of_all {cs : List Char} {P : Char → Prop} [DecidablePred P]
    (h : (cs.all fun c => decide (P c)) = true) : ∀ c ∈ cs, P c := by
  intro c hc
  exact of_decide_eq_true (List.all_eq_true.mp h c hc)

end TypeStubs
