import StagedTangent.Program.Recorder

/-!
# Fragments

A fragment is a recipe that records calls one after another. It sees nothing of the recorder but
the references of the calls it has made, so that whatever it does, the nodes that were there before
stay as they were and every node it adds is a call.
-/

namespace StagedTangent

/-- A recipe for recording calls that ends in a result. -/
inductive Fragment (α : Type) where
  | done (result : α)
  /-- Record a call, then go on with its reference. -/
  | call (op : Op) (operands : List Nat) (next : Nat → Fragment α)

namespace Fragment

variable {α β : Type}

/-- Go on with the result of a fragment. -/
def bind : Fragment α → (α → Fragment β) → Fragment β
  | .done result, k => k result
  | .call op operands next, k => .call op operands (fun node => (next node).bind k)

instance : Monad Fragment where
  pure := .done
  bind := bind

/-- Record a single call. -/
def record (op : Op) (operands : List Nat) : Fragment Nat := .call op operands .done

/-- Carry a fragment out. -/
def run : Fragment α → Recorder → α × Recorder
  | .done result, r => (result, r)
  | .call op operands next, r =>
    let (node, r) := r.call op operands
    (next node).run r

@[simp] theorem run_pure (a : α) (r : Recorder) : (pure a : Fragment α).run r = (a, r) := rfl

@[simp] theorem run_record (op : Op) (operands : List Nat) (r : Recorder) :
    (record op operands).run r = r.call op operands := rfl

/-- A fragment followed by another runs the one and then the other. -/
@[simp] theorem run_bind (f : Fragment α) (k : α → Fragment β) (r : Recorder) :
    (f >>= k).run r = (k (f.run r).1).run (f.run r).2 := by
  induction f generalizing r with
  | done result => rfl
  | call op operands next ih => exact ih _ _

end Fragment

end StagedTangent
