import StagedTangent.Derivative.Fragment
import StagedTangent.Proofs.Evaluation.Plain

/-!
# What fragments record

A fragment appends calls and nothing else. `Fragment.Ensures` states, call by call, a property of
what a fragment appends and of the result that it ends in, and `Fragment.Ensures.run` carries it
over to the recorder; `Fragment.valueFrom` computes the value of the result from those of the nodes
that were there before, and `valueIn_run` shows that evaluating the recorder gives the same.
-/

namespace StagedTangent

namespace Recorder

/-- A later state of a recorder: everything in between has appended calls with a property. -/
structure Extends (step : Nat → Op → List Nat → Prop) (r r' : Recorder) : Prop where
  settled : r'.settled = r.settled
  arguments : r'.arguments = r.arguments
  baseArity : r'.baseArity = r.baseArity
  nodes : r.nodes <+: r'.nodes
  appended : ∀ {place : Nat} {node : Node}, r.nodes.length ≤ place →
    r'.nodes[place]? = some node → ∃ op operands, node = .call op operands ∧ step place op operands

variable {step step' : Nat → Op → List Nat → Prop} {r r' r'' : Recorder}

theorem Extends.refl (r : Recorder) : Extends step r r := by
  refine ⟨rfl, rfl, rfl, List.prefix_refl _, fun hplace hnode => ?_⟩
  rw [List.getElem?_eq_none hplace] at hnode
  cases hnode

theorem Extends.trans (h : Extends step r r') (h' : Extends step r' r'') :
    Extends step r r'' := by
  refine ⟨h'.settled.trans h.settled, h'.arguments.trans h.arguments,
    h'.baseArity.trans h.baseArity, h.nodes.trans h'.nodes, fun {place node} hplace hnode => ?_⟩
  rcases Nat.lt_or_ge place r'.nodes.length with hlt | hge
  · obtain ⟨more, hmore⟩ := h'.nodes
    rw [← hmore, List.getElem?_append_left hlt] at hnode
    exact h.appended hplace hnode
  · exact h'.appended hge hnode

theorem Extends.imp (h : Extends step r r')
    (himp : ∀ place op operands, r.nodes.length ≤ place → step place op operands →
      step' place op operands) : Extends step' r r' := by
  refine ⟨h.settled, h.arguments, h.baseArity, h.nodes, fun hplace hnode => ?_⟩
  obtain ⟨op, operands, rfl, hstep⟩ := h.appended hplace hnode
  exact ⟨op, operands, rfl, himp _ _ _ hplace hstep⟩

theorem Extends.call {op : Op} {operands : List Nat} (h : step r.size op operands) :
    Extends step r (r.call op operands).2 := by
  refine ⟨rfl, rfl, rfl, ⟨[.call op operands], by simp⟩, fun {place node} hplace hnode => ?_⟩
  rw [nodes_call] at hnode
  obtain ⟨hlt, -⟩ := List.getElem?_eq_some_iff.1 hnode
  rw [List.length_append, List.length_singleton] at hlt
  obtain rfl : place = r.nodes.length := by omega
  refine ⟨op, operands, ?_, by rwa [← size_eq_length]⟩
  simpa using hnode.symm

theorem Extends.length_le (h : Extends step r r') : r.nodes.length ≤ r'.nodes.length :=
  h.nodes.length_le

theorem Extends.size_le (h : Extends step r r') : r.size ≤ r'.size := by
  rw [size_eq_length, size_eq_length]
  exact h.length_le

/-- The calls of a recorder that a tape goes on from stand on the tape. -/
theorem Extends.exists_call (h : Extends step r r') {nodes : List Node}
    (hpre : r'.nodes <+: nodes) {place : Nat} (hge : r.size ≤ place) (hlt : place < r'.size) :
    ∃ op args, nodes[place]? = some (.call op args) ∧ step place op args := by
  rw [size_eq_length] at hge hlt
  obtain ⟨op, args, hcall, hstep⟩ := h.appended hge (List.getElem?_eq_getElem hlt)
  refine ⟨op, args, ?_, hstep⟩
  rw [← hcall]
  exact List.prefix_iff_getElem?.1 hpre place hlt

theorem lt_length_of_prefix {nodes : List Node} (hpre : r.nodes <+: nodes) {place : Nat}
    (h : place < r.size) : place < nodes.length := by
  rw [size_eq_length] at h
  exact Nat.lt_of_lt_of_le h hpre.length_le

theorem getElem?_of_call {op : Op} {operands : List Nat} {nodes : List Node}
    (hpre : (r.call op operands).2.nodes <+: nodes) :
    nodes[r.size]? = some (.call op operands) := by
  obtain ⟨more, rfl⟩ := hpre
  rw [nodes_call, size_eq_length, List.append_assoc, List.getElem?_append_right (Nat.le_refl _),
    Nat.sub_self]
  rfl

@[simp] theorem size_call (r : Recorder) (op : Op) (operands : List Nat) :
    (r.call op operands).2.size = r.size + 1 := by
  rw [size_eq_length, nodes_call, List.length_append, List.length_singleton, size_eq_length]

end Recorder

namespace Fragment

variable {β γ : Type}

/-- Every call that a fragment records from a place on has a property, given with the place, and so
has the result, given with the place behind the last of them. -/
def Ensures (step : Nat → Op → List Nat → Prop) (post : Nat → β → Prop) :
    Fragment β → Nat → Prop
  | .done result, n => post n result
  | .call op operands next, n => step n op operands ∧ Ensures step post (next n) (n + 1)

theorem Ensures.run {step : Nat → Op → List Nat → Prop} {post : Nat → β → Prop}
    {f : Fragment β} {r : Recorder} (h : f.Ensures step post r.size) :
    r.Extends step (f.run r).2 ∧ post (f.run r).2.size (f.run r).1 := by
  induction f generalizing r with
  | done result => exact ⟨.refl r, h⟩
  | call op operands next ih =>
    obtain ⟨hstep, hnext⟩ := h
    have hrest := ih r.size (r := (r.call op operands).2) (by rwa [Recorder.size_call])
    exact ⟨(Recorder.Extends.call hstep).trans hrest.1, hrest.2⟩

/-- What a fragment ensures if another follows it. -/
theorem Ensures.bind {step : Nat → Op → List Nat → Prop} {post : Nat → β → Prop}
    {post' : Nat → γ → Prop} {f : Fragment β} {k : β → Fragment γ} {n : Nat}
    (h : f.Ensures step post n)
    (hk : ∀ final result, post final result → n ≤ final →
      (k result).Ensures step post' final) : (f >>= k).Ensures step post' n := by
  induction f generalizing n with
  | done result => exact hk n result h (Nat.le_refl _)
  | call op operands next ih =>
    refine ⟨h.1, ih n h.2 fun final result hpost hle => hk final result hpost (by omega)⟩

section Values

variable {V : Type} (interpret : Op → List V → Except RunError V)

/-- The value of a call, if its operands have values and the operation succeeds on them. -/
def callValue (value : Nat → Option V) (op : Op) (operands : List Nat) : Option V :=
  (operands.mapM value).bind fun vs => (interpret op vs).toOption

/-- The value of the result of a fragment that records from a place on, given the values of the
nodes before it. -/
def valueFrom (value : Nat → Option V) : Fragment Nat → Nat → Option V
  | .done result, _ => value result
  | .call op operands next, n =>
    valueFrom (Function.update value n (callValue interpret value op operands)) (next n) (n + 1)

variable {interpret} {inputs : List V}

theorem value?_ofCall (value : Nat → Option V) (op : Op) (operands : List Nat) :
    (Outcome.ofCall interpret op (operands.mapM value)).value? =
      callValue interpret value op operands := by
  unfold callValue
  cases operands.mapM value with
  | none => rfl
  | some vs => cases h : interpret op vs <;> simp [Outcome.ofCall, h, Except.toOption]

/-- Recording a call adds its value and changes no other. -/
theorem valueIn_call (r : Recorder) (op : Op) (operands : List Nat) :
    valueIn interpret inputs (r.call op operands).2.nodes =
      Function.update (valueIn interpret inputs r.nodes) r.size
        (callValue interpret (valueIn interpret inputs r.nodes) op operands) := by
  funext node
  rw [Recorder.nodes_call, Recorder.size_eq_length]
  rcases Nat.lt_trichotomy node r.nodes.length with hlt | rfl | hgt
  · rw [Function.update_of_ne (by omega), valueIn_extend (List.prefix_append _ _) hlt]
  · rw [Function.update_self, valueIn_concat_call, value?_ofCall]
  · rw [Function.update_of_ne (by omega), valueIn, valueIn,
      outcomeIn_of_length_le (by simp; omega), outcomeIn_of_length_le (by omega)]

/-- Evaluating what a fragment has recorded. -/
theorem valueIn_run (f : Fragment Nat) (r : Recorder) :
    valueIn interpret inputs (f.run r).2.nodes (f.run r).1 =
      f.valueFrom interpret (valueIn interpret inputs r.nodes) r.size := by
  induction f generalizing r with
  | done result => rfl
  | call op operands next ih =>
    have hrest := ih r.size (r.call op operands).2
    rw [valueIn_call, Recorder.size_call] at hrest
    exact hrest

end Values

end Fragment

end StagedTangent
