import StagedTangent.Proofs.Evaluation.Quantity

/-!
# Elementwise operations

Where the lengths of two quantities go together, an elementwise operation is a total function,
`Quantity.zipWith`, and chains of such operations collapse into one. Addition and subtraction are
also read in a stricter way, `Quantity.uniform`, in which they take two quantities of one shape only;
a program evaluates in this way if it evaluates and never adds a scalar to a vector
(`evaluates_uniform_iff`).
-/

namespace StagedTangent

namespace Quantity

variable {α β γ δ ε : Type}

/-- No two vectors of different lengths. -/
def Compatible : Quantity α → Quantity β → Prop
  | .vector xs, .vector ys => xs.length = ys.length
  | _, _ => True

/-- A function of two numbers, elementwise, for quantities that go together. -/
def zipWith (f : α → β → γ) : Quantity α → Quantity β → Quantity γ
  | .scalar x, .scalar y => .scalar (f x y)
  | .scalar x, .vector ys => .vector (ys.map (f x))
  | .vector xs, .scalar y => .vector (xs.map fun x => f x y)
  | .vector xs, .vector ys => .vector (xs.zipWith f ys)

/-- An elementwise operation succeeds on quantities that go together. -/
theorem zip_eq_ok_iff {op : Opcode} {f : α → β → γ} {a : Quantity α} {b : Quantity β}
    {c : Quantity γ} : zip op f a b = .ok c ↔ Compatible a b ∧ c = zipWith f a b := by
  cases a with
  | scalar x => cases b <;> simp [zip, Compatible, zipWith, eq_comm]
  | vector xs =>
    cases b with
    | scalar y => simp [zip, Compatible, zipWith, eq_comm]
    | vector ys =>
      simp only [zip, Compatible, zipWith]
      split
      · next hlength => simp [hlength, eq_comm]
      · next hlength => simp [hlength]

theorem Compatible.of_shape_eq {a : Quantity α} {b : Quantity β} (h : a.shape = b.shape) :
    Compatible a b := by
  cases a with
  | scalar x => cases b <;> trivial
  | vector xs =>
    cases b with
    | scalar y => trivial
    | vector ys =>
      have : (xs.map fun _ => ()) = ys.map fun _ => () := Quantity.vector.inj h
      simpa [Compatible] using congrArg List.length this

theorem compatible_map_left {f : α → γ} {a : Quantity α} {b : Quantity β} :
    Compatible (a.map f) b ↔ Compatible a b := by
  cases a <;> cases b <;> simp [Compatible, map]

theorem compatible_map_right {g : β → δ} {a : Quantity α} {b : Quantity β} :
    Compatible a (b.map g) ↔ Compatible a b := by
  cases a <;> cases b <;> simp [Compatible, map]

/-! ## Chains of elementwise operations -/

variable {f : α → β → γ} {a : Quantity α} {b : Quantity β}

theorem zipWith_map (f : γ → δ → ε) (g : α → γ) (h : β → δ) (a : Quantity α) (b : Quantity β) :
    zipWith f (a.map g) (b.map h) = zipWith (fun x y => f (g x) (h y)) a b := by
  cases a <;> cases b <;> simp [zipWith, map, List.zipWith_map]

theorem zipWith_map_left (f : γ → β → ε) (g : α → γ) (a : Quantity α) (b : Quantity β) :
    zipWith f (a.map g) b = zipWith (fun x y => f (g x) y) a b := by
  cases a <;> cases b <;> simp [zipWith, map, List.zipWith_map_left]

theorem zipWith_map_right (f : α → δ → ε) (g : β → δ) (a : Quantity α) (b : Quantity β) :
    zipWith f a (b.map g) = zipWith (fun x y => f x (g y)) a b := by
  cases a <;> cases b <;> simp [zipWith, map, List.zipWith_map_right]

/-- Only what the function does to pairs of elements matters. -/
theorem zipWith_congr {f g : α → β → γ} (h : ∀ x y, f x y = g x y) (a : Quantity α)
    (b : Quantity β) : zipWith f a b = zipWith g a b := by
  rw [funext fun x => funext (h x)]

theorem map_zipWith (g : γ → δ) (f : α → β → γ) (a : Quantity α) (b : Quantity β) :
    (zipWith f a b).map g = zipWith (fun x y => g (f x y)) a b := by
  cases a <;> cases b <;> simp [zipWith, map, List.map_zipWith]

/-- Two elementwise operations on the same quantities, combined by a third. -/
theorem zipWith_zipWith (h : γ → δ → ε) (f : α → β → γ) (g : α → β → δ) (a : Quantity α)
    (b : Quantity β) :
    zipWith h (zipWith f a b) (zipWith g a b) = zipWith (fun x y => h (f x y) (g x y)) a b := by
  cases a with
  | scalar x => cases b <;> simp [zipWith, List.zipWith_map_left, List.zipWith_map_right]
  | vector xs =>
    cases b with
    | scalar y => simp [zipWith, List.zipWith_map_left, List.zipWith_map_right]
    | vector ys =>
      refine congrArg vector (List.ext_getElem (by simp) fun i _ _ => ?_)
      simp

theorem zipWith_map_zipWith_right (h : δ → γ → ε) (g : β → δ) (f : α → β → γ) (a : Quantity α)
    (b : Quantity β) :
    zipWith h (b.map g) (zipWith f a b) = zipWith (fun x y => h (g y) (f x y)) a b := by
  cases a with
  | scalar x => cases b <;> simp [zipWith, map]
  | vector xs =>
    cases b with
    | scalar y => simp [zipWith, map]
    | vector ys =>
      refine congrArg vector (List.ext_getElem ?_ fun i _ _ => ?_)
      · rw [List.length_zipWith, List.length_zipWith, List.length_zipWith, List.length_map]
        omega
      · simp

theorem zipWith_zipWith_map_right (h : γ → δ → ε) (g : β → δ) (f : α → β → γ) (a : Quantity α)
    (b : Quantity β) :
    zipWith h (zipWith f a b) (b.map g) = zipWith (fun x y => h (f x y) (g y)) a b := by
  cases a with
  | scalar x => cases b <;> simp [zipWith, map]
  | vector xs =>
    cases b with
    | scalar y => simp [zipWith, map]
    | vector ys =>
      refine congrArg vector (List.ext_getElem (by simp) fun i _ _ => ?_)
      simp

/-- An elementwise operation on a quantity and itself. -/
theorem zipWith_self (f : β → γ → δ) (g : α → β) (h : α → γ) (a : Quantity α) :
    zipWith f (a.map g) (a.map h) = a.map fun x => f (g x) (h x) := by
  cases a <;> simp [zipWith, map]

/-! ## Shapes -/

/-- The shape of an elementwise result does not depend on the function. -/
theorem shape_zipWith (f : α → β → γ) (a : Quantity α) (b : Quantity β) :
    (zipWith f a b).shape = zipWith (fun _ _ => ()) a b := map_zipWith _ f a b

theorem zipWith_left_of_shape_eq (f : α → γ) {a : Quantity α} {b : Quantity β}
    (h : a.shape = b.shape) : zipWith (fun x _ => f x) a b = a.map f := by
  cases a with
  | scalar x =>
    cases b with
    | scalar y => rfl
    | vector ys => cases h
  | vector xs =>
    cases b with
    | scalar y => cases h
    | vector ys =>
      have hlength : xs.length = ys.length := Compatible.of_shape_eq h
      refine congrArg vector (List.ext_getElem (by simp [hlength]) fun i _ _ => ?_)
      simp

theorem zipWith_right_of_shape_eq (f : β → γ) {a : Quantity α} {b : Quantity β}
    (h : a.shape = b.shape) : zipWith (fun _ y => f y) a b = b.map f := by
  cases a with
  | scalar x =>
    cases b with
    | scalar y => rfl
    | vector ys => cases h
  | vector xs =>
    cases b with
    | scalar y => cases h
    | vector ys =>
      have hlength : xs.length = ys.length := Compatible.of_shape_eq h
      refine congrArg vector (List.ext_getElem (by simp [hlength]) fun i _ _ => ?_)
      simp

theorem compatible_zipWith_right {a : Quantity α} {b : Quantity β} (f : α → β → γ) (g : β → δ)
    (h : Compatible a b) : Compatible (zipWith f a b) (b.map g) := by
  cases a with
  | scalar x => cases b <;> simp [Compatible, zipWith, map]
  | vector xs =>
    cases b with
    | scalar y => trivial
    | vector ys =>
      have hlength : xs.length = ys.length := h
      simp [Compatible, zipWith, map, hlength]

theorem compatible_right_zipWith {a : Quantity α} {b : Quantity β} (f : α → β → γ) (g : β → δ)
    (h : Compatible a b) : Compatible (b.map g) (zipWith f a b) := by
  cases a with
  | scalar x => cases b <;> simp [Compatible, zipWith, map]
  | vector xs =>
    cases b with
    | scalar y => trivial
    | vector ys =>
      have hlength : xs.length = ys.length := h
      simp [Compatible, zipWith, map, hlength]

theorem shape_eq_iff {a : Quantity α} {b : Quantity β} :
    a.shape = b.shape ↔
      (∃ x y, a = .scalar x ∧ b = .scalar y) ∨
      (∃ xs ys, a = .vector xs ∧ b = .vector ys ∧ xs.length = ys.length) := by
  cases a with
  | scalar x => cases b <;> simp [shape, map]
  | vector xs => cases b <;> simp [shape, map, List.map_const']

/-! ## Addition within one shape -/

/-- Whether one of two quantities is a scalar and the other a vector. -/
def apart : Quantity α → Quantity β → Bool
  | .scalar _, .vector _ => true
  | .vector _, .scalar _ => true
  | _, _ => false

/-- Whether an operation adds a scalar to a vector, or subtracts one from the other. -/
def mixes (op : Op) (vs : List (Quantity α)) : Bool :=
  match op, vs with
  | .add, [a, b] => apart a b
  | .sub, [a, b] => apart a b
  | _, _ => false

theorem apart_eq_false_iff {a b : Quantity α} (h : Compatible a b) :
    apart a b = false ↔ a.shape = b.shape := by
  cases a <;> cases b <;> simp_all [apart, shape_eq_iff, Compatible]

theorem mixes_map (op : Op) (f : α → β) (vs : List (Quantity α)) :
    mixes op (vs.map (map f)) = mixes op vs := by
  match op, vs with
  | .add, [a, b] | .sub, [a, b] => cases a <;> cases b <;> rfl
  | .add, [] | .add, [_] | .add, _ :: _ :: _ :: _ | .sub, [] | .sub, [_]
  | .sub, _ :: _ :: _ :: _ => rfl
  | .constant _, _ | .mul, _ | .div, _ | .neg, _ | .sin, _ | .cos, _ | .exp, _ | .log, _
  | .sqrt, _ | .abs, _ | .sign, _ | .dot, _ | .sum, _ | .index _, _ | .circshift _, _
  | .zeroLike, _ => rfl

section Uniform

variable [Scalar α] [Scalar β]

/-- The operations, where addition and subtraction take two quantities of one shape only. -/
def uniform (op : Op) (vs : List (Quantity α)) : Except RunError (Quantity α) :=
  if mixes op vs then .error (.wrongKind op.opcode .ofOneKind .vector) else apply op vs

theorem uniform_eq_ok_iff {op : Op} {vs : List (Quantity α)} {c : Quantity α} :
    uniform op vs = .ok c ↔ mixes op vs = false ∧ apply op vs = .ok c := by
  unfold uniform
  cases mixes op vs <;> simp

theorem commutes_uniform {h : α → β} (hh : ScalarHom h) : Commutes (map h) uniform uniform := by
  intro op vs
  rw [uniform, uniform, mixes_map]
  split
  · rfl
  · exact commutes_map hh op vs

/-- An elementwise operation that must not mix takes two quantities of one shape. -/
theorem uniform_eq_ok_iff_of_apart {op : Op} {opcode : Opcode} {f : α → α → α} {a b c : Quantity α}
    (hmixes : mixes op [a, b] = apart a b) (happly : apply op [a, b] = zip opcode f a b) :
    uniform op [a, b] = .ok c ↔ a.shape = b.shape ∧ c = zipWith f a b := by
  rw [uniform_eq_ok_iff, hmixes, happly, zip_eq_ok_iff]
  constructor
  · rintro ⟨hapart, hcompatible, rfl⟩
    exact ⟨(apart_eq_false_iff hcompatible).1 hapart, rfl⟩
  · rintro ⟨hshape, rfl⟩
    have hcompatible := Compatible.of_shape_eq hshape
    exact ⟨(apart_eq_false_iff hcompatible).2 hshape, hcompatible, rfl⟩

theorem uniform_add_eq_ok_iff {a b c : Quantity α} :
    uniform .add [a, b] = .ok c ↔ a.shape = b.shape ∧ c = zipWith Scalar.add a b :=
  uniform_eq_ok_iff_of_apart rfl rfl

theorem uniform_sub_eq_ok_iff {a b c : Quantity α} :
    uniform .sub [a, b] = .ok c ↔ a.shape = b.shape ∧ c = zipWith Scalar.sub a b :=
  uniform_eq_ok_iff_of_apart rfl rfl

theorem uniform_mul_eq_ok_iff {a b c : Quantity α} :
    uniform .mul [a, b] = .ok c ↔ Compatible a b ∧ c = zipWith Scalar.mul a b := zip_eq_ok_iff

theorem uniform_div_eq_ok_iff {a b c : Quantity α} :
    uniform .div [a, b] = .ok c ↔ Compatible a b ∧ c = zipWith Scalar.div a b := zip_eq_ok_iff

/-- A dot product sums the products of two quantities of one shape. -/
theorem uniform_dot_eq_ok_iff {a b c : Quantity α} :
    uniform .dot [a, b] = .ok c ↔ a.shape = b.shape ∧ c = (zipWith Scalar.mul a b).sum := by
  change dot a b = .ok c ↔ _
  cases a with
  | scalar x => cases b <;> simp [dot, shape, map, zipWith, sum, eq_comm]
  | vector xs =>
    cases b with
    | scalar y => simp [dot, shape, map]
    | vector ys =>
      simp only [dot, shape_eq_iff, zipWith, sum]
      split
      · next hlength => simp [hlength, eq_comm]
      · next hlength => simp [hlength]

end Uniform

end Quantity

namespace Program

variable {α : Type} [Scalar α] {p : Program} {inputs : List (Quantity α)}

/-- No addition or subtraction that the result needs combines a scalar with a vector. -/
def Unmixed (p : Program) (inputs : List (Quantity α)) : Prop :=
  ∀ node op operands vs, p.Needed node → p.nodes[node]? = some (.call op operands) →
    operands.mapM (p.value? Quantity.apply inputs) = some vs → Quantity.mixes op vs = false

/-- Where additions keep to one shape the values are the same. -/
theorem value?_uniform (hp : p.Regular) {node : Nat} {v : Quantity α}
    (h : p.value? Quantity.uniform inputs node = some v) :
    p.value? Quantity.apply inputs node = some v := by
  induction node using Nat.strongRecOn generalizing v with
  | ind node ih =>
    obtain ⟨entry, hentry⟩ : ∃ entry, p.nodes[node]? = some entry :=
      ⟨_, List.getElem?_eq_getElem (lt_length_of_valueIn h)⟩
    cases entry with
    | argument position =>
      rw [value?_argument hentry] at h ⊢
      exact h
    | call op operands =>
      obtain ⟨vs, hvs, hv⟩ := (value?_call_eq_some hp hentry).1 h
      have hvs' : operands.mapM (p.value? Quantity.apply inputs) = some vs :=
        mapM_mono (fun o ho w hw => ih o (hp.operand_lt hentry ho) hw) hvs
      exact (value?_call_eq_some hp hentry).2 ⟨vs, hvs', (Quantity.uniform_eq_ok_iff.1 hv).2⟩

/-- A program evaluates with additions that keep to one shape if it evaluates and none of them that
the result needs combines a scalar with a vector. -/
theorem evaluates_uniform_iff (hp : p.Regular) :
    p.Evaluates Quantity.uniform inputs ↔
      p.Evaluates Quantity.apply inputs ∧ p.Unmixed inputs := by
  constructor
  · intro h
    refine ⟨fun node hneeded => ?_, fun node op operands vs hneeded hnode hvs => ?_⟩
    · obtain ⟨v, hv⟩ := h node hneeded
      exact ⟨v, value?_uniform hp hv⟩
    · obtain ⟨v, hv⟩ := h node hneeded
      obtain ⟨vs', hvs', hv'⟩ := (value?_call_eq_some hp hnode).1 hv
      have hsame : operands.mapM (p.value? Quantity.apply inputs) = some vs' :=
        mapM_mono (fun o _ w hw => value?_uniform hp hw) hvs'
      rw [hvs] at hsame
      cases hsame
      exact (Quantity.uniform_eq_ok_iff.1 hv').1
  · rintro ⟨heval, hunmixed⟩ node hneeded
    obtain ⟨v, hv⟩ := heval node hneeded
    refine ⟨v, ?_⟩
    induction node using Nat.strongRecOn generalizing v with
    | ind node ih =>
      obtain ⟨entry, hentry⟩ : ∃ entry, p.nodes[node]? = some entry :=
        ⟨_, List.getElem?_eq_getElem (lt_length_of_valueIn hv)⟩
      cases entry with
      | argument position =>
        rw [value?_argument hentry] at hv ⊢
        exact hv
      | call op operands =>
        obtain ⟨vs, hvs, happly⟩ := (value?_call_eq_some hp hentry).1 hv
        have hvs' : operands.mapM (p.value? Quantity.uniform inputs) = some vs :=
          mapM_mono (fun o ho w hw =>
            ih o (hp.operand_lt hentry ho) (hneeded.operand hp hentry ho) w hw) hvs
        exact (value?_call_eq_some hp hentry).2 ⟨vs, hvs', Quantity.uniform_eq_ok_iff.2
          ⟨hunmixed node op operands vs hneeded hentry hvs, happly⟩⟩

end Program

end StagedTangent
