import StagedTangent.Proofs.Derivative.Pass
import StagedTangent.Proofs.Staging.Layout

/-!
# Programs with one live part

What the result of a program does not need may be there or not. `Program.LiveMatch` says of a map of
nodes that it takes the live part of one program, its arguments and the calls that its result needs,
to the live part of another, and keeps the calls in their order. Where the arguments stand among the
calls makes no difference.

Whatever is defined along the uses of needed nodes carries over: paths and neededness, in both
directions (`LiveMatch.path`, `LiveMatch.exists_path`, `LiveMatch.needed_iff`), the stages
(`LiveMatch.stage`) and which nodes carry a tangent (`LiveMatch.carries_iff`).
-/

namespace StagedTangent.Program

/-- A map takes the live part of a program to that of another. That it reaches every needed node of
the other one need not be asked for: see `LiveMatch.exists_needed`. -/
structure LiveMatch (p : Program) (f : Nat → Nat) (q : Program) : Prop where
  /-- Arguments match by position. -/
  arguments : q.arguments = p.arguments.map f
  baseArity : q.baseArity = p.baseArity
  result : q.result = f p.result
  /-- A needed call has a call of the same operation with the matching operands. -/
  call : ∀ {node : Nat} {op : Op} {operands : List Nat}, p.Needed node →
    p.nodes[node]? = some (.call op operands) → q.nodes[f node]? = some (.call op (operands.map f))
  /-- Needed calls keep their order. -/
  lt : ∀ {m n : Nat}, p.Needed m → p.IsCall m → p.Needed n → p.IsCall n → m < n → f m < f n

/-- The nodes that a match speaks of: the arguments and what the result needs. -/
def Live (p : Program) (node : Nat) : Prop := node ∈ p.arguments ∨ p.Needed node

variable {p q : Program} {f : Nat → Nat}

theorem live_argument (hp : p.Regular) {node position : Nat}
    (hnode : p.nodes[node]? = some (.argument position)) : p.Live node :=
  .inl (List.mem_of_getElem? (hp.argument_listed hnode))

/-- A live node is an argument or a needed call. -/
theorem Live.cases (hp : p.Regular) {node : Nat} (h : p.Live node) :
    (∃ position, p.nodes[node]? = some (.argument position)) ∨ (p.Needed node ∧ p.IsCall node) := by
  rcases h with hmem | hneeded
  · obtain ⟨position, hlt, rfl⟩ := List.getElem_of_mem hmem
    exact .inl ⟨position, hp.argument_at (List.getElem?_eq_getElem hlt)⟩
  · obtain ⟨entry, hentry⟩ := hneeded.exists_node hp
    cases entry with
    | argument position => exact .inl ⟨position, hentry⟩
    | call op operands => exact .inr ⟨hneeded, op, operands, hentry⟩

/-- What a needed node is computed from is needed. -/
theorem Needed.of_path (hp : p.Regular) {node earlier : Nat} (h : p.Needed node)
    (hpath : p.Path node earlier) : p.Needed earlier :=
  (needed_iff hp).2 (((needed_iff hp).1 h).trans hpath)

namespace LiveMatch

theorem order (h : p.LiveMatch f q) : q.order = p.order := by
  rw [Program.order, Program.order, h.arguments, h.baseArity, List.length_map]

theorem argument (h : p.LiveMatch f q) (hp : p.Regular) (hq : q.Regular) {node position : Nat}
    (hnode : p.nodes[node]? = some (.argument position)) :
    q.nodes[f node]? = some (.argument position) := by
  refine hq.argument_at ?_
  rw [h.arguments, List.getElem?_map, hp.argument_listed hnode]
  rfl

/-! ## Paths and neededness -/

theorem uses (h : p.LiveMatch f q) {user operand : Nat} (hneeded : p.Needed user)
    (huse : p.Uses user operand) : q.Uses (f user) (f operand) := by
  obtain ⟨op, operands, hcall, ho⟩ := huse.exists_call
  exact uses_of_call (h.call hneeded hcall) (List.mem_map_of_mem ho)

theorem path (h : p.LiveMatch f q) (hp : p.Regular) {node earlier : Nat} (hneeded : p.Needed node)
    (hpath : p.Path node earlier) : q.Path (f node) (f earlier) := by
  induction hpath with
  | refl => exact .refl
  | tail hhead huse ih => exact .tail ih (h.uses (hneeded.of_path hp hhead) huse)

/-- What the image of a needed node uses is the image of what that node uses. -/
theorem exists_uses (h : p.LiveMatch f q) (hp : p.Regular) (hq : q.Regular) {user m : Nat}
    (hneeded : p.Needed user) (huse : q.Uses (f user) m) :
    ∃ operand, p.Uses user operand ∧ f operand = m := by
  obtain ⟨op, operands, hcall, hm⟩ := huse.exists_call
  obtain ⟨entry, hentry⟩ := hneeded.exists_node hp
  cases entry with
  | argument position =>
    rw [h.argument hp hq hentry] at hcall
    cases hcall
  | call op' operands' =>
    rw [h.call hneeded hentry] at hcall
    cases hcall
    obtain ⟨operand, ho, rfl⟩ := List.mem_map.1 hm
    exact ⟨operand, uses_of_call hentry ho, rfl⟩

/-- Paths from the image of a needed node are images of paths. -/
theorem exists_path (h : p.LiveMatch f q) (hp : p.Regular) (hq : q.Regular) {node m : Nat}
    (hneeded : p.Needed node) (hpath : q.Path (f node) m) :
    ∃ earlier, p.Path node earlier ∧ f earlier = m := by
  induction hpath with
  | refl => exact ⟨node, .refl, rfl⟩
  | tail _ huse ih =>
    obtain ⟨middle, hhead, rfl⟩ := ih
    obtain ⟨operand, hlast, rfl⟩ := h.exists_uses hp hq (hneeded.of_path hp hhead) huse
    exact ⟨operand, .tail hhead hlast, rfl⟩

theorem needed (h : p.LiveMatch f q) (hp : p.Regular) (hq : q.Regular) {node : Nat}
    (hneeded : p.Needed node) : q.Needed (f node) := by
  rw [needed_iff hq, h.result]
  exact h.path hp (needed_result hp) ((needed_iff hp).1 hneeded)

/-- Every needed node of the other program is the image of one. -/
theorem exists_needed (h : p.LiveMatch f q) (hp : p.Regular) (hq : q.Regular) {m : Nat}
    (hm : q.Needed m) : ∃ node, p.Needed node ∧ f node = m := by
  rw [needed_iff hq, h.result] at hm
  obtain ⟨node, hpath, rfl⟩ := h.exists_path hp hq (needed_result hp) hm
  exact ⟨node, (needed_iff hp).2 hpath, rfl⟩

theorem isCall (h : p.LiveMatch f q) {node : Nat} (hneeded : p.Needed node)
    (hcall : p.IsCall node) : q.IsCall (f node) := by
  obtain ⟨op, operands, hnode⟩ := hcall
  exact ⟨op, operands.map f, h.call hneeded hnode⟩

/-- Every needed call of the other program is the image of one. -/
theorem exists_call (h : p.LiveMatch f q) (hp : p.Regular) (hq : q.Regular) {m : Nat}
    (hm : q.Needed m) (hcall : q.IsCall m) : ∃ node, p.Needed node ∧ p.IsCall node ∧ f node = m := by
  obtain ⟨node, hneeded, rfl⟩ := h.exists_needed hp hq hm
  rcases Live.cases hp (.inr hneeded) with ⟨position, hargument⟩ | ⟨-, hnode⟩
  · obtain ⟨op, operands, hcall⟩ := hcall
    rw [h.argument hp hq hargument] at hcall
    cases hcall
  · exact ⟨node, hneeded, hnode, rfl⟩

/-- Different live nodes have different images. -/
theorem injOn (h : p.LiveMatch f q) (hp : p.Regular) (hq : q.Regular) {m n : Nat} (hm : p.Live m)
    (hn : p.Live n) (heq : f m = f n) : m = n := by
  rcases hm.cases hp with ⟨i, hi⟩ | ⟨hm, hmcall⟩ <;> rcases hn.cases hp with ⟨j, hj⟩ | ⟨hn, hncall⟩
  · -- Two arguments with one image stand at one position.
    have hi' := h.argument hp hq hi
    rw [heq, h.argument hp hq hj] at hi'
    cases hi'
    exact Option.some.inj ((hp.argument_listed hi).symm.trans (hp.argument_listed hj))
  · obtain ⟨op, operands, hcall⟩ := h.isCall hn hncall
    rw [← heq, h.argument hp hq hi] at hcall
    cases hcall
  · obtain ⟨op, operands, hcall⟩ := h.isCall hm hmcall
    rw [heq, h.argument hp hq hj] at hcall
    cases hcall
  · rcases Nat.lt_trichotomy m n with hlt | rfl | hgt
    · exact absurd heq (Nat.ne_of_lt (h.lt hm hmcall hn hncall hlt))
    · rfl
    · exact absurd heq.symm (Nat.ne_of_lt (h.lt hn hncall hm hmcall hgt))

theorem needed_iff (h : p.LiveMatch f q) (hp : p.Regular) (hq : q.Regular) {node : Nat}
    (hnode : p.Live node) : q.Needed (f node) ↔ p.Needed node := by
  constructor
  · intro hneeded
    obtain ⟨n, hn, heq⟩ := h.exists_needed hp hq hneeded
    rwa [h.injOn hp hq hnode (.inr hn) heq.symm]
  · exact h.needed hp hq

/-! ## Stages and tangents -/

theorem stage (h : p.LiveMatch f q) (hp : p.Regular) (hq : q.Regular) {node : Nat}
    (hneeded : p.Needed node) : q.stage (f node) = p.stage node := by
  induction node using Nat.strongRecOn with
  | ind node ih =>
    obtain ⟨entry, hentry⟩ := hneeded.exists_node hp
    cases entry with
    | argument position =>
      rw [stage_argument hentry, stage_argument (h.argument hp hq hentry), stageOfArgument,
        stageOfArgument, h.baseArity]
    | call op operands =>
      have hcall := h.call hneeded hentry
      rw [stage_call hentry fun o ho => hp.operand_lt hentry ho,
        stage_call hcall fun o ho => hq.operand_lt hcall ho, List.map_map]
      refine congrArg (List.foldl max 0) (List.map_congr_left fun o ho => ?_)
      exact ih o (hp.operand_lt hentry ho) (hneeded.operand hp hentry ho)

variable {x position : Nat}

/-- The image of a live node carries a tangent exactly where the node does. -/
theorem carries_iff (h : p.LiveMatch f q) (hp : p.Regular) (hq : q.Regular)
    (hx : p.nodes[x]? = some (.argument position)) {node : Nat} (hnode : p.Live node) :
    q.Carries (f x) (f node) ↔ p.Carries x node := by
  have hlive := live_argument hp hx
  constructor
  · rintro ⟨hpath, heq | hneeded⟩
    · rw [h.injOn hp hq hnode hlive heq]
      exact carries_self p x
    · have hneeded := (h.needed_iff hp hq hnode).1 hneeded
      obtain ⟨earlier, hback, heq⟩ := h.exists_path hp hq hneeded hpath
      obtain rfl := h.injOn hp hq (.inr (hneeded.of_path hp hback)) hlive heq
      exact ⟨hback, .inr hneeded⟩
  · rintro ⟨hpath, rfl | hneeded⟩
    · exact carries_self q (f node)
    · exact ⟨h.path hp hneeded hpath, .inr (h.needed hp hq hneeded)⟩

/-- An `abs` stands in the way of a derivative of both programs or of none. -/
theorem exists_blocks_iff (h : p.LiveMatch f q) (hp : p.Regular) (hq : q.Regular)
    (hx : p.nodes[x]? = some (.argument position)) :
    (∃ m < q.nodes.length, q.Blocks (f x) m) ↔ ∃ n < p.nodes.length, p.Blocks x n := by
  constructor
  · rintro ⟨m, -, ⟨operands, hcall⟩, hcarries⟩
    have hne : m ≠ f x := by
      rintro rfl
      rw [h.argument hp hq hx] at hcall
      cases hcall
    obtain ⟨n, hneeded, ⟨op, operands', hnode⟩, rfl⟩ :=
      h.exists_call hp hq (hcarries.2.resolve_left hne) ⟨_, _, hcall⟩
    rw [h.call hneeded hnode] at hcall
    cases hcall
    exact ⟨n, hneeded.lt_length hp, ⟨operands', hnode⟩,
      (h.carries_iff hp hq hx (.inr hneeded)).1 hcarries⟩
  · rintro ⟨n, -, ⟨operands, hcall⟩, hcarries⟩
    have hne : n ≠ x := by
      rintro rfl
      rw [hx] at hcall
      cases hcall
    have hneeded := hcarries.2.resolve_left hne
    exact ⟨f n, (h.needed hp hq hneeded).lt_length hq, ⟨operands.map f, h.call hneeded hcall⟩,
      (h.carries_iff hp hq hx (.inr hneeded)).2 hcarries⟩

end LiveMatch

end StagedTangent.Program
