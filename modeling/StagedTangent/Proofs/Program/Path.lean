import Mathlib.Logic.Relation
import StagedTangent.Proofs.Program.Regular
import StagedTangent.Proofs.Program.Table

/-!
# Paths of operand uses

The two sweeps over a tape, `Program.reachedFrom` and `Program.neededFor`, each take one pass. Here
they are shown to find the same relation from its two ends: a path of operand uses, of any length,
from a node back to one that it is computed from. The main statements are `neededFor_iff` and
`reachedFrom_iff`; as tables the sweeps stand side by side in `reachedFrom_dual`.
-/

namespace StagedTangent.Program

/-- A node has another among its operands. -/
def Uses (p : Program) (user operand : Nat) : Prop :=
  ∃ node, p.nodes[user]? = some node ∧ operand ∈ node.operands

/-- A path of uses, possibly empty, from a node back to another. -/
def Path (p : Program) : Nat → Nat → Prop := Relation.ReflTransGen p.Uses

variable {p : Program}

theorem uses_of_call {user operand : Nat} {op : Op} {operands : List Nat}
    (h : p.nodes[user]? = some (.call op operands)) (ho : operand ∈ operands) :
    p.Uses user operand := ⟨_, h, ho⟩

/-- Only calls use anything. -/
theorem Uses.exists_call {user operand : Nat} (h : p.Uses user operand) :
    ∃ op operands, p.nodes[user]? = some (.call op operands) ∧ operand ∈ operands := by
  obtain ⟨node, hnode, ho⟩ := h
  cases node with
  | argument position => cases ho
  | call op operands => exact ⟨op, operands, hnode, ho⟩

theorem Uses.lt (hp : p.Regular) {user operand : Nat} (h : p.Uses user operand) :
    operand < user := by
  obtain ⟨op, operands, hnode, ho⟩ := h.exists_call
  exact hp.operand_lt hnode ho

/-- Paths run toward the beginning of the tape. -/
theorem Path.le (hp : p.Regular) {node earlier : Nat} (h : p.Path node earlier) :
    earlier ≤ node := by
  induction h with
  | refl => exact Nat.le_refl _
  | tail _ hstep ih => exact Nat.le_trans (Nat.le_of_lt (hstep.lt hp)) ih

/-! ## Marking backward -/

@[simp] theorem size_mark (needed : Array Bool) (nodes : List Nat) :
    (mark needed nodes).size = needed.size := by
  induction nodes generalizing needed with
  | nil => rfl
  | cons node rest ih =>
    rw [mark, List.foldl_cons, ← mark, ih, Array.size_setIfInBounds]

/-- Marking adds exactly the listed nodes that are on the tape. -/
theorem getD_mark {needed : Array Bool} {nodes : List Nat} {n : Nat} :
    (mark needed nodes).getD n false = true ↔
      needed.getD n false = true ∨ n ∈ nodes ∧ n < needed.size := by
  induction nodes generalizing needed with
  | nil => simp [mark]
  | cons node rest ih =>
    rw [mark, List.foldl_cons, ← mark, ih, Array.size_setIfInBounds]
    have hset : (needed.setIfInBounds node true).getD n false = true ↔
        needed.getD n false = true ∨ n = node ∧ n < needed.size := by
      simp only [Array.getD_eq_getD_getElem?, Array.getElem?_setIfInBounds]
      by_cases hn : node = n
      · subst hn
        by_cases hlt : node < needed.size
        · simp [hlt]
        · simp [hlt]
      · simp [hn, Ne.symm hn]
    rw [hset, List.mem_cons]
    tauto

/-- The sweep over the first nodes of the tape, last one first. -/
def sweep (p : Program) (bound : Nat) (needed : Array Bool) : Array Bool :=
  (p.nodes.zipIdx.take bound).reverse.foldl markOperands needed

theorem sweep_succ {bound : Nat} {node : Node} (h : p.nodes[bound]? = some node)
    (needed : Array Bool) :
    p.sweep (bound + 1) needed = p.sweep bound (markOperands needed (node, bound)) := by
  have hz : p.nodes.zipIdx[bound]? = some (node, bound) := by simp [h]
  obtain ⟨hlt, hget⟩ := List.getElem?_eq_some_iff.1 hz
  rw [sweep, List.take_succ_eq_append_getElem hlt, hget, List.reverse_append]
  rfl

/-- What a sweep marks: the nodes marked before and whatever those below the bound are computed
from. -/
theorem getD_sweep (hp : p.Regular) {bound : Nat} (hbound : bound ≤ p.nodes.length)
    {needed : Array Bool} (hsize : needed.size = p.nodes.length) {n : Nat} :
    (p.sweep bound needed).getD n false = true ↔
      ∃ m, needed.getD m false = true ∧ (m = n ∨ m < bound ∧ p.Path m n) := by
  induction bound generalizing needed with
  | zero => simp [sweep]
  | succ bound ih =>
    obtain ⟨node, hnode⟩ : ∃ node, p.nodes[bound]? = some node := ⟨_, List.getElem?_eq_getElem hbound⟩
    rw [sweep_succ hnode]
    by_cases hmarked : needed.getD bound false = true
    · have hentry : markOperands needed (node, bound) = mark needed node.operands := by
        simp [markOperands, hmarked]
      rw [hentry, ih (by omega) (by rw [size_mark, hsize])]
      simp only [getD_mark]
      constructor
      · rintro ⟨m, hm | ⟨hm, -⟩, hpath⟩
        · exact ⟨m, hm, hpath.imp_right fun h => ⟨by omega, h.2⟩⟩
        · have huse : p.Uses bound m := ⟨node, hnode, hm⟩
          rcases hpath with rfl | ⟨-, hpath⟩
          · exact ⟨bound, hmarked, .inr ⟨by omega, .single huse⟩⟩
          · exact ⟨bound, hmarked, .inr ⟨by omega, .head huse hpath⟩⟩
      · rintro ⟨m, hm, rfl | ⟨hlt, hpath⟩⟩
        · exact ⟨m, .inl hm, .inl rfl⟩
        · rcases Nat.lt_succ_iff_lt_or_eq.1 hlt with hlt | rfl
          · exact ⟨m, .inl hm, .inr ⟨hlt, hpath⟩⟩
          -- A path from the bound itself either ends there or goes on from one of its operands.
          · rcases Relation.ReflTransGen.cases_head hpath with rfl | ⟨o, huse, hpath⟩
            · exact ⟨m, .inl hm, .inl rfl⟩
            · have ho := huse.lt hp
              obtain ⟨node', hnode', ho'⟩ := huse
              obtain rfl : node' = node := by simpa [hnode] using hnode'.symm
              exact ⟨o, .inr ⟨ho', by omega⟩, .inr ⟨ho, hpath⟩⟩
    · have hentry : markOperands needed (node, bound) = needed := by
        simp [markOperands, hmarked]
      rw [hentry, ih (by omega) hsize]
      constructor
      · rintro ⟨m, hm, hpath⟩
        exact ⟨m, hm, hpath.imp_right fun h => ⟨by omega, h.2⟩⟩
      · rintro ⟨m, hm, rfl | ⟨hlt, hpath⟩⟩
        · exact ⟨m, hm, .inl rfl⟩
        · have hne : m ≠ bound := by
            rintro rfl
            exact hmarked hm
          exact ⟨m, hm, .inr ⟨by omega, hpath⟩⟩

/-- The backward sweep finds what a node is computed from. -/
theorem neededFor_iff (hp : p.Regular) {sink n : Nat} :
    (p.neededFor sink).getD n false = true ↔ sink < p.nodes.length ∧ p.Path sink n := by
  unfold neededFor
  rw [size_eq_length]
  by_cases hsink : p.nodes.length ≤ sink
  · simp only [if_pos hsink]
    simp only [Array.getD_eq_getD_getElem?, Array.getElem?_replicate]
    constructor
    · intro h
      split at h <;> simp at h
    · rintro ⟨h, -⟩
      omega
  · have hlt : sink < p.nodes.length := by omega
    simp only [if_neg hsink]
    rw [← sweep, getD_sweep hp (by omega) (by simp)]
    have hstart : ∀ m, ((Array.replicate p.nodes.length false).setIfInBounds sink true).getD m false
        = true ↔ m = sink := by
      intro m
      simp only [Array.getD_eq_getD_getElem?, Array.getElem?_setIfInBounds, Array.size_replicate,
        Array.getElem?_replicate]
      by_cases hm : sink = m
      · subst hm
        simp [hlt]
      · by_cases hlt : m < p.nodes.length
        · simp [hm, Ne.symm hm, hlt]
        · simp [hm, Ne.symm hm, hlt]
    simp only [hstart]
    constructor
    · rintro ⟨m, rfl, rfl | ⟨-, hpath⟩⟩
      · exact ⟨hlt, .refl⟩
      · exact ⟨hlt, hpath⟩
    · rintro ⟨-, hpath⟩
      exact ⟨sink, rfl, .inr ⟨by omega, hpath⟩⟩

/-! ## Reaching forward -/

/-- The forward sweep finds what is computed from a node. -/
theorem reachedFrom_iff (hp : p.Regular) {source n : Nat} :
    (p.reachedFrom source).getD n false = true ↔ n < p.nodes.length ∧ p.Path n source := by
  unfold reachedFrom
  rw [size_eq_length]
  by_cases hsource : p.nodes.length ≤ source
  · simp only [if_pos hsource]
    simp only [Array.getD_eq_getD_getElem?, Array.getElem?_replicate]
    constructor
    · intro h
      split at h <;> simp at h
    · rintro ⟨hn, hpath⟩
      have := hpath.le hp
      omega
  · simp only [if_neg hsource]
    change (fill (dependsOn source) p.nodes).getD n false = true ↔ _
    induction n using Nat.strongRecOn with
    | ind n ih =>
      rcases Nat.lt_or_ge n p.nodes.length with hn | hn
      · obtain ⟨node, hnode⟩ : ∃ node, p.nodes[n]? = some node := ⟨_, List.getElem?_eq_getElem hn⟩
        have hsize : (fill (dependsOn source) (p.nodes.take n)).size = n := by
          rw [size_fill, List.length_take]
          omega
        rw [Array.getD_eq_getD_getElem?, getElem?_fill _ hnode, Option.getD_some, dependsOn, hsize]
        split
        · next hle =>
          rw [decide_eq_true_iff]
          constructor
          · rintro rfl
            exact ⟨hn, .refl⟩
          · rintro ⟨-, hpath⟩
            have := hpath.le hp
            omega
        · next hgt =>
          rw [List.any_eq_true]
          constructor
          · rintro ⟨o, ho, hreached⟩
            have huse : p.Uses n o := ⟨node, hnode, ho⟩
            rw [getD_fill_take _ _ (huse.lt hp), ih o (huse.lt hp)] at hreached
            exact ⟨hn, .head huse hreached.2⟩
          · rintro ⟨-, hpath⟩
            rcases Relation.ReflTransGen.cases_head hpath with rfl | ⟨o, huse, hpath⟩
            · omega
            · have ho := huse.lt hp
              obtain ⟨node', hnode', ho'⟩ := huse
              obtain rfl : node' = node := by simpa [hnode] using hnode'.symm
              refine ⟨o, ho', ?_⟩
              rw [getD_fill_take _ _ ho, ih o ho]
              exact ⟨by omega, hpath⟩
      · rw [Array.getD_eq_getD_getElem?, Array.getElem?_eq_none (by rw [size_fill]; exact hn)]
        simp only [Option.getD_none, Bool.false_eq_true, false_iff]
        rintro ⟨h, -⟩
        omega

/-! ## The two sweeps together -/

@[simp] theorem size_markOperands (needed : Array Bool) (entry : Node × Nat) :
    (markOperands needed entry).size = needed.size := by
  unfold markOperands
  split
  · exact size_mark _ _
  · rfl

theorem size_foldl_markOperands (entries : List (Node × Nat)) (needed : Array Bool) :
    (entries.foldl markOperands needed).size = needed.size := by
  induction entries generalizing needed with
  | nil => rfl
  | cons entry rest ih => rw [List.foldl_cons, ih, size_markOperands]

@[simp] theorem size_neededFor (p : Program) (sink : Nat) : (p.neededFor sink).size = p.size := by
  unfold neededFor
  split
  · exact Array.size_replicate
  · rw [size_foldl_markOperands, Array.size_setIfInBounds, Array.size_replicate]

@[simp] theorem size_reachedFrom (p : Program) (source : Nat) :
    (p.reachedFrom source).size = p.size := by
  unfold reachedFrom
  split
  · exact Array.size_replicate
  · change (fill (dependsOn source) p.nodes).size = p.size
    rw [size_fill, size_eq_length]

theorem getElem?_eq_some_true {marks : Array Bool} {n : Nat} :
    marks[n]? = some true ↔ marks.getD n false = true := by
  rw [Array.getD_eq_getD_getElem?]
  cases marks[n]? <;> simp

/-- Marks at places of two tables agree if the one is set where the other is. -/
theorem getElem?_congr_of_true {marks marks' : Array Bool} {n n' : Nat} (hn : n < marks.size)
    (hn' : n' < marks'.size) (h : marks[n]? = some true ↔ marks'[n']? = some true) :
    marks[n]? = marks'[n']? := by
  rw [Array.getElem?_eq_getElem hn, Array.getElem?_eq_getElem hn', Option.some.injEq,
    Option.some.injEq] at h
  rw [Array.getElem?_eq_getElem hn, Array.getElem?_eq_getElem hn', Bool.eq_iff_iff.2 h]

/-- Going forward from a node finds another exactly if a path of uses leads from that one back, and
going backward from that one finds the first under the same condition. A reference off the tape
reaches nothing and needs nothing. -/
theorem reachedFrom_dual (h : p.WellFormed) :
    (∀ source sink, source < p.size → sink < p.size →
      ((p.reachedFrom source)[sink]? = some true ↔ p.Path sink source) ∧
      ((p.neededFor sink)[source]? = some true ↔ p.Path sink source) ∧
      (p.reachedFrom source)[sink]? = (p.neededFor sink)[source]?) ∧
    (∀ node, (p.reachedFrom node).size = p.size ∧ (p.neededFor node).size = p.size) ∧
    ∀ node, p.size ≤ node → p.reachedFrom node = Array.replicate p.size false ∧
      p.neededFor node = Array.replicate p.size false := by
  have hp := h.regular
  refine ⟨fun source sink hsource hsink => ?_, fun node => ⟨size_reachedFrom p node,
    size_neededFor p node⟩, fun node hnode => ⟨if_pos hnode, if_pos hnode⟩⟩
  have hforward : (p.reachedFrom source)[sink]? = some true ↔ p.Path sink source := by
    rw [getElem?_eq_some_true, reachedFrom_iff hp, ← size_eq_length, and_iff_right hsink]
  have hbackward : (p.neededFor sink)[source]? = some true ↔ p.Path sink source := by
    rw [getElem?_eq_some_true, neededFor_iff hp, ← size_eq_length, and_iff_right hsink]
  refine ⟨hforward, hbackward, getElem?_congr_of_true ?_ ?_ (hforward.trans hbackward.symm)⟩
  · rwa [size_reachedFrom]
  · rwa [size_neededFor]

/-- In `sin x * cos x` with an exponential that nothing uses, the product depends on the sine and
the exponential does not. -/
theorem reachedFrom_dual_product :
    let p : Program := ⟨.ofNodes #[.argument 0, .call .sin [0], .call .cos [0], .call .mul [1, 2],
      .call .exp [0]], [0], 3, 1⟩
    p.Path 3 1 ∧ ¬ p.Path 4 1 ∧ (p.neededFor 3)[4]? = some false ∧
      p.reachedFrom 5 = #[false, false, false, false, false] := by
  intro p
  have h : p.WellFormed := by decide
  have hdual := reachedFrom_dual h
  refine ⟨(hdual.1 1 3 (by decide) (by decide)).2.1.1 (by decide), fun hpath => ?_, ?_,
    (hdual.2.2 5 (by decide)).1⟩
  · exact absurd ((hdual.1 1 4 (by decide) (by decide)).1.2 hpath) (by decide)
  · rw [← (hdual.1 4 3 (by decide) (by decide)).2.2]
    decide

/-! ## Needed nodes -/

/-- The result needs a node. -/
def Needed (p : Program) (node : Nat) : Prop := (p.neededFor p.result).getD node false = true

instance (p : Program) (node : Nat) : Decidable (p.Needed node) :=
  inferInstanceAs (Decidable (_ = true))

theorem needed_iff (hp : p.Regular) {node : Nat} : p.Needed node ↔ p.Path p.result node := by
  rw [Needed, neededFor_iff hp, and_iff_right hp.result_lt]

/-- The result needs itself. -/
theorem needed_result (hp : p.Regular) : p.Needed p.result := (needed_iff hp).2 .refl

/-- The operands of a needed node are needed. -/
theorem Needed.of_uses (hp : p.Regular) {user operand : Nat} (h : p.Needed user)
    (huse : p.Uses user operand) : p.Needed operand :=
  (needed_iff hp).2 (.tail ((needed_iff hp).1 h) huse)

theorem Needed.operand (hp : p.Regular) {node : Nat} {op : Op} {operands : List Nat}
    {operand : Nat} (h : p.Needed node) (hnode : p.nodes[node]? = some (.call op operands))
    (ho : operand ∈ operands) : p.Needed operand :=
  h.of_uses hp (uses_of_call hnode ho)

theorem Needed.lt_length (hp : p.Regular) {node : Nat} (h : p.Needed node) :
    node < p.nodes.length :=
  Nat.lt_of_le_of_lt (Path.le hp ((needed_iff hp).1 h)) hp.result_lt

theorem Needed.exists_node (hp : p.Regular) {node : Nat} (h : p.Needed node) :
    ∃ entry, p.nodes[node]? = some entry :=
  ⟨_, List.getElem?_eq_getElem (h.lt_length hp)⟩

end StagedTangent.Program
