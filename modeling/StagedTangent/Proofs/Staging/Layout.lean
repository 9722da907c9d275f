import StagedTangent.Proofs.Sequencing
import StagedTangent.Proofs.Staging.Schedule

/-!
# Laying out always succeeds

Laying a program out fails where an operand has no name yet. Here it is shown that this never
happens to a well-formed program: when a stage is laid out, the arguments and the needed calls of
all earlier stages have names, and within the stage the schedule names operands before their users.
The main statement is `exists_toCode`.
-/

namespace StagedTangent

/-! ## Names -/

namespace Naming

variable {named : Naming} {node : Nat}

theorem symbol?_eq_findIdx? :
    named.symbol? node =
      (named.toList.findIdx? (· == node)).map (fun place => Symbol.mk (place + 1)) := by
  rcases named with ⟨nodes⟩
  simp [symbol?, List.idxOf?]

theorem symbol?_eq_none : named.symbol? node = none ↔ node ∉ named := by
  simp [symbol?]

theorem exists_symbol? (h : node ∈ named) : ∃ s, named.symbol? node = some s := by
  cases hs : named.symbol? node with
  | none => exact absurd h (symbol?_eq_none.1 hs)
  | some s => exact ⟨s, rfl⟩

/-- Naming a node leaves the names of all others as they are. -/
theorem symbol?_push (next : Nat) :
    symbol? (named.push next) node =
      (named.symbol? node).or (if next = node then some named.fresh else none) := by
  simp only [symbol?_eq_findIdx?, Array.toList_push, List.findIdx?_append]
  cases named.toList.findIdx? (· == node) with
  | some place => rfl
  | none => by_cases h : next = node <;> simp [h, fresh]

/-- Names given so far differ from the next one. -/
theorem ne_fresh {s : Symbol} (h : named.symbol? node = some s) : s ≠ named.fresh := by
  rw [symbol?_eq_findIdx?, Option.map_eq_some_iff] at h
  obtain ⟨place, hplace, rfl⟩ := h
  obtain ⟨hlt, -⟩ := List.findIdx?_eq_some_iff_getElem.1 hplace
  rw [Array.length_toList] at hlt
  simp only [fresh, ne_eq, Symbol.mk.injEq]
  omega

/-- The names of operands are there if each has one. -/
theorem args_cons_eq_ok {stage user o : Nat} {rest : List Nat} {symbols : List Symbol} :
    named.args stage user (o :: rest) = .ok symbols ↔
      ∃ s tail, named.symbol? o = some s ∧ named.args stage user rest = .ok tail ∧
        s :: tail = symbols := by
  unfold args
  rw [List.mapM_cons, bind_eq_ok]
  constructor
  · rintro ⟨s, hs, h⟩
    obtain ⟨tail, htail, h⟩ := bind_eq_ok.1 h
    refine ⟨s, tail, ?_, htail, Except.ok.inj h⟩
    cases ho : named.symbol? o with
    | none =>
      rw [ho] at hs
      cases hs
    | some t =>
      rw [ho] at hs
      rw [Except.ok.inj hs]
  · rintro ⟨s, tail, hs, htail, rfl⟩
    exact ⟨s, by rw [hs], bind_eq_ok.2 ⟨tail, htail, rfl⟩⟩

/-- Operands that all have names give a list of names. -/
theorem exists_args {operands : List Nat} (stage user : Nat) (h : ∀ o ∈ operands, o ∈ named) :
    ∃ args, named.args stage user operands = .ok args := by
  induction operands with
  | nil => exact ⟨[], rfl⟩
  | cons o rest ih =>
    obtain ⟨s, hs⟩ := exists_symbol? (h o (List.mem_cons_self ..))
    obtain ⟨symbols, hsymbols⟩ := ih fun o' ho' => h o' (List.mem_cons_of_mem _ ho')
    exact ⟨s :: symbols, args_cons_eq_ok.2 ⟨s, symbols, hs, hsymbols, rfl⟩⟩

end Naming

namespace Program

variable {p : Program}

/-- A node that applies an operation. -/
def IsCall (p : Program) (node : Nat) : Prop :=
  ∃ op operands, p.nodes[node]? = some (.call op operands)

instance (p : Program) (node : Nat) : Decidable (p.IsCall node) :=
  match h : p.nodes[node]? with
  | some (.call op operands) => .isTrue ⟨op, operands, h⟩
  | some (.argument _) => .isFalse fun ⟨_, _, hcall⟩ => by simp [h] at hcall
  | none => .isFalse fun ⟨_, _, hcall⟩ => by simp [h] at hcall

/-! ## One stage -/

/-- Parameters name the nodes they are given. -/
theorem mem_layOutParams {named : Naming} {nodes : List Nat} {m : Nat} :
    m ∈ (layOutParams named nodes).2 ↔ m ∈ named ∨ m ∈ nodes := by
  induction nodes generalizing named with
  | nil => simp [layOutParams]
  | cons node rest ih =>
    simp only [layOutParams]
    rw [ih, Array.mem_push, List.mem_cons, or_assoc]

theorem layOutBindings_of_not_isCall (stage : Nat) (named : Naming) {n : Nat} (rest : List Nat)
    (h : ¬ p.IsCall n) :
    p.layOutBindings stage named (n :: rest) = p.layOutBindings stage named rest := by
  rw [layOutBindings, node?_eq]
  split
  · next op operands hn => exact absurd ⟨op, operands, hn⟩ h
  · rfl

theorem layOutBindings_of_call (stage : Nat) (named : Naming) {n : Nat} {op : Op}
    {operands : List Nat} (rest : List Nat) (h : p.nodes[n]? = some (.call op operands)) :
    p.layOutBindings stage named (n :: rest) = (do
      let args ← named.args stage n operands
      let (bindings, final) ← p.layOutBindings stage (named.push n) rest
      .ok (⟨named.fresh, n, op, args⟩ :: bindings, final)) := by
  rw [layOutBindings, node?_eq, h]

/-- Sorted nodes whose operands have names, or stand among them, can be laid out, and then the calls
among them have names as well. -/
theorem exists_layOutBindings (stage : Nat) (named : Naming) {nodes : List Nat}
    (hsorted : nodes.Pairwise (· < ·))
    (hops : ∀ n ∈ nodes, ∀ op operands, p.nodes[n]? = some (.call op operands) →
      ∀ o ∈ operands, o ∈ named ∨ o ∈ nodes ∧ o < n ∧ p.IsCall o) :
    ∃ bindings final, p.layOutBindings stage named nodes = .ok (bindings, final) ∧
      ∀ m, m ∈ final ↔ m ∈ named ∨ m ∈ nodes ∧ p.IsCall m := by
  induction nodes generalizing named with
  | nil => exact ⟨[], named, rfl, by simp⟩
  | cons n rest ih =>
    obtain ⟨hfirst, hrest⟩ := List.pairwise_cons.1 hsorted
    by_cases hcall : p.IsCall n
    · obtain ⟨op, operands, hn⟩ := hcall
      have hnamed : ∀ o ∈ operands, o ∈ named := by
        intro o ho
        rcases hops n (List.mem_cons_self ..) op operands hn o ho with h | ⟨hmem, hlt, -⟩
        · exact h
        · rcases List.mem_cons.1 hmem with rfl | hmem
          · omega
          · have := hfirst o hmem
            omega
      obtain ⟨args, hargs⟩ := Naming.exists_args stage n hnamed
      obtain ⟨bindings, final, hok, hfinal⟩ := ih (named.push n) hrest
        fun m hm op' operands' h o ho => by
          rcases hops m (List.mem_cons_of_mem _ hm) op' operands' h o ho with h | ⟨hmem, hlt, hc⟩
          · exact .inl (Array.mem_push.2 (.inl h))
          · rcases List.mem_cons.1 hmem with rfl | hmem
            · exact .inl (Array.mem_push.2 (.inr rfl))
            · exact .inr ⟨hmem, hlt, hc⟩
      refine ⟨⟨named.fresh, n, op, args⟩ :: bindings, final, ?_, fun m => ?_⟩
      · rw [layOutBindings_of_call stage named rest hn, hargs, ok_bind, hok, ok_bind]
      · rw [hfinal, Array.mem_push, List.mem_cons]
        constructor
        · rintro ((h | rfl) | ⟨h, hc⟩)
          · exact .inl h
          · exact .inr ⟨.inl rfl, op, operands, hn⟩
          · exact .inr ⟨.inr h, hc⟩
        · rintro (h | ⟨rfl | h, hc⟩)
          · exact .inl (.inl h)
          · exact .inl (.inr rfl)
          · exact .inr ⟨h, hc⟩
    · obtain ⟨bindings, final, hok, hfinal⟩ := ih named hrest fun m hm op operands h o ho => by
        rcases hops m (List.mem_cons_of_mem _ hm) op operands h o ho with h | ⟨hmem, hlt, hc⟩
        · exact .inl h
        · rcases List.mem_cons.1 hmem with rfl | hmem
          · exact absurd hc hcall
          · exact .inr ⟨hmem, hlt, hc⟩
      refine ⟨bindings, final, ?_, fun m => ?_⟩
      · rw [layOutBindings_of_not_isCall stage named rest hcall, hok]
      · rw [hfinal, List.mem_cons]
        constructor
        · rintro (h | ⟨h, hc⟩)
          · exact .inl h
          · exact .inr ⟨.inr h, hc⟩
        · rintro (h | ⟨rfl | h, hc⟩)
          · exact .inl h
          · exact absurd hc hcall
          · exact .inr ⟨h, hc⟩

/-! ## All stages -/

/-- Everything of the stages before a given one that code can use has a name. -/
def Covers (p : Program) (named : Naming) (stage : Nat) : Prop :=
  ∀ node, p.Needed node → p.stage node < stage → node ∈ named

/-- A stage can be laid out when the earlier ones have been. -/
theorem exists_layOutLayer (hp : p.Regular) {named : Naming} {stage : Nat}
    (h : p.Covers named stage) :
    ∃ layer final, p.layOutLayer p.plan stage named = .ok (layer, final) ∧
      p.Covers final (stage + 1) := by
  -- A needed node of this stage is one of its arguments or a call among its bindings.
  have hthis : ∀ node, p.Needed node → p.stage node ≤ stage →
      node ∈ (layOutParams named (p.argumentsAt stage)).2 ∨
        node ∈ p.plan.neededAt stage ∧ p.IsCall node := by
    intro node hneeded hstage
    rw [mem_layOutParams]
    rcases Nat.lt_or_eq_of_le hstage with hlt | heq
    · exact .inl (.inl (h node hneeded hlt))
    · obtain ⟨entry, hentry⟩ := hneeded.exists_node hp
      cases entry with
      | argument position => exact .inl (.inr (mem_argumentsAt hp hentry heq))
      | call op operands =>
        exact .inr ⟨(mem_neededAt hp).2 ⟨hneeded, heq⟩, op, operands, hentry⟩
  obtain ⟨bindings, final, hok, hfinal⟩ :=
    exists_layOutBindings stage (layOutParams named (p.argumentsAt stage)).2
      (pairwise_neededAt stage) fun n hn op operands hnode o ho => by
        obtain ⟨hneeded, hstage⟩ := (mem_neededAt hp).1 hn
        have huse := uses_of_call hnode ho
        rcases hthis o (hneeded.of_uses hp huse) (hstage ▸ stage_le_of_uses hp huse) with h | ⟨h, hc⟩
        · exact .inl h
        · exact .inr ⟨h, huse.lt hp, hc⟩
  refine ⟨⟨stage, (layOutParams named (p.argumentsAt stage)).1, bindings⟩, final, ?_, ?_⟩
  · unfold layOutLayer
    simp only [hok]
    rfl
  · intro node hneeded hstage
    exact (hfinal node).2 (hthis node hneeded (Nat.le_of_lt_succ hstage))

/-- The stages from a given one on can be laid out when the earlier ones have been. -/
theorem exists_layOutFrom (hp : p.Regular) {inner stage : Nat} {named : Naming}
    (h : p.Covers named stage) (hlast : stage + inner = p.order) :
    ∃ scope final, p.layOutFrom p.plan stage named inner = .ok (scope, final) := by
  induction inner generalizing stage named with
  | zero =>
    obtain ⟨layer, final, hok, hcovers⟩ := exists_layOutLayer hp h
    have hstage := stage_le_order hp p.result
    obtain ⟨s, hs⟩ := Naming.exists_symbol?
      (hcovers p.result (needed_result hp) (by omega))
    refine ⟨.innermost layer s, final, ?_⟩
    rw [layOutFrom, hok, ok_bind]
    simp only [hs]
  | succ inner ih =>
    obtain ⟨layer, middle, hok, hcovers⟩ := exists_layOutLayer hp h
    obtain ⟨scope, final, hinner⟩ := ih hcovers (by omega)
    refine ⟨.enclosing layer scope, final, ?_⟩
    rw [layOutFrom, hok, ok_bind]
    simp only [hinner, ok_bind]

/-- Every well-formed program has code. -/
theorem exists_toCode (h : p.WellFormed) :
    ∃ scope final, p.layOutFrom p.plan 0 #[] p.order = .ok (scope, final) ∧
      p.toCode = .ok ⟨scope, final.size⟩ := by
  obtain ⟨scope, final, hok⟩ : ∃ scope final, p.layOutFrom p.plan 0 #[] p.order = .ok (scope, final) :=
    exists_layOutFrom h.regular (fun node _ hlt => by omega) (by omega)
  refine ⟨scope, final, hok, ?_⟩
  have hcheck : p.check = .ok () := (check_eq_ok_iff p).2 h
  unfold toCode
  rw [hcheck]
  change (p.layOutFrom p.plan 0 #[] p.order >>= _) = _
  rw [hok]
  rfl

end Program

end StagedTangent
