import StagedTangent.Derivative.RuleTable
import StagedTangent.Proofs.Derivative.Recording
import StagedTangent.Proofs.Program.Path

/-!
# Factors and maps kept apart

A rule records its factor before any tangent comes in, and its map takes the tangent from there. So a
factor is made from the operands alone, `Rule.Separates`, and everything that a map records is made
from the tangent, `TangentMap.Follows`. On a tape this means that no path leads from a factor to a
node that no operand depends on, and that one leads from whatever the map records to each node that
the tangent depends on. By `standard_separates` all standard rules are so.
-/

namespace StagedTangent

/-- Each call that a map records uses the tangent or a call that it has recorded before, and the map
ends in one of these. -/
def TangentMap.Follows (map : TangentMap) : Prop :=
  ∀ tangent start, (map.apply tangent).Ensures
    (fun place _ args => ∃ arg ∈ args, arg = tangent ∨ start ≤ arg ∧ arg < place)
    (fun final result => result = tangent ∨ start ≤ result ∧ result < final) start

/-- The calls that a rule records use nothing but the operands and calls that it has recorded
before, and its map follows the tangent. -/
def Rule.Separates (rule : Rule) (op : Op) : Prop :=
  ∀ operands start, operands.length = op.arity → (rule op operands).Ensures
    (fun place _ args => ∀ arg ∈ args, arg ∈ operands ∨ start ≤ arg ∧ arg < place)
    (fun _ map => map.Follows) start

/-! ## On a tape -/

section Paths

variable {d : Program} {r : Recorder} {direction : Nat}

/-- What a map records depends on whatever the tangent depends on, and so does what it ends in. -/
theorem TangentMap.Follows.path {map : TangentMap} {tangent : Nat} (hmap : map.Follows)
    (hpre : ((map.apply tangent).run r).2.nodes <+: d.nodes) (htangent : d.Path tangent direction) :
    (∀ place, r.size ≤ place → place < ((map.apply tangent).run r).2.size →
      d.Path place direction) ∧
    d.Path ((map.apply tangent).run r).1 direction := by
  obtain ⟨hextends, hresult⟩ := (hmap tangent r.size).run
  have hplaces : ∀ place, r.size ≤ place → place < ((map.apply tangent).run r).2.size →
      d.Path place direction := by
    intro place
    induction place using Nat.strongRecOn with
    | ind place ih =>
      intro hge hlt
      obtain ⟨op, args, hcall, arg, harg, hsource⟩ := hextends.exists_call hpre hge hlt
      refine .head (Program.uses_of_call hcall harg) ?_
      rcases hsource with rfl | ⟨hge', hlt'⟩
      · exact htangent
      · exact ih arg hlt' hge' (Nat.lt_trans hlt' hlt)
  refine ⟨hplaces, ?_⟩
  rcases hresult with heq | ⟨hge, hlt⟩
  · rwa [heq]
  · exact hplaces _ hge hlt

/-- What a rule records for a factor depends on nothing that no operand depends on. -/
theorem Rule.Separates.not_path {rule : Rule} {op : Op} {operands : List Nat}
    (hrule : rule.Separates op) (hcount : operands.length = op.arity)
    (hpre : ((rule op operands).run r).2.nodes <+: d.nodes) (hdirection : direction < r.size)
    (hoperands : ∀ o ∈ operands, ¬ d.Path o direction) :
    ∀ place, r.size ≤ place → place < ((rule op operands).run r).2.size →
      ¬ d.Path place direction := by
  have hextends := (hrule operands r.size hcount).run.1
  intro place
  induction place using Nat.strongRecOn with
  | ind place ih =>
    intro hge hlt hpath
    obtain ⟨op', args, hcall, hsources⟩ := hextends.exists_call hpre hge hlt
    rcases Relation.ReflTransGen.cases_head hpath with rfl | ⟨arg, huse, hrest⟩
    · exact Nat.not_lt_of_le hge hdirection
    · obtain ⟨op'', args', hcall', harg⟩ := huse.exists_call
      rw [hcall] at hcall'
      cases hcall'
      rcases hsources arg harg with hoperand | ⟨hge', hlt'⟩
      · exact hoperands arg hoperand hrest
      · exact ih arg hlt' hge' (Nat.lt_trans hlt' hlt) hrest

end Paths

/-! ## The maps -/

namespace TangentMap

theorem keep_follows : keep.Follows := fun _ _ => .inl rfl

/-- A map that records one operation follows the tangent if that is among its operands. -/
theorem follows_of_mem {op : Op} {args : Nat → List Nat} (h : ∀ tangent, tangent ∈ args tangent) :
    (⟨fun tangent => .record op (args tangent)⟩ : TangentMap).Follows := fun tangent start =>
  ⟨⟨tangent, h tangent, .inl rfl⟩, .inr ⟨Nat.le_refl start, Nat.lt_succ_self start⟩⟩

theorem applying_follows (op : Op) : (applying op).Follows :=
  follows_of_mem fun _ => List.mem_cons_self ..

theorem times_follows (factor : Nat) : (times factor).Follows :=
  follows_of_mem fun _ => List.mem_cons_self ..

theorem before_follows (op : Op) (second : Nat) : (before op second).Follows :=
  follows_of_mem fun _ => List.mem_cons_self ..

theorem after_follows (op : Op) (first : Nat) : (after op first).Follows :=
  follows_of_mem fun _ => List.mem_cons_of_mem _ (List.mem_cons_self ..)

end TangentMap

/-! ## The rules -/

namespace Rule

variable {op : Op} {operands : List Nat}

theorem first_mem (h : 0 < operands.length) : first operands ∈ operands := by
  rw [first, List.getD_eq_getElem?_getD, List.getElem?_eq_getElem h]
  exact List.getElem_mem h

theorem second_mem (h : 1 < operands.length) : second operands ∈ operands := by
  rw [second, List.getD_eq_getElem?_getD, List.getElem?_eq_getElem h]
  exact List.getElem_mem h

/-- Rules without a factor. -/
theorem separates_of_pure {rule : Rule} {map : List Nat → TangentMap}
    (hrule : ∀ operands, rule op operands = pure (map operands))
    (hmap : ∀ operands, (map operands).Follows) : rule.Separates op := by
  intro operands start _
  rw [hrule]
  exact hmap operands

/-- Rules whose factor is an operation on the operand. -/
theorem separates_of_operation {rule : Rule} {inner : Op} (hop : op.arity = 1)
    (hrule : ∀ operands, rule op operands =
      Fragment.record inner [first operands] >>= fun factor => pure (.times factor)) :
    rule.Separates op := by
  intro operands start hcount
  rw [hrule]
  refine ⟨fun arg harg => .inl ?_, TangentMap.times_follows start⟩
  rw [List.mem_singleton.1 harg]
  exact first_mem (by omega)

theorem cosine_separates (hop : op.arity = 1) : cosine.Separates op := by
  intro operands start hcount
  refine ⟨fun arg harg => .inl ?_, fun arg harg => .inr ?_, TangentMap.times_follows (start + 1)⟩
  · rw [List.mem_singleton.1 harg]
    exact first_mem (by omega)
  · rw [List.mem_singleton.1 harg]
    exact ⟨Nat.le_refl start, Nat.lt_succ_self start⟩

theorem squareRoot_separates (hop : op.arity = 1) : squareRoot.Separates op := by
  intro operands start hcount
  refine ⟨fun arg harg => .inl ?_, fun arg harg => .inr ?_,
    TangentMap.before_follows .div (start + 1)⟩
  · rw [List.mem_singleton.1 harg]
    exact first_mem (by omega)
  · obtain rfl | rfl := List.mem_pair.1 harg
    all_goals exact ⟨Nat.le_refl _, Nat.lt_succ_self _⟩

theorem divisor_separates (hop : op.arity = 2) : divisor.Separates op := by
  intro operands start hcount
  have hfirst : first operands ∈ operands := first_mem (by omega)
  have hsecond : second operands ∈ operands := second_mem (by omega)
  refine ⟨fun arg harg => ?_, fun arg harg => ?_, fun arg harg => ?_,
    TangentMap.times_follows (start + 1 + 1)⟩
  · rcases List.mem_pair.1 harg with rfl | rfl
    · exact .inl hfirst
    · exact .inl hsecond
  · rcases List.mem_pair.1 harg with rfl | rfl
    · exact .inr ⟨Nat.le_refl _, Nat.lt_succ_self _⟩
    · exact .inl hsecond
  · rw [List.mem_singleton.1 harg]
    exact .inr ⟨Nat.le_succ start, Nat.lt_succ_self _⟩

end Rule

/-! ## The standard table -/

/-- All rules of a table keep factors and maps apart. -/
def RuleTable.Separates (rules : RuleTable) : Prop :=
  ∀ {op : Op} {position : Nat} {rule : Rule}, position < op.arity →
    rules.get op.opcode (position + 1) = .ok rule → rule.Separates op

theorem standard_separates : RuleTable.standard.Separates := by
  intro op position rule hposition hrule
  match op, position, hposition with
  | .add, 0, _ | .add, 1, _ | .sub, 0, _ =>
    obtain rfl := Except.ok.inj hrule
    exact Rule.separates_of_pure (fun _ => rfl) fun _ => TangentMap.keep_follows
  | .mul, 0, _ | .div, 0, _ | .dot, 0, _ | .log, 0, _ =>
    obtain rfl := Except.ok.inj hrule
    exact Rule.separates_of_pure (fun _ => rfl) fun _ => TangentMap.before_follows _ _
  | .mul, 1, _ | .dot, 1, _ =>
    obtain rfl := Except.ok.inj hrule
    exact Rule.separates_of_pure (fun _ => rfl) fun _ => TangentMap.after_follows _ _
  | .div, 1, _ =>
    obtain rfl := Except.ok.inj hrule
    exact Rule.divisor_separates rfl
  | .sin, 0, _ | .exp, 0, _ =>
    obtain rfl := Except.ok.inj hrule
    exact Rule.separates_of_operation rfl fun _ => rfl
  | .cos, 0, _ =>
    obtain rfl := Except.ok.inj hrule
    exact Rule.cosine_separates rfl
  | .sqrt, 0, _ =>
    obtain rfl := Except.ok.inj hrule
    exact Rule.squareRoot_separates rfl
  | .sub, 1, _ | .neg, 0, _ | .sum, 0, _ | .index _, 0, _ | .circshift _, 0, _ | .zeroLike, 0, _
  | .sign, 0, _ =>
    obtain rfl := Except.ok.inj hrule
    exact Rule.separates_of_pure (fun _ => rfl) fun _ => TangentMap.applying_follows _
  | .abs, 0, _ => cases hrule

end StagedTangent
