import Mathlib.Data.List.Sort
import StagedTangent.Proofs.Live.Derivative
import StagedTangent.Proofs.Staging.Scoping
import StagedTangent.Staging.Text

/-!
# Code of programs with one live part

Laying out looks at arguments and needed calls and gives names by their order, so two programs with
one live part have the same code but for the nodes that its names stand for, `LiveMatch.toCode`. With
what is known of their derivatives this gives `LiveMatch.toCode_derivatives`: calls that the result
does not need change nothing at any order of differentiation, neither errors nor code nor text.
-/

namespace StagedTangent

/-! ## Code over other nodes -/

/-- A parameter that stands for another node. -/
def Param.relabel (f : Nat → Nat) (param : Param) : Param := { param with node := f param.node }

/-- A binding that computes another node. -/
def Binding.relabel (f : Nat → Nat) (b : Binding) : Binding := { b with node := f b.node }

def Layer.relabel (f : Nat → Nat) (layer : Layer) : Layer :=
  { layer with
    params := layer.params.map (Param.relabel f)
    bindings := layer.bindings.map (Binding.relabel f) }

def Scope.relabel (f : Nat → Nat) : Scope → Scope
  | .innermost layer result => .innermost (layer.relabel f) result
  | .enclosing layer inner => .enclosing (layer.relabel f) (inner.relabel f)

/-- The same code, where parameters and bindings stand for other nodes. -/
def Code.relabel (f : Nat → Nat) (code : Code) : Code := { code with root := code.root.relabel f }

/-- The text of a layer does not show nodes. -/
theorem Layer.text_relabel (f : Nat → Nat) (depth : Nat) (layer : Layer) :
    (layer.relabel f).text depth = layer.text depth := by
  simp only [Layer.text, Layer.relabel, List.map_map]
  rfl

theorem Scope.text_relabel (f : Nat → Nat) (depth : Nat) (scope : Scope) :
    (scope.relabel f).text depth = scope.text depth := by
  induction scope generalizing depth with
  | innermost layer result => rw [relabel, text, text, Layer.text_relabel]
  | enclosing layer inner ih => rw [relabel, text, text, Layer.text_relabel, ih]

/-- The text of code does not show nodes. -/
theorem Code.text_relabel (f : Nat → Nat) (code : Code) : (code.relabel f).text = code.text := by
  rw [Code.text, Code.text, Code.relabel, Scope.text_relabel]

/-! ## Names of images -/

namespace Naming

variable {named : Naming} {f : Nat → Nat}

theorem fresh_map (named : Naming) (f : Nat → Nat) :
    fresh (named.map f) = named.fresh := by
  rw [fresh, fresh, Array.size_map]

/-- A node is named as its image is, if no other named node has that image. -/
theorem symbol?_map {node : Nat} (h : ∀ m ∈ named, f m = f node → m = node) :
    symbol? (named.map f) (f node) = named.symbol? node := by
  have hfind : ∀ l : List Nat, (∀ m ∈ l, f m = f node → m = node) →
      l.findIdx? ((· == f node) ∘ f) = l.findIdx? (· == node) := by
    intro l hl
    induction l with
    | nil => rfl
    | cons m rest ih =>
      have hm : (f m == f node) = (m == node) := by
        rw [Bool.eq_iff_iff, beq_iff_eq, beq_iff_eq]
        exact ⟨hl m (List.mem_cons_self ..), congrArg f⟩
      rw [List.findIdx?_cons, List.findIdx?_cons, Function.comp_apply, hm,
        ih fun m' hm' => hl m' (List.mem_cons_of_mem _ hm')]
  rw [symbol?_eq_findIdx?, symbol?_eq_findIdx?, Array.toList_map, List.findIdx?_map,
    hfind named.toList fun m hm => h m (Array.mem_toList_iff.1 hm)]

/-- Operands are named as their images are. -/
theorem args_map {stage user : Nat} {operands : List Nat} {symbols : List Symbol}
    (h : ∀ m ∈ named, ∀ o ∈ operands, f m = f o → m = o)
    (hok : named.args stage user operands = .ok symbols) (user' : Nat) :
    args (named.map f) stage user' (operands.map f) = .ok symbols := by
  induction operands generalizing symbols with
  | nil =>
    obtain rfl : [] = symbols := Except.ok.inj hok
    rfl
  | cons o rest ih =>
    obtain ⟨s, tail, hs, htail, rfl⟩ := args_cons_eq_ok.1 hok
    rw [List.map_cons, args_cons_eq_ok]
    refine ⟨s, tail, ?_, ih (fun m hm o' ho' => h m hm o' (List.mem_cons_of_mem _ ho')) htail, rfl⟩
    rw [symbol?_map fun m hm => h m hm o (List.mem_cons_self ..), hs]

end Naming

namespace Program

variable {p q : Program} {f : Nat → Nat} {stage : Nat} {named final : Naming}

theorem layOutParams_map (named : Naming) (nodes : List Nat) (f : Nat → Nat) :
    layOutParams (named.map f) (nodes.map f) =
      ((layOutParams named nodes).1.map (Param.relabel f), (layOutParams named nodes).2.map f) := by
  induction nodes generalizing named with
  | nil => rfl
  | cons node rest ih =>
    simp only [List.map_cons, layOutParams, Naming.fresh_map, ← Array.map_push, ih]
    rfl

/-! ## The calls of a stage -/

/-- The needed calls of a stage, in the order of recording. -/
def callsAt (p : Program) (stage : Nat) : List Nat :=
  (p.plan.neededAt stage).filter fun node => decide (p.IsCall node)

theorem mem_callsAt (hp : p.Regular) {node : Nat} :
    node ∈ p.callsAt stage ↔ (p.Needed node ∧ p.stage node = stage) ∧ p.IsCall node := by
  rw [callsAt, List.mem_filter, mem_neededAt hp, decide_eq_true_iff]

/-- Of a list of nodes only the calls are laid out. -/
theorem layOutBindings_filter (p : Program) (stage : Nat) (named : Naming) (nodes : List Nat) :
    p.layOutBindings stage named (nodes.filter fun node => decide (p.IsCall node)) =
      p.layOutBindings stage named nodes := by
  induction nodes generalizing named with
  | nil => rfl
  | cons node rest ih =>
    rw [List.filter_cons]
    by_cases hcall : p.IsCall node
    · rw [if_pos (decide_eq_true hcall)]
      obtain ⟨op, operands, hnode⟩ := hcall
      rw [layOutBindings_of_call stage named _ hnode, layOutBindings_of_call stage named rest hnode,
        ih]
    · rw [if_neg (by simpa using hcall), layOutBindings_of_not_isCall stage named rest hcall, ih]

theorem layOutBindings_callsAt (p : Program) (stage : Nat) (named : Naming) :
    p.layOutBindings stage named (p.callsAt stage) =
      p.layOutBindings stage named (p.plan.neededAt stage) :=
  layOutBindings_filter p stage named _

namespace LiveMatch

/-- The calls of a stage match in their order. -/
theorem callsAt (h : p.LiveMatch f q) (hp : p.Regular) (hq : q.Regular) (stage : Nat) :
    q.callsAt stage = (p.callsAt stage).map f := by
  refine List.Pairwise.eq_of_mem_iff ((pairwise_neededAt stage).filter _) ?_ fun m => ?_
  · refine List.pairwise_map.2 (((pairwise_neededAt stage).filter _).imp_of_mem ?_)
    intro m n hm hn hlt
    obtain ⟨⟨hm, -⟩, hmcall⟩ := (mem_callsAt hp).1 hm
    obtain ⟨⟨hn, -⟩, hncall⟩ := (mem_callsAt hp).1 hn
    exact h.lt hm hmcall hn hncall hlt
  · rw [mem_callsAt hq, List.mem_map]
    constructor
    · rintro ⟨⟨hneeded, hstage⟩, hcall⟩
      obtain ⟨n, hn, hncall, rfl⟩ := h.exists_call hp hq hneeded hcall
      rw [h.stage hp hq hn] at hstage
      exact ⟨n, (mem_callsAt hp).2 ⟨⟨hn, hstage⟩, hncall⟩, rfl⟩
    · rintro ⟨n, hn, rfl⟩
      obtain ⟨⟨hneeded, hstage⟩, hcall⟩ := (mem_callsAt hp).1 hn
      refine ⟨⟨h.needed hp hq hneeded, ?_⟩, h.isCall hneeded hcall⟩
      rw [h.stage hp hq hneeded, hstage]

/-- The arguments of a stage match by position. -/
theorem argumentsAt (h : p.LiveMatch f q) (stage : Nat) :
    q.argumentsAt stage = (p.argumentsAt stage).map f := by
  cases stage with
  | zero => rw [argumentsAt_zero, argumentsAt_zero, h.arguments, h.baseArity, List.map_take]
  | succ stage =>
    rw [argumentsAt_succ, argumentsAt_succ, h.arguments, h.baseArity, List.getElem?_map]
    cases p.arguments[p.baseArity + stage]? <;> rfl

/-! ## Laying out -/

/-- Needed calls are laid out as their images are. -/
theorem layOutBindings (h : p.LiveMatch f q) (hp : p.Regular) (hq : q.Regular) {nodes : List Nat}
    {bindings : List Binding} (hnamed : ∀ n ∈ named, p.Live n)
    (hnodes : ∀ n ∈ nodes, p.Needed n ∧ p.IsCall n)
    (hok : p.layOutBindings stage named nodes = .ok (bindings, final)) :
    q.layOutBindings stage (named.map f) (nodes.map f) =
        .ok (bindings.map (Binding.relabel f), final.map f) ∧
      ∀ n ∈ final, p.Live n := by
  induction nodes generalizing named bindings with
  | nil =>
    obtain ⟨rfl, rfl⟩ := Prod.mk.inj (Except.ok.inj hok)
    exact ⟨rfl, hnamed⟩
  | cons node rest ih =>
    obtain ⟨hneeded, hcall⟩ := hnodes node (List.mem_cons_self ..)
    rcases layOutBindings_cons_eq_ok hok with
      ⟨hnot, -⟩ | ⟨op, operands, symbols, tail, hnode, hargs, hrest, rfl⟩
    · exact absurd hcall hnot
    · have hpush : ∀ n ∈ named.push node, p.Live n := by
        intro n hn
        rcases Array.mem_push.1 hn with hn | rfl
        · exact hnamed n hn
        · exact .inr hneeded
      obtain ⟨hok', hfinal⟩ := ih hpush (fun n hn => hnodes n (List.mem_cons_of_mem _ hn)) hrest
      refine ⟨?_, hfinal⟩
      have hargs' := Naming.args_map (f := f) (fun m hm o ho heq => h.injOn hp hq (hnamed m hm)
        (.inr (hneeded.operand hp hnode ho)) heq) hargs (f node)
      rw [List.map_cons, layOutBindings_of_call _ _ _ (h.call hneeded hnode), hargs', ok_bind,
        ← Array.map_push, hok', ok_bind, Naming.fresh_map]
      rfl

/-- A stage is laid out alike. -/
theorem layOutLayer (h : p.LiveMatch f q) (hp : p.Regular) (hq : q.Regular) {layer : Layer}
    (hnamed : ∀ n ∈ named, p.Live n)
    (hok : p.layOutLayer p.plan stage named = .ok (layer, final)) :
    q.layOutLayer q.plan stage (named.map f) = .ok (layer.relabel f, final.map f) ∧
      ∀ n ∈ final, p.Live n := by
  obtain ⟨⟨bindings, last⟩, hbindings, hok⟩ := bind_eq_ok.1 hok
  obtain ⟨rfl, rfl⟩ := Prod.mk.inj (Except.ok.inj hok)
  have hparams : ∀ n ∈ (layOutParams named (p.argumentsAt stage)).2, p.Live n := by
    intro n hn
    rcases mem_layOutParams.1 hn with hn | hn
    · exact hnamed n hn
    · obtain ⟨entry, hentry, rfl⟩ := List.mem_map.1 hn
      exact .inl (List.fst_mem_of_mem_zipIdx (List.mem_filter.1 hentry).1)
  rw [← layOutBindings_callsAt] at hbindings
  obtain ⟨hok', hfinal⟩ := h.layOutBindings hp hq hparams
    (fun n hn => ⟨((mem_callsAt hp).1 hn).1.1, ((mem_callsAt hp).1 hn).2⟩) hbindings
  refine ⟨?_, hfinal⟩
  rw [← h.callsAt hp hq, layOutBindings_callsAt] at hok'
  unfold Program.layOutLayer
  rw [h.argumentsAt, layOutParams_map]
  simp only [hok', ok_bind]
  rfl

/-- All stages from a given one on are laid out alike. -/
theorem layOutFrom (h : p.LiveMatch f q) (hp : p.Regular) (hq : q.Regular) {inner : Nat}
    {scope : Scope} (hnamed : ∀ n ∈ named, p.Live n)
    (hok : p.layOutFrom p.plan stage named inner = .ok (scope, final)) :
    q.layOutFrom q.plan stage (named.map f) inner = .ok (scope.relabel f, final.map f) := by
  induction inner generalizing stage named scope with
  | zero =>
    obtain ⟨⟨layer, middle⟩, hlayer, hok⟩ := bind_eq_ok.1 hok
    obtain ⟨hlayer', hmiddle⟩ := h.layOutLayer hp hq hnamed hlayer
    cases hs : middle.symbol? p.result with
    | none =>
      simp only [hs] at hok
      cases hok
    | some s =>
      simp only [hs] at hok
      obtain ⟨rfl, rfl⟩ := Prod.mk.inj (Except.ok.inj hok)
      have hs' : Naming.symbol? (middle.map f) q.result = some s := by
        rw [h.result, Naming.symbol?_map, hs]
        exact fun m hm heq => h.injOn hp hq (hmiddle m hm) (.inr (needed_result hp)) heq
      rw [Program.layOutFrom, hlayer', ok_bind]
      simp only [hs']
      rfl
  | succ inner ih =>
    obtain ⟨⟨layer, middle⟩, hlayer, hok⟩ := bind_eq_ok.1 hok
    obtain ⟨⟨scope', last⟩, hscope, hok⟩ := bind_eq_ok.1 hok
    obtain ⟨rfl, rfl⟩ := Prod.mk.inj (Except.ok.inj hok)
    obtain ⟨hlayer', hmiddle⟩ := h.layOutLayer hp hq hnamed hlayer
    rw [Program.layOutFrom, hlayer', ok_bind]
    simp only [ih hmiddle hscope, ok_bind]
    rfl

/-- Two programs with one live part have the same code, but for the nodes that names stand for. -/
theorem toCode (h : p.LiveMatch f q) (hp : p.WellFormed) (hq : q.WellFormed) :
    ∃ code, p.toCode = .ok code ∧ q.toCode = .ok (code.relabel f) := by
  obtain ⟨scope, final, hok, hcode⟩ := exists_toCode hp
  obtain ⟨scope', final', hok', hcode'⟩ := exists_toCode hq
  refine ⟨_, hcode, ?_⟩
  have hmatch := h.layOutFrom hp.regular hq.regular
    (fun n hn => absurd hn (Array.not_mem_empty n)) hok
  rw [← h.order, List.map_toArray] at hmatch
  obtain ⟨rfl, rfl⟩ := Prod.mk.inj (Except.ok.inj (hok'.symm.trans hmatch))
  rw [hcode', Code.relabel, Array.size_map]

/-- What the result of a program does not need changes nothing at any order of differentiation. For
two well-formed programs with one live part, at every position and order, either both have no
derivatives, for the same reason, or the last derivatives have the same code but for the nodes that
its names stand for, and so the same text. At orders whose derivatives do not fit into a block of
memory both break off alike. -/
theorem toCode_derivatives (h : p.LiveMatch f q) (hp : p.WellFormed) (hq : q.WellFormed)
    (position order : Nat) :
    (blockBound ≤ order * bytes →
      p.derivatives position order = .error (.fault (.capacity order bytes)) ∧
      q.derivatives position order = .error (.fault (.capacity order bytes))) ∧
    (order * bytes < blockBound →
      (∃ e, p.derivatives position order = .error (.derivative e) ∧
        q.derivatives position order = .error (.derivative e)) ∨
      ∃ ds ds' code g, p.derivatives position order = .ok ds ∧
        q.derivatives position order = .ok ds' ∧
        (ds.getLastD p).toCode = .ok code ∧ (ds'.getLastD q).toCode = .ok (code.relabel g) ∧
        (code.relabel g).text = code.text) := by
  refine ⟨fun hlong => ⟨derivatives_eq_fault hlong, derivatives_eq_fault hlong⟩, fun hfits => ?_⟩
  rw [derivatives_eq_chain hfits, derivatives_eq_chain hfits]
  rcases h.chain hp hq position order with
    ⟨e, he, he'⟩ | ⟨ds, ds', g, hds, hds', hwell, hwell', hmatch⟩
  · rw [he, he']
    exact .inl ⟨e, rfl, rfl⟩
  · obtain ⟨code, hcode, hcode'⟩ := hmatch.toCode hwell hwell'
    rw [hds, hds']
    exact .inr ⟨ds, ds', code, g, rfl, rfl, hcode, hcode', Code.text_relabel g code⟩

/-- A square, and a square recorded among calls that it does not need, one of them before the
argument, have one live part. -/
theorem square :
    LiveMatch ⟨.ofNodes #[.argument 0, .call .mul [0, 0]], [0], 1, 1⟩ (fun node => 2 * node + 1)
      ⟨.ofNodes #[.call (.constant ⟨0⟩) [], .argument 0, .call .exp [1], .call .mul [1, 1]],
        [1], 3, 1⟩ := by
  refine ⟨rfl, rfl, rfl, fun {node op operands} _ hnode => ?_, fun _ _ _ _ hlt => by omega⟩
  match node, hnode with
  | 1, hnode =>
    cases hnode
    rfl

/-- The second derivatives of a square, and of a square recorded among calls that it does not need.
Where as many are asked for as can be, there are none. -/
theorem toCode_derivatives_square :
    let p : Program := ⟨.ofNodes #[.argument 0, .call .mul [0, 0]], [0], 1, 1⟩
    let q : Program := ⟨.ofNodes #[.call (.constant ⟨0⟩) [], .argument 0, .call .exp [1],
      .call .mul [1, 1]], [1], 3, 1⟩
    (∃ ds ds' code code', p.derivatives 0 2 = .ok ds ∧ q.derivatives 0 2 = .ok ds' ∧
      (ds.getLastD p).toCode = .ok code ∧ (ds'.getLastD q).toCode = .ok code' ∧
      code'.text = code.text) ∧
      p.derivatives 0 (wordBound - 1) = q.derivatives 0 (wordBound - 1) := by
  intro p q
  obtain ⟨hlong, hlong'⟩ :=
    (square.toCode_derivatives (by decide) (by decide) 0 (wordBound - 1)).1 (by decide)
  refine ⟨?_, hlong.trans hlong'.symm⟩
  obtain ⟨e, he, -⟩ | ⟨ds, ds', code, g, hds, hds', hcode, hcode', htext⟩ :=
    (square.toCode_derivatives (by decide) (by decide) 0 2).2 (by decide)
  · cases he
  · exact ⟨ds, ds', code, _, hds, hds', hcode, hcode', htext⟩

/-- Two programs with one live part that have as many derivatives asked of them as can be, with
respect to an argument that they do not have: they neither are refused nor have them. -/
theorem toCode_derivatives_breaks_off :
    let p : Program := ⟨.ofNodes #[.argument 0, .call .mul [0, 0]], [0], 1, 1⟩
    let q : Program := ⟨.ofNodes #[.call (.constant ⟨0⟩) [], .argument 0, .call .exp [1],
      .call .mul [1, 1]], [1], 3, 1⟩
    (∃ f, p.LiveMatch f q) ∧ p.WellFormed ∧ q.WellFormed ∧
      ¬ ((∃ e, p.derivatives 7 (wordBound - 1) = .error (.derivative e) ∧
          q.derivatives 7 (wordBound - 1) = .error (.derivative e)) ∨
        ∃ ds ds', p.derivatives 7 (wordBound - 1) = .ok ds ∧
          q.derivatives 7 (wordBound - 1) = .ok ds') := by
  intro p q
  refine ⟨⟨_, square⟩, by decide, by decide, ?_⟩
  rw [derivatives_eq_fault (p := p) (by decide)]
  rintro (⟨e, he, -⟩ | ⟨ds, ds', hds, -⟩)
  · cases he
  · cases hds

end LiveMatch

end Program

end StagedTangent
