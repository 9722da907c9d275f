import StagedTangent.Program.Inspection
import StagedTangent.Proofs.Program.Path
import StagedTangent.Proofs.Sequencing

/-!
# What can go wrong when programs are inspected

The inspections of `Machine` take the parts of a program as they are, so nothing may be assumed of
them but that its numbers are words. Every access stays within its array, whatever the references
are, and every difference is that of a number and a smaller one. One sum is different: the stage of
an argument is one more than its place among the directions, and if that is the last word, the stage
is none. A checked machine then cannot list or schedule the program; everything else that it does on
any program comes to what the exact definitions say. The main statement is `Machine.inspections`.
-/

namespace StagedTangent

/-! ## Tables that are filled in place -/

section Padded

variable {ν β : Type} {d : β} {e : Fault}

theorem getD_padded (table : Array β) (k : Nat) (d : β) (i : Nat) :
    (table ++ Array.replicate k d).getD i d = table.getD i d := by
  simp only [Array.getD_eq_getD_getElem?]
  rcases Nat.lt_or_ge i table.size with hlt | hge
  · rw [Array.getElem?_append_left hlt]
  · rw [Array.getElem?_append_right hge, Array.getElem?_replicate, Array.getElem?_eq_none hge]
    split <;> rfl

theorem padded_succ (table : Array β) (k : Nat) (d : β) :
    table ++ Array.replicate (k + 1) d = table.push d ++ Array.replicate k d := by
  simp [Array.replicate_succ']

/-- The first place behind a table is where it grows. -/
theorem writeAt_padded (table : Array β) (k : Nat) (d x : β) :
    writeAt (table ++ Array.replicate (k + 1) d) table.size x =
      .ok (table.push x ++ Array.replicate k d) := by
  have hlt : table.size < (table ++ Array.replicate (k + 1) d).size := by simp
  rw [writeAt, if_pos hlt, Array.setIfInBounds_append_right (Nat.le_refl _), Nat.sub_self]
  simp [Array.replicate_succ']

/-- Going through nodes fills their part of a table in place, unless one of them stops it. -/
theorem foldlM_padded {step : Array β → ν × Nat → Except Fault (Array β)} {entry : Array β → ν → β}
    (bad : ν → Prop) (before after : List ν)
    (hgood : ∀ table k node, before.length ≤ table.size → node ∈ after → ¬ bad node →
      step (table ++ Array.replicate (k + 1) d) (node, table.size) =
        .ok (table.push (entry table node) ++ Array.replicate k d))
    (hbad : ∀ table place node, bad node → step table (node, place) = .error e) :
    ((∀ node ∈ after, ¬ bad node) → (after.zipIdx before.length).foldlM step
        (fill entry before ++ Array.replicate after.length d) =
      .ok (fill entry (before ++ after))) ∧
    ((∃ node ∈ after, bad node) → (after.zipIdx before.length).foldlM step
      (fill entry before ++ Array.replicate after.length d) = .error e) := by
  induction after generalizing before with
  | nil =>
    refine ⟨fun _ => ?_, fun ⟨node, hmem, _⟩ => absurd hmem List.not_mem_nil⟩
    rw [List.length_nil, Array.replicate_zero, Array.append_empty, List.append_nil]
    rfl
  | cons node after ih =>
    have hsize := size_fill entry before
    rw [List.zipIdx_cons, List.foldlM_cons, List.length_cons, ← hsize]
    by_cases hnode : bad node
    · rw [hbad _ _ _ hnode]
      exact ⟨fun hall => absurd hnode (hall node List.mem_cons_self), fun _ => rfl⟩
    · have hlater : ∀ table k other, (before ++ [node]).length ≤ table.size → other ∈ after →
          ¬ bad other → step (table ++ Array.replicate (k + 1) d) (other, table.size) =
            .ok (table.push (entry table other) ++ Array.replicate k d) := by
        intro table k other hle hmem
        rw [List.length_append] at hle
        exact hgood table k other (by omega) (List.mem_cons_of_mem node hmem)
      obtain ⟨hrest, hstop⟩ := ih (before ++ [node]) hlater
      rw [fill_concat, List.length_append, List.length_singleton, ← hsize] at hrest hstop
      rw [hgood _ _ _ (Nat.le_of_eq hsize.symm) List.mem_cons_self hnode, ok_bind,
        List.append_cons]
      refine ⟨fun hall => hrest fun other hmem => hall other (List.mem_cons_of_mem node hmem), ?_⟩
      rintro ⟨other, hmem, hother⟩
      refine hstop ⟨other, (List.mem_cons.1 hmem).resolve_left ?_, hother⟩
      rintro rfl
      exact hnode hother

end Padded

/-- Steps of which some stop with one and the same error yield one result each, or that error. -/
theorem mapM_eq_ok_or_error {ε ν β : Type} {f : ν → Except ε β} {g : ν → β} {e : ε}
    (bad : ν → Prop) (xs : List ν) (hgood : ∀ x ∈ xs, ¬ bad x → f x = .ok (g x))
    (hbad : ∀ x, bad x → f x = .error e) :
    ((∀ x ∈ xs, ¬ bad x) → xs.mapM f = .ok (xs.map g)) ∧
      ((∃ x ∈ xs, bad x) → xs.mapM f = .error e) := by
  refine ⟨fun hall => mapM_eq_ok_map fun x hx => hgood x hx (hall x hx), ?_⟩
  induction xs with
  | nil => exact fun ⟨x, hmem, _⟩ => absurd hmem List.not_mem_nil
  | cons x xs ih =>
    rintro ⟨y, hmem, hy⟩
    rw [List.mapM_cons]
    by_cases hx : bad x
    · rw [hbad x hx]
      rfl
    · have hlater : y ∈ xs := (List.mem_cons.1 hmem).resolve_left fun heq => hx (heq ▸ hy)
      rw [hgood x List.mem_cons_self hx, ok_bind,
        ih (fun z hz => hgood z (List.mem_cons_of_mem x hz)) ⟨y, hlater, hy⟩]
      rfl

theorem findFirst_eq {β γ : Type} {f : β → Except Fault (Option γ)} {g : β → Option γ} {xs : List β}
    (h : ∀ x ∈ xs, f x = .ok (g x)) : findFirst f xs = .ok (xs.findSome? g) := by
  induction xs with
  | nil => rfl
  | cons x xs ih =>
    have hrest := ih fun y hy => h y (List.mem_cons_of_mem x hy)
    rw [findFirst, h x List.mem_cons_self, ok_bind, List.findSome?_cons]
    cases g x with
    | none => exact hrest
    | some y => rfl

/-! ## Machines -/

/-- The numbers that an inspection computes with are words: the number of nodes, the positions of the
argument nodes and the references of the argument list. -/
structure Program.OfWords (p : Program) : Prop where
  size_lt : p.nodes.length < wordBound
  position_lt : ∀ position, .argument position ∈ p.nodes → position < wordBound
  argument_lt : ∀ node ∈ p.arguments, node < wordBound

/-- The one sum of an inspection that is not a word: the stage of an argument at the last position
that a word can give, where there are no base arguments. -/
def Program.Overflows (p : Program) (node : Node) : Prop :=
  p.baseArity = 0 ∧ node = .argument (wordBound - 1)

namespace Machine

/-- A machine that adds and subtracts as numbers do, where the result is a word. -/
structure Exact (m : Machine) : Prop where
  add_eq : ∀ {a b : Nat}, a + b < wordBound → m.add a b = .ok (a + b)
  sub_eq : ∀ {a b : Nat}, a < wordBound → b ≤ a → m.sub a b = .ok (a - b)

theorem exact_checked : checked.Exact where
  add_eq h := if_pos h
  sub_eq _ h := if_pos h

theorem exact_wrapping : wrapping.Exact where
  add_eq h := congrArg Except.ok (Nat.mod_eq_of_lt h)
  sub_eq {a b} ha hb := by
    have hsum : a + (wordBound - b) = (a - b) + wordBound := by omega
    have hdifference : (a + (wordBound - b)) % wordBound = a - b := by
      rw [hsum, Nat.add_mod_right, Nat.mod_eq_of_lt (by omega)]
    exact congrArg Except.ok hdifference

variable {m : Machine} {p : Program}

/-! ## Checking -/

theorem getIn?_eq (hm : m.Exact) (segments : List (Array Node)) {place : Nat}
    (h : place < wordBound) : m.getIn? segments place = .ok (Tape.getIn? segments place) := by
  induction segments generalizing place with
  | nil => rfl
  | cons segment rest ih =>
    rw [getIn?, Tape.getIn?]
    split
    · next hlt =>
      rw [readAt, Array.getElem?_eq_getElem hlt]
      rfl
    · next hge =>
      rw [hm.sub_eq h (Nat.not_lt.1 hge), ok_bind]
      exact ih (Nat.lt_of_le_of_lt (Nat.sub_le ..) h)

/-- Checking finds the first defect of any program. -/
theorem defect?_eq (hm : m.Exact) (hp : p.OfWords) : m.defect? p = .ok p.defect? := by
  have hentries : findFirst (m.entryDefect? p) p.arguments.zipIdx =
      .ok (p.arguments.zipIdx.findSome? p.entryDefect?) := by
    refine findFirst_eq fun entry hmem => ?_
    have hlisted := List.mem_of_getElem? (List.mem_zipIdx_iff_getElem?.1 hmem)
    rw [entryDefect?, getIn?_eq hm _ (hp.argument_lt _ hlisted)]
    rfl
  rw [defect?, Program.defect?, hentries, ok_bind]
  cases p.arityDefect? with
  | some defect => rfl
  | none => cases p.arguments.zipIdx.findSome? p.entryDefect? <;> rfl

/-! ## Searching -/

/-- Before the source nothing is reached. -/
theorem fill_dependsOn_of_le {source : Nat} {nodes : List Node} (h : nodes.length ≤ source) :
    fill (Program.dependsOn source) nodes = Array.replicate nodes.length false := by
  induction nodes using List.reverseRecOn with
  | nil => rfl
  | append_singleton nodes node ih =>
    rw [List.length_append, List.length_singleton] at h ⊢
    have hentry : Program.dependsOn source (fill (Program.dependsOn source) nodes) node = false := by
      rw [Program.dependsOn, size_fill, if_pos (by omega), decide_eq_false (by omega)]
    rw [fill_concat, hentry, ih (by omega), Array.replicate_succ]

/-- Behind the source a node is marked exactly if it uses a marked one. -/
theorem markUser_padded {source : Nat} {reached : Array Bool} (k : Nat) (node : Node)
    (h : source < reached.size) :
    markUser (reached ++ Array.replicate (k + 1) false) (node, reached.size) =
      .ok (reached.push (Program.dependsOn source reached node) ++ Array.replicate k false) := by
  rw [markUser, Program.dependsOn, if_neg (Nat.not_le.2 h)]
  simp only [getD_padded]
  cases node.operands.any fun operand => reached.getD operand false with
  | true => exact writeAt_padded reached k false true
  | false => exact congrArg Except.ok (padded_succ reached k false)

/-- Marking the source completes the table up to it. -/
theorem writeAt_source {source : Nat} {nodes : List Node} (h : source < nodes.length) :
    writeAt (Array.replicate nodes.length false) source true =
      .ok (fill (Program.dependsOn source) (nodes.take (source + 1)) ++
        Array.replicate (nodes.drop (source + 1)).length false) := by
  obtain ⟨k, hk⟩ := Nat.exists_eq_add_of_lt h
  have hbefore : (nodes.take source).length = source := List.length_take_of_le (Nat.le_of_lt h)
  have hstart := fill_dependsOn_of_le (Nat.le_of_eq hbefore)
  rw [hbefore] at hstart
  have hentry : Program.dependsOn source (Array.replicate source false) nodes[source] = true := by
    rw [Program.dependsOn, Array.size_replicate, if_pos (Nat.le_refl _), decide_eq_true_iff]
  have hrest : (nodes.drop (source + 1)).length = k := by
    rw [List.length_drop]
    omega
  have hpadded := writeAt_padded (Array.replicate source false) k false true
  rw [Array.size_replicate] at hpadded
  rw [List.take_succ_eq_append_getElem h, fill_concat, hstart, hentry, hrest, ← hpadded,
    Array.replicate_append_replicate, hk, Nat.add_assoc]

/-- The nodes behind the source keep their places. -/
theorem drop_zipIdx {nodes : List Node} {k : Nat} (h : k ≤ nodes.length) :
    nodes.zipIdx.drop k = (nodes.drop k).zipIdx k := by
  have hbefore : (nodes.take k).length = k := List.length_take_of_le h
  conv_lhs => rw [← List.take_append_drop k nodes]
  rw [List.zipIdx_append, List.drop_left' (by rw [List.length_zipIdx, hbefore]), hbefore,
    Nat.zero_add]

/-- Searching forward stays in bounds on any program. -/
theorem reachedFrom_eq (hm : m.Exact) (hp : p.OfWords) (source : Nat) :
    m.reachedFrom p source = .ok (p.reachedFrom source) := by
  unfold reachedFrom Program.reachedFrom
  simp only [Array.size_replicate, Program.size_eq_length]
  split
  · rfl
  · next hsource =>
    have hlt : source < p.nodes.length := Nat.not_le.1 hsource
    have hnext : m.add source 1 = .ok (source + 1) :=
      hm.add_eq (Nat.lt_of_le_of_lt hlt hp.size_lt)
    have hlength : (p.nodes.take (source + 1)).length = source + 1 := List.length_take_of_le hlt
    have hpass := (foldlM_padded (d := false) (e := .sum 0 0) (fun _ => False)
      (p.nodes.take (source + 1)) (p.nodes.drop (source + 1))
      (fun table k node hle _ _ => markUser_padded k node (hlength ▸ hle))
      (fun _ _ _ h => h.elim)).1 fun _ _ h => h
    rw [hlength, List.take_append_drop] at hpass
    rw [writeAt_source hlt, ok_bind, hnext, ok_bind, drop_zipIdx hlt]
    exact hpass

theorem markUsed_eq {nodes : List Node} {needed : Array Bool} {place : Nat} {node : Node}
    (hnode : nodes[place]? = some node) (hsize : needed.size = nodes.length) :
    markUsed nodes.toArray needed place = .ok (Program.markOperands needed (node, place)) := by
  have hlt : place < needed.size := hsize ▸ (List.getElem?_eq_some_iff.1 hnode).1
  have hread : readAt needed place = .ok (needed.getD place false) := by
    rw [readAt, Array.getElem?_eq_getElem hlt, Array.getD_eq_getD_getElem?,
      Array.getElem?_eq_getElem hlt]
    rfl
  have hentry : readAt nodes.toArray place = .ok node := by
    rw [readAt, List.getElem?_toArray, hnode]
  rw [markUsed, hread, ok_bind, hentry, Program.markOperands]
  cases needed.getD place false <;> rfl

/-- A backward search in place is a sweep. -/
theorem foldlM_markUsed {bound : Nat} (hbound : bound ≤ p.nodes.length) {needed : Array Bool}
    (hsize : needed.size = p.nodes.length) :
    (List.range bound).reverse.foldlM (markUsed p.nodes.toArray) needed =
      .ok (p.sweep bound needed) := by
  induction bound generalizing needed with
  | zero => rfl
  | succ bound ih =>
    have hnode := List.getElem?_eq_getElem hbound
    rw [List.range_succ, List.reverse_append, List.reverse_singleton, List.singleton_append,
      List.foldlM_cons, markUsed_eq hnode hsize, ok_bind, Program.sweep_succ hnode]
    exact ih (by omega) (by rw [Program.size_markOperands, hsize])

/-- Searching backward stays in bounds on any program. -/
theorem neededFor_eq (p : Program) (sink : Nat) : neededFor p sink = .ok (p.neededFor sink) := by
  unfold neededFor Program.neededFor
  simp only [Array.size_replicate, Program.size_eq_length]
  split
  · rfl
  · next hsink =>
    have hlt : sink < p.nodes.length := Nat.not_le.1 hsink
    rw [writeAt, if_pos (by rwa [Array.size_replicate]), ok_bind]
    exact foldlM_markUsed hlt (by rw [Array.size_setIfInBounds, Array.size_replicate])

/-! ## Stages -/

/-- The stage of an argument comes to what it is, if it is a word. -/
theorem stageOfArgument_eq (hm : m.Exact) {position : Nat} (hword : position < wordBound)
    (hfits : ¬ p.Overflows (.argument position)) :
    m.stageOfArgument p position = .ok (p.stageOfArgument position) := by
  unfold stageOfArgument Program.stageOfArgument
  split
  · rfl
  · next hge =>
    have hsum : position - p.baseArity + 1 < wordBound := by
      by_contra hlarge
      refine hfits ⟨by omega, congrArg Node.argument ?_⟩
      omega
    rw [hm.sub_eq hword (Nat.not_lt.1 hge), ok_bind, hm.add_eq hsum]

/-- Otherwise a checked machine breaks off. -/
theorem stageOfArgument_checked {position : Nat} (h : p.Overflows (.argument position)) :
    checked.stageOfArgument p position = .error (.sum (wordBound - 1) 1) := by
  obtain ⟨hbase, hposition⟩ := h
  rw [Node.argument.inj hposition, stageOfArgument, hbase, if_neg (Nat.not_lt_zero _)]
  rfl

/-- A wrapping machine always comes to some stage. -/
theorem exists_stageOfArgument_wrapping (p : Program) (position : Nat) :
    ∃ stage, wrapping.stageOfArgument p position = .ok stage := by
  unfold stageOfArgument
  split
  · exact ⟨_, rfl⟩
  · exact ⟨_, rfl⟩

/-! ## Listing -/

/-- Listing writes the line of every node, unless one of them stops it. -/
theorem text_eq {entry : Node → String} {e : Fault} (bad : Node → Prop)
    (hgood : ∀ node ∈ p.nodes, ¬ bad node → m.nodeText p node = .ok (entry node))
    (hbad : ∀ node, bad node → m.nodeText p node = .error e) :
    ((∀ node ∈ p.nodes, ¬ bad node) → m.text p =
      .ok (p.frame (p.nodes.zipIdx.map fun (node, place) => nodeLine place (entry node)))) ∧
    ((∃ node ∈ p.nodes, bad node) → m.text p = .error e) := by
  have hmem : ∀ {entry : Node × Nat}, entry ∈ p.nodes.zipIdx → entry.1 ∈ p.nodes := fun h =>
    List.mem_of_getElem? (List.mem_zipIdx_iff_getElem?.1 h)
  obtain ⟨hlines, hstop⟩ := mapM_eq_ok_or_error (f := m.lineOf p)
    (g := fun (node, place) => nodeLine place (entry node)) (e := e) (fun entry => bad entry.1)
    p.nodes.zipIdx
    (fun place hplace hnode => by rw [lineOf, hgood _ (hmem hplace) hnode]; rfl)
    (fun place hnode => by rw [lineOf, hbad _ hnode]; rfl)
  refine ⟨fun hall => ?_, fun ⟨node, hnode, hfault⟩ => ?_⟩
  · rw [text, hlines fun place hplace => hall _ (hmem hplace)]
    rfl
  · obtain ⟨place, hplace⟩ := List.mem_iff_getElem?.1 hnode
    rw [text, hstop ⟨(node, place), List.mem_zipIdx_iff_getElem?.2 hplace, hfault⟩]
    rfl

theorem nodeText_eq (hm : m.Exact) (hp : p.OfWords) {node : Node} (hmem : node ∈ p.nodes)
    (hfits : ¬ p.Overflows node) : m.nodeText p node = .ok (p.nodeText node) := by
  cases node with
  | argument position =>
    rw [nodeText, stageOfArgument_eq hm (hp.position_lt position hmem) hfits]
    rfl
  | call op operands => rfl

/-! ## Scheduling -/

theorem stageOf_padded (stages : Array Nat) (k : Nat) (node : Node) :
    m.stageOf p (stages ++ Array.replicate k 0) node = m.stageOf p stages node := by
  cases node with
  | argument position => rfl
  | call op operands => simp only [stageOf, getD_padded]

/-- Scheduling enters the stage of every node, unless one of them stops it. -/
theorem plan_eq {entry : Array Nat → Node → Nat} {e : Fault} (bad : Node → Prop)
    (hgood : ∀ stages, ∀ node ∈ p.nodes, ¬ bad node →
      m.stageOf p stages node = .ok (entry stages node))
    (hbad : ∀ stages node, bad node → m.stageOf p stages node = .error e) :
    ((∀ node ∈ p.nodes, ¬ bad node) →
      m.plan p = .ok ⟨p.neededFor p.result, fill entry p.nodes, p.order⟩) ∧
    ((∃ node ∈ p.nodes, bad node) → m.plan p = .error e) := by
  obtain ⟨hpass, hstop⟩ := foldlM_padded (d := 0) (e := e) bad [] p.nodes
    (fun stages k node _ hmem hnode => by
      show m.enterStage p _ _ = .ok (_ ++ _)
      rw [enterStage, stageOf_padded, hgood stages node hmem hnode, ok_bind]
      exact writeAt_padded stages k 0 _)
    (fun stages place node hnode => by
      rw [enterStage, hbad stages node hnode]
      rfl)
  rw [fill_nil, Array.empty_append, List.length_nil] at hpass hstop
  rw [plan, neededFor_eq, ok_bind, Program.size_eq_length]
  refine ⟨fun hall => ?_, fun hexists => ?_⟩
  · rw [hpass hall]
    rfl
  · rw [hstop hexists]
    rfl

theorem stageOf_eq (hm : m.Exact) (hp : p.OfWords) (stages : Array Nat) {node : Node}
    (hmem : node ∈ p.nodes) (hfits : ¬ p.Overflows node) :
    m.stageOf p stages node = .ok (p.stageOf stages node) := by
  cases node with
  | argument position => exact stageOfArgument_eq hm (hp.position_lt position hmem) hfits
  | call op operands => rfl

/-! ## All inspections -/

/-- A wrapping machine completes every inspection of any program. -/
theorem wrapping_completes (p : Program) :
    (∃ text, wrapping.text p = .ok text) ∧ ∃ plan, wrapping.plan p = .ok plan := by
  have htext : ∀ node, ∃ text, wrapping.nodeText p node = .ok text := by
    intro node
    cases node with
    | argument position =>
      obtain ⟨stage, hstage⟩ := exists_stageOfArgument_wrapping p position
      exact ⟨_, by rw [nodeText, hstage]; rfl⟩
    | call op operands => exact ⟨_, rfl⟩
  have hstage : ∀ stages node, ∃ stage, wrapping.stageOf p stages node = .ok stage := by
    intro stages node
    cases node with
    | argument position => exact exists_stageOfArgument_wrapping p position
    | call op operands => exact ⟨_, rfl⟩
  choose texts htexts using htext
  choose stages hstages using hstage
  refine ⟨⟨_, (text_eq (e := .sum 0 0) (fun _ => False) (fun node _ _ => htexts node)
      fun _ h => h.elim).1 fun _ _ h => h⟩,
    ⟨_, (plan_eq (e := .sum 0 0) (fun _ => False) (fun table node _ _ => hstages table node)
      fun _ _ h => h.elim).1 fun _ _ h => h⟩⟩

/-- On a machine that breaks off at every number that is not a word, checking a program and searching
it from any node come to what they are defined as, whatever the parts of the program are. So do
listing and scheduling, with one exception: where there are no base arguments, an argument at the
last position that a word can give stops both, at the sum for its stage. A wrapping machine goes on
even there, so that nothing is ever out of bounds. -/
theorem inspections (p : Program) (hp : p.OfWords) :
    checked.defect? p = .ok p.defect? ∧
    (∀ source, checked.reachedFrom p source = .ok (p.reachedFrom source)) ∧
    (∀ sink, neededFor p sink = .ok (p.neededFor sink)) ∧
    ((∀ node ∈ p.nodes, ¬ p.Overflows node) →
      checked.text p = .ok p.text ∧ checked.plan p = .ok p.plan) ∧
    ((∃ node ∈ p.nodes, p.Overflows node) →
      checked.text p = .error (.sum (wordBound - 1) 1) ∧
        checked.plan p = .error (.sum (wordBound - 1) 1)) ∧
    wrapping.defect? p = .ok p.defect? ∧
    (∀ source, wrapping.reachedFrom p source = .ok (p.reachedFrom source)) ∧
    (∃ text, wrapping.text p = .ok text) ∧ ∃ plan, wrapping.plan p = .ok plan := by
  have hfault : ∀ node, p.Overflows node → ∃ position, node = .argument position ∧
      checked.stageOfArgument p position = .error (.sum (wordBound - 1) 1) := by
    rintro node ⟨hbase, rfl⟩
    exact ⟨_, rfl, stageOfArgument_checked ⟨hbase, rfl⟩⟩
  obtain ⟨htext, htextFault⟩ := text_eq (m := checked) (e := .sum (wordBound - 1) 1) p.Overflows
    (fun node hmem hfits => nodeText_eq exact_checked hp hmem hfits)
    (fun node hnode => by
      obtain ⟨position, rfl, hstage⟩ := hfault node hnode
      rw [nodeText, hstage]
      rfl)
  obtain ⟨hplan, hplanFault⟩ := plan_eq (m := checked) (e := .sum (wordBound - 1) 1) p.Overflows
    (fun stages node hmem hfits => stageOf_eq exact_checked hp stages hmem hfits)
    (fun stages node hnode => by
      obtain ⟨position, rfl, hstage⟩ := hfault node hnode
      exact hstage)
  exact ⟨defect?_eq exact_checked hp, reachedFrom_eq exact_checked hp, neededFor_eq p,
    fun hall => ⟨htext hall, hplan hall⟩,
    fun hexists => ⟨htextFault hexists, hplanFault hexists⟩, defect?_eq exact_wrapping hp,
    reachedFrom_eq exact_wrapping hp, wrapping_completes p⟩

/-- References to nodes that are not there stop nothing. -/
theorem inspections_dangling :
    let p : Program := ⟨.ofNodes #[.argument 6, .call .add [7, 1]], [5], 9, 4⟩
    p.OfWords ∧ checked.defect? p = .ok (some (.missingBaseArguments 4 1)) ∧
      checked.reachedFrom p 0 = .ok #[true, false] ∧ neededFor p 9 = .ok #[false, false] ∧
      checked.plan p = .ok ⟨#[false, false], #[3, 0], 0⟩ := by
  intro p
  have hwords : p.OfWords := by
    refine ⟨by decide, fun position hmem => ?_, by decide⟩
    obtain rfl : position = 6 := by simpa [p, Program.nodes] using hmem
    decide
  obtain ⟨hdefect, hreached, hneeded, hfits, -⟩ := inspections p hwords
  have hplan := (hfits (by rintro node - ⟨hbase, -⟩; cases hbase)).2
  exact ⟨hwords, hdefect.trans (by decide), (hreached 0).trans (by decide),
    (hneeded 9).trans (by decide), hplan.trans (by decide)⟩

/-- The argument at the last position that a word can give cannot be listed or scheduled. -/
theorem last_position_overflows :
    let p : Program := ⟨.ofNodes #[.argument (wordBound - 1)], [0], 0, 0⟩
    p.OfWords ∧ checked.text p = .error (.sum (wordBound - 1) 1) ∧
      checked.plan p = .error (.sum (wordBound - 1) 1) := by
  intro p
  refine ⟨⟨by decide, fun position hmem => ?_, by decide⟩, rfl, rfl⟩
  obtain rfl : position = wordBound - 1 := by simpa [p, Program.nodes] using hmem
  decide

end Machine

end StagedTangent
