import Mathlib.Algebra.Order.Ring.Nat
import StagedTangent.Proofs.Program.Recorder

/-!
# Tapes and recorders as one list

However a tape has come about, from nodes at once or by recording on a tape that was there before,
it stores no empty segment, the size that it stores is the number of its nodes, and they are a list
that is looked up by place (`Tape.Reached.isList`). A recorder only appends to this list: the
reference of a node is the length at which it was recorded, and it names the node in every later
state and in the finished program (`Recorder.append_only`).
-/

namespace StagedTangent

/-! ## Recording one thing after another -/

namespace Recorder

/-- What can be recorded: the next argument, or an operation applied to nodes. -/
inductive Entry where
  | argument
  | call (op : Op) (operands : List Nat)
deriving DecidableEq, Repr

/-- Record one entry. The reference of its node comes with the recorder. -/
def enter (r : Recorder) : Entry → Nat × Recorder
  | .argument => r.pushArgument
  | .call op operands => r.call op operands

/-- The node that an entry becomes. -/
def nodeOf (r : Recorder) : Entry → Node
  | .argument => .argument r.arguments.length
  | .call op operands => .call op operands

/-- Record one entry after another. -/
def record (r : Recorder) (entries : List Entry) : Recorder :=
  entries.foldl (fun r entry => (r.enter entry).2) r

/-- A recorder is new, with its arguments as the first nodes that it has recorded, or it goes on
behind the last node of a program, which is on a tape of its own. -/
inductive Begins : Recorder → Tape → Nat → Prop
  | start (arity : Nat) : Begins (.start arity) .empty arity
  | resume (p : Program) : Begins (.resume p) p.tape 0

end Recorder

/-- A tape that can be made, by itself or by closing a recorder, and a count of its nodes to which
every node that is recorded adds one. A recorder can go on behind any program on such a tape. -/
inductive Tape.Reached : Tape → Nat → Prop
  | ofNodes (nodes : Array Node) : Reached (.ofNodes nodes) nodes.size
  | close {base : Tape} {count pushed : Nat} {r : Recorder} {entries : List Recorder.Entry}
      {result : Nat} {p : Program} (hbase : Reached base count) (hbegins : r.Begins base pushed)
      (hclose : (r.record entries).close result = .ok p) :
      Reached p.tape (count + pushed + entries.length)

/-! ## Tapes -/

namespace Tape

/-- A tape is a list of as many nodes as are counted, cut into segments that are not empty. The size
that is stored is the count and the sum of the lengths of the segments. -/
structure IsList (tape : Tape) (count : Nat) : Prop where
  count_eq : count = (tape.segments.map Array.size).sum
  size_eq : tape.size = count
  nonempty : ∀ segment ∈ tape.segments, segment ≠ #[]
  isSome_iff : ∀ place, (tape.get? place).isSome ↔ place < count
  get?_eq : ∀ place, tape.get? place = tape.nodes[place]?

variable {tape : Tape} {count : Nat}

/-- The places of a tape follow from its size. -/
theorem IsList.of_size (hcount : count = (tape.segments.map Array.size).sum)
    (hsize : tape.size = count) (hnonempty : ∀ segment ∈ tape.segments, segment ≠ #[]) :
    tape.IsList count := by
  refine ⟨hcount, hsize, hnonempty, fun place => ?_, tape.get?_eq⟩
  rw [tape.get?_eq, ← hsize, size_eq_length]
  simp

theorem isList_empty : empty.IsList 0 := .of_size rfl rfl nofun

theorem append_of_ne {nodes : Array Node} (h : nodes ≠ #[]) :
    (tape.append nodes).segments = tape.segments ++ [nodes] ∧
      (tape.append nodes).size = tape.size + nodes.size := by
  rw [append, if_neg (by simpa using h)]
  exact ⟨rfl, rfl⟩

theorem append_nil (tape : Tape) : tape.append #[] = tape := rfl

/-- One more segment, if it is not empty. The size that is stored goes up by its length. -/
theorem IsList.append (h : tape.IsList count) (nodes : Array Node) :
    (tape.append nodes).IsList (count + nodes.size) := by
  by_cases hnodes : nodes = #[]
  · subst hnodes
    exact h
  · obtain ⟨hsegments, hsize⟩ := tape.append_of_ne hnodes
    refine .of_size ?_ (by rw [hsize, h.size_eq]) ?_
    · rw [hsegments, List.map_append, List.sum_append, ← h.count_eq, List.map_singleton,
        List.sum_singleton]
    · rw [hsegments]
      exact List.forall_mem_append.2 ⟨h.nonempty, List.forall_mem_singleton.2 hnodes⟩

end Tape

/-! ## Recorders -/

namespace Recorder

variable {r : Recorder} {base : Tape} {pushed : Nat}

theorem enter_fst (r : Recorder) (entry : Entry) : (r.enter entry).1 = r.size := by
  cases entry <;> rfl

theorem nodes_enter (r : Recorder) (entry : Entry) :
    (r.enter entry).2.nodes = r.nodes ++ [r.nodeOf entry] := by
  cases entry with
  | argument => exact r.nodes_pushArgument
  | call op operands => exact r.nodes_call op operands

/-- A recorder has recorded a number of nodes behind a tape. -/
structure Holds (base : Tape) (pushed : Nat) (r : Recorder) : Prop where
  settled : r.settled = base
  fresh : r.fresh.size = pushed

theorem Begins.holds (h : r.Begins base pushed) : Holds base pushed r := by
  cases h with
  | start arity => rw [start_eq]; exact ⟨rfl, by simp⟩
  | resume p => exact ⟨rfl, rfl⟩

theorem Holds.enter (h : Holds base pushed r) (entry : Entry) :
    Holds base (pushed + 1) (r.enter entry).2 := by
  have hpush : ∀ node, (r.push node).fresh.size = pushed + 1 := fun node => by
    rw [push, Array.size_push, h.fresh]
  cases entry with
  | argument => exact ⟨h.settled, hpush _⟩
  | call op operands => exact ⟨h.settled, hpush _⟩

theorem Holds.record (h : Holds base pushed r) (entries : List Entry) :
    Holds base (pushed + entries.length) (r.record entries) := by
  -- The recorder moves on with each entry, and what it holds grows along.
  induction entries generalizing r pushed with
  | nil => exact h
  | cons entry entries ih =>
    have hmore := ih (h.enter entry)
    rwa [Nat.add_assoc, Nat.add_comm 1] at hmore

theorem Holds.size_eq (h : Holds base pushed r) : r.size = base.size + pushed := by
  rw [size, h.settled, h.fresh]

/-- What has been recorded stays where it is. -/
theorem nodes_prefix_record (r : Recorder) (entries : List Entry) :
    r.nodes <+: (r.record entries).nodes := by
  induction entries generalizing r with
  | nil => exact List.prefix_rfl
  | cons entry entries ih =>
    have hfirst : r.nodes <+: (r.enter entry).2.nodes := by
      rw [nodes_enter]
      exact List.prefix_append _ _
    exact hfirst.trans (ih _)

/-- An entry has its node at the place that was the end of the recording. -/
theorem nodes_enter_record (r : Recorder) (entry : Entry) (more : List Entry) :
    ((r.enter entry).2.record more).nodes[r.size]? = some (r.nodeOf entry) := by
  obtain ⟨rest, hrest⟩ := (r.enter entry).2.nodes_prefix_record more
  rw [← hrest, nodes_enter, List.append_assoc, size_eq_length, List.getElem?_append_right
    (Nat.le_refl _), Nat.sub_self]
  rfl

variable {result : Nat} {p : Program}

theorem nodes_of_close (h : r.close result = .ok p) : p.nodes = r.nodes := by
  rw [(close_eq_ok.1 h).2, nodes_toProgram]

/-- Closing a recorder appends what it has recorded. -/
theorem Holds.tape_of_close (h : Holds base pushed r) (hclose : r.close result = .ok p) :
    p.tape = base.append r.fresh := by
  rw [(close_eq_ok.1 hclose).2, toProgram, h.settled]

/-- A segment is added for what has been recorded, and none if nothing has been. -/
theorem Holds.segments_of_close (h : Holds base pushed r) (hclose : r.close result = .ok p) :
    (pushed = 0 → p.tape.segments = base.segments) ∧
      (0 < pushed → ∃ segment, segment.size = pushed ∧ segment.toList = p.nodes.drop base.size ∧
        p.tape.segments = base.segments ++ [segment]) := by
  rw [h.tape_of_close hclose]
  refine ⟨fun hnone => ?_, fun hsome => ⟨r.fresh, h.fresh, ?_, ?_⟩⟩
  · rw [Array.eq_empty_of_size_eq_zero (h.fresh.trans hnone), Tape.append_nil]
  · rw [nodes_of_close hclose, nodes, h.settled, Tape.size_eq_length, List.drop_left]
  · refine (Tape.append_of_ne fun hempty => ?_).1
    rw [← h.fresh, hempty] at hsome
    cases hsome

end Recorder

/-! ## All tapes -/

/-- Every tape that can be made is a list cut into segments. -/
theorem Tape.Reached.isList {tape : Tape} {count : Nat} (h : tape.Reached count) :
    tape.IsList count := by
  induction h with
  | ofNodes nodes =>
    have hone := isList_empty.append nodes
    rwa [Nat.zero_add] at hone
  | @close base count pushed r entries result p _ hbegins hclose ih =>
    have hholds := hbegins.holds.record entries
    have hmore := ih.append (r.record entries).fresh
    rwa [← hholds.tape_of_close hclose, hholds.fresh, ← Nat.add_assoc] at hmore

namespace Recorder

/-- Tapes that can be made are lists cut into segments that are not empty, and the size that they
store is the count of the nodes that have been recorded. A recorder on such a tape gives out the
length as the reference of the next node, and the node keeps it, whatever is recorded further and in
the finished program. Closing the recorder adds one segment, with the nodes that have been recorded
since it began, the arguments of a new one among them, or none if there are none. -/
theorem append_only :
    (∀ tape count, Tape.Reached tape count → tape.IsList count) ∧
      ∀ base count r pushed, Tape.Reached base count → Begins r base pushed → ∀ entries,
        let here := r.record entries
        (∀ entry more, (here.enter entry).1 = here.size ∧
          here.size = count + pushed + entries.length ∧
          ((here.enter entry).2.record more).node? (here.enter entry).1 = some (here.nodeOf entry) ∧
          ∀ result p, ((here.enter entry).2.record more).close result = .ok p →
            p.node? (here.enter entry).1 = some (here.nodeOf entry)) ∧
        ∀ result p, here.close result = .ok p →
          (pushed + entries.length = 0 → p.tape.segments = base.segments) ∧
            (0 < pushed + entries.length → ∃ segment, segment.size = pushed + entries.length ∧
              segment.toList = p.nodes.drop count ∧
              p.tape.segments = base.segments ++ [segment]) := by
  refine ⟨fun tape count h => h.isList, fun base count r pushed hbase hbegins entries => ?_⟩
  have hcount := hbase.isList.size_eq
  have hholds := hbegins.holds.record entries
  refine ⟨fun entry more => ?_, fun result p hclose => ?_⟩
  · have hnode := (r.record entries).nodes_enter_record entry more
    rw [enter_fst, node?_eq]
    refine ⟨rfl, ?_, hnode, fun result p hclose => ?_⟩
    · rw [hholds.size_eq, hcount, Nat.add_assoc]
    · rw [Program.node?_eq, nodes_of_close hclose, hnode]
  · rw [← hcount]
    exact hholds.segments_of_close hclose

/-- A direction recorded behind a product has its own segment, and the product keeps its place. -/
theorem append_only_direction :
    let product : Program :=
      ⟨⟨[#[.argument 0, .argument 1, .call .mul [0, 1]]], 3, rfl⟩, [0, 1], 2, 2⟩
    let extended : Program :=
      ⟨⟨[#[.argument 0, .argument 1, .call .mul [0, 1]], #[.argument 2, .call .add [2, 3]]],
        5, rfl⟩, [0, 1, 3], 4, 2⟩
    ((start 2).record [.call .mul [0, 1]]).close 2 = .ok product ∧
      ((resume product).record [.argument, .call .add [2, 3]]).close 4 = .ok extended ∧
      extended.tape.IsList 5 ∧ extended.node? 3 = some (.argument 2) := by
  intro product extended
  have hproduct : ((start 2).record [.call .mul [0, 1]]).close 2 = .ok product := by rfl
  have hextended :
      ((resume product).record [.argument, .call .add [2, 3]]).close 4 = .ok extended := by rfl
  have hfirst := Tape.Reached.close (.ofNodes #[]) (.start 2) hproduct
  have hsecond := Tape.Reached.close hfirst (.resume product) hextended
  have hdirection := (append_only.2 _ _ _ _ hfirst (.resume product) []).1 .argument
    [.call .add [2, 3]]
  exact ⟨hproduct, hextended, append_only.1 _ _ hsecond, hdirection.2.2.2 4 extended hextended⟩

end Recorder

end StagedTangent
