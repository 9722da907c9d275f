import StagedTangent.Program.Recorder

/-!
# From the first node to the finished program

A recorder begins with the arguments of a function (`nodes_start`), and closing it yields what has
been recorded or, if that is not well formed, the first defect (`close_eq_ok`, `close_eq_error`).
-/

namespace StagedTangent.Recorder

/-! ## The arguments -/

theorem pushArguments_spec (r : Recorder) (n : Nat) :
    (r.pushArguments n).nodes =
        r.nodes ++ (List.range' r.arguments.length n).map Node.argument ∧
      (r.pushArguments n).arguments = r.arguments ++ List.range' r.size n ∧
      (r.pushArguments n).baseArity = r.baseArity := by
  induction n generalizing r with
  | zero => simp [pushArguments]
  | succ n ih =>
    obtain ⟨hnodes, harguments, hbase⟩ := ih r.pushArgument.2
    have hsize : r.pushArgument.2.size = r.size + 1 := by
      rw [size_eq_length, nodes_pushArgument, List.length_append, size_eq_length]
      rfl
    have hcount : r.pushArgument.2.arguments = r.arguments ++ [r.size] := rfl
    rw [nodes_pushArgument, hcount, List.length_append] at hnodes
    rw [hsize, hcount] at harguments
    refine ⟨?_, ?_, hbase⟩
    · rw [pushArguments, hnodes, List.range'_succ, List.append_assoc]
      rfl
    · rw [pushArguments, harguments, List.range'_succ, List.append_assoc]
      rfl

/-- Recording begins with the arguments. -/
theorem nodes_start (arity : Nat) :
    (start arity).nodes = (List.range arity).map Node.argument := by
  rw [start, (pushArguments_spec _ arity).1, List.range_eq_range']
  rfl

theorem arguments_start (arity : Nat) : (start arity).arguments = List.range arity := by
  rw [start, (pushArguments_spec _ arity).2.1, List.range_eq_range']
  rfl

theorem baseArity_start (arity : Nat) : (start arity).baseArity = arity :=
  (pushArguments_spec _ arity).2.2

theorem settled_pushArguments (r : Recorder) (n : Nat) :
    (r.pushArguments n).settled = r.settled := by
  induction n generalizing r with
  | zero => rfl
  | succ n ih => exact ih r.pushArgument.2

/-- At first a recorder holds its arguments and nothing else. -/
theorem start_eq (arity : Nat) : start arity =
    ⟨.empty, ((List.range arity).map Node.argument).toArray, List.range arity, arity⟩ := by
  have hsettled : (start arity).settled = .empty := settled_pushArguments ..
  have hfresh : (start arity).fresh = ((List.range arity).map Node.argument).toArray := by
    have hnodes := nodes_start arity
    rw [nodes, hsettled, Tape.nodes_empty, List.nil_append] at hnodes
    rw [← hnodes, Array.toArray_toList]
  calc start arity
      = ⟨(start arity).settled, (start arity).fresh, (start arity).arguments,
          (start arity).baseArity⟩ := rfl
    _ = _ := by rw [hsettled, hfresh, arguments_start, baseArity_start]

/-! ## Closing -/

variable {r : Recorder} {result : Nat} {d : Program} {defect : Defect}

/-- Closing a recorder succeeds if what has been recorded is well formed. -/
theorem close_eq_ok :
    r.close result = .ok d ↔ (r.toProgram result).WellFormed ∧ d = r.toProgram result := by
  unfold close Program.WellFormed
  cases hdefect : (r.toProgram result).defect? with
  | none => simp [Program.check, hdefect, Functor.map, Except.map, eq_comm]
  | some defect => simp [Program.check, hdefect, Functor.map, Except.map]

/-- Otherwise it fails with the first defect. -/
theorem close_eq_error :
    r.close result = .error defect ↔ (r.toProgram result).defect? = some defect := by
  unfold close
  cases hdefect : (r.toProgram result).defect? with
  | none => simp [Program.check, hdefect, Functor.map, Except.map]
  | some defect => simp [Program.check, hdefect, Functor.map, Except.map]

end StagedTangent.Recorder
