import StagedTangent.Proofs.Program.Recorder
import StagedTangent.Proofs.Source.Segment
import StagedTangent.Proofs.Staging.Refinement

/-!
# Recording preserves meaning

The program of a function has the parameters as its arguments and behind them the segment of the
body. All of it is at stage zero and needed, so running the code goes through the segment in order.
The main statement is `toProgram_preserves_meaning`: for whatever the operations mean, running the
code of a function comes to what its body means, in the value and in the error.
-/

namespace StagedTangent

open Source

variable {α : Type}

/-! ## Running the code of a function -/

namespace Program

variable {p : Program} {interpret : Interpretation α} {inputs : List (Value α)}

/-- If the tape holds nothing but arguments and the segment of the result, running the code comes to
what the segment means. -/
theorem runsTo_of_segment (hp : p.Regular) (hinputs : inputs.length = p.arguments.length)
    (horder : p.order = 0) {start : Nat}
    (harguments : ∀ n < start, ∃ position, p.nodes[n]? = some (.argument position))
    {meaning : Meaning (Value α)}
    (h : p.Segment interpret inputs start p.nodes.length [p.result] meaning.single) :
    ∃ r, meaning.run = some r ∧ p.RunsTo interpret inputs r := by
  obtain ⟨result, hresult, hcomputes⟩ := h.computes
  obtain ⟨r, hr, rfl⟩ := Meaning.run_single hresult
  refine ⟨r, hr, ?_⟩
  cases r with
  | ok v =>
    obtain ⟨w, hw, hvalue⟩ := mapM_singleton_eq_some.1 hcomputes
    obtain rfl : v = w := List.singleton_injective hw
    exact .inl ⟨(evaluates_iff hp).2 ⟨v, hvalue⟩, v, hvalue, rfl⟩
  | error e =>
    obtain ⟨n, hstart, hlt, hfails, hbefore⟩ := hcomputes
    obtain ⟨node, hnode, hpath⟩ := h.needed n hstart hlt
    obtain rfl := List.mem_singleton.1 hnode
    have hneeded : p.Needed n := (needed_iff hp).2 hpath
    -- Nothing before the failing call fails: it is an argument or has a value.
    have hfirst : ∀ m < n, ∃ v, p.value? interpret inputs m = some v := by
      intro m hm
      rcases Nat.lt_or_ge m start with hlt | hge
      · obtain ⟨position, hposition⟩ := harguments m hlt
        exact exists_value?_argument hp hinputs hposition
      · exact hbefore m hge hm
    have hstage : ∀ m, p.stage m = 0 := fun m =>
      Nat.le_zero.1 (horder ▸ stage_le_order hp m)
    refine .inr ⟨fun heval => ?_, n, e, ⟨hneeded, hfails, fun m e' _ he' => ?_⟩, rfl⟩
    · obtain ⟨v, hv⟩ := heval n hneeded
      rw [value?_eq, hfails] at hv
      cases hv
    · rcases Nat.lt_trichotomy m n with hm | rfl | hm
      · obtain ⟨v, hv⟩ := hfirst m hm
        rw [value?_eq, he'] at hv
        cases hv
      · exact .inl rfl
      · exact .inr (.inr ⟨by rw [hstage, hstage], hm⟩)

end Program

namespace Source.Function

variable {f : Source.Function} {p : Program}

/-- A function with a program has been recorded from its arguments on. -/
theorem exists_record (h : f.toProgram = .ok p) :
    ∃ result r, f.body.record (f.names (.start f.params.length)) (.start f.params.length) =
        .ok (result, r) ∧ p = r.toProgram result ∧ p.WellFormed := by
  unfold toProgram at h
  split at h
  · cases h
  · split at h
    · cases h
    · obtain ⟨⟨result, r⟩, hrecord, hclose⟩ := bind_eq_ok.1 h
      refine ⟨result, r, hrecord, ?_⟩
      cases hcheck : r.close result with
      | error e =>
        simp only [hcheck, Except.mapError] at hclose
        cases hclose
      | ok q =>
        simp only [hcheck, Except.mapError] at hclose
        obtain rfl : q = p := Except.ok.inj hclose
        obtain ⟨u, hok, hq⟩ := bind_eq_ok.1 hcheck
        obtain rfl : r.toProgram result = q := Except.ok.inj hq
        exact ⟨rfl, (Program.check_eq_ok_iff _).1 hok⟩

/-- Names that have nodes have values if the nodes do. -/
theorem lookup_zip {V : Type} {value : Nat → V → Prop} {names : List String} {nodes : List Nat}
    {values : List V} (h : List.Forall₂ value nodes values) {name : String} {node : Nat}
    (hnode : (names.zip nodes).lookup name = some node) :
    ∃ v, (names.zip values).lookup name = some v ∧ value node v := by
  induction h generalizing names with
  | nil =>
    rw [List.zip_nil_right] at hnode
    cases hnode
  | @cons first v nodes values hfirst _ ih =>
    cases names with
    | nil => cases hnode
    | cons head names =>
      rw [List.zip_cons_cons, List.lookup_cons] at hnode ⊢
      cases hname : name == head with
      | true =>
        simp only [hname] at hnode ⊢
        obtain rfl := Option.some.inj hnode
        exact ⟨v, rfl, hfirst⟩
      | false =>
        simp only [hname] at hnode ⊢
        exact ih hnode

/-- The program of a function has its parameters as arguments and no directions. -/
theorem arguments_toProgram {result : Nat} {r : Recorder} {e : Expr} {names : Names} {arity : Nat}
    (h : e.record names (.start arity) = .ok (result, r)) :
    (r.toProgram result).arguments = List.range arity ∧
      (r.toProgram result).baseArity = arity ∧ (r.toProgram result).order = 0 := by
  have hext := appends_record names e _ _ _ h
  have harguments : (r.toProgram result).arguments = List.range arity :=
    hext.arguments.trans (Recorder.arguments_start arity)
  have hbase : (r.toProgram result).baseArity = arity :=
    hext.baseArity.trans (Recorder.baseArity_start arity)
  refine ⟨harguments, hbase, ?_⟩
  rw [Program.order, harguments, hbase, List.length_range, Nat.sub_self]

/-- The tape of a recorded function is the segment of its body behind its arguments. -/
theorem runsTo_of_record (hp : p.Regular) {result : Nat} {r : Recorder} {α : Type}
    {interpret : Interpretation α} {args : List (Value α)}
    (hrecord : f.body.record (f.names (.start f.params.length)) (.start f.params.length) =
      .ok (result, r)) (h : p = r.toProgram result) (hargs : args.length = f.params.length) :
    ∃ outcome, (f.body.evaluate interpret ((f.params.map Source.Param.name).zip args)).run =
        some outcome ∧ p.RunsTo interpret args outcome := by
  subst h
  obtain ⟨harguments, hbase, horder⟩ := arguments_toProgram hrecord
  have hnodes : (r.toProgram result).nodes = r.nodes := Recorder.nodes_toProgram r result
  have hinputs : args.length = (r.toProgram result).arguments.length := by
    rw [harguments, List.length_range, hargs]
  have hvalues : ((r.toProgram result).argumentsAt 0).mapM
      ((r.toProgram result).value? interpret (args ++ [])) = some args :=
    Program.mapM_argumentsAt_zero hp (hargs.trans hbase.symm)
  have htake : (r.toProgram result).arguments.take (r.toProgram result).baseArity =
      List.range f.params.length := by
    rw [harguments, hbase]
    exact List.take_of_length_le (Nat.le_of_eq List.length_range)
  rw [Program.argumentsAt_zero, List.append_nil, htake] at hvalues
  have hnames : ∀ name node, (f.names (.start f.params.length)).lookup name = some node →
      ∃ v, ((f.params.map Source.Param.name).zip args).lookup name = some v ∧
        (r.toProgram result).value? interpret args node = some v := by
    intro name node hname
    rw [names, Recorder.arguments_start] at hname
    exact lookup_zip (mapM_eq_some_iff.1 hvalues) hname
  have hsegment := Program.realizes_record hp hnames f.body _ _ _ hrecord
    (hnodes ▸ List.prefix_refl _)
  rw [Recorder.size_eq_length r, ← hnodes] at hsegment
  refine Program.runsTo_of_segment hp hinputs horder (fun n hn => ⟨n, ?_⟩) hsegment
  refine hp.argument_at ?_
  rw [Recorder.size_eq_length, Recorder.nodes_start, List.length_map, List.length_range] at hn
  rw [harguments, List.getElem?_range hn]

/-- Running the code of a recorded function on as many values as it has parameters evaluates its
body where each parameter has its value, with whatever the operations mean. Where the evaluation
fails, the run fails with its error: the one that comes first from left to right and from the inside
out. -/
theorem toProgram_preserves_meaning (f : Source.Function) (p : Program) (h : f.toProgram = .ok p) :
    ∃ code, p.toCode = .ok code ∧
      ∀ (α : Type) (interpret : Interpretation α) (number : Nat) (args : List (Value α)),
        args.length = f.params.length →
        f.body.evaluate interpret ((f.params.map Source.Param.name).zip args) =
          ExceptT.mk (some (code.run interpret number args)) := by
  obtain ⟨result, r, hrecord, hprogram, hwell⟩ := exists_record h
  obtain ⟨scope, final, -, hcode⟩ := Program.exists_toCode hwell
  refine ⟨⟨scope, final.size⟩, hcode, fun α interpret number args hargs => ?_⟩
  obtain ⟨-, hbase, horder⟩ := arguments_toProgram hrecord
  rw [← hprogram] at hbase horder
  obtain ⟨outcome, houtcome, hruns⟩ : ∃ outcome, (f.body.evaluate interpret
      ((f.params.map Source.Param.name).zip args)).run = some outcome ∧
        p.RunsTo interpret args outcome :=
    runsTo_of_record hwell.regular hrecord hprogram hargs
  have hcode' : p.RunsTo interpret (args ++ [])
      (Code.runAlong interpret number ⟨scope, final.size⟩ args []) :=
    Program.runsTo_of_toCode hwell hcode interpret number (hargs.trans hbase.symm) horder.symm
  rw [List.append_nil] at hcode'
  have hrun : Code.run interpret number ⟨scope, final.size⟩ args = outcome := by
    rw [← hcode'.unique hruns]
    exact (bind_ok _).symm
  rw [hrun]
  exact houtcome

/-- In a difference of two elements that are not there the left one fails first. -/
theorem toProgram_preserves_meaning_difference :
    ∃ code, Program.toCode ⟨.ofNodes #[.argument 0, .argument 1, .call (.index 3) [0],
        .call (.index 5) [1], .call .sub [2, 3]], [0, 1], 4, 2⟩ = .ok code ∧
      code.run (fun op vs =>
          match op, vs with
          | .index place, [v] => v.element place
          | _, _ => .error (.notAClosure .scalar)) 0 [.vector [2, 7], .scalar (1 : Nat)] =
        .error (.pastEnd 3 2) := by
  obtain ⟨code, hcode, hmeaning⟩ := toProgram_preserves_meaning
    ⟨"f", [⟨"x", ⟨5, 6⟩⟩, ⟨"y", ⟨8, 9⟩⟩],
      .binary .sub (.element (.ident "x" ⟨13, 14⟩) 3 ⟨13, 17⟩)
        (.element (.ident "y" ⟨20, 21⟩) 5 ⟨20, 24⟩) ⟨13, 24⟩, ⟨0, 24⟩⟩
    ⟨.ofNodes #[.argument 0, .argument 1, .call (.index 3) [0], .call (.index 5) [1],
      .call .sub [2, 3]], [0, 1], 4, 2⟩ rfl
  have hrun := hmeaning Nat (fun op vs =>
    match op, vs with
    | .index place, [v] => v.element place
    | _, _ => .error (.notAClosure .scalar)) 0 [.vector [2, 7], .scalar 1] rfl
  exact ⟨code, hcode, (Option.some.inj hrun).symm⟩

end Source.Function

end StagedTangent
