import StagedTangent.Proofs.Source.Preservation

/-!
# Recorded programs are well formed

Recording looks at a name before it records anything that uses it, gives an operation as many
operands as it takes and gives out only nodes that are on the tape. So a recorder never ends up with
a program that does not pass the check. `Recording.Ensures` states what a step does from one
recorder on, `ensures_record` shows it of every expression by induction, and
`toProgram_ne_illFormed` is the outcome: the only errors are those about the text.
-/

namespace StagedTangent.Source

/-! ## What a step of recording ensures -/

/-- A call that fits on a tape at a place. -/
structure FittingCall (place : Nat) (op : Op) (operands : List Nat) : Prop where
  count : operands.length = op.arity
  lt : ∀ operand ∈ operands, operand < place

namespace Recording

variable {β γ : Type} {r : Recorder}

/-- From a recorder on, a step fails for no defect and else appends calls that fit and gives a value
with a property, which may be about the number of nodes by then. -/
def Ensures (post : Nat → β → Prop) (x : Recording β) (r : Recorder) : Prop :=
  match x r with
  | .error e => ∀ defect, e ≠ .illFormed defect
  | .ok (b, r') => r.Extends FittingCall r' ∧ post r'.size b

/-- The node that a step gives is on the tape. -/
abbrev Known (size node : Nat) : Prop := node < size

theorem Ensures.pure {post : Nat → β → Prop} {b : β} (h : post r.size b) :
    Ensures post (pure b) r := ⟨.refl r, h⟩

theorem Ensures.fail {post : Nat → β → Prop} {e : RecordError}
    (h : ∀ defect, e ≠ .illFormed defect) :
    Ensures post (fail e) r := h

theorem Ensures.call {op : Op} {operands : List Nat} (hcount : operands.length = op.arity)
    (hlt : ∀ operand ∈ operands, operand < r.size) :
    Ensures Known (Recording.call op operands) r := by
  refine ⟨.call ⟨hcount, hlt⟩, ?_⟩
  have hsize := Recorder.size_call r op operands
  exact Nat.lt_of_lt_of_eq (Nat.lt_succ_self _) hsize.symm

theorem Ensures.lift {x : Except RecordError β} (h : ∀ defect, x ≠ .error (.illFormed defect)) :
    Ensures (fun _ _ => True) (liftM x) r := by
  cases x with
  | error e => exact fun defect heq => h defect (congrArg _ heq)
  | ok b => exact ⟨.refl r, trivial⟩

theorem Ensures.bind {post : Nat → β → Prop} {post' : Nat → γ → Prop} {x : Recording β}
    {f : β → Recording γ} (hx : Ensures post x r)
    (hf : ∀ b r', r.size ≤ r'.size → post r'.size b → Ensures post' (f b) r') :
    Ensures post' (x >>= f) r := by
  have hbind : (x >>= f) r = (x r >>= fun entry => f entry.1 entry.2) := rfl
  unfold Ensures at hx ⊢
  rw [hbind]
  cases hxr : x r with
  | error e =>
    rw [hxr] at hx
    exact hx
  | ok entry =>
    obtain ⟨b, r'⟩ := entry
    rw [hxr] at hx
    have hrest := hf b r' hx.1.size_le hx.2
    unfold Ensures at hrest
    rw [ok_bind]
    cases hfr : f b r' with
    | error e =>
      rw [hfr] at hrest
      exact hrest
    | ok entry =>
      rw [hfr] at hrest
      exact ⟨hx.1.trans hrest.1, hrest.2⟩

/-- A call of an operation of one value. -/
theorem Ensures.unary {x : Recording Nat} {op : Op} (hx : Ensures Known x r) (hop : op.arity = 1) :
    Ensures Known (x >>= fun operand => Recording.call op [operand]) r :=
  hx.bind fun _ _ _ hoperand => .call hop.symm (by simpa using hoperand)

/-- A call of an operation of two values. -/
theorem Ensures.binary {x y : Recording Nat} {op : Op} (hx : Ensures Known x r)
    (hy : ∀ r', r.size ≤ r'.size → Ensures Known y r') (hop : op.arity = 2) :
    Ensures Known (x >>= fun lhs => y >>= fun rhs => Recording.call op [lhs, rhs]) r := by
  refine hx.bind fun lhs r₁ hle hlhs => (hy r₁ hle).bind fun rhs r₂ hle' hrhs => .call hop.symm ?_
  rintro operand (_ | ⟨_, _ | ⟨_, _ | _⟩⟩)
  · exact Nat.lt_of_lt_of_le hlhs hle'
  · exact hrhs

end Recording

/-! ## Recording an expression -/

/-- A shift is refused for no defect. -/
theorem shiftOf_ne_illFormed (e : Expr) (defect : Defect) :
    shiftOf e ≠ .error (.illFormed defect) := by
  have hnumeral : ∀ value span, shiftOfNumeral value span ≠ .error (.illFormed defect) := by
    intro value span
    unfold shiftOfNumeral
    split
    · split <;> nofun
    · nofun
  unfold shiftOf
  split
  · exact hnumeral _ _
  · next value span _ =>
    cases hvalue : shiftOfNumeral value span with
    | error e =>
      intro herror
      exact hnumeral value span (hvalue.trans (congrArg _ (Except.error.inj herror)))
    | ok n => nofun
  · nofun
  · nofun

/-- The functions of one value take one operand. -/
theorem arity_of_ofName? {callee : String} {op : Op}
    (h : Builtin.ofName? callee = some (.unary op)) : op.arity = 1 := by
  unfold Builtin.ofName? at h
  split at h <;> cases h <;> rfl

open Recording in
/-- Recording an expression over names of nodes ensures that what it appends fits. -/
theorem ensures_record {names : Names} {bound : Nat}
    (hnames : ∀ name node, names.lookup name = some node → node < bound) (e : Expr) :
    ∀ r : Recorder, bound ≤ r.size → Ensures Known (e.record names) r := by
  induction e using Expr.induction with
  | numeral value span => exact fun r _ => .call rfl (by simp)
  | ident name span =>
    intro r hr
    rw [Expr.record.eq_def]
    dsimp only
    split
    · next node hnode => exact .pure (Nat.lt_of_lt_of_le (hnames name node hnode) hr)
    · exact .fail (by simp)
  | negation inner span ih => exact fun r hr => (ih r hr).unary rfl
  | binary op left right span ihl ihr =>
    exact fun r hr => (ihl r hr).binary (fun r' hle => ihr r' (Nat.le_trans hr hle)) op.arity_op
  | element base place span ih => exact fun r hr => (ih r hr).unary rfl
  | call callee args span ih =>
    intro r hr
    rcases record_call_cases names callee args span with
      ⟨op, arg, hcallee, rfl, heq⟩ | ⟨left, right, -, rfl, heq⟩ | ⟨arg, shift, -, rfl, heq⟩ |
        ⟨error, herror, heq⟩ <;> rw [heq]
    · exact (ih arg (by simp) r hr).unary (arity_of_ofName? hcallee)
    · exact (ih left (by simp) r hr).binary
        (fun r' hle => ih right (by simp) r' (Nat.le_trans hr hle)) rfl
    · refine (ih arg (by simp) r hr).bind fun vector r₁ hle hvector =>
        (Ensures.lift (shiftOf_ne_illFormed shift)).bind fun amount r₂ hle' _ => .call rfl ?_
      simpa using Nat.lt_of_lt_of_le hvector hle'
    · exact .fail fun defect => by cases herror <;> nofun

/-! ## The program of a function -/

/-- A recorder that begins with the arguments and goes on with calls that fit holds a well-formed
program. -/
theorem wellFormed_of_extends {arity : Nat} {r : Recorder} {result : Nat}
    (h : (Recorder.start arity).Extends FittingCall r) (hresult : result < r.size) :
    (r.toProgram result).WellFormed := by
  have hlength : (Recorder.start arity).nodes.length = arity := by
    rw [Recorder.nodes_start, List.length_map, List.length_range]
  have harguments : (r.toProgram result).arguments = List.range arity :=
    h.arguments.trans (Recorder.arguments_start arity)
  have hfirst : ∀ {place : Nat}, place < arity → r.nodes[place]? = some (.argument place) := by
    intro place hplace
    obtain ⟨more, hmore⟩ := h.nodes
    rw [← hmore, List.getElem?_append_left (by rwa [hlength]), Recorder.nodes_start,
      List.getElem?_map, List.getElem?_range hplace]
    rfl
  have hcall : ∀ {place : Nat} {op : Op} {operands : List Nat},
      r.nodes[place]? = some (.call op operands) → FittingCall place op operands := by
    intro place op operands hnode
    rcases Nat.lt_or_ge place arity with hlt | hge
    · rw [hfirst hlt] at hnode
      cases hnode
    · obtain ⟨_, _, heq, hfits⟩ := h.appended (by rwa [hlength]) hnode
      cases heq
      exact hfits
  refine Program.wellFormed_iff_regular.2 ⟨?_, ?_, ?_, ?_, ?_, ?_⟩
  · have hbase : (r.toProgram result).baseArity = arity :=
      h.baseArity.trans (Recorder.baseArity_start arity)
    rw [hbase, harguments]
    exact Nat.le_of_eq List.length_range.symm
  · intro position node hposition
    rw [harguments] at hposition
    obtain ⟨hlt, rfl⟩ := List.getElem?_eq_some_iff.1 hposition
    rw [List.length_range] at hlt
    rw [List.getElem_range, Recorder.nodes_toProgram]
    exact hfirst hlt
  · intro position node hnode
    rw [Recorder.nodes_toProgram] at hnode
    rcases Nat.lt_or_ge node arity with hlt | hge
    · rw [hfirst hlt] at hnode
      cases hnode
      rw [harguments, List.getElem?_range hlt]
    · obtain ⟨op, operands, heq, -⟩ := h.appended (by rwa [hlength]) hnode
      cases heq
  · intro node op operands hnode
    rw [Recorder.nodes_toProgram] at hnode
    exact (hcall hnode).count
  · intro node op operands operand hnode ho
    rw [Recorder.nodes_toProgram] at hnode
    exact (hcall hnode).lt operand ho
  · rw [Recorder.nodes_toProgram, ← Recorder.size_eq_length]
    exact hresult

namespace Function

variable {f : Function}

/-- The name of a node is that of a parameter. -/
theorem name_of_lookup {name : String} {node arity : Nat}
    (h : (f.names (.start arity)).lookup name = some node) :
    node < arity ∧ (f.params[node]?).map Param.name = some name := by
  have hentry : (f.params.map Param.name)[node]? = some name ∧
      (List.range arity)[node]? = some node := by
    rw [names, Recorder.arguments_start] at h
    obtain ⟨front, back, hsplit, -⟩ := List.lookup_eq_some_iff.1 h
    have hplace : ((f.params.map Param.name).zip (List.range arity))[front.length]? =
        some (name, node) := by
      rw [hsplit]
      simp
    rw [List.getElem?_zip_eq_some] at hplace
    obtain ⟨hlt, hnode⟩ := List.getElem?_eq_some_iff.1 hplace.2
    rw [List.getElem_range] at hnode
    rwa [hnode] at hplace
  refine ⟨?_, by rw [← List.getElem?_map]; exact hentry.1⟩
  simpa using (List.getElem?_eq_some_iff.1 hentry.2).1

/-- A function is refused for no defect of a program: the program is well formed whenever the text
makes sense. -/
theorem toProgram_ne_illFormed (f : Function) (defect : Defect) :
    f.toProgram ≠ .error (.illFormed defect) := by
  have hsize : (Recorder.start f.params.length).size = f.params.length := by
    rw [Recorder.size_eq_length, Recorder.nodes_start, List.length_map, List.length_range]
  have hensures := ensures_record (fun _ _ h => (f.name_of_lookup h).1) f.body
    (.start f.params.length) (Nat.le_of_eq hsize.symm)
  unfold toProgram
  split
  · nofun
  · split
    · nofun
    · unfold Recording.Ensures at hensures
      dsimp only
      cases hrecord : f.body.record (f.names (.start f.params.length))
          (.start f.params.length) with
      | error e =>
        rw [hrecord] at hensures
        exact fun heq => hensures defect (Except.error.inj heq)
      | ok entry =>
        obtain ⟨result, r⟩ := entry
        rw [hrecord] at hensures
        have hcheck := (Program.check_eq_ok_iff _).2
          (wellFormed_of_extends hensures.1 hensures.2)
        rw [ok_bind]
        dsimp only
        rw [Recorder.close, hcheck]
        nofun

end Function

end StagedTangent.Source
