import Mathlib.Data.List.Forall2
import StagedTangent.Program.Text
import StagedTangent.Proofs.Number.Writing
import StagedTangent.Proofs.Program.Regular

/-!
# The text of a program determines it

The text is taken apart from the outside in. No line end stands within a line, so equal texts have
equal lines; within a line, what an operation or a reference is written with goes up to the next
blank or comma; and numbers, names and constants are told apart by their texts. The base arity is
not written but follows from the order. `Program.text_eq_iff` puts this together: two well-formed
programs have the same text exactly if they are the same up to the patterns of NaNs and the division
of the tape into segments.
-/

namespace StagedTangent

/-! ## The same up to the patterns of NaNs -/

/-- The same operation, or two constants that are NaNs. -/
inductive Op.EqUpToNaN : Op → Op → Prop
  | refl (op : Op) : EqUpToNaN op op
  | constant {x y : Binary64} (hx : x.isNaN = true) (hy : y.isNaN = true) :
    EqUpToNaN (.constant x) (.constant y)

/-- The same argument, or the same call up to the pattern of a NaN. -/
inductive Node.EqUpToNaN : Node → Node → Prop
  | argument (position : Nat) : EqUpToNaN (.argument position) (.argument position)
  | call {op op' : Op} (h : op.EqUpToNaN op') (operands : List Nat) :
    EqUpToNaN (.call op operands) (.call op' operands)

/-! ## Words -/

/-- The characters of words, between which there are blanks, commas and line ends. -/
def isPlain (c : Char) : Bool :=
  c.isAlphanum || ['%', '_', '[', ']', '.', '+', '-'].contains c

theorem isPlain_of_isDigit {c : Char} (h : c.isDigit = true) : isPlain c = true := by
  rw [isPlain, Char.isAlphanum, h, Bool.or_true, Bool.true_or]

theorem isPlain_of_isNumberPart {c : Char} (h : Layout.isNumberPart c = true) :
    isPlain c = true := by
  have hmark : ∀ d ∈ ['.', 'e', '+', '-', 'i', 'n', 'f', 'N', 'a'], isPlain d = true :=
    List.all_eq_true.1 (by decide)
  rw [Layout.isNumberPart, Bool.or_eq_true, List.contains_iff_mem] at h
  exact h.elim isPlain_of_isDigit (hmark c)

theorem newline_notMem_of_isPlain {text : List Char} (h : ∀ c ∈ text, isPlain c = true) :
    '\n' ∉ text := fun hmem => by
  cases h _ hmem

theorem newline_notMem_toDigits (n : Nat) : '\n' ∉ Nat.toDigits 10 n :=
  newline_notMem_of_isPlain fun _ hc => isPlain_of_isDigit (isDigit_of_mem_toDigits hc)

/-! ## References -/

theorem toList_referenceText (node : Nat) :
    (referenceText node).toList = '%' :: Nat.toDigits 10 node := by
  rw [referenceText, String.toList_append, toList_toString_nat]
  rfl

theorem isPlain_referenceText (node : Nat) :
    ∀ c ∈ (referenceText node).toList, isPlain c = true := by
  rw [toList_referenceText]
  exact List.forall_mem_cons.2 ⟨rfl, fun c hc => isPlain_of_isDigit (isDigit_of_mem_toDigits hc)⟩

theorem toList_referenceText_injective {m n : Nat}
    (h : (referenceText m).toList = (referenceText n).toList) : m = n := by
  rw [toList_referenceText, toList_referenceText, List.cons.injEq] at h
  rw [← naturalOfDigits_toDigits m, h.2, naturalOfDigits_toDigits]

/-- References behind the first one, each with a comma and a blank before it. -/
def furtherReferences (nodes : List Nat) : List Char :=
  nodes.flatMap fun node => ',' :: ' ' :: (referenceText node).toList

theorem head?_furtherReferences (nodes : List Nat) :
    ∀ c ∈ (furtherReferences nodes).head?, isPlain c = false := by
  cases nodes with
  | nil => exact nofun
  | cons node nodes => rintro c ⟨⟩; rfl

/-- The first reference goes as far as the first comma. -/
theorem references_inj {node node' : Nat} {nodes nodes' : List Nat}
    (h : (referenceText node).toList ++ furtherReferences nodes =
      (referenceText node').toList ++ furtherReferences nodes') :
    node = node' ∧ furtherReferences nodes = furtherReferences nodes' := by
  obtain ⟨hnode, hnodes⟩ := append_inj_of_cut (isPlain_referenceText node)
    (head?_furtherReferences nodes) (isPlain_referenceText node') (head?_furtherReferences nodes') h
  exact ⟨toList_referenceText_injective hnode, hnodes⟩

theorem furtherReferences_injective {nodes nodes' : List Nat}
    (h : furtherReferences nodes = furtherReferences nodes') : nodes = nodes' := by
  induction nodes generalizing nodes' with
  | nil =>
    cases nodes' with
    | nil => rfl
    | cons => cases h
  | cons node nodes ih =>
    cases nodes' with
    | nil => cases h
    | cons node' nodes' =>
      obtain ⟨hnode, hnodes⟩ := references_inj (List.cons.inj (List.cons.inj h).2).2
      rw [hnode, ih hnodes]

theorem toList_referenceListText_cons (node : Nat) (nodes : List Nat) :
    (referenceListText (node :: nodes)).toList =
      (referenceText node).toList ++ furtherReferences nodes := by
  rw [referenceListText, String.toList_intercalate, List.map_cons, List.map_cons]
  induction nodes generalizing node with
  | nil => simp [furtherReferences]
  | cons next nodes ih =>
    rw [List.map_cons, List.map_cons, List.intercalate_cons_cons, ih, List.append_assoc]
    rfl

/-- The text of a list of references determines the list. -/
theorem toList_referenceListText_injective {nodes nodes' : List Nat}
    (h : (referenceListText nodes).toList = (referenceListText nodes').toList) :
    nodes = nodes' := by
  have hne : ∀ node nodes, (referenceListText (node :: nodes)).toList ≠ [] := by
    intro node nodes
    rw [toList_referenceListText_cons, toList_referenceText]
    exact List.cons_ne_nil _ _
  cases nodes with
  | nil =>
    cases nodes' with
    | nil => rfl
    | cons node' nodes' => exact absurd h.symm (hne node' nodes')
  | cons node nodes =>
    cases nodes' with
    | nil => exact absurd h (hne node nodes)
    | cons node' nodes' =>
      rw [toList_referenceListText_cons, toList_referenceListText_cons] at h
      obtain ⟨hnode, hnodes⟩ := references_inj h
      rw [hnode, furtherReferences_injective hnodes]

theorem newline_notMem_referenceListText (nodes : List Nat) :
    '\n' ∉ (referenceListText nodes).toList := by
  have hreference : ∀ node, '\n' ∉ (referenceText node).toList :=
    fun node => newline_notMem_of_isPlain (isPlain_referenceText node)
  cases nodes with
  | nil => exact List.not_mem_nil
  | cons node nodes =>
    rw [toList_referenceListText_cons, List.mem_append, furtherReferences, List.mem_flatMap]
    rintro (hmem | ⟨other, -, hmem⟩)
    · exact hreference node hmem
    · simp [hreference other] at hmem

/-! ## Operations -/

namespace Opcode

theorem isPlain_name (c : Opcode) :
    ∀ d ∈ c.name.toList, isPlain d = true ∧ decide (d ≠ '[') = true := by
  have hall : (c.name.toList.all fun d => isPlain d && decide (d ≠ '[')) = true := by
    cases c <;> decide
  exact fun d hd => Bool.and_eq_true_iff.1 (List.all_eq_true.1 hall d hd)

theorem ofName?_name (c : Opcode) : ofName? c.name = some c := by
  cases c <;> decide

theorem name_ne_arg (c : Opcode) : c.name.toList ≠ ['a', 'r', 'g'] := by
  cases c <;> decide

theorem name_injective {c c' : Opcode} (h : c.name = c'.name) : c = c' :=
  Option.some.inj ((ofName?_name c).symm.trans (h ▸ ofName?_name c'))

end Opcode

namespace Op

variable {op op' : Op}

/-- The parameter of an operation in its brackets. -/
def brackets (op : Op) : List Char :=
  match op.parameter? with
  | some parameter => '[' :: parameter.toList ++ [']']
  | none => []

theorem toList_text (op : Op) : op.text.toList = op.opcode.name.toList ++ op.brackets := by
  rw [text, brackets]
  cases op.parameter? with
  | none => exact (List.append_nil _).symm
  | some parameter =>
    dsimp only
    rw [String.toList_append, String.toList_append, String.toList_append, List.append_assoc,
      List.append_assoc]
    rfl

theorem head?_brackets (op : Op) : ∀ c ∈ op.brackets.head?, decide (c ≠ '[') = false := by
  rw [brackets]
  cases op.parameter? with
  | none => exact nofun
  | some parameter => rintro c ⟨⟩; rfl

theorem brackets_injective (h : op.brackets = op'.brackets) : op.parameter? = op'.parameter? := by
  rw [brackets, brackets] at h
  generalize op.parameter? = given at h ⊢
  generalize op'.parameter? = given' at h ⊢
  cases given with
  | none =>
    cases given' with
    | none => rfl
    | some parameter' => cases h
  | some parameter =>
    cases given' with
    | none => cases h
    | some parameter' => rw [String.toList_inj.1 (List.append_cancel_right (List.cons.inj h).2)]

theorem isPlain_parameter {parameter : String} (h : op.parameter? = some parameter) :
    ∀ c ∈ parameter.toList, isPlain c = true := by
  unfold parameter? at h
  split at h
  · cases h
    exact fun c hc => isPlain_of_isNumberPart (constantLayout.isNumberPart_write _ c hc)
  · cases h
    exact fun c hc => isPlain_of_isNumberPart (Layout.isNumberPart_toString_nat _ c hc)
  · cases h
    exact fun c hc => isPlain_of_isNumberPart (Layout.isNumberPart_toString_int _ c hc)
  · cases h

theorem isPlain_text (op : Op) : ∀ c ∈ op.text.toList, isPlain c = true := by
  rw [toList_text, List.forall_mem_append]
  refine ⟨fun c hc => (op.opcode.isPlain_name c hc).1, ?_⟩
  rw [brackets]
  cases h : op.parameter? with
  | none => exact List.forall_mem_nil _
  | some parameter =>
    exact List.forall_mem_append.2 ⟨List.forall_mem_cons.2 ⟨rfl, isPlain_parameter h⟩,
      List.forall_mem_singleton.2 rfl⟩

/-- The text of an operation goes up to its brackets and on to its parameter. -/
theorem text_inj (h : op.text.toList = op'.text.toList) :
    op.opcode = op'.opcode ∧ op.parameter? = op'.parameter? := by
  rw [toList_text, toList_text] at h
  obtain ⟨hname, hbrackets⟩ := append_inj_of_cut (fun c hc => (op.opcode.isPlain_name c hc).2)
    op.head?_brackets (fun c hc => (op'.opcode.isPlain_name c hc).2) op'.head?_brackets h
  exact ⟨Opcode.name_injective (String.toList_inj.1 hname), brackets_injective hbrackets⟩

theorem text_ne_arg (op : Op) : op.text.toList ≠ ['a', 'r', 'g'] := by
  intro h
  have hcut : op.opcode.name.toList ++ op.brackets = ['a', 'r', 'g'] ++ [] := by rwa [← toList_text]
  exact op.opcode.name_ne_arg (append_inj_of_cut (fun c hc => (op.opcode.isPlain_name c hc).2)
    op.head?_brackets (List.all_eq_true.1 (by decide)) (by simp) hcut).1

/-- Operations are told apart by their opcodes and the texts of their parameters, but for NaNs. -/
theorem eqUpToNaN_of_parameter? (hopcode : op.opcode = op'.opcode)
    (hparameter : op.parameter? = op'.parameter?) : op.EqUpToNaN op' := by
  cases op with
  | constant x =>
    cases op' with
    | constant y =>
      rcases Layout.write_eq_iff.1 (Option.some.inj hparameter) with rfl | ⟨hx, hy⟩
      · exact .refl _
      · exact .constant hx hy
    | _ => cases hopcode
  | index place =>
    cases op' with
    | index place' =>
      rw [toString_nat_injective (Option.some.inj hparameter)]
      exact .refl _
    | _ => cases hopcode
  | circshift shift =>
    cases op' with
    | circshift shift' =>
      rw [toString_int_injective (Option.some.inj hparameter)]
      exact .refl _
    | _ => cases hopcode
  | _ => cases op' <;> first | exact .refl _ | cases hopcode

/-- Two operations have the same text exactly if they are the same up to the pattern of a NaN. -/
theorem text_eq_iff_eqUpToNaN : op.text = op'.text ↔ op.EqUpToNaN op' := by
  constructor
  · intro h
    obtain ⟨hopcode, hparameter⟩ := text_inj (congrArg String.toList h)
    exact eqUpToNaN_of_parameter? hopcode hparameter
  · rintro (_ | ⟨hx, hy⟩)
    · rfl
    · have hwrite : constantLayout.write _ = constantLayout.write _ :=
        Layout.write_eq_iff.2 (.inr ⟨hx, hy⟩)
      simp only [text, parameter?, hwrite, opcode]

end Op

/-! ## Nodes -/

section Node

variable {op op' : Op} {operands operands' : List Nat}

/-- The operands of a call behind its operation. -/
def operandsText : List Nat → List Char
  | [] => []
  | operands => ' ' :: (referenceListText operands).toList

theorem head?_operandsText (operands : List Nat) :
    ∀ c ∈ (operandsText operands).head?, isPlain c = false := by
  cases operands with
  | nil => exact nofun
  | cons operand operands => rintro c ⟨⟩; rfl

theorem operandsText_injective (h : operandsText operands = operandsText operands') :
    operands = operands' := by
  cases operands with
  | nil =>
    cases operands' with
    | nil => rfl
    | cons => cases h
  | cons operand operands =>
    cases operands' with
    | nil => cases h
    | cons operand' operands' => exact toList_referenceListText_injective (List.cons.inj h).2

theorem toList_callText (op : Op) (operands : List Nat) :
    (callText op operands).toList = op.text.toList ++ operandsText operands := by
  cases operands with
  | nil => exact (List.append_nil _).symm
  | cons operand operands =>
    rw [callText, String.toList_append, String.toList_append, List.append_assoc]
    · rfl
    · exact nofun

/-- The text of a call goes up to its first blank and on to its operands. -/
theorem callText_eq_iff : callText op operands = callText op' operands' ↔
    op.EqUpToNaN op' ∧ operands = operands' := by
  constructor
  · intro h
    have hsplit := congrArg String.toList h
    rw [toList_callText, toList_callText] at hsplit
    obtain ⟨hop, hoperands⟩ := append_inj_of_cut op.isPlain_text (head?_operandsText operands)
      op'.isPlain_text (head?_operandsText operands') hsplit
    exact ⟨Op.text_eq_iff_eqUpToNaN.1 (String.toList_inj.1 hop), operandsText_injective hoperands⟩
  · rintro ⟨hop, rfl⟩
    rw [← String.toList_inj, toList_callText, toList_callText, Op.text_eq_iff_eqUpToNaN.2 hop]

/-- The stage of an argument behind its position. -/
def stageText (stage : Nat) : List Char := ' ' :: "stage=".toList ++ (toString stage).toList

theorem toList_argumentText (position stage : Nat) : (argumentText position stage).toList =
    ['a', 'r', 'g'] ++ (' ' :: (Nat.toDigits 10 position ++ stageText stage)) := by
  have htext : argumentText position stage =
      "arg " ++ toString position ++ " stage=" ++ toString stage := rfl
  rw [htext, String.toList_append, String.toList_append, String.toList_append, toList_toString_nat,
    List.append_assoc, List.append_assoc]
  rfl

theorem argumentText_inj {position position' stage stage' : Nat}
    (h : argumentText position stage = argumentText position' stage') : position = position' := by
  have hsplit := congrArg String.toList h
  rw [toList_argumentText, toList_argumentText] at hsplit
  have hhead : ∀ stage, ∀ c ∈ (stageText stage).head?, c.isDigit = false := by
    rintro stage c ⟨⟩
    rfl
  obtain ⟨hposition, -⟩ := append_inj_of_cut (fun c => isDigit_of_mem_toDigits) (hhead stage)
    (fun c => isDigit_of_mem_toDigits) (hhead stage')
    (List.cons.inj (List.append_cancel_left hsplit)).2
  rw [← naturalOfDigits_toDigits position, hposition, naturalOfDigits_toDigits]

/-- No operation has the name that stands for arguments. -/
theorem argumentText_ne_callText (position stage : Nat) (op : Op) (operands : List Nat) :
    argumentText position stage ≠ callText op operands := by
  intro h
  have hsplit := congrArg String.toList h
  rw [toList_argumentText, toList_callText] at hsplit
  exact op.text_ne_arg (append_inj_of_cut (p := isPlain) (List.all_eq_true.1 (by decide))
    (by rintro c ⟨⟩; rfl) op.isPlain_text (head?_operandsText operands) hsplit).1.symm

end Node

/-! ## Lines -/

/-- Lines are told apart by their text if a line end stands at the end of each and nowhere else. -/
theorem eq_of_flatMap_concat {α : Type} [DecidableEq α] {e : α} {lines lines' : List (List α)}
    (hlines : ∀ line ∈ lines, e ∉ line) (hlines' : ∀ line ∈ lines', e ∉ line)
    (h : lines.flatMap (· ++ [e]) = lines'.flatMap (· ++ [e])) : lines = lines' := by
  have hended : ∀ {line : List α}, e ∉ line → ∀ c ∈ line, decide (c ≠ e) = true :=
    fun hline c hc => decide_eq_true fun hce => hline (hce ▸ hc)
  have hend : ∀ rest : List α, ∀ c ∈ (e :: rest).head?, decide (c ≠ e) = false := by
    rintro rest c ⟨⟩
    exact decide_eq_false fun hne => hne rfl
  induction lines generalizing lines' with
  | nil =>
    cases lines' with
    | nil => rfl
    | cons line' lines' => simp at h
  | cons line lines ih =>
    cases lines' with
    | nil => simp at h
    | cons line' lines' =>
      rw [List.forall_mem_cons] at hlines hlines'
      rw [List.flatMap_cons, List.flatMap_cons, List.append_assoc, List.append_assoc] at h
      obtain ⟨rfl, hrest⟩ :=
        append_inj_of_cut (hended hlines.1) (hend _) (hended hlines'.1) (hend _) h
      rw [ih hlines.2 hlines'.2 (List.cons.inj hrest).2]

namespace Program

/-- The line of the node at a place, without its end. -/
def nodeLineBody (p : Program) (entry : Node × Nat) : String :=
  "  " ++ referenceText entry.2 ++ " = " ++ p.nodeText entry.1

/-- The line of the arguments, without its end. -/
def headerLine (p : Program) : String := "program(" ++ referenceListText p.arguments ++ ") \x7b"

def resultLine (p : Program) : String := "  return " ++ referenceText p.result

def orderLine (p : Program) : String := "\x7d  // order = " ++ toString p.order

/-- The lines of the text of a program, without their ends. -/
def lines (p : Program) : List String :=
  p.headerLine :: (p.nodes.zipIdx.map p.nodeLineBody ++ [p.resultLine, p.orderLine])

theorem headerLine_eq (p : Program) :
    p.headerLine = "program(" ++ referenceListText p.arguments ++ ") \x7b" := rfl

theorem resultLine_eq (p : Program) : p.resultLine = "  return " ++ referenceText p.result := rfl

theorem orderLine_eq (p : Program) :
    p.orderLine = "\x7d  // order = " ++ toString p.order := rfl

theorem text_eq_join (p : Program) : p.text = String.join (p.lines.map (· ++ "\n")) := by
  have hframe : p.text = "program(" ++ referenceListText p.arguments ++ (") \x7b" ++ "\n") ++
      String.join ((p.nodes.zipIdx.map p.nodeLineBody).map (· ++ "\n")) ++
      "  return " ++ referenceText p.result ++ "\n" ++
      "\x7d  // order = " ++ toString p.order ++ "\n" := by
    rw [List.map_map]
    rfl
  rw [hframe, lines, List.map_cons, String.join_cons, List.map_append, String.join_append,
    List.map_cons, List.map_cons, List.map_nil, String.join_cons, String.join_cons, String.join_nil,
    String.append_empty, headerLine_eq, resultLine_eq, orderLine_eq]
  simp only [String.append_assoc]

theorem toList_text (p : Program) :
    p.text.toList = (p.lines.map String.toList).flatMap (· ++ ['\n']) := by
  have hend : ∀ line : String, (line ++ "\n").toList = line.toList ++ ['\n'] :=
    fun line => String.toList_append
  rw [text_eq_join, String.toList_join, List.flatMap_map, List.flatMap_map]
  simp only [hend]

/-! No line end stands within a line. -/

theorem newline_notMem_nodeText (p : Program) (node : Node) : '\n' ∉ (p.nodeText node).toList := by
  cases node with
  | argument position =>
    rw [nodeText, toList_argumentText, stageText, toList_toString_nat]
    simp [newline_notMem_toDigits]
  | call op operands =>
    rw [nodeText, toList_callText, List.mem_append]
    refine not_or_intro (newline_notMem_of_isPlain op.isPlain_text) ?_
    cases operands with
    | nil => exact List.not_mem_nil
    | cons operand operands =>
      exact List.not_mem_cons_of_ne_of_not_mem (by decide) (newline_notMem_referenceListText _)

theorem newline_notMem_lines (p : Program) : ∀ line ∈ p.lines.map String.toList, '\n' ∉ line := by
  have hreference : ∀ node, '\n' ∉ (referenceText node).toList :=
    fun node => newline_notMem_of_isPlain (isPlain_referenceText node)
  rw [lines, List.forall_mem_map, List.forall_mem_cons, List.forall_mem_append, List.forall_mem_map,
    List.forall_mem_cons, List.forall_mem_singleton]
  refine ⟨?_, fun entry _ => ?_, ?_, ?_⟩
  · simp [headerLine_eq, newline_notMem_referenceListText]
  · simp [nodeLineBody, hreference, newline_notMem_nodeText]
  · simp [resultLine_eq, hreference]
  · rw [orderLine_eq, String.toList_append, toList_toString_nat]
    simp [newline_notMem_toDigits]

variable {p q : Program}

/-- Equal texts have equal lines. -/
theorem lines_eq_of_text_eq (h : p.text = q.text) : p.lines = q.lines := by
  have hflat := congrArg String.toList h
  rw [toList_text, toList_text] at hflat
  exact List.map_injective_iff.2 (fun _ _ => String.toList_inj.1)
    (eq_of_flatMap_concat p.newline_notMem_lines q.newline_notMem_lines hflat)

/-! What the lines of the nodes tell. -/

variable {node node' : Node} {nodes nodes' : List Node}

theorem eqUpToNaN_of_nodeText_eq (h : p.nodeText node = q.nodeText node') :
    node.EqUpToNaN node' := by
  cases node with
  | argument position =>
    cases node' with
    | argument position' =>
      obtain rfl := argumentText_inj h
      exact .argument position
    | call op' operands' => exact (argumentText_ne_callText _ _ _ _ h).elim
  | call op operands =>
    cases node' with
    | argument position' => exact (argumentText_ne_callText _ _ _ _ h.symm).elim
    | call op' operands' =>
      obtain ⟨hop, rfl⟩ := callText_eq_iff.1 h
      exact .call hop operands

/-- Of the program around a node its line shows the base arity at most. -/
theorem nodeText_congr (hbase : p.baseArity = q.baseArity) (h : node.EqUpToNaN node') :
    p.nodeText node = q.nodeText node' := by
  cases h with
  | argument position => simp only [nodeText, stageOfArgument, hbase]
  | call hop operands => exact callText_eq_iff.2 ⟨hop, rfl⟩

theorem forall₂_of_map_nodeLineBody {place : Nat}
    (h : (nodes.zipIdx place).map p.nodeLineBody = (nodes'.zipIdx place).map q.nodeLineBody) :
    List.Forall₂ Node.EqUpToNaN nodes nodes' := by
  induction nodes generalizing nodes' place with
  | nil =>
    cases nodes' with
    | nil => exact .nil
    | cons => cases h
  | cons node nodes ih =>
    cases nodes' with
    | nil => cases h
    | cons node' nodes' =>
      rw [List.zipIdx_cons, List.zipIdx_cons, List.map_cons, List.map_cons, List.cons.injEq] at h
      exact .cons (eqUpToNaN_of_nodeText_eq ((String.append_right_inj _).1 h.1)) (ih h.2)

theorem map_nodeLineBody_congr (hbase : p.baseArity = q.baseArity)
    (h : List.Forall₂ Node.EqUpToNaN nodes nodes') (place : Nat) :
    (nodes.zipIdx place).map p.nodeLineBody = (nodes'.zipIdx place).map q.nodeLineBody := by
  induction h generalizing place with
  | nil => rfl
  | cons hnode _ ih =>
    rw [List.zipIdx_cons, List.zipIdx_cons, List.map_cons, List.map_cons, ih, nodeLineBody,
      nodeLineBody, nodeText_congr hbase hnode]

/-! ## The whole text -/

theorem headerLine_inj (h : p.headerLine = q.headerLine) : p.arguments = q.arguments := by
  have hlist := (String.append_right_inj _).1 ((String.append_left_inj _).1 h)
  exact toList_referenceListText_injective (congrArg String.toList hlist)

theorem resultLine_inj (h : p.resultLine = q.resultLine) : p.result = q.result :=
  toList_referenceText_injective (congrArg String.toList ((String.append_right_inj _).1 h))

theorem orderLine_inj (h : p.orderLine = q.orderLine) : p.order = q.order :=
  toString_nat_injective ((String.append_right_inj _).1 h)

/-- The text of a well-formed program determines its arguments, its result, its base arity and its
nodes, but for the patterns of constants that are NaNs. -/
theorem text_eq_iff (hp : p.WellFormed) (hq : q.WellFormed) : p.text = q.text ↔
    p.arguments = q.arguments ∧ p.result = q.result ∧ p.baseArity = q.baseArity ∧
      List.Forall₂ Node.EqUpToNaN p.nodes q.nodes := by
  constructor
  · intro h
    obtain ⟨hheader, hrest⟩ := List.cons.inj (lines_eq_of_text_eq h)
    obtain ⟨hnodes, hframe⟩ := List.append_inj' hrest rfl
    obtain ⟨hresult, hframe⟩ := List.cons.inj hframe
    have harguments := headerLine_inj hheader
    have horder : p.order = q.order := orderLine_inj (List.cons.inj hframe).1
    -- The base arity is not written. Truncated subtraction would lose it, were it not bounded.
    have hbase : p.baseArity = q.baseArity := by
      have hple := hp.regular.baseArity_le
      have hqle := hq.regular.baseArity_le
      rw [order, order, harguments] at horder
      rw [harguments] at hple
      omega
    exact ⟨harguments, resultLine_inj hresult, hbase, forall₂_of_map_nodeLineBody hnodes⟩
  · rintro ⟨harguments, hresult, hbase, hnodes⟩
    rw [text_eq_join, text_eq_join, lines, lines, map_nodeLineBody_congr hbase hnodes,
      headerLine_eq, headerLine_eq, resultLine_eq, resultLine_eq, orderLine_eq, orderLine_eq, order,
      order, harguments, hresult, hbase]

/-- Two NaNs have the same text. A direction and a second base argument do not, although the lists
of arguments and the results are the same. -/
theorem text_of_nans_and_directions :
    let nan (bits : UInt64) : Program := ⟨.ofNodes #[.call (.constant ⟨bits⟩) []], [], 0, 0⟩
    let first (baseArity : Nat) : Program :=
      ⟨.ofNodes #[.argument 0, .argument 1], [0, 1], 0, baseArity⟩
    (nan 0x7FF8000000000000).text = (nan 0xFFF8000000000001).text ∧
      (first 1).text ≠ (first 2).text := by
  refine ⟨(text_eq_iff (by decide) (by decide)).2 ⟨rfl, rfl, rfl, ?_⟩, fun h => ?_⟩
  · exact .cons (.call (.constant (by decide) (by decide)) []) .nil
  · exact absurd ((text_eq_iff (by decide) (by decide)).1 h).2.2.1 (by decide)

end Program

end StagedTangent
