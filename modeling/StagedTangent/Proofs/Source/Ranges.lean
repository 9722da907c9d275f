import StagedTangent.Proofs.Source.Admissible
import StagedTangent.Proofs.Source.Completeness
import StagedTangent.Proofs.Source.Location
import StagedTangent.Proofs.Source.Occurrence

/-!
# Ranges in syntax trees

Every part of a syntax tree carries the range of characters that it was read from. `Expr.Placed`
says how such a range fits the text and the ranges around it. It holds of whatever has a form of
expressions if it holds of the expressions inside, so of all parts of a function that is read
(`parse_ranges`), and an error about a name points at just that name.
-/

namespace StagedTangent.Source

/-- The characters in a range of a text. -/
def Span.chars (cs : List Char) (span : Span) : List Char := (cs.take span.stop).drop span.start

namespace Expr

/-- The characters of a numeral are a literal of its number, those of a variable are its name, and
those of a call begin with the name of the function. -/
def WrittenAs : Expr → List Char → Prop
  | .numeral value _, letters => ∃ r, Numeral letters r ∧ value.IsNearest r
  | .ident name _, letters => letters = name.toList
  | .call callee _ _, letters => callee.toList <+: letters
  | _, _ => True

/-- The range of an expression is not empty and within the text. It contains those of its children,
which are apart from each other and in order. -/
structure Placed (cs : List Char) (e : Expr) : Prop where
  nonempty : e.span.start < e.span.stop
  within : e.span.stop ≤ cs.length
  contains : ∀ c ∈ e.children, e.span.start ≤ c.span.start ∧ c.span.stop ≤ e.span.stop
  ordered : e.children.Pairwise fun c d => c.span.stop ≤ d.span.start
  written : e.WrittenAs (e.span.chars cs)

end Expr

/-! ## Places of a text -/

namespace Cursor

variable {c c₁ c' : Cursor} {cs letters : List Char}

/-- A place of a text. -/
structure In (c : Cursor) (cs : List Char) : Prop where
  rest : c.rest = cs.drop c.position
  le : c.position ≤ cs.length

theorem ofString_in (source : String) : (ofString source).In source.toList :=
  ⟨rfl, Nat.zero_le _⟩

/-- Characters of a text lead from one place to another. -/
structure Leads (cs : List Char) (c c' : Cursor) : Prop where
  le : c.position ≤ c'.position
  stop : c'.In cs

theorem Leads.trans {c'' : Cursor} (h : Leads cs c c') (h' : Leads cs c' c'') : Leads cs c c'' :=
  ⟨h.le.trans h'.le, h'.stop⟩

theorem Spells.leads (h : c.Spells letters c') (hc : c.In cs) : Leads cs c c' := by
  have hlength : letters.length ≤ (cs.drop c.position).length := by
    rw [← hc.rest, h.rest, List.length_append]
    exact Nat.le_add_right _ _
  rw [List.length_drop] at hlength
  have hle := hc.le
  refine ⟨h.position ▸ Nat.le_add_right _ _, ?_, ?_⟩
  · rw [h.position, ← List.drop_drop, ← hc.rest, h.rest, List.drop_left]
  · rw [h.position]
    omega

/-- Letters between two places are the characters of the range. -/
theorem Spells.chars (h : c.Spells letters c') (hc : c.In cs) :
    Span.chars cs ⟨c.position, c'.position⟩ = letters := by
  rw [Span.chars]
  dsimp only
  rw [h.position, List.drop_take, Nat.add_sub_cancel_left, ← hc.rest, h.rest, List.take_left]

/-- Characters that go on behind some letters begin with them. -/
theorem Spells.prefix_chars (h : c.Spells letters c₁) (hc : c.In cs) {stop : ℕ}
    (hstop : c₁.position ≤ stop) : letters <+: Span.chars cs ⟨c.position, stop⟩ := by
  rw [← h.chars hc]
  exact (List.take_prefix_take_left hstop).drop _

end Cursor

section Places

variable {c c' : Cursor} {cs letters : List Char}

theorem Blanks.leads (h : Blanks c c') (hc : c.In cs) : Cursor.Leads cs c c' := by
  obtain ⟨_, -, hspells⟩ := h
  exact hspells.leads hc

theorem Token.leads (h : Token letters c c') (hc : c.In cs) : Cursor.Leads cs c c' := by
  obtain ⟨c₁, hspells, hblanks⟩ := h
  have hfirst := hspells.leads hc
  exact hfirst.trans (hblanks.leads hfirst.stop)

end Places

/-! ## Ranges of forms -/

/-- An expression has its range between two places of a text, and so has every part of it. -/
structure Lies (cs : List Char) (c : Cursor) (e : Expr) (c' : Cursor) : Prop where
  stop : c'.In cs
  start_le : c.position ≤ e.span.start
  le_stop : e.span.stop ≤ c'.position
  placed : ∀ part : Expr, part.Within e → part.Placed cs

/-- Whatever has a form at a place of a text has its range there. -/
def Ranges (cs : List Char) (F : Form Expr) : Prop :=
  ∀ ⦃c c' : Cursor⦄ ⦃e : Expr⦄, c.In cs → F c e c' → Lies cs c e c'

variable {cs : List Char} {c c' : Cursor} {e : Expr}

theorem Lies.leads (h : Lies cs c e c') : Cursor.Leads cs c c' :=
  ⟨h.start_le.trans ((h.placed e (.self e)).nonempty.le.trans h.le_stop), h.stop⟩

theorem Lies.lt (h : Lies cs c e c') : e.span.start < e.span.stop := (h.placed e (.self e)).nonempty

/-- What holds of an expression and of all parts of its children holds of all its parts. -/
theorem Expr.forall_within {P : Expr → Prop} (he : P e)
    (hchildren : ∀ child ∈ e.children, ∀ part : Expr, part.Within child → P part) :
    ∀ part : Expr, part.Within e → P part := by
  intro part hpart
  rcases Expr.within_iff.1 hpart with rfl | ⟨child, hchild, hpart⟩
  · exact he
  · exact hchildren child hchild part hpart

/-- An expression has its range if it has it itself and its children have theirs. -/
theorem Lies.of_children (hstop : c'.In cs) (hstart : c.position ≤ e.span.start)
    (hle : e.span.stop ≤ c'.position) (he : e.Placed cs)
    (hchildren : ∀ child ∈ e.children, ∀ part : Expr, part.Within child → part.Placed cs) :
    Lies cs c e c' :=
  ⟨hstop, hstart, hle, Expr.forall_within he hchildren⟩

/-- Expressions have their ranges between two places of a text, one behind the other. -/
structure AllLie (cs : List Char) (c : Cursor) (es : List Expr) (c' : Cursor) : Prop where
  leads : Cursor.Leads cs c c'
  between : ∀ e ∈ es, c.position ≤ e.span.start ∧ e.span.stop ≤ c'.position
  ordered : es.Pairwise fun e e' => e.span.stop ≤ e'.span.start
  placed : ∀ e ∈ es, ∀ part : Expr, part.Within e → part.Placed cs

theorem AllLie.nil (h : Cursor.Leads cs c c') : AllLie cs c [] c' := ⟨h, nofun, .nil, nofun⟩

theorem AllLie.cons {c₁ c₂ : Cursor} {es : List Expr} (h : Cursor.Leads cs c c₁)
    (he : Lies cs c₁ e c₂) (hes : AllLie cs c₂ es c') : AllLie cs c (e :: es) c' := by
  have hle := he.leads.le
  refine ⟨h.trans (he.leads.trans hes.leads), ?_, ?_, ?_⟩
  · refine List.forall_mem_cons.2 ⟨⟨h.le.trans he.start_le, he.le_stop.trans hes.leads.le⟩, ?_⟩
    intro e' he'
    obtain ⟨hstart, hstop⟩ := hes.between e' he'
    exact ⟨h.le.trans (hle.trans hstart), hstop⟩
  · exact .cons (fun e' he' => he.le_stop.trans (hes.between e' he').1) hes.ordered
  · exact List.forall_mem_cons.2 ⟨he.placed, hes.placed⟩

theorem further_lie {E : Form Expr} (hE : Ranges cs E) {es : List Expr} (hc : c.In cs)
    (h : Further E (Token [',']) c es c') : AllLie cs c es c' := by
  induction h with
  | last c => exact .nil ⟨le_rfl, hc⟩
  | trailing hcomma => exact .nil (hcomma.leads hc)
  | more hcomma he _ ih =>
    have hleads := hcomma.leads hc
    have he := hE hleads.stop he
    exact .cons hleads he (ih he.stop)

theorem items_lie {E : Form Expr} (hE : Ranges cs E) {es : List Expr} (hc : c.In cs)
    (h : Items E (Token [',']) c es c') : AllLie cs c es c' := by
  cases h with
  | none c => exact .nil ⟨le_rfl, hc⟩
  | some he hmore =>
    have he := hE hc he
    exact .cons ⟨le_rfl, hc⟩ he (further_lie hE he.stop hmore)

/-- An expression without parts is written with the letters of its range. -/
theorem lies_of_spells {c₁ : Cursor} {letters : List Char} (hchildren : e.children = [])
    (hspan : e.span = ⟨c.position, c₁.position⟩) (hne : letters ≠ [])
    (hspells : c.Spells letters c₁) (hblanks : Blanks c₁ c') (hc : c.In cs)
    (hwritten : e.WrittenAs letters) : Lies cs c e c' := by
  have hfirst := hspells.leads hc
  have hrest := hblanks.leads hfirst.stop
  have hplaced : e.Placed cs := by
    refine ⟨?_, ?_, ?_, ?_, ?_⟩
    · rw [hspan, hspells.position]
      exact Nat.lt_add_of_pos_right (List.length_pos_iff.2 hne)
    · rw [hspan]
      exact hfirst.stop.le
    · rw [hchildren]
      exact nofun
    · rw [hchildren]
      exact .nil
    · rw [hspan, hspells.chars hc]
      exact hwritten
  refine .of_children hrest.stop ?_ ?_ hplaced ?_
  · rw [hspan]
  · rw [hspan]
    exact hrest.le
  · rw [hchildren]
    exact nofun

/-- The range of a call goes from its name to what comes behind it. -/
theorem lies_call {c₁ c₂ c₃ : Cursor} {letters : List Char} {args : List Expr}
    (hletters : IsName letters) (hname : Token letters c c₁) (hopening : Token ['('] c₁ c₂)
    (hargs : AllLie cs c₂ args c₃) (hclosing : Token [')'] c₃ c') (hc : c.In cs) :
    Lies cs c (.call (String.ofList letters) args ⟨c.position, c'.position⟩) c' := by
  obtain ⟨d, hspells, hblanks⟩ := hname
  have hd := hspells.leads hc
  have hfirst := hblanks.leads hd.stop
  have hsecond := hopening.leads hfirst.stop
  have hlast := hclosing.leads hargs.leads.stop
  have hbefore : c.position ≤ c₂.position := hd.le.trans (hfirst.le.trans hsecond.le)
  have hname : d.position ≤ c'.position :=
    hfirst.le.trans (hsecond.le.trans (hargs.leads.le.trans hlast.le))
  have hplaced : (Expr.call (String.ofList letters) args ⟨c.position, c'.position⟩).Placed cs := by
    refine ⟨?_, hlast.stop.le, ?_, hargs.ordered, ?_⟩
    · have hlength := List.length_pos_iff.2 hletters.ne_nil
      rw [hspells.position] at hname
      exact Nat.lt_of_lt_of_le (Nat.lt_add_of_pos_right hlength) hname
    · intro arg harg
      obtain ⟨hstart, hstop⟩ := hargs.between arg harg
      exact ⟨hbefore.trans hstart, hstop.trans hlast.le⟩
    · change (String.ofList letters).toList <+: _
      rw [String.toList_ofList]
      exact hspells.prefix_chars hc hname
  exact .of_children hlast.stop le_rfl le_rfl hplaced hargs.placed

theorem atom_ranges {E : Form Expr} (hE : Ranges cs E) : Ranges cs (Atom E) := by
  intro c c' e hc h
  cases h with
  | numeral hnumeral hx hspells hblanks =>
    exact lies_of_spells rfl rfl hnumeral.ne_nil hspells hblanks hc ⟨_, hnumeral, hx⟩
  | ident hletters hspells hblanks =>
    exact lies_of_spells rfl rfl hletters.ne_nil hspells hblanks hc String.toList_ofList.symm
  | call hletters hname hopening hitems hclosing =>
    have hplace := (hopening.leads (hname.leads hc).stop).stop
    exact lies_call hletters hname hopening (items_lie hE hplace hitems) hclosing hc
  | parenthesized hopening he hclosing =>
    have hfirst := hopening.leads hc
    have he := hE hfirst.stop he
    have hlast := hclosing.leads he.stop
    exact ⟨hlast.stop, hfirst.le.trans he.start_le, he.le_stop.trans hlast.le, he.placed⟩

section Operand

variable {operand : Form Expr}

theorem indexed_ranges (h : Ranges cs operand) : Ranges cs (Indexed operand) := by
  intro c c' e hc hindexed
  induction hindexed with
  | operand hoperand => exact h hc hoperand
  | @element c c₁ c₂ c₃ c₄ c' base digits _ hopening _ _ hplace hclosing hblanks ih =>
    have hbase := ih hc
    have hfirst := hopening.leads hbase.stop
    have hsecond := hplace.leads hfirst.stop
    have hthird := hclosing.leads hsecond.stop
    have hlast := hblanks.leads hthird.stop
    have hle : base.span.stop ≤ c₄.position :=
      hbase.le_stop.trans (hfirst.le.trans (hsecond.le.trans hthird.le))
    refine .of_children hlast.stop hbase.start_le hlast.le
      ⟨hbase.lt.trans_le hle, hthird.stop.le, ?_, List.pairwise_singleton _ _, trivial⟩ ?_
    · exact List.forall_mem_singleton.2 ⟨le_rfl, hle⟩
    · exact List.forall_mem_singleton.2 hbase.placed

theorem negated_ranges (h : Ranges cs operand) : Ranges cs (Negated operand) := by
  intro c c' e hc hnegated
  induction hnegated with
  | operand hoperand => exact h hc hoperand
  | @negation c c₁ c' inner hsign _ ih =>
    have hfirst := hsign.leads hc
    have hinner := ih hfirst.stop
    have hle : c.position ≤ inner.span.start := hfirst.le.trans hinner.start_le
    have hwithin := (hinner.placed inner (.self inner)).within
    refine .of_children hinner.stop le_rfl hinner.le_stop
      ⟨hle.trans_lt hinner.lt, hwithin, ?_, List.pairwise_singleton _ _, trivial⟩ ?_
    · exact List.forall_mem_singleton.2 ⟨hle, le_rfl⟩
    · exact List.forall_mem_singleton.2 hinner.placed

theorem chain_ranges (h : Ranges cs operand) (first second : Operator) :
    Ranges cs (Chain first second operand) := by
  intro c c' e hc hchain
  induction hchain with
  | operand hoperand => exact h hc hoperand
  | @joined c c₁ c₂ c' op left right _ _ hsymbol hright ih =>
    have hleft := ih hc
    have hbetween := hsymbol.leads hleft.stop
    have hright := h hbetween.stop hright
    have hapart : left.span.stop ≤ right.span.start :=
      hleft.le_stop.trans (hbetween.le.trans hright.start_le)
    have hwithin := (hright.placed right (.self right)).within
    have hlt := hleft.lt
    have hlt' := hright.lt
    refine .of_children hright.stop hleft.start_le hright.le_stop ⟨?_, hwithin, ?_, ?_, trivial⟩ ?_
    · exact hlt.trans_le (hapart.trans hlt'.le)
    · exact List.forall_mem_cons.2 ⟨⟨le_rfl, hapart.trans hlt'.le⟩,
        List.forall_mem_singleton.2 ⟨hlt.le.trans hapart, le_rfl⟩⟩
    · exact List.pairwise_pair.2 hapart
    · exact List.forall_mem_cons.2 ⟨hleft.placed, List.forall_mem_singleton.2 hright.placed⟩

end Operand

theorem expression_ranges : Ranges cs Expression := by
  intro c c' e hc h
  refine h.least (P := fun c e c' => c.In cs → Lies cs c e c') (fun hchain hc => ?_) hc
  exact chain_ranges (chain_ranges (negated_ranges (indexed_ranges
    (atom_ranges fun _ _ _ hc he => he.2 hc))) _ _) _ _ hc hchain

/-! ## Parameters -/

/-- The range of a parameter is that of its name. -/
structure Param.Placed (cs : List Char) (param : Param) : Prop where
  nonempty : param.span.start < param.span.stop
  within : param.span.stop ≤ cs.length
  written : param.span.chars cs = param.name.toList

theorem parameter_placed {param : Param} (hc : c.In cs) (h : Parameter c param c') :
    param.Placed cs ∧ c'.In cs := by
  cases h with
  | @mk _ c₁ c₂ _ letters hblanks hletters hspells hblanks' =>
    have hc₁ := (hblanks.leads hc).stop
    have hname := hspells.leads hc₁
    refine ⟨⟨?_, hname.stop.le, ?_⟩, (hblanks'.leads hname.stop).stop⟩
    · exact hspells.position ▸ Nat.lt_add_of_pos_right (List.length_pos_iff.2 hletters.ne_nil)
    · exact (hspells.chars hc₁).trans String.toList_ofList.symm

theorem further_placed {params : List Param} (hc : c.In cs)
    (h : Further Parameter (fun d d' => d.Spells [','] d') c params c') :
    (∀ param ∈ params, param.Placed cs) ∧ c'.In cs := by
  induction h with
  | last c => exact ⟨nofun, hc⟩
  | trailing hcomma => exact ⟨nofun, (hcomma.leads hc).stop⟩
  | more hcomma hparam _ ih =>
    obtain ⟨hparam, hplace⟩ := parameter_placed (hcomma.leads hc).stop hparam
    obtain ⟨hmore, hstop⟩ := ih hplace
    exact ⟨List.forall_mem_cons.2 ⟨hparam, hmore⟩, hstop⟩

theorem items_placed {params : List Param} (hc : c.In cs)
    (h : Items Parameter (fun d d' => d.Spells [','] d') c params c') :
    (∀ param ∈ params, param.Placed cs) ∧ c'.In cs := by
  cases h with
  | none c => exact ⟨nofun, hc⟩
  | some hparam hmore =>
    obtain ⟨hparam, hplace⟩ := parameter_placed hc hparam
    obtain ⟨hmore, hstop⟩ := further_placed hplace hmore
    exact ⟨List.forall_mem_cons.2 ⟨hparam, hmore⟩, hstop⟩

/-- The parameters of a function have their ranges in their places, and the body is an expression
behind them. -/
theorem definition_parts {f : Function} (hc : c.In cs) (h : Definition c f c') :
    (∀ param ∈ f.params, param.Placed cs) ∧ ∃ d : Cursor, d.In cs ∧ Expression d f.body c' := by
  cases h with
  | mk hblanks hspells _ hblanks' _ hname hopening hitems hclosing hequals hbody =>
    have hkeyword := ((hspells.leads (hblanks.leads hc).stop)).stop
    have hopen := (hname.leads (hblanks'.leads hkeyword).stop).stop
    obtain ⟨hparams, hplace⟩ := items_placed (hopening.leads hopen).stop hitems
    have hbegin := (hequals.leads (hclosing.leads hplace).stop).stop
    exact ⟨hparams, _, hbegin, hbody⟩

/-- The ranges of the parameters and of all parts of the body of a function are in their places. -/
theorem definition_ranges {f : Function} (hc : c.In cs) (h : Definition c f c') :
    (∀ param ∈ f.params, param.Placed cs) ∧ ∀ e : Expr, e.Within f.body → e.Placed cs := by
  obtain ⟨hparams, d, hbegin, hbody⟩ := definition_parts hc h
  exact ⟨hparams, (expression_ranges hbegin hbody).placed⟩

/-! ## Errors about names -/

theorem Expr.mem_children_of_operands {e c : Expr} {i : ℕ} (h : e.operands[i]? = some c) :
    c ∈ e.children := by
  have hmem := List.mem_of_getElem? h
  unfold operands at hmem
  split at hmem
  · split at hmem
    · exact List.mem_of_mem_take hmem
    · exact hmem
  · exact hmem

/-- An unknown name is one of an expression's variables, with its range. -/
theorem Expr.ErrorAt.within {names : List String} {spot : Spot} {name : String} {span : Span}
    {e : Expr} (h : e.ErrorAt names spot (.unknownName name span)) :
    (Expr.ident name span).Within e := by
  generalize herror : RecordError.unknownName name span = error at h
  induction h with
  | own hown =>
    cases hown with
    | unknownName => cases herror; exact .self _
    | _ => cases herror
  | operand hc _ ih => exact .child (mem_children_of_operands hc) (ih herror)
  | shift => cases herror

theorem Expr.ErrorAt.ne_repeatedParameter {names : List String} {spot : Spot} {error : RecordError}
    {e : Expr} (h : e.ErrorAt names spot error) (name : String) (span : Span) :
    error ≠ .repeatedParameter name span := by
  induction h with
  | own hown => cases hown <;> exact nofun
  | operand _ _ ih => exact ih
  | shift => exact nofun

/-- What a function is refused for is wrong with it. -/
theorem Function.exists_errorAt {f : Function} {error : RecordError} (h : f.toProgram = .error error) :
    ∃ spot, f.ErrorAt spot error := by
  have hfinds := f.finds_toProgram
  rw [h] at hfinds
  obtain ⟨spot, hfirst⟩ := hfinds
  exact ⟨spot, hfirst.holds⟩

/-- A function is refused for an unknown name where a variable of the body has this name. -/
theorem Function.ident_within_of_unknownName {f : Function} {name : String} {span : Span}
    (h : f.toProgram = .error (.unknownName name span)) : (Expr.ident name span).Within f.body := by
  obtain ⟨_, _ | _ | hbody⟩ := exists_errorAt h
  exact hbody.within

/-- A function is refused for a repeated parameter where one of them has this name. -/
theorem Function.mem_params_of_repeatedParameter {f : Function} {name : String} {span : Span}
    (h : f.toProgram = .error (.repeatedParameter name span)) : ⟨name, span⟩ ∈ f.params := by
  obtain ⟨_, herror⟩ := exists_errorAt h
  generalize hrepeated : RecordError.repeatedParameter name span = error at herror
  cases herror with
  | parameterless => cases hrepeated
  | repeatedParameter hparam _ =>
    cases hrepeated
    exact List.mem_of_getElem? hparam
  | body hbody => exact absurd hrepeated.symm (hbody.ne_repeatedParameter name span)

/-- The characters of a source text that a diagnostic's range of bytes selects. -/
def Diagnostic.marked? (source : String) (d : Diagnostic) : Option (List Char) :=
  slice? source.toList d.span.start d.span.stop

/-- A diagnostic of a range of characters selects these characters. -/
theorem Diagnostic.marked?_ofSpan (source message : String) {span : Span}
    (hlt : span.start < span.stop) (hle : span.stop ≤ source.toList.length) :
    (ofSpan source message span).marked? source = some (span.chars source.toList) := by
  have hstart := hlt.le.trans hle
  rw [marked?, ofSpan_span message hstart hle]
  exact slice?_byteOffset hstart hlt.le

/-- The parts of a function that is read have their ranges in their places, and its parameters too.
If it is refused for a name, the diagnostic selects just this name. -/
theorem parse_ranges {source : String} {f : Function} (h : parse source = .ok f) :
    (∀ e : Expr, e.Within f.body → e.Placed source.toList) ∧
      (∀ param ∈ f.params, param.Placed source.toList) ∧
        ∀ name span error, error = .unknownName name span ∨ error = .repeatedParameter name span →
          f.toProgram = .error error →
            (error.diagnostic source).marked? source = some name.toList := by
  obtain ⟨stop, hread⟩ := Parser.parse_eq_ok_iff.1 h
  obtain ⟨hdefinition, -⟩ := Parser.definition_of_read hread
  obtain ⟨hparams, hbody⟩ := definition_ranges (Cursor.ofString_in source) hdefinition
  refine ⟨hbody, hparams, fun name span error herror hrefused => ?_⟩
  rcases herror with rfl | rfl
  · have hplaced := hbody _ (Function.ident_within_of_unknownName hrefused)
    exact (Diagnostic.marked?_ofSpan _ _ hplaced.nonempty hplaced.within).trans
      (congrArg some hplaced.written)
  · have hplaced := hparams _ (Function.mem_params_of_repeatedParameter hrefused)
    exact (Diagnostic.marked?_ofSpan _ _ hplaced.nonempty hplaced.within).trans
      (congrArg some hplaced.written)

/-- The unknown name of a function is selected, behind characters of more than one byte. -/
theorem parse_ranges_unknown :
    let f : Function := ⟨"f", [⟨"x", ⟨5, 6⟩⟩],
      .binary .add (.ident "x" ⟨10, 11⟩) (.ident "yy" ⟨14, 16⟩) ⟨10, 16⟩, ⟨0, 16⟩⟩
    let error : RecordError := .unknownName "yy" ⟨14, 16⟩
    parse "fn f(x) =\u2003x + yy" = .ok f ∧ f.toProgram = .error error ∧
      (error.diagnostic "fn f(x) =\u2003x + yy").marked? "fn f(x) =\u2003x + yy" = some ['y', 'y'] := by
  intro f error
  have hread : Parser.function.read (.ofString "fn f(x) =\u2003x + yy") = some (f, ⟨16, []⟩) := by
    with_unfolding_all rfl
  have hparse := Parser.parse_eq_ok_iff.2 ⟨_, hread⟩
  have hrefused : f.toProgram = .error error := rfl
  exact ⟨hparse, hrefused, (parse_ranges hparse).2.2 _ _ _ (.inl rfl) hrefused⟩

end StagedTangent.Source
