import StagedTangent.Proofs.Source.Parentheses
import StagedTangent.Proofs.Source.Ranges

/-!
# How tightly ranges fit

No range of an expression begins with a blank, and none ends with one, but for calls: the blanks
behind the closing parenthesis of a call belong to its range, and so to the range of every
expression that ends with the call. `Expr.slack` is what is too much in the range of an expression.
Without it the first and the last character of the range are no blanks (`parse_tight`), and an error
about a call points at the call and these blanks.
-/

namespace StagedTangent.Source

/-! ## Texts without blanks around them -/

/-- The first and the last character of a text are no blanks. -/
structure Trimmed (text : List Char) : Prop where
  first : ∃ d, text.head? = some d ∧ Text.isBlank d = false
  last : ∃ d, text.getLast? = some d ∧ Text.isBlank d = false

/-- A text has blanks behind it, and otherwise none around it. -/
structure EndsWith (slack text : List Char) : Prop where
  blank : ∀ d ∈ slack, Text.isBlank d = true
  exists_trimmed : ∃ core, Trimmed core ∧ text = core ++ slack

section Texts

variable {text front middle back slack slack' : List Char}

theorem Trimmed.of_forall (hne : text ≠ []) (h : ∀ d ∈ text, Text.isBlank d = false) :
    Trimmed text :=
  ⟨⟨text.head hne, List.head?_eq_some_head hne, h _ (List.head_mem hne)⟩,
    ⟨text.getLast hne, List.getLast?_eq_some_getLast hne, h _ (List.getLast_mem hne)⟩⟩

theorem Trimmed.join (h : Trimmed front) (h' : Trimmed back) (middle : List Char) :
    Trimmed (front ++ middle ++ back) := by
  obtain ⟨d, hd, hblank⟩ := h.first
  obtain ⟨d', hd', hblank'⟩ := h'.last
  refine ⟨⟨d, ?_, hblank⟩, ⟨d', ?_, hblank'⟩⟩
  · rw [List.append_assoc, List.head?_append, hd, Option.some_or]
  · rw [List.getLast?_append, hd', Option.some_or]

theorem Trimmed.endsWith (h : Trimmed text) : EndsWith [] text :=
  ⟨nofun, text, h, (List.append_nil _).symm⟩

theorem endsWith_sign {d : Char} (h : Text.isBlank d = false) : EndsWith [] [d] :=
  (Trimmed.of_forall (List.cons_ne_nil _ _) (List.forall_mem_singleton.2 h)).endsWith

/-- Blanks in the middle do not matter. -/
theorem EndsWith.join (h : EndsWith slack front) (h' : EndsWith slack' back) (middle : List Char) :
    EndsWith slack' (front ++ middle ++ back) := by
  obtain ⟨core, hcore, rfl⟩ := h.exists_trimmed
  obtain ⟨core', hcore', rfl⟩ := h'.exists_trimmed
  exact ⟨h'.blank, core ++ (slack ++ middle) ++ core', hcore.join hcore' _, by simp⟩

/-- There are no blanks around a text exactly if there are none behind it. -/
theorem EndsWith.trimmed_iff (h : EndsWith slack text) : Trimmed text ↔ slack = [] := by
  obtain ⟨core, hcore, rfl⟩ := h.exists_trimmed
  constructor
  · rintro ⟨-, d, hlast, hd⟩
    by_contra hne
    rw [List.getLast?_append_of_ne_nil _ hne, List.getLast?_eq_some_getLast hne] at hlast
    cases (h.blank _ (List.getLast_mem hne)).symm.trans (Option.some.inj hlast ▸ hd)
  · rintro rfl
    rwa [List.append_nil]

end Texts

/-! ## The slack of a range -/

/-- The text of a call that begins where a range begins, up to its closing parenthesis. -/
def Span.closed (cs : List Char) (span : Span) : List Char :=
  Source.closed 0 (cs.drop span.start)

/-- The blanks behind the closing parenthesis of a call. -/
def Span.slack (cs : List Char) (span : Span) : List Char :=
  (cs.drop (span.start + (span.closed cs).length)).takeWhile Text.isBlank

/-- The blanks behind the closing parenthesis of the call that an expression ends with, if it ends
with a call. -/
def Expr.slack (cs : List Char) : Expr → List Char
  | .numeral _ _ | .ident _ _ | .element _ _ _ => []
  | .negation inner _ => inner.slack cs
  | .binary _ _ right _ => right.slack cs
  | .call _ _ span => span.slack cs

/-- A range is that of a call of a function, and of the blanks behind the call. -/
structure Span.Calls (cs : List Char) (callee : String) (span : Span) : Prop where
  callee : callee.toList <+: span.closed cs
  closing : (span.closed cs).getLast? = some ')'
  chars : span.chars cs = span.closed cs ++ span.slack cs

/-- The range of an expression fits but for its slack, which only calls bring about. -/
structure Expr.Fits (cs : List Char) (e : Expr) : Prop where
  ends : EndsWith (e.slack cs) (e.span.chars cs)
  calls : ∀ callee args span, e = .call callee args span → span.Calls cs callee

/-! ## Stretches of a text -/

section Stretches

variable {cs letters : List Char} {c c₁ c₂ c₃ c' : Cursor}

/-- Two ranges, one behind the other, as one. -/
theorem Span.chars_append {a b n : Nat} (h : a ≤ b) (h' : b ≤ n) :
    Span.chars cs ⟨a, b⟩ ++ Span.chars cs ⟨b, n⟩ = Span.chars cs ⟨a, n⟩ := by
  have hdrop : cs.drop b = (cs.drop a).drop (b - a) := by
    rw [List.drop_drop]
    congr 1
    omega
  have hsum : n - a = b - a + (n - b) := by omega
  simp only [Span.chars, List.drop_take]
  rw [hdrop, hsum, List.take_add]

/-- Three ranges, one behind the other, as one. -/
theorem Span.chars_append₂ {a b m n : Nat} (h : a ≤ b) (h' : b ≤ m) (h'' : m ≤ n) :
    Span.chars cs ⟨a, n⟩ =
      Span.chars cs ⟨a, b⟩ ++ Span.chars cs ⟨b, m⟩ ++ Span.chars cs ⟨m, n⟩ := by
  rw [chars_append h h', chars_append (h.trans h') h'']

theorem Cursor.spells_skipBlanks (c : Cursor) :
    c.Spells (c.rest.takeWhile Text.isBlank) c.skipBlanks :=
  ⟨List.takeWhile_append_dropWhile.symm, rfl⟩

/-- The blanks up to a place with no blank. -/
theorem Blanks.spells_takeWhile (h : Blanks c c') (htight : c'.Tight) :
    c.Spells (c.rest.takeWhile Text.isBlank) c' := by
  have hspells := c.spells_skipBlanks
  rwa [Cursor.skipBlanks_eq h htight] at hspells

theorem calls_of_token (hletters : IsName letters) (hname : Token letters c c₁)
    (hopening : Token ['('] c₁ c₂) (hargs : c₂.Encloses c₃) (hclosing : Token [')'] c₃ c')
    (hc : c.In cs) (htight : c'.Tight) :
    Span.Calls cs (String.ofList letters) ⟨c.position, c'.position⟩ := by
  obtain ⟨d, hclosing, hblanks⟩ := hclosing
  obtain ⟨middle, hclosed, hspells⟩ := closed_call hletters hname hopening hargs hclosing
  have htext : Span.closed cs ⟨c.position, c'.position⟩ = letters ++ middle ++ [')'] := by
    rw [Span.closed, ← hc.rest, hclosed]
  have hslack : Span.slack cs ⟨c.position, c'.position⟩ = d.rest.takeWhile Text.isBlank := by
    rw [Span.slack, htext, ← hspells.position, ← (hspells.leads hc).stop.rest]
  refine ⟨?_, ?_, ?_⟩
  · rw [htext, String.toList_ofList, List.append_assoc]
    exact List.prefix_append _ _
  · rw [htext, List.getLast?_concat]
  · rw [htext, hslack]
    exact (hspells.append (hblanks.spells_takeWhile htight)).chars hc

end Stretches

/-! ## Expressions -/

/-- The ranges of whatever has a form at a place of a text fit, and so do those of its parts, if no
blank stands behind it. -/
def Tightens (cs : List Char) (F : Form Expr) : Prop :=
  ∀ ⦃c c' : Cursor⦄ ⦃e : Expr⦄, c.In cs → c'.Tight → F c e c' →
    ∀ part : Expr, part.Within e → part.Fits cs

section Forms

variable {cs letters : List Char} {c c₁ c' : Cursor} {e : Expr}

/-- An expression without parts and slack is written with letters of which none is a blank. -/
theorem fits_of_spells (hc : c.In cs) (hspan : e.span = ⟨c.position, c₁.position⟩)
    (hspells : c.Spells letters c₁) (hne : letters ≠ [])
    (hword : ∀ d ∈ letters, isWordPart d = true) (hslack : e.slack cs = [])
    (hcalls : ∀ callee args span, e ≠ .call callee args span) : e.Fits cs := by
  refine ⟨?_, fun callee args span h => absurd h (hcalls callee args span)⟩
  rw [hslack, hspan, hspells.chars hc]
  exact (Trimmed.of_forall hne fun d hd => isBlank_of_isWordPart (hword d hd)).endsWith

theorem fits_call {args : List Expr} {span : Span} {letters : List Char}
    (hletters : IsName letters) (h : span.Calls cs (String.ofList letters)) :
    (Expr.call (String.ofList letters) args span).Fits cs := by
  refine ⟨⟨fun d hd => List.mem_takeWhile_imp hd, span.closed cs, ⟨?_, ?_⟩, h.chars⟩, ?_⟩
  · obtain ⟨first, more, rfl, hfirst, -⟩ := hletters
    obtain ⟨rest, hrest⟩ := h.callee
    rw [String.toList_ofList] at hrest
    rw [← hrest]
    exact ⟨first, rfl, isBlank_of_isNamePart (isNamePart_iff.2 (.inl hfirst))⟩
  · exact ⟨')', h.closing, rfl⟩
  · rintro callee' args' span' ⟨⟩
    exact h

section Inner

variable {E : Form Expr} {es : List Expr}

theorem further_fit (hranges : Ranges cs E) (h : Tightens cs E) (hc : c.In cs) (hc' : c'.Tight)
    (hfurther : Further E (Token [',']) c es c') :
    ∀ e ∈ es, ∀ part : Expr, part.Within e → part.Fits cs := by
  induction hfurther with
  | last c => exact nofun
  | trailing => exact nofun
  | more hcomma he hmore ih =>
    have hplace := (hcomma.leads hc).stop
    have hbehind := hmore.meets (fun hcomma => hcomma.meets rfl) hc'
    exact List.forall_mem_cons.2 ⟨h hplace hbehind he, ih (hranges hplace he).stop hc'⟩

theorem items_fit (hranges : Ranges cs E) (h : Tightens cs E) (hc : c.In cs) (hc' : c'.Tight)
    (hitems : Items E (Token [',']) c es c') :
    ∀ e ∈ es, ∀ part : Expr, part.Within e → part.Fits cs := by
  cases hitems with
  | none c => exact nofun
  | some he hmore =>
    have hbehind := hmore.meets (fun hcomma => hcomma.meets rfl) hc'
    exact List.forall_mem_cons.2
      ⟨h hc hbehind he, further_fit hranges h (hranges hc he).stop hc' hmore⟩

theorem atom_tightens (hranges : Ranges cs E) (hbalances : Balances E) (h : Tightens cs E) :
    Tightens cs (Atom E) := by
  intro c c' e hc hc' hatom
  cases hatom with
  | numeral hnumeral _ hspells _ =>
    exact Expr.forall_within
      (fits_of_spells hc rfl hspells hnumeral.ne_nil hnumeral.isWordPart rfl nofun) nofun
  | ident hletters hspells _ =>
    exact Expr.forall_within
      (fits_of_spells hc rfl hspells hletters.ne_nil hletters.isWordPart rfl nofun) nofun
  | call hletters hname hopening hitems hclosing =>
    have hplace := (hopening.leads (hname.leads hc).stop).stop
    have hcalls := calls_of_token hletters hname hopening (items_balance hbalances hitems) hclosing
      hc hc'
    exact Expr.forall_within (fits_call hletters hcalls)
      (items_fit hranges h hplace (hclosing.meets rfl) hitems)
  | parenthesized hopening he hclosing => exact h (hopening.leads hc).stop (hclosing.meets rfl) he

end Inner

section Operand

variable {operand : Form Expr}

theorem indexed_tightens (hranges : Ranges cs operand) (h : Tightens cs operand) :
    Tightens cs (Indexed operand) := by
  intro c c' e hc hc' hindexed
  induction hindexed with
  | operand hoperand => exact h hc hc' hoperand
  | @element c c₁ c₂ c₃ c₄ c' base digits hbase hopening _ _ hplace hclosing _ ih =>
    -- Whatever slack the base has stands before the bracket, in the middle of the range.
    have hbelow := ih hc (hopening.meets rfl)
    have hlies := indexed_ranges hranges hc hbase
    have hfirst := hopening.leads hlies.stop
    have hsecond := hplace.leads hfirst.stop
    have hthird := hclosing.leads hsecond.stop
    have hbetween := hlies.le_stop.trans (hfirst.le.trans hsecond.le)
    refine Expr.forall_within ⟨?_, nofun⟩ (List.forall_mem_singleton.2 hbelow)
    change EndsWith [] (Span.chars cs ⟨base.span.start, c₄.position⟩)
    rw [Span.chars_append₂ hlies.lt.le hbetween hthird.le, hclosing.chars hsecond.stop]
    exact (hbelow base (.self base)).ends.join (endsWith_sign rfl) _

theorem negated_tightens (hranges : Ranges cs operand) (h : Tightens cs operand) :
    Tightens cs (Negated operand) := by
  intro c c' e hc hc' hnegated
  induction hnegated with
  | operand hoperand => exact h hc hc' hoperand
  | @negation c c₁ c' inner hsign hinner ih =>
    obtain ⟨d, hsign, hblanks⟩ := hsign
    have hfirst := hsign.leads hc
    have hsecond := hblanks.leads hfirst.stop
    have hbelow := ih hsecond.stop hc'
    have hlies := negated_ranges hranges hsecond.stop hinner
    refine Expr.forall_within ⟨?_, nofun⟩ (List.forall_mem_singleton.2 hbelow)
    change EndsWith (inner.slack cs) (Span.chars cs ⟨c.position, inner.span.stop⟩)
    rw [Span.chars_append₂ hfirst.le (hsecond.le.trans hlies.start_le) hlies.lt.le,
      hsign.chars hc]
    exact (endsWith_sign rfl).join (hbelow inner (.self inner)).ends _

theorem chain_tightens (hranges : Ranges cs operand) (h : Tightens cs operand)
    (first second : Operator) : Tightens cs (Chain first second operand) := by
  intro c c' e hc hc' hchain
  induction hchain with
  | operand hoperand => exact h hc hc' hoperand
  | @joined c c₁ c₂ c' op left right hleft _ hsymbol hright ih =>
    -- The slack of the left operand stands before the operator, so that of the right one remains.
    have hbelow := ih hc (hsymbol.meets (isBlank_symbol op))
    have hlies := chain_ranges hranges first second hc hleft
    have hbetween := hsymbol.leads hlies.stop
    have hbelow' := h hbetween.stop hc' hright
    have hlies' := hranges hbetween.stop hright
    refine Expr.forall_within ⟨?_, nofun⟩
      (List.forall_mem_cons.2 ⟨hbelow, List.forall_mem_singleton.2 hbelow'⟩)
    change EndsWith (right.slack cs) (Span.chars cs ⟨left.span.start, right.span.stop⟩)
    rw [Span.chars_append₂ hlies.lt.le (hlies.le_stop.trans (hbetween.le.trans hlies'.start_le))
      hlies'.lt.le]
    exact (hbelow left (.self left)).ends.join (hbelow' right (.self right)).ends _

end Operand

theorem grammar_tightens {E : Form Expr} (hranges : Ranges cs E) (hbalances : Balances E)
    (h : Tightens cs E) :
    Tightens cs (Chain .add .sub (Chain .mul .div (Negated (Indexed (Atom E))))) := by
  have hatom := atom_ranges hranges
  have hindexed := indexed_ranges hatom
  have hnegated := negated_ranges hindexed
  have hproduct := chain_ranges hnegated .mul .div
  have htightens := indexed_tightens hatom (atom_tightens hranges hbalances h)
  exact chain_tightens hproduct
    (chain_tightens hnegated (negated_tightens hindexed htightens) .mul .div) .add .sub

/-- The ranges of an expression fit. Where the expressions inside it are and that they close their
parentheses is known already. -/
theorem expression_tightens : Tightens cs Expression := by
  intro c c' e hc hc' h
  refine h.least (P := fun c e c' => c.In cs → c'.Tight → ∀ part : Expr, part.Within e →
    part.Fits cs) (fun hchain hc hc' => ?_) hc hc'
  refine grammar_tightens ?_ ?_ ?_ hc hc' hchain
  · exact fun _ _ _ hc he => expression_ranges hc he.1
  · exact fun _ _ _ he => expression_balances he.1
  · exact fun _ _ _ hc hc' he => he.2 hc hc'

end Forms

/-! ## Functions -/

/-- An error is about a call: the function is unknown, or it takes another number of arguments. -/
inductive RecordError.OfCall (callee : String) (span : Span) : RecordError → Prop
  | notAFunction : OfCall callee span (.notAFunction callee span)
  | argumentCount (expected found : Nat) :
    OfCall callee span (.argumentCount callee expected found span)

variable {callee : String} {span : Span} {error : RecordError}

theorem RecordError.OfCall.span? (h : error.OfCall callee span) : error.span? = some span := by
  cases h <;> rfl

/-- An error about a call is about one that stands in the expression. -/
theorem Expr.ErrorAt.exists_call_within {names : List String} {spot : Spot} {e : Expr}
    (h : e.ErrorAt names spot error) (hcall : error.OfCall callee span) :
    ∃ args, (Expr.call callee args span).Within e := by
  induction h with
  | own hown =>
    cases hown with
    | unknownName => cases hcall
    | notAFunction => cases hcall; exact ⟨_, .self _⟩
    | argumentCount => cases hcall; exact ⟨_, .self _⟩
  | operand hc _ ih =>
    obtain ⟨args, hwithin⟩ := ih hcall
    exact ⟨args, .child (mem_children_of_operands hc) hwithin⟩
  | shift => cases hcall

theorem Function.exists_call_within {f : Function} (h : f.toProgram = .error error)
    (hcall : error.OfCall callee span) : ∃ args, (Expr.call callee args span).Within f.body := by
  obtain ⟨_, herror⟩ := exists_errorAt h
  cases herror with
  | parameterless => cases hcall
  | repeatedParameter => cases hcall
  | body hbody => exact hbody.exists_call_within hcall

/-- The range of every expression of a function that is read begins and ends with characters that
are no blanks, exactly if no blank stands behind the closing parenthesis of the call that it ends
with. A function that is refused for a call is shown the call, from the first letter to the closing
parenthesis, and the blanks behind it. -/
theorem parse_tight {source : String} {f : Function} (h : parse source = .ok f) :
    (∀ e : Expr, e.Within f.body → e.Fits source.toList ∧
      (Trimmed (e.span.chars source.toList) ↔ e.slack source.toList = [])) ∧
      ∀ callee span error, error.OfCall callee span → f.toProgram = .error error →
        span.Calls source.toList callee ∧
          (error.diagnostic source).marked? source =
            some (span.closed source.toList ++ span.slack source.toList) ∧
          ((error.diagnostic source).marked? source = some (span.closed source.toList) ↔
            span.slack source.toList = []) := by
  obtain ⟨stop, hread⟩ := Parser.parse_eq_ok_iff.1 h
  obtain ⟨hdefinition, hend⟩ := Parser.definition_of_read hread
  obtain ⟨-, c, hc, hbody⟩ := definition_parts (Cursor.ofString_in source) hdefinition
  have hfits := expression_tightens hc (.of_rest_eq_nil hend) hbody
  refine ⟨fun e he => ⟨hfits e he, (hfits e he).ends.trimmed_iff⟩, ?_⟩
  intro callee span error hcall hf
  obtain ⟨args, hwithin⟩ := Function.exists_call_within hf hcall
  have hplaced : (Expr.call callee args span).Placed source.toList :=
    (expression_ranges hc hbody).placed _ hwithin
  have hcalls := (hfits _ hwithin).calls callee args span rfl
  have hmarked : (error.diagnostic source).marked? source =
      some (span.closed source.toList ++ span.slack source.toList) := by
    rw [RecordError.diagnostic, hcall.span?, ← hcalls.chars]
    exact Diagnostic.marked?_ofSpan _ _ hplaced.nonempty hplaced.within
  refine ⟨hcalls, hmarked, ?_⟩
  rw [hmarked, Option.some.injEq, List.append_right_eq_self]

/-- A call of an unknown function is selected with its inner parentheses and nothing behind it. -/
theorem parse_tight_unknown :
    let f : Function := ⟨"f", [⟨"x", ⟨5, 6⟩⟩],
      .binary .sub (.ident "x" ⟨10, 11⟩) (.call "tan" [.ident "x" ⟨19, 20⟩] ⟨14, 22⟩) ⟨10, 22⟩,
      ⟨0, 22⟩⟩
    let error : RecordError := .notAFunction "tan" ⟨14, 22⟩
    parse "fn f(x) = x - tan((x))" = .ok f ∧ f.toProgram = .error error ∧
      (error.diagnostic "fn f(x) = x - tan((x))").marked? "fn f(x) = x - tan((x))" =
        some "tan((x))".toList := by
  intro f error
  have hread : Parser.function.read (.ofString "fn f(x) = x - tan((x))") = some (f, ⟨22, []⟩) := by
    with_unfolding_all rfl
  have hparse := Parser.parse_eq_ok_iff.2 ⟨_, hread⟩
  have hrefused : f.toProgram = .error error := rfl
  have hcalls := (parse_tight hparse).2 "tan" ⟨14, 22⟩ error .notAFunction hrefused
  exact ⟨hparse, hrefused, hcalls.2.2.2 (by decide)⟩

/-- The blank behind a call belongs to the range of the call, to that of the negation that ends with
it, and to what is selected if the function is unknown. -/
theorem parse_loose_call :
    let call : Expr := .call "tan" [.ident "x" ⟨15, 16⟩] ⟨11, 18⟩
    let f : Function := ⟨"f", [⟨"x", ⟨5, 6⟩⟩],
      .binary .add (.negation call ⟨10, 18⟩) (.ident "x" ⟨20, 21⟩) ⟨10, 21⟩, ⟨0, 21⟩⟩
    let error : RecordError := .notAFunction "tan" ⟨11, 18⟩
    parse "fn f(x) = -tan(x) + x" = .ok f ∧
      ¬ Trimmed (call.span.chars "fn f(x) = -tan(x) + x".toList) ∧
      ¬ Trimmed ((Expr.negation call ⟨10, 18⟩).span.chars "fn f(x) = -tan(x) + x".toList) ∧
      f.toProgram = .error error ∧
      (error.diagnostic "fn f(x) = -tan(x) + x").marked? "fn f(x) = -tan(x) + x" =
        some "tan(x) ".toList := by
  intro call f error
  have hread : Parser.function.read (.ofString "fn f(x) = -tan(x) + x") = some (f, ⟨21, []⟩) := by
    with_unfolding_all rfl
  have hloose : ∀ text : List Char, text.getLast? = some ' ' → ¬ Trimmed text := by
    rintro text hlast ⟨-, d, hd, hblank⟩
    obtain rfl := Option.some.inj (hlast.symm.trans hd)
    cases hblank
  refine ⟨Parser.parse_eq_ok_iff.2 ⟨_, hread⟩, hloose _ (by decide), hloose _ (by decide), ?_, ?_⟩
  · rfl
  · exact Diagnostic.marked?_ofSpan "fn f(x) = -tan(x) + x" error.message (by decide) (by decide)

end StagedTangent.Source
