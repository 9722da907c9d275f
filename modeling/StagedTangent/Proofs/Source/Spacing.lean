import StagedTangent.Proofs.Source.Lexeme

/-!
# Expressions however they are spaced

A form of expressions is made of lexemes, and where the same lexemes stand with other blanks between
them the form is found again, with the same expression up to ranges. `Carries` states this of two
forms. It passes from the expressions inside a form to the form, so it holds of expressions
(`expression_carries`).
-/

namespace StagedTangent.Source

mutual

/-- An expression without the ranges of its parts. -/
def Expr.bare : Expr → Expr
  | .numeral value _ => .numeral value ⟨0, 0⟩
  | .ident name _ => .ident name ⟨0, 0⟩
  | .negation inner _ => .negation inner.bare ⟨0, 0⟩
  | .binary op left right _ => .binary op left.bare right.bare ⟨0, 0⟩
  | .element base place _ => .element base.bare place ⟨0, 0⟩
  | .call callee args _ => .call callee (Expr.bareAll args) ⟨0, 0⟩

def Expr.bareAll : List Expr → List Expr
  | [] => []
  | e :: es => e.bare :: Expr.bareAll es

end

variable {α β : Type} {c c₁ c' : Cursor} {words words' : List (List Char)} {letters : List Char}

/-! ## The lexemes of a form -/

/-- The lexemes between two places. -/
structure Covers (words : List (List Char)) (c c' : Cursor) : Prop where
  lexical : ∀ letters ∈ words, IsLexeme letters
  lexemes_eq : lexemes c.rest = words ++ lexemes c'.rest

theorem Covers.nil (c : Cursor) : Covers [] c c := ⟨nofun, rfl⟩

theorem Blanks.covers (h : Blanks c c') : Covers [] c c' := ⟨nofun, h.lexemes_eq⟩

theorem Covers.cons (h : Covers [letters] c c₁) (h' : Covers words c₁ c') :
    Covers (letters :: words) c c' := by
  refine ⟨List.forall_mem_cons.2 ⟨h.lexical _ List.mem_cons_self, h'.lexical⟩, ?_⟩
  rw [h.lexemes_eq, h'.lexemes_eq]
  rfl

theorem Covers.append (h : Covers words c c₁) (h' : Covers words' c₁ c') :
    Covers (words ++ words') c c' := by
  refine ⟨List.forall_mem_append.2 ⟨h.lexical, h'.lexical⟩, ?_⟩
  rw [h.lexemes_eq, h'.lexemes_eq, List.append_assoc]

theorem Token.covers_sign {d : Char} (h : Token [d] c c') (hd : isSign d = true) :
    Covers [[d]] c c' := by
  obtain ⟨hword, hblank⟩ := isWordPart_of_isSign hd
  exact ⟨List.forall_mem_singleton.2 (.inr (.inr ⟨d, hd, rfl⟩)), h.lexemes_of_sign hword hblank⟩

theorem Token.covers_name (h : Token letters c c') (hname : IsName letters) (hc' : EndsWord c') :
    Covers [letters] c c' :=
  ⟨List.forall_mem_singleton.2 (.inl hname), h.lexemes_of_word hname.ne_nil hname.isWordPart hc'⟩

theorem Token.covers_numeral {r : ℚ} (h : Token letters c c') (hnumeral : Numeral letters r)
    (hc' : EndsWord c') : Covers [letters] c c' :=
  ⟨List.forall_mem_singleton.2 (.inr (.inl ⟨r, hnumeral⟩)),
    h.lexemes_of_word hnumeral.ne_nil hnumeral.isWordPart hc'⟩

/-- Lexemes have a form with a value, however they are spaced. -/
def Admits (F : Form α) (bare : α → β) (words : List (List Char)) (b : β) : Prop :=
  ∀ ⦃d : Cursor⦄ ⦃more : List (List Char)⦄, d.Tight → lexemes d.rest = words ++ more →
    ∃ a d', F d a d' ∧ bare a = b ∧ d'.Tight ∧ lexemes d'.rest = more

/-- Whatever has one form is made of lexemes that have another, however they are spaced. -/
def Carries (F G : Form α) (bare : α → β) : Prop :=
  ∀ ⦃c c' : Cursor⦄ ⦃a : α⦄, F c a c' → EndsWord c' →
    ∃ words, Covers words c c' ∧ Admits G bare words (bare a)

theorem Carries.imp {F G G' : Form α} {bare : α → β} (h : Carries F G bare)
    (himp : ∀ {d a d'}, G d a d' → G' d a d') : Carries F G' bare := by
  intro c c' a ha hc'
  obtain ⟨words, hwords, hadmits⟩ := h ha hc'
  refine ⟨words, hwords, fun d more hd hmore => ?_⟩
  obtain ⟨b, d', hb, hrest⟩ := hadmits hd hmore
  exact ⟨b, d', himp hb, hrest⟩

/-! ## Expressions -/

section Inner

variable {E E' : Form Expr}

theorem further_carries (h : Carries E E' Expr.bare) :
    Carries (Further E (Token [','])) (Further E' (Token [','])) Expr.bareAll := by
  intro c c' es hfurther hc'
  induction hfurther with
  | last c => exact ⟨[], .nil c, fun d more hd hmore => ⟨[], d, .last d, rfl, hd, hmore⟩⟩
  | trailing hcomma =>
    refine ⟨[[',']], hcomma.covers_sign rfl, fun d more hd hmore => ?_⟩
    obtain ⟨d', htoken, hd', hmore'⟩ := exists_token_of_lexemes hd hmore
    exact ⟨[], d', .trailing htoken, rfl, hd', hmore'⟩
  | more hcomma he hes ih =>
    have hbehind := hes.meets (fun hcomma => hcomma.meets rfl) hc'
    obtain ⟨first, hfirst, hadmits⟩ := h he hbehind
    obtain ⟨rest, hrest, hadmits'⟩ := ih hc'
    refine ⟨[','] :: (first ++ rest), (hcomma.covers_sign rfl).cons (hfirst.append hrest), ?_⟩
    intro d more hd hmore
    rw [List.cons_append, List.append_assoc] at hmore
    obtain ⟨d₁, htoken, hd₁, hmore₁⟩ := exists_token_of_lexemes hd hmore
    obtain ⟨e', d₂, he', hbare, hd₂, hmore₂⟩ := hadmits hd₁ hmore₁
    obtain ⟨es', d', hes', hbares, hd', hmore'⟩ := hadmits' hd₂ hmore₂
    exact ⟨e' :: es', d', .more htoken he' hes', congrArg₂ List.cons hbare hbares, hd', hmore'⟩

theorem items_carries (h : Carries E E' Expr.bare) :
    Carries (Items E (Token [','])) (Items E' (Token [','])) Expr.bareAll := by
  intro c c' es hitems hc'
  cases hitems with
  | none c => exact ⟨[], .nil c, fun d more hd hmore => ⟨[], d, .none d, rfl, hd, hmore⟩⟩
  | some he hes =>
    have hbehind := hes.meets (fun hcomma => hcomma.meets rfl) hc'
    obtain ⟨first, hfirst, hadmits⟩ := h he hbehind
    obtain ⟨rest, hrest, hadmits'⟩ := further_carries h hes hc'
    refine ⟨first ++ rest, hfirst.append hrest, fun d more hd hmore => ?_⟩
    rw [List.append_assoc] at hmore
    obtain ⟨e', d₁, he', hbare, hd₁, hmore₁⟩ := hadmits hd hmore
    obtain ⟨es', d', hes', hbares, hd', hmore'⟩ := hadmits' hd₁ hmore₁
    exact ⟨e' :: es', d', .some he' hes', congrArg₂ List.cons hbare hbares, hd', hmore'⟩

theorem atom_carries (h : Carries E E' Expr.bare) : Carries (Atom E) (Atom E') Expr.bare := by
  intro c c' e hatom hc'
  cases hatom with
  | @numeral _ c₁ _ letters r x hnumeral hx hspells hblanks =>
    have htoken : Token letters c c' := ⟨c₁, hspells, hblanks⟩
    refine ⟨[letters], htoken.covers_numeral hnumeral hc', fun d more hd hmore => ?_⟩
    obtain ⟨d', ⟨d₁, hspells, hblanks⟩, hd', hmore'⟩ := exists_token_of_lexemes hd hmore
    exact ⟨_, d', .numeral hnumeral hx hspells hblanks, rfl, hd', hmore'⟩
  | @ident _ c₁ _ letters hletters hspells hblanks =>
    have htoken : Token letters c c' := ⟨c₁, hspells, hblanks⟩
    refine ⟨[letters], htoken.covers_name hletters hc', fun d more hd hmore => ?_⟩
    obtain ⟨d', ⟨d₁, hspells, hblanks⟩, hd', hmore'⟩ := exists_token_of_lexemes hd hmore
    exact ⟨_, d', .ident hletters hspells hblanks, rfl, hd', hmore'⟩
  | @call _ c₁ c₂ c₃ _ letters args hletters hname hopening hitems hclosing =>
    have hfirst := hname.covers_name hletters (hopening.meets rfl)
    obtain ⟨words, hwords, hadmits⟩ := items_carries h hitems (hclosing.meets rfl)
    have hrest := (hopening.covers_sign rfl).cons (hwords.append (hclosing.covers_sign rfl))
    refine ⟨letters :: ['('] :: (words ++ [[')']]), hfirst.cons hrest, fun d more hd hmore => ?_⟩
    rw [List.cons_append, List.cons_append, List.append_assoc] at hmore
    obtain ⟨d₁, hname, hd₁, hmore₁⟩ := exists_token_of_lexemes hd hmore
    obtain ⟨d₂, hopening, hd₂, hmore₂⟩ := exists_token_of_lexemes hd₁ hmore₁
    obtain ⟨args', d₃, hargs, hbare, hd₃, hmore₃⟩ := hadmits hd₂ hmore₂
    obtain ⟨d', hclosing, hd', hmore'⟩ := exists_token_of_lexemes hd₃ hmore₃
    refine ⟨_, d', .call hletters hname hopening hargs hclosing, ?_, hd', hmore'⟩
    rw [Expr.bare, Expr.bare, hbare]
  | parenthesized hopening he hclosing =>
    obtain ⟨words, hwords, hadmits⟩ := h he (hclosing.meets rfl)
    refine ⟨['('] :: (words ++ [[')']]), (hopening.covers_sign rfl).cons
      (hwords.append (hclosing.covers_sign rfl)), fun d more hd hmore => ?_⟩
    rw [List.cons_append, List.append_assoc] at hmore
    obtain ⟨d₁, hopening, hd₁, hmore₁⟩ := exists_token_of_lexemes hd hmore
    obtain ⟨e', d₂, he', hbare, hd₂, hmore₂⟩ := hadmits hd₁ hmore₁
    obtain ⟨d', hclosing, hd', hmore'⟩ := exists_token_of_lexemes hd₂ hmore₂
    exact ⟨e', d', .parenthesized hopening he' hclosing, hbare, hd', hmore'⟩

end Inner

section Operand

variable {F F' : Form Expr}

theorem indexed_carries (h : Carries F F' Expr.bare) :
    Carries (Indexed F) (Indexed F') Expr.bare := by
  intro c c' e hindexed hc'
  induction hindexed with
  | operand hoperand => exact h.imp .operand hoperand hc'
  | @element c c₁ c₂ c₃ c₄ c' base digits _ hopening hdigits hlt hplace hclosing hblanks ih =>
    obtain ⟨words, hwords, hadmits⟩ := ih (hopening.meets rfl)
    have hplace := hplace.covers_numeral (.whole hdigits) (hclosing.meets rfl)
    have hclosing : Token [']'] c₃ c' := ⟨c₄, hclosing, hblanks⟩
    have hindex := (hopening.covers_sign rfl).cons (hplace.cons (hclosing.covers_sign rfl))
    refine ⟨words ++ ['['] :: digits :: [[']']], hwords.append hindex, fun d more hd hmore => ?_⟩
    rw [List.append_assoc] at hmore
    obtain ⟨base', d₁, hbase, hbare, hd₁, hmore₁⟩ := hadmits hd hmore
    obtain ⟨d₂, hopening, hd₂, hmore₂⟩ := exists_token_of_lexemes hd₁ hmore₁
    obtain ⟨d₃, hplace, hd₃, hmore₃⟩ := exists_token_of_lexemes hd₂ hmore₂
    obtain ⟨d', ⟨d₄, hclosing, hblanks⟩, hd', hmore'⟩ := exists_token_of_lexemes hd₃ hmore₃
    refine ⟨_, d', .element hbase hopening hdigits hlt hplace hclosing hblanks, ?_, hd', hmore'⟩
    rw [Expr.bare, Expr.bare, hbare]

theorem negated_carries (h : Carries F F' Expr.bare) :
    Carries (Negated F) (Negated F') Expr.bare := by
  intro c c' e hnegated hc'
  induction hnegated with
  | operand hoperand => exact h.imp .operand hoperand hc'
  | negation hsign _ ih =>
    obtain ⟨words, hwords, hadmits⟩ := ih hc'
    refine ⟨['-'] :: words, (hsign.covers_sign rfl).cons hwords, fun d more hd hmore => ?_⟩
    obtain ⟨d₁, hsign, hd₁, hmore₁⟩ := exists_token_of_lexemes hd hmore
    obtain ⟨inner', d', hinner, hbare, hd', hmore'⟩ := hadmits hd₁ hmore₁
    refine ⟨_, d', .negation hsign hinner, ?_, hd', hmore'⟩
    rw [Expr.bare, Expr.bare, hbare]

theorem chain_carries (h : Carries F F' Expr.bare) (first second : Operator) :
    Carries (Chain first second F) (Chain first second F') Expr.bare := by
  intro c c' e hchain hc'
  induction hchain with
  | operand hoperand => exact h.imp .operand hoperand hc'
  | @joined c c₁ c₂ c' op left right _ hop hsymbol hright ih =>
    have hsign : isSign op.symbol = true := by cases op <;> rfl
    obtain ⟨words, hwords, hadmits⟩ := ih (hsymbol.meets (isWordPart_of_isSign hsign).1)
    obtain ⟨words', hwords', hadmits'⟩ := h hright hc'
    refine ⟨words ++ [op.symbol] :: words', hwords.append ((hsymbol.covers_sign hsign).cons hwords'),
      fun d more hd hmore => ?_⟩
    rw [List.append_assoc] at hmore
    obtain ⟨left', d₁, hleft, hbare, hd₁, hmore₁⟩ := hadmits hd hmore
    obtain ⟨d₂, hsymbol, hd₂, hmore₂⟩ := exists_token_of_lexemes hd₁ hmore₁
    obtain ⟨right', d', hright, hbare', hd', hmore'⟩ := hadmits' hd₂ hmore₂
    refine ⟨_, d', .joined hleft hop hsymbol hright, ?_, hd', hmore'⟩
    rw [Expr.bare, Expr.bare, hbare, hbare']

end Operand

theorem expression_carries : Carries Expression Expression Expr.bare := by
  have hgrammar : ∀ {P : Form Expr}, Carries P Expression Expr.bare →
      Carries (Chain .add .sub (Chain .mul .div (Negated (Indexed (Atom P))))) Expression Expr.bare :=
    fun h => (chain_carries (chain_carries (negated_carries (indexed_carries (atom_carries h)))
      _ _) _ _).imp .mk
  intro c c' e h
  exact h.least (P := fun c e c' => EndsWord c' →
    ∃ words, Covers words c c' ∧ Admits Expression Expr.bare words e.bare)
      fun hchain hc' => hgrammar (fun _ _ _ he => he.2) hchain hc'

end StagedTangent.Source
