import StagedTangent.Proofs.Source.Lexeme

/-!
# Parentheses

Which parenthesis closes another shows on the text alone: it is the one that leaves as many open as
there were before. No expression closes a parenthesis that it has not opened
(`expression_balances`), so the parenthesis that closes the first one of a call is the one behind
its arguments (`closed_call`).
-/

namespace StagedTangent.Source

/-! ## The text up to a closing parenthesis -/

/-- A text up to the parenthesis that closes its first one, `depth` being open in front of it. -/
def closed : Nat → List Char → List Char
  | _, [] => []
  | depth, d :: cs =>
    if d = '(' then d :: closed (depth + 1) cs
    else if d = ')' then d :: if depth ≤ 1 then [] else closed (depth - 1) cs
    else d :: closed depth cs

/-- A character that is no parenthesis. -/
def IsInert (d : Char) : Prop := d ≠ '(' ∧ d ≠ ')'

/-- A text closes the parentheses that it opens, and no others. -/
def Balanced (text : List Char) : Prop :=
  ∀ depth rest, closed (depth + 1) (text ++ rest) = text ++ closed (depth + 1) rest

variable {text text' : List Char} {d : Char}

/-- Without parentheses as many are open behind a text as in front of it. -/
theorem closed_append_of_inert (h : ∀ d ∈ text, IsInert d) (depth : Nat) (rest : List Char) :
    closed depth (text ++ rest) = text ++ closed depth rest := by
  induction text with
  | nil => rfl
  | cons d text ih =>
    obtain ⟨⟨hopening, hclosing⟩, hmore⟩ := List.forall_mem_cons.1 h
    rw [List.cons_append, closed, if_neg hopening, if_neg hclosing, ih hmore, List.cons_append]

theorem Balanced.of_inert (h : ∀ d ∈ text, IsInert d) : Balanced text :=
  fun depth => closed_append_of_inert h (depth + 1)

theorem Balanced.nil : Balanced [] := fun _ _ => rfl

theorem Balanced.append (h : Balanced text) (h' : Balanced text') : Balanced (text ++ text') := by
  intro depth rest
  rw [List.append_assoc, h, h', List.append_assoc]

theorem closed_opening (depth : Nat) (rest : List Char) :
    closed depth ('(' :: rest) = '(' :: closed (depth + 1) rest := by
  rw [closed, if_pos rfl]

theorem Balanced.parenthesized (h : Balanced text) : Balanced ('(' :: (text ++ [')'])) := by
  intro depth rest
  rw [List.cons_append, closed_opening, List.append_assoc, h, List.singleton_append, closed,
    if_neg (by decide), if_pos rfl, if_neg (by omega), Nat.add_sub_cancel]
  simp

/-- The first parenthesis is closed behind what is balanced. -/
theorem Balanced.closed_parenthesized (h : Balanced text) (rest : List Char) :
    closed 0 ('(' :: (text ++ ')' :: rest)) = '(' :: (text ++ [')']) := by
  rw [closed_opening, h, closed, if_neg (by decide), if_pos rfl, if_pos (by omega)]

/-! ## Balanced stretches -/

theorem isInert_of_isWordPart (h : isWordPart d = true) : IsInert d := by
  constructor <;> rintro rfl <;> cases h

theorem isInert_of_word {letters : List Char} (h : ∀ d ∈ letters, isWordPart d = true) :
    ∀ d ∈ letters, IsInert d := fun d hd => isInert_of_isWordPart (h d hd)

theorem isInert_of_isBlank (h : Text.isBlank d = true) : IsInert d := by
  constructor <;> rintro rfl <;> cases h

/-- What stands between two places is balanced. -/
def Cursor.Encloses (c c' : Cursor) : Prop := ∃ text, c.Spells text c' ∧ Balanced text

/-- Whatever has a form is balanced. -/
def Balances {α : Type} (F : Form α) : Prop := ∀ ⦃c c' : Cursor⦄ ⦃a : α⦄, F c a c' → c.Encloses c'

section Places

variable {c c₁ c₂ c₃ c' : Cursor} {letters : List Char}

theorem Cursor.Encloses.refl (c : Cursor) : c.Encloses c := ⟨[], .nil c, .nil⟩

theorem Cursor.Encloses.trans (h : c.Encloses c₁) (h' : c₁.Encloses c') : c.Encloses c' := by
  obtain ⟨text, hspells, hbalanced⟩ := h
  obtain ⟨text', hspells', hbalanced'⟩ := h'
  exact ⟨text ++ text', hspells.append hspells', hbalanced.append hbalanced'⟩

theorem Cursor.Spells.encloses (h : c.Spells letters c') (hinert : ∀ d ∈ letters, IsInert d) :
    c.Encloses c' := ⟨letters, h, .of_inert hinert⟩

theorem Blanks.encloses (h : Blanks c c') : c.Encloses c' := by
  obtain ⟨blanks, hblanks, hspells⟩ := h
  exact hspells.encloses fun d hd => isInert_of_isBlank (hblanks d hd)

theorem Token.encloses (h : Token letters c c') (hinert : ∀ d ∈ letters, IsInert d) :
    c.Encloses c' := by
  obtain ⟨c₁, hspells, hblanks⟩ := h
  exact (hspells.encloses hinert).trans hblanks.encloses

theorem Token.encloses_sign (h : Token [d] c c') (hinert : IsInert d) : c.Encloses c' :=
  h.encloses (List.forall_mem_singleton.2 hinert)

/-- What stands between two parentheses that belong together. -/
theorem Cursor.Encloses.parenthesized (hopening : Token ['('] c c₁) (h : c₁.Encloses c₂)
    (hclosing : Token [')'] c₂ c') : c.Encloses c' := by
  obtain ⟨d, hopening, hblanks⟩ := hopening
  obtain ⟨text, hspells, hbalanced⟩ := hblanks.encloses.trans h
  obtain ⟨d', hclosing, hblanks'⟩ := hclosing
  have hwhole : c.Encloses d' :=
    ⟨'(' :: (text ++ [')']), hopening.append (hspells.append hclosing), hbalanced.parenthesized⟩
  exact hwhole.trans hblanks'.encloses

/-- The text of a call goes up to the parenthesis behind its arguments. -/
theorem closed_call (hletters : IsName letters) (hname : Token letters c c₁)
    (hopening : Token ['('] c₁ c₂) (hargs : c₂.Encloses c₃) (hclosing : c₃.Spells [')'] c') :
    ∃ middle, closed 0 c.rest = letters ++ middle ++ [')'] ∧
      c.Spells (letters ++ middle ++ [')']) c' := by
  obtain ⟨d, hname, blanks, hblanks, hbehind⟩ := hname
  obtain ⟨d', hopening, hblanks'⟩ := hopening
  obtain ⟨text, hspells, hbalanced⟩ := hblanks'.encloses.trans hargs
  have hwhole := (hname.append hbehind).append (hopening.append (hspells.append hclosing))
  have hinert : ∀ d ∈ letters ++ blanks, IsInert d := List.forall_mem_append.2
    ⟨isInert_of_word hletters.isWordPart, fun d hd => isInert_of_isBlank (hblanks d hd)⟩
  have hclosed : closed 0 c.rest = letters ++ blanks ++ ('(' :: (text ++ [')'])) := by
    have hrest : ['('] ++ (text ++ [')']) ++ c'.rest = '(' :: (text ++ ')' :: c'.rest) := by simp
    rw [hwhole.rest, List.append_assoc, closed_append_of_inert hinert, hrest,
      hbalanced.closed_parenthesized]
  have hform : letters ++ blanks ++ ('(' :: (text ++ [')'])) =
      letters ++ (blanks ++ '(' :: text) ++ [')'] := by simp
  exact ⟨blanks ++ '(' :: text, hclosed.trans hform, hform ▸ hwhole⟩

end Places

/-! ## Balanced expressions -/

section Inner

variable {E : Form Expr}

theorem further_balances (h : Balances E) : Balances (Further E (Token [','])) := by
  intro c c' es hfurther
  have hinert : IsInert ',' := ⟨by decide, by decide⟩
  induction hfurther with
  | last c => exact .refl c
  | trailing hcomma => exact hcomma.encloses_sign hinert
  | more hcomma he _ ih => exact (hcomma.encloses_sign hinert).trans ((h he).trans ih)

theorem items_balance (h : Balances E) : Balances (Items E (Token [','])) := by
  intro c c' es hitems
  cases hitems with
  | none c => exact .refl c
  | some he hmore => exact (h he).trans (further_balances h hmore)

theorem atom_balances (h : Balances E) : Balances (Atom E) := by
  intro c c' e hatom
  cases hatom with
  | numeral hnumeral _ hspells hblanks =>
    exact Token.encloses ⟨_, hspells, hblanks⟩ (isInert_of_word hnumeral.isWordPart)
  | ident hletters hspells hblanks =>
    exact Token.encloses ⟨_, hspells, hblanks⟩ (isInert_of_word hletters.isWordPart)
  | call hletters hname hopening hitems hclosing =>
    have hname := hname.encloses (isInert_of_word hletters.isWordPart)
    exact hname.trans (.parenthesized hopening (items_balance h hitems) hclosing)
  | parenthesized hopening he hclosing => exact .parenthesized hopening (h he) hclosing

end Inner

section Operand

variable {operand : Form Expr}

theorem indexed_balances (h : Balances operand) : Balances (Indexed operand) := by
  intro c c' e hindexed
  induction hindexed with
  | operand hoperand => exact h hoperand
  | element _ hopening hdigits _ hplace hclosing hblanks ih =>
    have hplace := hplace.encloses
      (isInert_of_word fun d hd => isWordPart_of_isDigit (hdigits.isDigit d hd))
    have hclosing := Token.encloses_sign ⟨_, hclosing, hblanks⟩ ⟨by decide, by decide⟩
    exact ih.trans ((hopening.encloses_sign ⟨by decide, by decide⟩).trans (hplace.trans hclosing))

theorem negated_balances (h : Balances operand) : Balances (Negated operand) := by
  intro c c' e hnegated
  induction hnegated with
  | operand hoperand => exact h hoperand
  | negation hsign _ ih => exact (hsign.encloses_sign ⟨by decide, by decide⟩).trans ih

theorem chain_balances (h : Balances operand) (first second : Operator) :
    Balances (Chain first second operand) := by
  intro c c' e hchain
  induction hchain with
  | operand hoperand => exact h hoperand
  | @joined c c₁ c₂ c' op left right _ _ hsymbol hright ih =>
    have hinert : IsInert op.symbol := by cases op <;> exact ⟨by decide, by decide⟩
    exact ih.trans ((hsymbol.encloses_sign hinert).trans (h hright))

end Operand

theorem expression_balances : Balances Expression := by
  intro c c' e h
  refine h.least (P := fun c _ c' => c.Encloses c') fun hchain => ?_
  exact chain_balances (chain_balances
    (negated_balances (indexed_balances (atom_balances fun _ _ _ he => he.2))) _ _) _ _ hchain

end StagedTangent.Source
