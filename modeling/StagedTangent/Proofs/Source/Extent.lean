import StagedTangent.Proofs.Source.Parts

/-!
# Where forms begin and how far they reach

A stretch of a form of expressions begins with a character that is typical of the form, and ends no
earlier than it begins. Where expressions stand inside a form, both follow from the same of those
expressions. For expressions themselves the latter takes that they are the least form that the
grammar admits.
-/

namespace StagedTangent.Source

variable {α : Type}

/-! ## Classes of characters -/

theorem isNameStart_iff {d : Char} : isNameStart d = true ↔
    (65 ≤ d.toNat ∧ d.toNat ≤ 90 ∨ 97 ≤ d.toNat ∧ d.toNat ≤ 122) ∨ d.toNat = 95 := by
  change (decide ('A'.val ≤ d.val ∧ d.val ≤ 'Z'.val) ||
    (decide ('a'.val ≤ d.val) && decide (d.val ≤ 'z'.val)) || decide (d = '_')) = true ↔ _
  simp only [Bool.or_eq_true, Bool.and_eq_true, decide_eq_true_eq, UInt32.le_iff_toNat_le,
    Char.toNat, Char.ext_iff, ← UInt32.toNat_inj]
  rfl

theorem isDigit_iff {d : Char} : d.isDigit = true ↔ 48 ≤ d.toNat ∧ d.toNat ≤ 57 := by
  simp only [Char.isDigit, Bool.and_eq_true, decide_eq_true_eq, UInt32.le_iff_toNat_le, ge_iff_le,
    Char.toNat]
  rfl

theorem isNamePart_iff {d : Char} :
    isNamePart d = true ↔ isNameStart d = true ∨ d.isDigit = true := by
  rw [isNamePart, isNameStart, Char.isAlphanum, ← Bool.or_eq_true]
  cases d.isAlpha <;> cases d.isDigit <;> simp

theorem isDigit_of_isNameStart {d : Char} (h : isNameStart d = true) : d.isDigit = false := by
  rw [← Bool.not_eq_true, isDigit_iff]
  rw [isNameStart_iff] at h
  omega

theorem isBlank_of_isNamePart {d : Char} (h : isNamePart d = true) : Text.isBlank d = false := by
  rw [isNamePart_iff, isNameStart_iff, isDigit_iff] at h
  simp only [Text.isBlank, Bool.or_eq_false_iff, decide_eq_false_iff_not]
  omega

theorem isNamePart_of_isBlank {d : Char} (h : Text.isBlank d = true) : isNamePart d = false :=
  eq_false_of_ne_true fun hpart => by cases h.symm.trans (isBlank_of_isNamePart hpart)

theorem isDigit_of_isNamePart {d : Char} (h : isNamePart d = false) : d.isDigit = false :=
  eq_false_of_ne_true fun hdigit => by
    cases h.symm.trans (isNamePart_iff.2 (.inr hdigit))

theorem isBlank_symbol (op : Operator) : Text.isBlank op.symbol = false := by cases op <;> rfl

/-! ## Beginnings -/

namespace Cursor

/-- A character of a class stands at a place. -/
def Shows (c : Cursor) (start : Char → Prop) : Prop := ∃ d rest, c.rest = d :: rest ∧ start d

variable {c c' : Cursor} {start : Char → Prop}

theorem Shows.imp (h : c.Shows start) {start' : Char → Prop} (himp : ∀ d, start d → start' d) :
    c.Shows start' := by
  obtain ⟨d, rest, hrest, hd⟩ := h
  exact ⟨d, rest, hrest, himp d hd⟩

theorem Shows.meets (h : c.Shows start) {ok : Char → Prop} (himp : ∀ d, start d → ok d) :
    c.Meets ok := by
  obtain ⟨d, rest, hrest, hd⟩ := h
  intro d' rest' hrest'
  cases hrest.symm.trans hrest'
  exact himp d hd

theorem Spells.shows {d : Char} {more : List Char} (h : c.Spells (d :: more) c') (hd : start d) :
    c.Shows start := ⟨d, _, h.rest, hd⟩

end Cursor

section Tokens

variable {c c' : Cursor} {letters : List Char}

theorem Cursor.Spells.token (h : c.Spells letters c') : Token letters c c' := ⟨c', h, c'.blanks_self⟩

theorem Token.shows {d : Char} {start : Char → Prop} (h : Token (d :: letters) c c')
    (hd : start d) : c.Shows start := by
  obtain ⟨c₁, hspells, -⟩ := h
  exact hspells.shows hd

theorem Token.meets {d : Char} {ok : Char → Prop} (h : Token (d :: letters) c c') (hd : ok d) :
    c.Meets ok := by
  obtain ⟨c₁, hspells, -⟩ := h
  exact hspells.meets hd

theorem IsName.ne_nil (h : IsName letters) : letters ≠ [] := by
  obtain ⟨first, more, rfl, -⟩ := h
  exact List.cons_ne_nil _ _

theorem IsWhole.ne_nil (h : IsWhole letters) : letters ≠ [] := by
  rcases h with rfl | ⟨first, more, rfl, -⟩ <;> exact List.cons_ne_nil _ _

theorem Numeral.ne_nil {r : ℚ} (h : Numeral letters r) : letters ≠ [] := by
  cases h with
  | whole hdigits => exact hdigits.ne_nil
  | point hdigits _ _ => exact List.append_ne_nil_of_left_ne_nil hdigits.ne_nil _

theorem IsName.shows (h : IsName letters) (hspells : c.Spells letters c') :
    c.Shows fun d => isNameStart d = true := by
  obtain ⟨first, more, rfl, hfirst, -⟩ := h
  exact hspells.shows hfirst

theorem IsName.tight (h : IsName letters) (hspells : c.Spells letters c') : c.Tight :=
  (h.shows hspells).meets fun _ hd => isBlank_of_isNamePart (isNamePart_iff.2 (.inl hd))

theorem IsWhole.shows (h : IsWhole letters) (hspells : c.Spells letters c') :
    c.Shows fun d => d.isDigit = true := by
  rcases h with rfl | ⟨first, more, rfl, hfirst, -⟩
  · exact hspells.shows rfl
  · rw [isNonzeroDigit, Bool.and_eq_true] at hfirst
    exact hspells.shows hfirst.1

theorem IsWhole.tight (h : IsWhole letters) (hspells : c.Spells letters c') : c.Tight :=
  (h.shows hspells).meets fun _ hd => isBlank_of_isNamePart (isNamePart_iff.2 (.inr hd))

theorem Numeral.shows {r : ℚ} (h : Numeral letters r) (hspells : c.Spells letters c') :
    c.Shows fun d => d.isDigit = true := by
  cases h with
  | whole hdigits => exact hdigits.shows hspells
  | point hdigits _ _ =>
    obtain ⟨c₁, hspells, -⟩ := hspells.of_append
    exact hdigits.shows hspells

end Tokens

/-- Whatever has a form begins with a character of a class. -/
def Begins (F : Form α) (start : Char → Prop) : Prop :=
  ∀ ⦃c c' : Cursor⦄ ⦃a : α⦄, F c a c' → c.Shows start

/-- An atom begins with a digit, the first character of a name, or a parenthesis. -/
def StartsAtom (d : Char) : Prop := d.isDigit = true ∨ isNameStart d = true ∨ d = '('

/-- A minus sign may stand before an atom. -/
def StartsExpression (d : Char) : Prop := StartsAtom d ∨ d = '-'

theorem StartsAtom.isBlank {d : Char} (h : StartsAtom d) : Text.isBlank d = false := by
  rcases h with h | h | rfl
  · exact isBlank_of_isNamePart (isNamePart_iff.2 (.inr h))
  · exact isBlank_of_isNamePart (isNamePart_iff.2 (.inl h))
  · rfl

theorem StartsAtom.ne_minus {d : Char} (h : StartsAtom d) : d ≠ '-' := by
  rintro rfl
  rcases h with h | h | h <;> cases h

theorem StartsExpression.isBlank {d : Char} (h : StartsExpression d) : Text.isBlank d = false := by
  rcases h with h | rfl
  · exact h.isBlank
  · rfl

theorem not_startsExpression_closing : ¬ StartsExpression ')' := by
  rintro ((h | h | h) | h) <;> cases h

theorem atom_begins (E : Form Expr) : Begins (Atom E) StartsAtom := by
  intro c c' e h
  cases h with
  | numeral hnumeral _ hspells _ => exact (hnumeral.shows hspells).imp fun _ hd => .inl hd
  | ident hletters hspells _ => exact (hletters.shows hspells).imp fun _ hd => .inr (.inl hd)
  | call hletters hname _ _ _ =>
    obtain ⟨_, hspells, -⟩ := hname
    exact (hletters.shows hspells).imp fun _ hd => .inr (.inl hd)
  | parenthesized hopening _ _ => exact hopening.shows (.inr (.inr rfl))

section Operand

variable {operand : Form Expr} {start : Char → Prop}

theorem indexed_begins (h : Begins operand start) : Begins (Indexed operand) start := by
  intro c c' e hindexed
  induction hindexed with
  | operand hoperand => exact h hoperand
  | element _ _ _ _ _ _ _ ih => exact ih

theorem negated_begins (h : Begins operand start) :
    Begins (Negated operand) fun d => start d ∨ d = '-' := by
  intro c c' e hnegated
  cases hnegated with
  | operand hoperand => exact (h hoperand).imp fun _ => .inl
  | negation hsign _ => exact hsign.shows (.inr rfl)

theorem chain_begins (h : Begins operand start) (first second : Operator) :
    Begins (Chain first second operand) start := by
  intro c c' e hchain
  induction hchain with
  | operand hoperand => exact h hoperand
  | joined _ _ _ _ ih => exact ih

theorem joining_begins (first second : Operator) :
    Begins (Joining first second operand) fun d => d = first.symbol ∨ d = second.symbol := by
  rintro c c' - ⟨hop, hsymbol, -⟩
  exact hsymbol.shows (hop.imp (congrArg Operator.symbol) (congrArg Operator.symbol))

end Operand

theorem bracketed_begins : Begins Bracketed (· = '[') := by
  rintro c c' - ⟨hopening, -⟩
  exact hopening.shows rfl

theorem sign_begins : Begins Sign (· = '-') := by
  rintro c c' - ⟨hsign⟩
  exact hsign.shows rfl

theorem expression_begins : Begins Expression StartsExpression := by
  intro c c' e h
  cases h with
  | mk h =>
    exact chain_begins (chain_begins (negated_begins (indexed_begins (atom_begins _))) _ _) _ _ h

/-! ## Lengths -/

theorem Blanks.length_le {c c' : Cursor} (h : Blanks c c') : c'.rest.length ≤ c.rest.length := by
  obtain ⟨blanks, -, hspells⟩ := h
  rw [hspells.length_eq]
  exact Nat.le_add_left _ _

theorem Token.length_le {letters : List Char} {c c' : Cursor} (h : Token letters c c') :
    letters.length + c'.rest.length ≤ c.rest.length := by
  obtain ⟨c₁, hspells, hblanks⟩ := h
  rw [hspells.length_eq]
  exact Nat.add_le_add_left hblanks.length_le _

theorem Token.length_lt {d : Char} {letters : List Char} {c c' : Cursor}
    (h : Token (d :: letters) c c') : c'.rest.length < c.rest.length := by
  have hle := h.length_le
  rw [List.length_cons] at hle
  omega

/-- Whatever has a form ends no earlier than it begins. -/
def Advances (F : Form α) : Prop :=
  ∀ ⦃c c' : Cursor⦄ ⦃a : α⦄, F c a c' → c'.rest.length ≤ c.rest.length

theorem Further.length_le {F : Form α} {comma : Cursor → Cursor → Prop} {c c' : Cursor}
    {as : List α} (hF : Advances F)
    (hcomma : ∀ {c c'}, comma c c' → c'.rest.length ≤ c.rest.length)
    (h : Further F comma c as c') : c'.rest.length ≤ c.rest.length := by
  induction h with
  | last c => exact Nat.le_refl _
  | trailing h => exact hcomma h
  | more h ha _ ih => exact ih.trans ((hF ha).trans (hcomma h))

theorem Items.length_le {F : Form α} {comma : Cursor → Cursor → Prop} {c c' : Cursor}
    {as : List α} (hF : Advances F)
    (hcomma : ∀ {c c'}, comma c c' → c'.rest.length ≤ c.rest.length)
    (h : Items F comma c as c') : c'.rest.length ≤ c.rest.length := by
  cases h with
  | none c => exact Nat.le_refl _
  | some ha hmore => exact (hmore.length_le hF hcomma).trans (hF ha)

theorem atom_advances {E : Form Expr} (h : Advances E) : Advances (Atom E) := by
  intro c c' e hatom
  cases hatom with
  | numeral _ _ hspells hblanks | ident _ hspells hblanks =>
    exact (Nat.le_add_left _ _).trans (Token.length_le ⟨_, hspells, hblanks⟩)
  | call _ hname hopening hitems hclosing =>
    have hname := hname.length_le
    have hopening := hopening.length_lt
    have hitems := hitems.length_le h fun hcomma => hcomma.length_lt.le
    have hclosing := hclosing.length_lt
    omega
  | parenthesized hopening he hclosing =>
    exact hclosing.length_lt.le.trans ((h he).trans hopening.length_lt.le)

theorem bracketed_length_lt {c c' : Cursor} {found : Nat × Span} (h : Bracketed c found c') :
    c'.rest.length < c.rest.length := by
  cases h with
  | mk hopening _ _ hplace hclosing hblanks =>
    have hopening := hopening.length_lt
    have hplace := hplace.length_le
    have hclosing := Token.length_lt ⟨_, hclosing, hblanks⟩
    omega

theorem sign_length_lt {c c' : Cursor} {sign : Span} (h : Sign c sign c') :
    c'.rest.length < c.rest.length := by
  cases h with
  | mk hsign => exact hsign.length_lt

section Operand

variable {operand : Form Expr} {first second : Operator}

theorem joining_length_lt {c c' : Cursor} {found : Operator × Expr} (h : Advances operand)
    (hjoining : Joining first second operand c found c') : c'.rest.length < c.rest.length := by
  cases hjoining with
  | mk _ hsymbol hright => exact Nat.lt_of_le_of_lt (h hright) hsymbol.length_lt

theorem Repeats.length_le {F : Form α} {c c' : Cursor} {as : List α} (hF : Advances F)
    (h : Repeats F c as c') : c'.rest.length ≤ c.rest.length := by
  induction h with
  | nil c => exact Nat.le_refl _
  | cons ha _ ih => exact ih.trans (hF ha)

theorem indexed_advances (h : Advances operand) : Advances (Indexed operand) := by
  intro c c' e hindexed
  obtain ⟨_, c₁, found, hbase, hfound, -⟩ := indexed_iff.1 hindexed
  exact (hfound.length_le fun _ _ _ hitem => (bracketed_length_lt hitem).le).trans (h hbase)

theorem negated_advances (h : Advances operand) : Advances (Negated operand) := by
  intro c c' e hnegated
  obtain ⟨signs, c₁, _, hsigns, hinner, -⟩ := negated_iff.1 hnegated
  exact (h hinner).trans (hsigns.length_le fun _ _ _ hitem => (sign_length_lt hitem).le)

theorem chain_advances (h : Advances operand) : Advances (Chain first second operand) := by
  intro c c' e hchain
  obtain ⟨_, c₁, found, hleft, hfound, -⟩ := chain_iff.1 hchain
  exact (hfound.length_le fun _ _ _ hitem => (joining_length_lt h hitem).le).trans (h hleft)

end Operand

theorem parameter_advances : Advances Parameter := by
  rintro c c' - ⟨hblanks, -, hspells, hblanks'⟩
  have hle := Token.length_le ⟨_, hspells, hblanks'⟩
  exact (Nat.le_add_left _ _).trans (hle.trans hblanks.length_le)

/-! ## The least form -/

/-- Expressions are the least form that the grammar admits: what is closed under the grammar holds
of every expression. What stands inside an expression is known to be an expression too. -/
theorem Expression.least {P : Form Expr}
    (h : ∀ {c c' e}, Chain .add .sub (Chain .mul .div (Negated (Indexed
      (Atom fun c e c' => Expression c e c' ∧ P c e c')))) c e c' → P c e c')
    {c c' : Cursor} {e : Expr} (hexpression : Expression c e c') : P c e c' := by
  let E : Form Expr := fun c e c' => Expression c e c' ∧ P c e c'
  -- The motives follow the nesting of the forms in the constructor, from the outside in.
  refine @Expression.rec (fun c e c' _ => P c e c')
    (fun c e c' _ => Chain .add .sub (Chain .mul .div (Negated (Indexed (Atom E)))) c e c')
    (fun c e c' _ => Chain .mul .div (Negated (Indexed (Atom E))) c e c')
    (fun c e c' _ => Negated (Indexed (Atom E)) c e c')
    (fun c e c' _ => Indexed (Atom E) c e c') (fun c e c' _ => Atom E c e c')
    (fun c es c' _ => Items E (Token [',']) c es c')
    (fun c es c' _ => Further E (Token [',']) c es c')
    (fun _ ih => h ih)
    (fun _ ih => .operand ih) (fun _ hop hsymbol _ ih ih' => .joined ih hop hsymbol ih')
    (fun _ ih => .operand ih) (fun _ hop hsymbol _ ih ih' => .joined ih hop hsymbol ih')
    (fun _ ih => .operand ih) (fun hsign _ ih => .negation hsign ih)
    (fun _ ih => .operand ih)
    (fun _ hopening hdigits hlt hplace hclosing hblanks ih =>
      .element ih hopening hdigits hlt hplace hclosing hblanks)
    .numeral .ident
    (fun hletters hname hopening _ hclosing ih => .call hletters hname hopening ih hclosing)
    (fun hopening he hclosing ih => .parenthesized hopening ⟨he, ih⟩ hclosing)
    .none (fun he _ ih ih' => .some ⟨he, ih⟩ ih')
    .last .trailing (fun hcomma he _ ih ih' => .more hcomma ⟨he, ih⟩ ih') c e c' hexpression

theorem expression_advances : Advances Expression := by
  intro c c' e h
  refine h.least (P := fun c _ c' => c'.rest.length ≤ c.rest.length) fun hchain => ?_
  exact chain_advances
    (chain_advances (negated_advances (indexed_advances (atom_advances fun _ _ _ h => h.2)))) hchain

end StagedTangent.Source
