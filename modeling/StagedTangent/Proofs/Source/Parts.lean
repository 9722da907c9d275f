import StagedTangent.Proofs.Source.Tokens

/-!
# Parts of expressions

The grammar joins operands, indices and signs one at a time. Seen from the first operand, what
follows is a list of parts, each with its own sign or brackets, and the tree is a fold over that
list.
-/

namespace StagedTangent.Source

variable {α : Type} {c c' : Cursor}

/-! ## Lists of a form -/

theorem Repeats.imp {F G : Form α} {inv : Cursor → Prop} {as : List α} (h : Repeats F c as c')
    (hitem : ∀ {c a c'}, inv c → F c a c' → G c a c' ∧ inv c') (hc : inv c) :
    Repeats G c as c' ∧ inv c' := by
  induction h with
  | nil c => exact ⟨.nil c, hc⟩
  | cons ha _ ih =>
    obtain ⟨ha, hc₁⟩ := hitem hc ha
    obtain ⟨has, hc'⟩ := ih hc₁
    exact ⟨.cons ha has, hc'⟩

theorem Repeats.concat {F : Form α} {as : List α} {a : α} {c₁ : Cursor} (h : Repeats F c as c₁)
    (ha : F c₁ a c') : Repeats F c (as ++ [a]) c' := by
  induction h with
  | nil c => exact .cons ha (.nil c')
  | cons hitem _ ih => exact .cons hitem (ih ha)

theorem Further.imp {F G : Form α} {comma comma' : Cursor → Cursor → Prop} {inv : Cursor → Prop}
    {as : List α} (h : Further F comma c as c')
    (hitem : ∀ {c a c'}, inv c → F c a c' → G c a c' ∧ inv c')
    (hcomma : ∀ {c c'}, inv c → comma c c' → comma' c c' ∧ inv c') (hc : inv c) :
    Further G comma' c as c' ∧ inv c' := by
  induction h with
  | last c => exact ⟨.last c, hc⟩
  | trailing h =>
    obtain ⟨h, hc'⟩ := hcomma hc h
    exact ⟨.trailing h, hc'⟩
  | more h ha _ ih =>
    obtain ⟨h, hc₁⟩ := hcomma hc h
    obtain ⟨ha, hc₂⟩ := hitem hc₁ ha
    obtain ⟨has, hc'⟩ := ih hc₂
    exact ⟨.more h ha has, hc'⟩

theorem Items.imp {F G : Form α} {comma comma' : Cursor → Cursor → Prop} {inv : Cursor → Prop}
    {as : List α} (h : Items F comma c as c')
    (hitem : ∀ {c a c'}, inv c → F c a c' → G c a c' ∧ inv c')
    (hcomma : ∀ {c c'}, inv c → comma c c' → comma' c c' ∧ inv c') (hc : inv c) :
    Items G comma' c as c' ∧ inv c' := by
  cases h with
  | none c => exact ⟨.none c, hc⟩
  | some ha hmore =>
    obtain ⟨ha, hc₁⟩ := hitem hc ha
    obtain ⟨hmore, hc'⟩ := hmore.imp hitem hcomma hc₁
    exact ⟨.some ha hmore, hc'⟩

/-! ## Parts that are joined to an expression -/

section Parts

variable {first second : Operator} {operand : Form Expr} {e : Expr}

/-- An operator and the operand behind it. -/
inductive Joining (first second : Operator) (operand : Form Expr) : Form (Operator × Expr)
  | mk {c c₁ c' : Cursor} {op : Operator} {right : Expr} :
      op = first ∨ op = second → Token [op.symbol] c c₁ → operand c₁ right c' →
        Joining first second operand c (op, right) c'

/-- An index in brackets. The range is that of the brackets. -/
inductive Bracketed : Form (Nat × Span)
  | mk {c c₁ c₂ c₃ c' : Cursor} {digits : List Char} :
      Token ['['] c c₁ → IsWhole digits → naturalOfDigits digits < 2 ^ 64 → Token digits c₁ c₂ →
      c₂.Spells [']'] c₃ → Blanks c₃ c' →
        Bracketed c (naturalOfDigits digits, ⟨c.position, c₃.position⟩) c'

/-- A minus sign. -/
inductive Sign : Form Span
  | mk {c c' : Cursor} : Token ['-'] c c' → Sign c ⟨c.position, c'.position⟩ c'

theorem chain_foldl {c₁ : Cursor} {left : Expr} {found : List (Operator × Expr)}
    (hleft : Chain first second operand c left c₁)
    (h : Repeats (Joining first second operand) c₁ found c') :
    Chain first second operand c (found.foldl Parser.joined left) c' := by
  induction h generalizing left with
  | nil c => exact hleft
  | cons hitem _ ih =>
    cases hitem with
    | mk hop hsymbol hright => exact ih (.joined hleft hop hsymbol hright)

/-- A chain is an operand and the operators and operands behind it. -/
theorem chain_iff : Chain first second operand c e c' ↔
    ∃ left c₁ found, operand c left c₁ ∧ Repeats (Joining first second operand) c₁ found c' ∧
      found.foldl Parser.joined left = e := by
  constructor
  · intro h
    induction h with
    | operand h => exact ⟨_, _, [], h, .nil _, rfl⟩
    | joined _ hop hsymbol hright ih =>
      obtain ⟨left, c₁, found, hleft, hfound, rfl⟩ := ih
      exact ⟨left, c₁, found ++ [(_, _)], hleft, hfound.concat (.mk hop hsymbol hright),
        List.foldl_concat ..⟩
  · rintro ⟨left, c₁, found, hleft, hfound, rfl⟩
    exact chain_foldl (.operand hleft) hfound

theorem indexed_foldl {c₁ : Cursor} {base : Expr} {found : List (Nat × Span)}
    (hbase : Indexed operand c base c₁) (h : Repeats Bracketed c₁ found c') :
    Indexed operand c (found.foldl Parser.indexed base) c' := by
  induction h generalizing base with
  | nil c => exact hbase
  | cons hitem _ ih =>
    cases hitem with
    | mk hopening hdigits hlt hplace hclosing hblanks =>
      exact ih (.element hbase hopening hdigits hlt hplace hclosing hblanks)

/-- An indexed operand is the operand and the indices behind it. -/
theorem indexed_iff : Indexed operand c e c' ↔
    ∃ base c₁ found, operand c base c₁ ∧ Repeats Bracketed c₁ found c' ∧
      found.foldl Parser.indexed base = e := by
  constructor
  · intro h
    induction h with
    | operand h => exact ⟨_, _, [], h, .nil _, rfl⟩
    | element _ hopening hdigits hlt hplace hclosing hblanks ih =>
      obtain ⟨base, c₁, found, hbase, hfound, rfl⟩ := ih
      exact ⟨base, c₁, found ++ [(_, _)], hbase,
        hfound.concat (.mk hopening hdigits hlt hplace hclosing hblanks), List.foldl_concat ..⟩
  · rintro ⟨base, c₁, found, hbase, hfound, rfl⟩
    exact indexed_foldl (.operand hbase) hfound

/-- A negated operand is the signs and the operand behind them. -/
theorem negated_iff : Negated operand c e c' ↔
    ∃ signs c₁ inner, Repeats Sign c signs c₁ ∧ operand c₁ inner c' ∧
      signs.foldr Parser.negated inner = e := by
  constructor
  · intro h
    induction h with
    | operand h => exact ⟨[], _, _, .nil _, h, rfl⟩
    | negation hsign _ ih =>
      obtain ⟨signs, c₁, inner, hsigns, hinner, rfl⟩ := ih
      exact ⟨_ :: signs, c₁, inner, .cons (.mk hsign) hsigns, hinner, rfl⟩
  · rintro ⟨signs, c₁, inner, hsigns, hinner, rfl⟩
    induction hsigns with
    | nil c => exact .operand hinner
    | cons hsign _ ih =>
      cases hsign with
      | mk htoken => exact .negation htoken (ih hinner)

end Parts

end StagedTangent.Source
