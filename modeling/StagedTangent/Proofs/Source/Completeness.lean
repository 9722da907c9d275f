import StagedTangent.Proofs.Source.Soundness
import StagedTangent.Proofs.Source.Extent

/-!
# What derives is read

The grammar does not say how far a token, a repetition or a call goes; a parser goes as far as it
can. That comes to the same because what may stand behind a form would not go on with it:
`Complete` states for a parser and a form that the parser reads whatever has the form, where what
stands behind is of such a class. Each form of expressions has its class, and there is one lemma a
production, over any parser of the expressions inside.
-/

namespace StagedTangent.Source

variable {α β : Type} {c c' : Cursor}

/-! ## What may stand behind a form -/

/-- What neither is blank nor goes on with a name, a numeral or a call. -/
structure EndsAtom (d : Char) : Prop where
  tight : Text.isBlank d = false
  part : isNamePart d = false
  point : d ≠ '.'
  opening : d ≠ '('

/-- What does not go on with an indexed atom. -/
structure EndsIndexed (d : Char) : Prop extends EndsAtom d where
  bracket : d ≠ '['

/-- What does not go on with a chain of operands. -/
structure EndsChain (ok : Char → Prop) (first second : Operator) (d : Char) : Prop where
  operand : ok d
  first : d ≠ first.symbol
  second : d ≠ second.symbol

/-- What does not go on with an expression. -/
abbrev EndsExpression : Char → Prop := EndsChain (EndsChain EndsIndexed .mul .div) .add .sub

theorem endsIndexed_symbol (op : Operator) : EndsIndexed op.symbol := by
  cases op <;> exact ⟨⟨rfl, rfl, by decide, by decide⟩, by decide⟩

theorem endsAtom_bracket : EndsAtom '[' := ⟨rfl, rfl, by decide, by decide⟩

theorem endsExpression_comma : EndsExpression ',' :=
  ⟨⟨⟨⟨rfl, rfl, by decide, by decide⟩, by decide⟩, by decide, by decide⟩, by decide, by decide⟩

theorem endsExpression_closing : EndsExpression ')' :=
  ⟨⟨⟨⟨rfl, rfl, by decide, by decide⟩, by decide⟩, by decide, by decide⟩, by decide, by decide⟩

theorem Blanks.meets {ok : Char → Prop} (h : Blanks c c')
    (hblank : ∀ d, Text.isBlank d = true → ok d) (hok : c'.Meets ok) : c.Meets ok := by
  obtain ⟨blanks, hblanks, hspells⟩ := h
  cases blanks with
  | nil =>
    obtain rfl := (Cursor.Spells.nil c).unique hspells
    exact hok
  | cons b more => exact hspells.meets (hblank b (hblanks b List.mem_cons_self))

/-- Behind a name or a numeral come blanks or what ends the atom. -/
theorem Blanks.meets_of_endsAtom (h : Blanks c c') (hok : c'.Meets EndsAtom) :
    c.Meets fun d => isNamePart d = false ∧ d ≠ '.' := by
  refine h.meets (fun d hd => ⟨isNamePart_of_isBlank hd, ?_⟩)
    (hok.imp fun d hd => ⟨hd.part, hd.point⟩)
  rintro rfl
  cases hd

theorem Repeats.meets {F : Form α} {ok : Char → Prop} {as : List α}
    (hbegins : ∀ {c c' a}, F c a c' → c.Meets ok) (h : Repeats F c as c') (hok : c'.Meets ok) :
    c.Meets ok := by
  cases h with
  | nil c => exact hok
  | cons ha _ => exact hbegins ha

theorem Further.meets {F : Form α} {comma : Cursor → Cursor → Prop} {ok : Char → Prop} {as : List α}
    (hcomma : ∀ {c c'}, comma c c' → c.Meets ok) (h : Further F comma c as c') (hok : c'.Meets ok) :
    c.Meets ok := by
  cases h with
  | last c => exact hok
  | trailing h => exact hcomma h
  | more h _ _ => exact hcomma h

namespace Parser

/-- From a place with fewer than `n` characters before the end on, a parser reads whatever has a
form, if what stands behind is of a class. -/
def Complete (n : Nat) (p : Parser α) (F : Form α) (ok : Char → Prop) : Prop :=
  ∀ ⦃c c' : Cursor⦄ ⦃a : α⦄, c.rest.length < n → F c a c' → c'.Meets ok → p.read c = some (a, c')

/-- A sound parser reads nothing where the form does not begin. -/
theorem Sound.read_eq_none {p : Parser α} {F : Form α} {start : Char → Prop} (hp : p.Sound F)
    (hF : Begins F start) (hc : c.Tight) (hnot : c.Meets fun d => ¬ start d) : p.read c = none := by
  cases hread : p.read c with
  | none => rfl
  | some found =>
    obtain ⟨d, rest, hrest, hd⟩ := hF (hp hc hread).1
    exact absurd hd (hnot d rest hrest)

theorem Complete.many {n : Nat} {p : Parser α} {F : Form α} {ok okItem : Char → Prop}
    (hp : Complete n p F okItem) (hlt : ∀ {c c' a}, F c a c' → c'.rest.length < c.rest.length)
    (hbegins : ∀ {c c' a}, F c a c' → c.Meets okItem) (hok : ∀ d, ok d → okItem d)
    (hend : ∀ {c}, c.Meets ok → p.read c = none) : Complete n (many p) (Repeats F) ok := by
  intro c c' as hn h hc'
  refine read_many_of_repeats ?_ (.of_read_eq_none (hend hc'))
  induction h with
  | nil c => exact .nil c
  | cons ha has ih =>
    have hlt := hlt ha
    exact .cons ⟨hp hn ha (has.meets hbegins (hc'.imp hok)), hlt⟩ (ih (hlt.trans hn) hc')

section Separated

variable {n : Nat} {p : Parser α} {q : Parser β} {F : Form α} {comma : Cursor → Cursor → Prop}
  {ok next : Char → Prop} {as : List α}
  (hp : Complete n p F ok) (hF : Advances F) (hnext : ∀ {c c' a}, F c a c' → c.Meets next)
  (hcomma : ∀ {c c'}, comma c c' → c.Meets ok ∧ c'.rest.length < c.rest.length)
  (hq : ∀ {c c'}, comma c c' → c'.Meets next → ∃ b, q.read c = some (b, c'))

include hp hF hnext hcomma hq

theorem Complete.further (hn : c.rest.length < n) (h : Further F comma c as c') (hok : c'.Meets ok)
    (hend : c'.Meets next) :
    Further (fun c a c' => p.read c = some (a, c') ∧ c'.rest.length ≤ c.rest.length)
      (fun c c' => ∃ b, q.read c = some (b, c') ∧ c'.rest.length < c.rest.length) c as c' := by
  induction h with
  | last c => exact .last c
  | trailing h =>
    obtain ⟨b, hb⟩ := hq h hend
    exact .trailing ⟨b, hb, (hcomma h).2⟩
  | more h ha hmore ih =>
    obtain ⟨b, hb⟩ := hq h (hnext ha)
    have hlt := (hcomma h).2.trans hn
    have hbehind := hmore.meets (fun h => (hcomma h).1) hok
    exact .more ⟨b, hb, (hcomma h).2⟩ ⟨hp hlt ha hbehind, hF ha⟩
      (ih ((hF ha).trans_lt hlt) hok hend)

/-- Items with separators are read if each item is read where a separator or the end of the list
stands behind it, and each separator where an item or the end does. -/
theorem Complete.separated (hn : c.rest.length < n) (h : Items F comma c as c') (hok : c'.Meets ok)
    (hend : c'.Meets next) (hitem : p.read c' = none) (hseparator : q.read c' = none) :
    (separated p q).read c = some (as, c') := by
  refine read_separated_of_items ?_ hitem hseparator
  cases h with
  | none c => exact .none c
  | some ha hmore =>
    have hbehind := hmore.meets (fun h => (hcomma h).1) hok
    exact .some ⟨hp hn ha hbehind, hF ha⟩
      (further hp hF hnext hcomma hq ((hF ha).trans_lt hn) hmore hok hend)

end Separated

/-- A parser reads what has a form and nothing else. That goes along with where the form begins
and that it never reaches back. -/
structure Exact (n : Nat) (p : Parser α) (F : Form α) (start ok : Char → Prop) : Prop where
  sound : p.Sound F
  begins : Begins F start
  advances : Advances F
  complete : Complete n p F ok

/-! ## Tokens -/

/-- The token of a single character is read where no blank is left behind it. -/
theorem read_symbol {d : Char} (hd : Text.isBlank d = false) (h : Token [d] c c')
    (hc' : c'.Tight) : (padded (char d)).read c = some (d, c') := by
  have hc : c.Tight := h.meets hd
  exact (read_symbol_eq_some hc).2 ⟨rfl, h, hc'⟩

theorem read_number {c₁ : Cursor} {letters : List Char} {r : ℚ} {x : Binary64}
    (hnumeral : Numeral letters r) (hx : x.IsNearest r) (hspells : c.Spells letters c₁)
    (hblanks : Blanks c₁ c') (hc' : c'.Meets EndsAtom) :
    number.read c = some (.numeral x ⟨c.position, c₁.position⟩, c') := by
  have hc : c.Tight := (hnumeral.shows hspells).meets fun _ hd =>
    isBlank_of_isNamePart (isNamePart_iff.2 (.inr hd))
  have hbehind : c₁.Meets fun d => d.isDigit = false ∧ d ≠ '.' :=
    (hblanks.meets_of_endsAtom hc').imp fun d hd => ⟨isDigit_of_isNamePart hd.1, hd.2⟩
  obtain ⟨found, hread, hvalue⟩ := read_numeral hnumeral hspells hbehind
  have hnearest := Decimal.toBinary64_isNearest (Decimal.ofNumeral found.1 (found.2.getD []))
  rw [hvalue] at hnearest
  refine (read_padded_of_tight hc).2 ⟨c₁, read_mapSpan_eq_some.2 ⟨found, hread, ?_⟩, hblanks,
    hc'.imp fun _ hd => hd.tight⟩
  rw [hnearest.unique hx]

theorem read_number_eq_none (hc : c.Tight) (h : c.Meets fun d => d.isDigit = false) :
    number.read c = none := by
  cases hread : number.read c with
  | none => rfl
  | some result =>
    obtain ⟨c₁, hnumber, -⟩ := (read_padded_of_tight hc).1 hread
    obtain ⟨found, hfound, -⟩ := read_mapSpan_eq_some.1 hnumber
    obtain ⟨letters, hspells, hnumeral⟩ := numeral_of_read hfound
    obtain ⟨d, rest, hrest, hd⟩ := hnumeral.shows hspells
    cases hd.symm.trans (h d rest hrest)

theorem complete_bracketed (n : Nat) :
    Complete n bracketed Bracketed fun d => Text.isBlank d = false := by
  intro c c' found _ h hc'
  cases h with
  | @mk _ c₁ c₂ c₃ _ digits hopening hdigits hlt hplace hclosing hblanks =>
    obtain ⟨c₀, hopening, hblanks₀⟩ := hopening
    obtain ⟨d, hspells, hblanks₁⟩ := hplace
    have hc₁ : c₁.Tight := hdigits.tight hspells
    have hd : d.Meets fun e => e.isDigit = false :=
      hblanks₁.meets (fun e he => isDigit_of_isNamePart (isNamePart_of_isBlank he))
        (hclosing.meets rfl)
    have hpadded : (padded place).read c₀ = some (naturalOfDigits digits, c₂) := by
      refine read_padded_eq_some.2 ⟨d, ?_, Cursor.skipBlanks_eq hblanks₁ (hclosing.meets rfl)⟩
      rw [Cursor.skipBlanks_eq hblanks₀ hc₁]
      exact read_place hdigits hspells hlt hd
    have hbetween : (between (char '[') (char ']') (padded place)).read c =
        some (naturalOfDigits digits, c₃) :=
      read_between_eq_some.2 ⟨_, c₀, c₂, _, read_char_eq_some.2 ⟨rfl, hopening⟩, hpadded,
        read_char_eq_some.2 ⟨rfl, hclosing⟩⟩
    exact (read_padded_of_tight (hopening.meets rfl)).2
      ⟨c₃, read_mapSpan_eq_some.2 ⟨_, hbetween, rfl⟩, hblanks, hc'⟩

theorem complete_indices (n : Nat) : Complete n (many bracketed) (Repeats Bracketed) EndsIndexed :=
  (complete_bracketed n).many bracketed_length_lt
    (fun h => (bracketed_begins h).meets fun _ hd => by subst hd; rfl) (fun _ hd => hd.tight)
    fun hc => sound_bracketed.read_eq_none bracketed_begins (hc.imp fun _ hd => hd.tight)
      (hc.imp fun _ hd => hd.bracket)

theorem complete_minus (n : Nat) : Complete n minus Sign fun d => Text.isBlank d = false := by
  intro c c' sign _ h hc'
  cases h with
  | mk hsign => exact read_mapSpan_eq_some.2 ⟨_, read_symbol rfl hsign hc', rfl⟩

/-- Minus signs are read up to the atom that they stand before. -/
theorem complete_signs (n : Nat) : Complete n (many minus) (Repeats Sign) StartsAtom :=
  (complete_minus n).many sign_length_lt
    (fun h => (sign_begins h).meets fun _ hd => by subst hd; rfl) (fun _ hd => hd.isBlank)
    fun hc => sound_minus.read_eq_none sign_begins (hc.imp fun _ hd => hd.isBlank)
      (hc.imp fun _ hd => hd.ne_minus)

/-! ## Expressions -/

section Inner

variable {inner : Parser Expr} {E : Form Expr} {n : Nat} {c₁ : Cursor} {letters : List Char}

theorem read_named_ident (hletters : IsName letters) (hspells : c.Spells letters c₁)
    (hblanks : Blanks c₁ c') (hc' : c'.Meets EndsAtom) :
    (named inner).read c = some (.ident (String.ofList letters) ⟨c.position, c₁.position⟩, c') := by
  have htight := hc'.imp fun _ hd => hd.tight
  have hc : c.Tight := hletters.tight hspells
  have hname : name.read c = some (letters, c₁) := read_name_eq_some.2
    ⟨hletters, hspells, (hblanks.meets_of_endsAtom hc').imp fun _ hd => hd.1⟩
  have hargs : (args inner).read c₁ = none := by
    cases hread : (args inner).read c₁ with
    | none => rfl
    | some result =>
      obtain ⟨_, _, _, _, hopening, -⟩ := read_between_eq_some.1 hread
      rw [← read_padded_skipBlanks, Cursor.skipBlanks_eq hblanks htight,
        read_symbol_eq_none htight (hc'.imp fun _ hd => hd.opening)] at hopening
      cases hopening
  have hoptional : (optional (args inner)).read c₁ = some (none, c₁) := by
    rw [read_optional, hargs]
    rfl
  exact (read_padded_of_tight hc).2 ⟨c₁, read_mapSpan_eq_some.2
    ⟨(letters, none), read_pair_eq_some.2 ⟨c₁, hname, hoptional⟩, rfl⟩, hblanks, htight⟩

theorem read_named_eq_none (hc : c.Tight) (h : c.Meets fun d => isNameStart d = false) :
    (named inner).read c = none := by
  cases hread : (named inner).read c with
  | none => rfl
  | some result =>
    obtain ⟨c₁, hnamed, -⟩ := (read_padded_of_tight hc).1 hread
    obtain ⟨⟨letters, _⟩, hfound, -⟩ := read_mapSpan_eq_some.1 hnamed
    obtain ⟨_, hname, -⟩ := read_pair_eq_some.1 hfound
    obtain ⟨hletters, hspells, -⟩ := read_name_eq_some.1 hname
    obtain ⟨d, rest, hrest, hd⟩ := hletters.shows hspells
    cases hd.symm.trans (h d rest hrest)

/-! ### Expressions inside -/

variable (hinner : Exact n inner E StartsExpression EndsExpression)

include hinner

theorem read_parenthesized {c₂ : Cursor} {e : Expr} (hn : c₁.rest.length < n)
    (hopening : Token ['('] c c₁) (he : E c₁ e c₂) (hclosing : Token [')'] c₂ c')
    (hc' : c'.Tight) : (parenthesized inner).read c = some (e, c') := by
  have hc₁ : c₁.Tight := (hinner.begins he).meets fun _ hd => hd.isBlank
  have hread := hinner.complete hn he (hclosing.meets endsExpression_closing)
  exact read_between_eq_some.2 ⟨_, c₁, c₂, _, read_symbol rfl hopening hc₁, hread,
    read_symbol rfl hclosing hc'⟩

/-- Blanks in front of the arguments are skipped with the parenthesis. -/
theorem read_args {c₂ c₃ : Cursor} {as : List Expr} (hn : c₂.rest.length < n)
    (hblanks : Blanks c c₁) (hopening : Token ['('] c₁ c₂) (hitems : Items E (Token [',']) c₂ as c₃)
    (hclosing : Token [')'] c₃ c') (hc' : c'.Tight) : (args inner).read c = some (as, c') := by
  have hc₃ : c₃.Tight := hclosing.meets rfl
  have hnext : ∀ {c c' e}, E c e c' → c.Tight := fun he =>
    (hinner.begins he).meets fun _ hd => hd.isBlank
  have hc₂ : c₂.Tight := by
    cases hitems with
    | none c => exact hc₃
    | some he _ => exact hnext he
  have hparenthesis : (padded (char '(')).read c = some ('(', c₂) := by
    rw [← read_padded_skipBlanks, Cursor.skipBlanks_eq hblanks (hopening.meets rfl)]
    exact read_symbol rfl hopening hc₂
  have hfails : inner.read c₃ = none := hinner.sound.read_eq_none hinner.begins hc₃
    (hclosing.meets not_startsExpression_closing)
  have hread : (separated inner (padded (char ','))).read c₂ = some (as, c₃) :=
    hinner.complete.separated hinner.advances hnext
      (fun hcomma => ⟨hcomma.meets endsExpression_comma, hcomma.length_lt⟩)
      (fun hcomma hc' => ⟨_, read_symbol rfl hcomma hc'⟩) hn hitems
      (hclosing.meets endsExpression_closing) hc₃ hfails
      (read_symbol_eq_none hc₃ (hclosing.meets (by decide)))
  exact read_between_eq_some.2 ⟨_, c₂, c₃, _, hparenthesis, hread, read_symbol rfl hclosing hc'⟩

theorem read_named_call {c₂ c₃ : Cursor} {as : List Expr} (hn : c₂.rest.length < n)
    (hletters : IsName letters) (hname : Token letters c c₁) (hopening : Token ['('] c₁ c₂)
    (hitems : Items E (Token [',']) c₂ as c₃) (hclosing : Token [')'] c₃ c') (hc' : c'.Tight) :
    (named inner).read c = some (.call (String.ofList letters) as ⟨c.position, c'.position⟩, c') := by
  obtain ⟨d, hspells, hblanks⟩ := hname
  have hbehind : d.Meets fun d => isNamePart d = false :=
    hblanks.meets (fun _ hd => isNamePart_of_isBlank hd) (hopening.meets rfl)
  have hread : name.read c = some (letters, d) := read_name_eq_some.2 ⟨hletters, hspells, hbehind⟩
  have hoptional : (optional (args inner)).read d = some (some as, c') := by
    rw [read_optional, read_args hinner hn hblanks hopening hitems hclosing hc']
    rfl
  exact (read_padded_of_tight (hletters.tight hspells)).2 ⟨c', read_mapSpan_eq_some.2
    ⟨(letters, some as), read_pair_eq_some.2 ⟨d, hread, hoptional⟩, rfl⟩, Cursor.blanks_self c', hc'⟩

theorem exact_atom : Exact (n + 1) (atom inner) (Atom E) StartsAtom EndsAtom := by
  refine ⟨sound_atom hinner.sound, atom_begins E, atom_advances hinner.advances, ?_⟩
  intro c c' e hn h hc'
  have htight := hc'.imp fun _ hd => hd.tight
  have hc : c.Tight := (atom_begins E h).meets fun _ hd => hd.isBlank
  rw [atom, read_oneOfThree]
  cases h with
  | numeral hnumeral hx hspells hblanks =>
    rw [read_number hnumeral hx hspells hblanks hc']
    rfl
  | ident hletters hspells hblanks =>
    have hnumber := (hletters.shows hspells).meets fun _ hd => isDigit_of_isNameStart hd
    rw [read_number_eq_none hc hnumber, read_named_ident hletters hspells hblanks hc']
    rfl
  | call hletters hname hopening hitems hclosing =>
    obtain ⟨_, hspells, -⟩ := id hname
    have hnumber := (hletters.shows hspells).meets fun _ hd => isDigit_of_isNameStart hd
    have hlt := (Nat.le_add_left _ _).trans hname.length_le
    rw [read_number_eq_none hc hnumber, read_named_call hinner
      (hopening.length_lt.trans_le (hlt.trans (Nat.le_of_lt_succ hn))) hletters hname hopening
      hitems hclosing htight]
    rfl
  | parenthesized hopening he hclosing =>
    rw [read_number_eq_none hc (hopening.meets rfl), read_named_eq_none hc (hopening.meets rfl),
      read_parenthesized hinner (hopening.length_lt.trans_le (Nat.le_of_lt_succ hn)) hopening he
        hclosing htight]
    rfl

theorem exact_postfixed :
    Exact (n + 1) (postfixed inner) (Indexed (Atom E)) StartsAtom EndsIndexed := by
  have hatom := exact_atom hinner
  refine ⟨sound_postfixed hinner.sound, indexed_begins hatom.begins,
    indexed_advances hatom.advances, ?_⟩
  intro c c' e hn h hc'
  obtain ⟨base, c₁, found, hbase, hfound, rfl⟩ := indexed_iff.1 h
  have hc₁ : c₁.Meets EndsAtom := hfound.meets
    (fun h => (bracketed_begins h).meets fun _ hd => by subst hd; exact endsAtom_bracket)
    (hc'.imp fun _ hd => hd.toEndsAtom)
  have hindices := complete_indices _ ((hatom.advances hbase).trans_lt hn) hfound hc'
  exact read_map_eq_some.2 ⟨(base, found), read_pair_eq_some.2
    ⟨c₁, hatom.complete hn hbase hc₁, hindices⟩, rfl⟩

theorem exact_unary :
    Exact (n + 1) (unary inner) (Negated (Indexed (Atom E))) StartsExpression EndsIndexed := by
  have hpostfixed := exact_postfixed hinner
  refine ⟨sound_unary hinner.sound, negated_begins hpostfixed.begins,
    negated_advances hpostfixed.advances, ?_⟩
  intro c c' e hn h hc'
  obtain ⟨signs, c₁, operand, hsigns, hoperand, rfl⟩ := negated_iff.1 h
  have hle : c₁.rest.length ≤ c.rest.length :=
    hsigns.length_le fun _ _ _ hsign => (sign_length_lt hsign).le
  have hminus := complete_signs _ hn hsigns ((hpostfixed.begins hoperand).meets fun _ hd => hd)
  exact read_map_eq_some.2 ⟨(signs, operand), read_pair_eq_some.2
    ⟨c₁, hminus, hpostfixed.complete (hle.trans_lt hn) hoperand hc'⟩, rfl⟩

end Inner

section Operand

variable {operand : Parser Expr} {F : Form Expr} {n : Nat} {ok start : Char → Prop}
  (hoperand : Exact n operand F start ok) (hstart : ∀ d, start d → Text.isBlank d = false)

include hoperand hstart

theorem complete_joining (first second : Operator) :
    Complete n (pair (orElse (operator first) (operator second)) operand) (Joining first second F)
      ok := by
  intro c c' found hn h hc'
  cases h with
  | mk hop hsymbol hright =>
    have hread := (read_operators_eq_some (hsymbol.meets (isBlank_symbol _))).2
      ⟨hop, hsymbol, (hoperand.begins hright).meets hstart⟩
    exact read_pair_eq_some.2
      ⟨_, hread, hoperand.complete (hsymbol.length_lt.trans hn) hright hc'⟩

theorem exact_chain (first second : Operator) (hok : ∀ d, ok d → Text.isBlank d = false)
    (hfirst : ok first.symbol) (hsecond : ok second.symbol) :
    Exact n (chain first second operand) (Chain first second F) start
      (EndsChain ok first second) := by
  refine ⟨sound_chain hoperand.sound first second, chain_begins hoperand.begins first second,
    chain_advances hoperand.advances, ?_⟩
  intro c c' e hn h hc'
  obtain ⟨left, c₁, found, hleft, hfound, rfl⟩ := chain_iff.1 h
  have hsymbol : ∀ {c c' found}, Joining first second F c found c' → c.Meets ok := by
    intro c c' found h
    refine (joining_begins first second h).meets fun d hd => ?_
    rcases hd with rfl | rfl
    · exact hfirst
    · exact hsecond
  have hmany : Complete n (many (pair (orElse (operator first) (operator second)) operand))
      (Repeats (Joining first second F)) (EndsChain ok first second) :=
    (complete_joining hoperand hstart first second).many (joining_length_lt hoperand.advances)
      hsymbol (fun _ hd => hd.operand) fun hc =>
        (sound_joining hoperand.sound first second).read_eq_none (joining_begins first second)
          (hc.imp fun d hd => hok d hd.operand) (hc.imp fun _ hd => not_or.2 ⟨hd.first, hd.second⟩)
  have hread := hoperand.complete hn hleft (hfound.meets hsymbol (hc'.imp fun _ hd => hd.operand))
  exact read_map_eq_some.2 ⟨(left, found), read_pair_eq_some.2
    ⟨c₁, hread, hmany ((hoperand.advances hleft).trans_lt hn) hfound hc'⟩, rfl⟩

end Operand

/-- Whatever is an expression is read as one, if nothing that goes on with it stands behind. -/
theorem read_expression {e : Expr} (h : Expression c e c') (hc' : c'.Meets EndsExpression) :
    expression.read c = some (e, c') := by
  generalize hlength : c.rest.length = n
  induction n using Nat.strongRecOn generalizing c c' e with
  | ind n ih =>
    have hinner : Exact n (behind expression c) Expression StartsExpression EndsExpression :=
      ⟨fun d d' e' hd hread => sound_expression hd (read_behind_eq_some.1 hread).2,
        expression_begins, expression_advances, fun d d' e' hd hexpression hd' =>
          read_behind_eq_some.2 ⟨hlength ▸ hd, ih _ hd hexpression hd' rfl⟩⟩
    have hproduct := exact_chain (exact_unary hinner) (fun _ hd => hd.isBlank) .mul .div
      (fun _ hd => hd.tight) (endsIndexed_symbol .mul) (endsIndexed_symbol .div)
    have hsum := exact_chain hproduct (fun _ hd => hd.isBlank) .add .sub
      (fun _ hd => hd.operand.tight) ⟨endsIndexed_symbol .add, by decide, by decide⟩
      ⟨endsIndexed_symbol .sub, by decide, by decide⟩
    rw [expression, read_fix]
    cases h with
    | mk hchain => exact hsum.complete (hlength ▸ Nat.lt_succ_self _) hchain hc'

/-! ## Functions -/

/-- What neither is blank nor goes on with a name. -/
structure EndsParameter (d : Char) : Prop where
  tight : Text.isBlank d = false
  part : isNamePart d = false

theorem complete_param (n : Nat) : Complete n param Parameter EndsParameter := by
  intro c c' x _ h hc'
  cases h with
  | @mk _ c₁ c₂ _ letters hblanks hletters hspells hblanks' =>
    have hname : name.read c₁ = some (letters, c₂) := read_name_eq_some.2 ⟨hletters, hspells,
      hblanks'.meets (fun _ hd => isNamePart_of_isBlank hd) (hc'.imp fun _ hd => hd.part)⟩
    refine read_padded_eq_some.2
      ⟨c₂, ?_, Cursor.skipBlanks_eq hblanks' (hc'.imp fun _ hd => hd.tight)⟩
    rw [Cursor.skipBlanks_eq hblanks (hletters.tight hspells)]
    exact read_mapSpan_eq_some.2 ⟨letters, hname, rfl⟩

/-- No parameter is read at the end of the list. -/
theorem read_param_eq_none (h : Token [')'] c c') : param.read c = none := by
  cases hread : param.read c with
  | none => rfl
  | some found =>
    obtain ⟨x, stop⟩ := found
    cases parameter_of_read hread with
    | mk hblanks hletters hspells _ =>
      have hskip := Cursor.skipBlanks_eq hblanks (hletters.tight hspells)
      rw [Cursor.skipBlanks_of_tight (h.meets rfl)] at hskip
      subst hskip
      obtain ⟨d, rest, hrest, hd⟩ := hletters.shows hspells
      have hno : c.Meets fun d => isNameStart d = false := h.meets rfl
      cases hd.symm.trans (hno d rest hrest)

theorem read_params {c₁ c₂ : Cursor} {found : List Param} (hopening : c.Spells ['('] c₁)
    (hitems : Items Parameter (fun d d' => d.Spells [','] d') c₁ found c₂)
    (hclosing : Token [')'] c₂ c') (hc' : c'.Tight) : params.read c = some (found, c') := by
  have hcomma : ∀ {d d' : Cursor}, d.Spells [','] d' →
      d.Meets EndsParameter ∧ d'.rest.length < d.rest.length := fun h =>
    ⟨h.meets ⟨rfl, rfl⟩, Token.length_lt ⟨_, h, Cursor.blanks_self _⟩⟩
  have hend : c₂.Meets fun _ => True := fun _ _ _ => trivial
  have hread : (separated param (char ',')).read c₁ = some (found, c₂) :=
    (complete_param _).separated parameter_advances (fun _ _ _ _ => trivial) hcomma
      (fun h _ => ⟨_, read_char_eq_some.2 ⟨rfl, h⟩⟩) (Nat.lt_succ_self _) hitems
      (hclosing.meets ⟨rfl, rfl⟩) hend (read_param_eq_none hclosing)
      (read_char_eq_none (hclosing.meets (by decide)))
  obtain ⟨d, hspells, hblanks⟩ := hclosing
  exact (read_padded_of_tight (hopening.meets rfl)).2 ⟨d, read_between_eq_some.2
    ⟨_, c₁, c₂, _, read_char_eq_some.2 ⟨rfl, hopening⟩, hread, read_char_eq_some.2 ⟨rfl, hspells⟩⟩,
    hblanks, hc'⟩

/-- The definition of a function is read as it, up to the end of the text. -/
theorem read_function {f : Function} (h : Definition c f c') (hend : c'.rest = []) :
    function.read c = some (f, c') := by
  cases h with
  | @mk _ c₁ c₂ c₃ c₄ c₅ c₆ c₇ c₈ _ letters found body hblanks hspells hmeets hblanks' hletters hname
      hopening hitems hclosing hequals hbody =>
    have hc₈ : c₈.Tight := (expression_begins hbody).meets fun _ hd => hd.isBlank
    obtain ⟨d, hspells', hbehind⟩ := hname
    have hc₃ : c₃.Tight := hletters.tight hspells'
    have hkeyword : (padded keyword).read c = some ((), c₃) := by
      refine read_padded_eq_some.2 ⟨c₂, ?_, Cursor.skipBlanks_eq hblanks' hc₃⟩
      rw [Cursor.skipBlanks_eq hblanks (hspells.meets rfl)]
      exact read_keyword_eq_some.2 ⟨hspells, hmeets⟩
    have hread : (padded name).read c₃ = some (letters, c₄) := by
      refine (read_padded_of_tight hc₃).2 ⟨d, read_name_eq_some.2 ⟨hletters, hspells', ?_⟩, hbehind,
        hopening.meets rfl⟩
      exact hbehind.meets (fun _ hd => isNamePart_of_isBlank hd) (hopening.meets rfl)
    have hparams := read_params hopening hitems hclosing (hequals.meets rfl)
    have hexpression := read_expression hbody (.of_rest_eq_nil hend)
    exact read_mapSpan_eq_some.2 ⟨((letters, found), body), read_left_eq_some.2 ⟨c', (),
      read_pair_eq_some.2 ⟨c₈, read_left_eq_some.2 ⟨c₇, _, read_pair_eq_some.2
        ⟨c₄, read_right_eq_some.2 ⟨c₃, (), hkeyword, hread⟩, hparams⟩,
        read_symbol rfl hequals hc₈⟩, hexpression⟩,
      read_endOfInput_eq_some.2 ⟨hend, rfl⟩⟩, rfl⟩

end Parser

/-- A text is accepted with a function if it derives that function, and it derives no other. -/
theorem parse_iff_derives (source : String) :
    (∀ f, parse source = .ok f ↔ Derives source f) ∧
      ∀ f g, Derives source f → Derives source g → f = g := by
  have hiff : ∀ f, parse source = .ok f ↔ Derives source f := by
    intro f
    rw [Parser.parse_eq_ok_iff]
    constructor
    · rintro ⟨stop, hread⟩
      exact ⟨stop, Parser.definition_of_read hread⟩
    · rintro ⟨stop, hdefinition, hend⟩
      exact ⟨stop, Parser.read_function hdefinition hend⟩
  refine ⟨hiff, fun f g hf hg => ?_⟩
  exact Except.ok.inj (((hiff f).2 hf).symm.trans ((hiff g).2 hg))

theorem parse_iff_derives_difference :
    let f : Function := ⟨"f", [⟨"x", ⟨5, 6⟩⟩],
      .binary .sub (.binary .sub (.negation (.ident "x" ⟨9, 10⟩) ⟨8, 10⟩) (.ident "x" ⟨11, 12⟩)
        ⟨8, 12⟩) (.ident "x" ⟨13, 14⟩) ⟨8, 14⟩, ⟨0, 14⟩⟩
    Derives "fn f(x)=-x-x-x" f ∧ ∀ g, Derives "fn f(x)=-x-x-x" g → g = f := by
  intro f
  have hread : Parser.function.read (.ofString "fn f(x)=-x-x-x") = some (f, ⟨14, []⟩) := by
    with_unfolding_all rfl
  have hderives := ((parse_iff_derives _).1 f).1 (Parser.parse_eq_ok_iff.2 ⟨_, hread⟩)
  exact ⟨hderives, fun g hg => (parse_iff_derives _).2 g f hg hderives⟩

end StagedTangent.Source
