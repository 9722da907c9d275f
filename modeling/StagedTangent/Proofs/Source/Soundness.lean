import StagedTangent.Proofs.Source.Parts

/-!
# What is read derives

`Parser.Sound` states for a parser and a form that whatever the parser reads has the form. There is
one lemma a production, over any parser of the expressions inside, and the parser of expressions is
sound by induction on what is left to read. The main statement is `definition_of_read`.
-/

namespace StagedTangent.Source

variable {α : Type} {c c' : Cursor}

namespace Parser

/-- From a place with no blank on, what a parser reads has a form, and it ends at such a place. -/
def Sound (p : Parser α) (F : Form α) : Prop :=
  ∀ ⦃c c' : Cursor⦄ ⦃a : α⦄, c.Tight → p.read c = some (a, c') → F c a c' ∧ c'.Tight

variable {p : Parser α}

theorem Sound.many {F : Form α} (hp : p.Sound F) : (many p).Sound (Repeats F) := by
  intro c c' as hc h
  exact (repeats_of_read_many h).2.imp (fun hc h => hp hc h) hc

/-! ## Expressions -/

section Inner

variable {inner : Parser Expr} {E : Form Expr}

theorem sound_number : number.Sound (Atom E) := by
  intro c c' e hc h
  obtain ⟨c₁, hread, hblanks, htight⟩ := (read_padded_of_tight hc).1 h
  obtain ⟨found, hfound, rfl⟩ := read_mapSpan_eq_some.1 hread
  obtain ⟨letters, hspells, hnumeral⟩ := numeral_of_read hfound
  exact ⟨.numeral hnumeral (Decimal.toBinary64_isNearest _) hspells hblanks, htight⟩

theorem sound_parenthesized (hinner : inner.Sound E) : (parenthesized inner).Sound (Atom E) := by
  intro c c' e hc h
  obtain ⟨_, c₁, c₂, _, hopening, hread, hclosing⟩ := read_between_eq_some.1 h
  obtain ⟨-, hopening, hc₁⟩ := (read_symbol_eq_some hc).1 hopening
  obtain ⟨he, hc₂⟩ := hinner hc₁ hread
  obtain ⟨-, hclosing, hc'⟩ := (read_symbol_eq_some hc₂).1 hclosing
  exact ⟨.parenthesized hopening he hclosing, hc'⟩

theorem sound_arguments (hinner : inner.Sound E) :
    (separated inner (padded (char ','))).Sound (Items E (Token [','])) := by
  intro c c' args hc h
  refine (items_of_read_separated h).imp (fun hc h => hinner hc h) ?_ hc
  rintro c c' hc ⟨b, hb⟩
  exact ((read_symbol_eq_some hc).1 hb).2

theorem sound_named (hinner : inner.Sound E) : (named inner).Sound (Atom E) := by
  intro c c' e hc h
  obtain ⟨c₂, hread, hblanks, htight⟩ := (read_padded_of_tight hc).1 h
  obtain ⟨⟨letters, args?⟩, hfound, rfl⟩ := read_mapSpan_eq_some.1 hread
  obtain ⟨c₁, hname, hargs⟩ := read_pair_eq_some.1 hfound
  obtain ⟨hletters, hspells, -⟩ := read_name_eq_some.1 hname
  dsimp only at hargs
  rw [read_optional, Option.or_eq_some_iff, Option.map_eq_some_iff] at hargs
  rcases hargs with ⟨⟨args, c₃⟩, hargs, heq⟩ | ⟨-, heq⟩
  · cases heq
    obtain ⟨_, d₁, d₂, _, hopening, hitems, hclosing⟩ := read_between_eq_some.1 hargs
    rw [← read_padded_skipBlanks] at hopening
    obtain ⟨-, hopening, hd₁⟩ := (read_symbol_eq_some c₁.tight_skipBlanks).1 hopening
    obtain ⟨hitems, hd₂⟩ := sound_arguments hinner hd₁ hitems
    obtain ⟨-, hclosing, hend⟩ := (read_symbol_eq_some hd₂).1 hclosing
    -- There are no blanks left behind the parenthesis.
    obtain rfl := (Cursor.skipBlanks_of_tight hend).symm.trans (Cursor.skipBlanks_eq hblanks htight)
    exact ⟨.call hletters ⟨c₁, hspells, c₁.blanks_skipBlanks⟩ hopening hitems hclosing, htight⟩
  · cases heq
    exact ⟨.ident hletters hspells hblanks, htight⟩

theorem sound_atom (hinner : inner.Sound E) : (atom inner).Sound (Atom E) := by
  intro c c' e hc h
  rw [atom, read_oneOfThree, Option.or_eq_some_iff, Option.or_eq_some_iff] at h
  rcases h with (h | ⟨-, h⟩) | ⟨-, h⟩
  · exact sound_number hc h
  · exact sound_named hinner hc h
  · exact sound_parenthesized hinner hc h

end Inner

theorem sound_bracketed : bracketed.Sound Bracketed := by
  intro c c' found hc h
  obtain ⟨c₃, hread, hblanks, htight⟩ := (read_padded_of_tight hc).1 h
  obtain ⟨n, hbetween, rfl⟩ := read_mapSpan_eq_some.1 hread
  obtain ⟨_, c₁, c₂, _, hopening, hpadded, hclosing⟩ := read_between_eq_some.1 hbetween
  obtain ⟨d, hplace, rfl⟩ := read_padded_eq_some.1 hpadded
  obtain ⟨digits, hdigits, hspells, hlt, rfl⟩ := place_of_read hplace
  exact ⟨.mk ⟨c₁, (read_char_eq_some.1 hopening).2, c₁.blanks_skipBlanks⟩ hdigits hlt
    ⟨d, hspells, d.blanks_skipBlanks⟩ (read_char_eq_some.1 hclosing).2 hblanks, htight⟩

theorem sound_minus : minus.Sound Sign := by
  intro c c' span hc h
  obtain ⟨_, hread, rfl⟩ := read_mapSpan_eq_some.1 h
  obtain ⟨-, htoken, htight⟩ := (read_symbol_eq_some hc).1 hread
  exact ⟨.mk htoken, htight⟩

theorem sound_postfixed {inner : Parser Expr} {E : Form Expr} (hinner : inner.Sound E) :
    (postfixed inner).Sound (Indexed (Atom E)) := by
  intro c c' e hc h
  obtain ⟨found, hread, rfl⟩ := read_map_eq_some.1 h
  obtain ⟨c₁, hatom, hindices⟩ := read_pair_eq_some.1 hread
  obtain ⟨hatom, hc₁⟩ := sound_atom hinner hc hatom
  obtain ⟨hindices, htight⟩ := sound_bracketed.many hc₁ hindices
  exact ⟨indexed_iff.2 ⟨_, _, _, hatom, hindices, rfl⟩, htight⟩

theorem sound_unary {inner : Parser Expr} {E : Form Expr} (hinner : inner.Sound E) :
    (unary inner).Sound (Negated (Indexed (Atom E))) := by
  intro c c' e hc h
  obtain ⟨found, hread, rfl⟩ := read_map_eq_some.1 h
  obtain ⟨c₁, hsigns, hoperand⟩ := read_pair_eq_some.1 hread
  obtain ⟨hsigns, hc₁⟩ := sound_minus.many hc hsigns
  obtain ⟨hoperand, htight⟩ := sound_postfixed hinner hc₁ hoperand
  exact ⟨negated_iff.2 ⟨_, _, _, hsigns, hoperand, rfl⟩, htight⟩

theorem sound_joining {operand : Parser Expr} {F : Form Expr} (hoperand : operand.Sound F)
    (first second : Operator) :
    (pair (orElse (operator first) (operator second)) operand).Sound (Joining first second F) := by
  intro c c' found hc h
  obtain ⟨op, right⟩ := found
  obtain ⟨c₁, hop, hright⟩ := read_pair_eq_some.1 h
  obtain ⟨hop, hsymbol, hc₁⟩ := (read_operators_eq_some hc).1 hop
  obtain ⟨hright, htight⟩ := hoperand hc₁ hright
  exact ⟨.mk hop hsymbol hright, htight⟩

theorem sound_chain {operand : Parser Expr} {F : Form Expr} (hoperand : operand.Sound F)
    (first second : Operator) : (chain first second operand).Sound (Chain first second F) := by
  intro c c' e hc h
  obtain ⟨found, hread, rfl⟩ := read_map_eq_some.1 h
  obtain ⟨c₁, hleft, hmore⟩ := read_pair_eq_some.1 hread
  obtain ⟨hleft, hc₁⟩ := hoperand hc hleft
  obtain ⟨hmore, htight⟩ := Sound.many (sound_joining hoperand first second) hc₁ hmore
  exact ⟨chain_iff.2 ⟨_, _, _, hleft, hmore, rfl⟩, htight⟩

/-- Whatever is read as an expression is one, with the tree that the grammar gives it. -/
theorem sound_expression : Sound expression Expression := by
  intro c c' e hc h
  generalize hlength : c.rest.length = n
  induction n using Nat.strongRecOn generalizing c c' e with
  | ind n ih =>
    have hinner : Sound (behind expression c) Expression := by
      intro d d' e' hd hread
      obtain ⟨hlt, hread⟩ := read_behind_eq_some.1 hread
      exact ih _ (hlength ▸ hlt) hd hread rfl
    rw [expression, read_fix] at h
    obtain ⟨hchain, htight⟩ := sound_chain (sound_chain (sound_unary hinner) .mul .div) .add .sub hc h
    exact ⟨.mk hchain, htight⟩

/-! ## Functions -/

theorem parameter_of_read {x : Param} (h : param.read c = some (x, c')) : Parameter c x c' := by
  obtain ⟨c₁, hread, rfl⟩ := read_padded_eq_some.1 h
  obtain ⟨letters, hname, rfl⟩ := read_mapSpan_eq_some.1 hread
  obtain ⟨hletters, hspells, -⟩ := read_name_eq_some.1 hname
  exact .mk c.blanks_skipBlanks hletters hspells c₁.blanks_skipBlanks

/-- Whatever is read as a function is the definition of it, up to the end of the text. -/
theorem definition_of_read {f : Function} (h : function.read c = some (f, c')) :
    Definition c f c' ∧ c'.rest = [] := by
  obtain ⟨⟨⟨letters, params⟩, body⟩, hread, rfl⟩ := read_mapSpan_eq_some.1 h
  obtain ⟨c₈, _, hread, hend⟩ := read_left_eq_some.1 hread
  obtain ⟨hend, rfl⟩ := read_endOfInput_eq_some.1 hend
  obtain ⟨c₇, hread, hbody⟩ := read_pair_eq_some.1 hread
  obtain ⟨c₆, _, hread, hequals⟩ := read_left_eq_some.1 hread
  obtain ⟨c₄, hread, hparams⟩ := read_pair_eq_some.1 hread
  obtain ⟨c₃, _, hpadded, hname⟩ := read_right_eq_some.1 hread
  dsimp only at hbody hparams hname
  obtain ⟨c₂, hkeyword, rfl⟩ := read_padded_eq_some.1 hpadded
  obtain ⟨hspells, hmeets⟩ := read_keyword_eq_some.1 hkeyword
  obtain ⟨c₄', hname, hblanks, hc₄⟩ := (read_padded_of_tight c₂.tight_skipBlanks).1 hname
  obtain ⟨hletters, hspells', -⟩ := read_name_eq_some.1 hname
  obtain ⟨d, hlist, hblanks', hc₆⟩ := (read_padded_of_tight hc₄).1 hparams
  obtain ⟨_, c₅, c₅', _, hopening, hitems, hclosing⟩ := read_between_eq_some.1 hlist
  obtain ⟨hitems, -⟩ : Items Parameter (fun d d' => d.Spells [','] d') c₅ params c₅' ∧ True := by
    refine (items_of_read_separated hitems).imp (fun _ hread => ⟨parameter_of_read hread, trivial⟩)
      ?_ trivial
    rintro d d' - ⟨b, hread⟩
    exact ⟨(read_char_eq_some.1 hread).2, trivial⟩
  obtain ⟨-, hequals, hc₇⟩ := (read_symbol_eq_some hc₆).1 hequals
  obtain ⟨hbody, -⟩ := sound_expression hc₇ hbody
  exact ⟨.mk c.blanks_skipBlanks hspells hmeets c₂.blanks_skipBlanks hletters
    ⟨c₄', hspells', hblanks⟩ (read_char_eq_some.1 hopening).2 hitems
    ⟨d, (read_char_eq_some.1 hclosing).2, hblanks'⟩ hequals hbody, hend⟩

end Parser

end StagedTangent.Source
