import Mathlib.Data.List.SplitBy
import Mathlib.Tactic.FinCases
import StagedTangent.Proofs.Source.Completeness

/-!
# Lexemes of a text

A text is made of names, numerals and single signs with blanks between them. `lexemes` takes a text
apart without regard to the grammar: whatever stands next to each other of the characters of names
and numerals belongs together, and every other character that is not blank is by itself. Blanks
between lexemes make no difference to them (`lexemes_blanks`), and a token of the grammar is one of
them (`lexemes_word`, `lexemes_sign`).
-/

namespace StagedTangent.Source

/-- The characters of names and numerals. -/
def isWordPart (d : Char) : Bool := isNamePart d || decide (d = '.')

/-- Two characters that belong to one word if they stand next to each other. -/
def together (d e : Char) : Bool := isWordPart d && isWordPart e

/-- The lexemes of a text: the longest runs of characters of names and numerals, and all other
characters one by one. Blanks are left out. -/
def lexemes (cs : List Char) : List (List Char) :=
  (cs.splitBy together).filter fun letters => !letters.all Text.isBlank

/-- The signs of the grammar. -/
def isSign (d : Char) : Bool :=
  ['(', ')', '[', ']', ',', '=', '+', '-', '*', '/'].contains d

/-- A name, a numeral, or a sign of the grammar. -/
def IsLexeme (letters : List Char) : Prop :=
  IsName letters ∨ (∃ r, Numeral letters r) ∨ ∃ d, isSign d = true ∧ letters = [d]

/-- The characters of a text that are not blank. -/
def solid (cs : List Char) : List Char := cs.filter fun d => !Text.isBlank d

variable {front back blanks letters : List Char} {d : Char}

/-! ## Taking texts apart -/

theorem isBlank_of_isWordPart (h : isWordPart d = true) : Text.isBlank d = false := by
  rw [isWordPart, Bool.or_eq_true, decide_eq_true_eq] at h
  rcases h with hpart | rfl
  · exact isBlank_of_isNamePart hpart
  · rfl

theorem isWordPart_of_isBlank (h : Text.isBlank d = true) : isWordPart d = false :=
  eq_false_of_ne_true fun hword => by cases h.symm.trans (isBlank_of_isWordPart hword)

theorem isWordPart_of_isNamePart (h : isNamePart d = true) : isWordPart d = true := by
  rw [isWordPart, h, Bool.true_or]

theorem isWordPart_of_isDigit (h : d.isDigit = true) : isWordPart d = true :=
  isWordPart_of_isNamePart (isNamePart_iff.2 (.inr h))

theorem lexemes_nil : lexemes [] = [] := rfl

/-- Two texts have their own lexemes if they meet between two. -/
theorem lexemes_append
    (h : ∀ d ∈ front.getLast?, ∀ e ∈ back.head?, together d e = false) :
    lexemes (front ++ back) = lexemes front ++ lexemes back := by
  rw [lexemes, List.splitBy_append h, List.filter_append, lexemes, lexemes]

/-- A character that is no part of a word stands by itself. -/
theorem lexemes_cons (h : isWordPart d = false) (back : List Char) :
    lexemes (d :: back) = lexemes [d] ++ lexemes back := by
  have happend : d :: back = [d] ++ back := rfl
  rw [happend]
  refine lexemes_append fun d' hd' e _ => ?_
  obtain rfl : d = d' := Option.some.inj hd'
  rw [together, h, Bool.false_and]

theorem lexemes_sign (h : isWordPart d = false) (hblank : Text.isBlank d = false)
    (back : List Char) : lexemes (d :: back) = [d] :: lexemes back := by
  rw [lexemes_cons h]
  simp [lexemes, List.splitBy, List.splitBy.loop, hblank]

theorem lexemes_blank (h : Text.isBlank d = true) (back : List Char) :
    lexemes (d :: back) = lexemes back := by
  rw [lexemes_cons (isWordPart_of_isBlank h)]
  simp [lexemes, List.splitBy, List.splitBy.loop, h]

theorem lexemes_blanks (h : ∀ b ∈ blanks, Text.isBlank b = true) (back : List Char) :
    lexemes (blanks ++ back) = lexemes back := by
  induction blanks with
  | nil => rfl
  | cons b blanks ih =>
    obtain ⟨hb, hblanks⟩ := List.forall_mem_cons.1 h
    rw [List.cons_append, lexemes_blank hb, ih hblanks]

/-- A word is one lexeme if no further character of a word stands behind it. -/
theorem lexemes_word (hne : letters ≠ []) (hword : ∀ e ∈ letters, isWordPart e = true)
    (hback : ∀ e ∈ back.head?, isWordPart e = false) :
    lexemes (letters ++ back) = letters :: lexemes back := by
  have hapart : ∀ d ∈ letters.getLast?, ∀ e ∈ back.head?, together d e = false := by
    intro d _ e he
    rw [together, hback e he, Bool.and_false]
  have hchain : letters.IsChain fun d e => together d e = true := by
    refine (List.pairwise_of_forall_mem_list fun d hd e he => ?_).isChain
    rw [together, hword d hd, hword e he, Bool.and_self]
  have hsolid : (!letters.all Text.isBlank) = true := by
    obtain ⟨e, he⟩ := List.exists_mem_of_ne_nil letters hne
    rw [Bool.not_eq_true', List.all_eq_false]
    exact ⟨e, he, by rw [isBlank_of_isWordPart (hword e he)]; exact Bool.false_ne_true⟩
  have hone : lexemes letters = [letters] := by
    rw [lexemes, List.splitBy_of_isChain hne hchain]
    exact List.filter_cons_of_pos hsolid
  rw [lexemes_append hapart, hone]
  rfl

/-- Where no blank stands in front, the first part of a text is a lexeme. -/
theorem lexemes_of_splitBy {cs first : List Char} {parts : List (List Char)}
    (hcs : ∀ e ∈ cs.head?, Text.isBlank e = false) (h : cs.splitBy together = first :: parts) :
    lexemes cs = first :: parts.filter fun letters => !letters.all Text.isBlank := by
  obtain ⟨rfl, hne, -, -⟩ := List.splitBy_eq_iff.1 h
  have hsolid : (!first.all Text.isBlank) = true := by
    cases first with
    | nil => exact absurd List.mem_cons_self hne
    | cons e first =>
      have he : Text.isBlank e = false := hcs e rfl
      rw [List.all_cons, he, Bool.false_and, Bool.not_false]
  rw [lexemes, h]
  exact List.filter_cons_of_pos hsolid

/-- A text without lexemes has nothing but blanks in it. -/
theorem eq_nil_of_lexemes_eq_nil {cs : List Char} (hcs : ∀ e ∈ cs.head?, Text.isBlank e = false)
    (h : lexemes cs = []) : cs = [] := by
  cases hparts : cs.splitBy together with
  | nil => exact List.splitBy_eq_nil.1 hparts
  | cons first parts => cases (lexemes_of_splitBy hcs hparts).symm.trans h

/-- Where no blank stands in front, the first lexeme stands. A word goes as far as it can. -/
theorem exists_append_of_lexemes_eq_cons {cs : List Char} {more : List (List Char)}
    (hcs : ∀ e ∈ cs.head?, Text.isBlank e = false) (h : lexemes cs = letters :: more) :
    ∃ back, cs = letters ++ back ∧ lexemes back = more ∧
      ((∀ e ∈ letters, isWordPart e = true) → ∀ e ∈ back.head?, isWordPart e = false) := by
  cases hparts : cs.splitBy together with
  | nil =>
    obtain rfl := List.splitBy_eq_nil.1 hparts
    cases h
  | cons first parts =>
    obtain ⟨rfl, hmore⟩ := List.cons.inj ((lexemes_of_splitBy hcs hparts).symm.trans h)
    obtain ⟨hflatten, hne, hchain, hapart⟩ := List.splitBy_eq_iff.1 hparts
    have hback : parts.flatten.splitBy together = parts :=
      List.splitBy_flatten (fun hmem => hne (List.mem_cons_of_mem _ hmem))
        (fun m hm => hchain m (List.mem_cons_of_mem _ hm)) hapart.tail
    refine ⟨parts.flatten, hflatten, by rw [lexemes, hback, hmore], fun hword e he => ?_⟩
    cases parts with
    | nil => cases he
    | cons second parts =>
      obtain ⟨hlast, hhead, hfalse⟩ := hapart.rel
      rw [List.flatten_cons, List.head?_append_of_ne_nil _ hhead, List.head?_eq_some_head hhead] at he
      obtain rfl := Option.some.inj he
      rwa [together, hword _ (List.getLast_mem hlast), Bool.true_and] at hfalse

/-- The first lexeme begins with the first character that is not blank. -/
theorem head?_solid_of_lexemes {cs : List Char} {more : List (List Char)}
    (h : lexemes cs = (d :: letters) :: more) : (solid cs).head? = some d := by
  induction cs with
  | nil => cases h
  | cons e cs ih =>
    cases he : Text.isBlank e with
    | true =>
      rw [lexemes_blank he] at h
      rw [solid, List.filter_cons_of_neg (by rw [he]; exact Bool.false_ne_true)]
      exact ih h
    | false =>
      have hcs : ∀ e' ∈ (e :: cs).head?, Text.isBlank e' = false := by
        rintro e' ⟨⟩
        exact he
      obtain ⟨back, hback, -⟩ := exists_append_of_lexemes_eq_cons hcs h
      obtain ⟨rfl, -⟩ := List.cons.inj hback
      rw [solid, List.filter_cons_of_pos (by rw [he]; rfl), List.head?_cons]

/-! ## Blanks between lexemes -/

theorem solid_append (front back : List Char) : solid (front ++ back) = solid front ++ solid back :=
  List.filter_append ..

theorem solid_of_forall (h : ∀ e ∈ letters, Text.isBlank e = false) : solid letters = letters := by
  refine List.filter_eq_self.2 fun e he => ?_
  rw [h e he, Bool.not_false]

theorem solid_blanks (h : ∀ b ∈ blanks, Text.isBlank b = true) : solid blanks = [] := by
  refine List.filter_eq_nil_iff.2 fun b hb => ?_
  rw [h b hb]
  exact Bool.false_ne_true

/-- Blanks between two texts keep their lexemes apart. -/
theorem lexemes_insert (hblanks : ∀ b ∈ blanks, Text.isBlank b = true) (hne : blanks ≠ [])
    (front back : List Char) : lexemes (front ++ blanks ++ back) = lexemes front ++ lexemes back := by
  obtain ⟨b, more, rfl⟩ := List.exists_cons_of_ne_nil hne
  have hb : isWordPart b = false := isWordPart_of_isBlank (hblanks b List.mem_cons_self)
  rw [List.append_assoc, lexemes_append, lexemes_blanks hblanks]
  intro d _ e he
  obtain rfl : b = e := Option.some.inj he
  rw [together, hb, Bool.and_false]

/-! ## Words and signs -/

theorem isWordPart_of_isSign (h : isSign d = true) : isWordPart d = false ∧ Text.isBlank d = false := by
  have hmem := List.contains_iff_mem.1 h
  fin_cases hmem <;> exact ⟨rfl, rfl⟩

theorem IsName.isNamePart (h : IsName letters) : ∀ e ∈ letters, isNamePart e = true := by
  obtain ⟨first, more, rfl, hfirst, hmore⟩ := h
  exact List.forall_mem_cons.2 ⟨isNamePart_iff.2 (.inl hfirst), hmore⟩

theorem IsName.isWordPart (h : IsName letters) : ∀ e ∈ letters, isWordPart e = true :=
  fun e he => isWordPart_of_isNamePart (h.isNamePart e he)

theorem IsWhole.isDigit (h : IsWhole letters) : ∀ e ∈ letters, e.isDigit = true := by
  rcases h with rfl | ⟨first, more, rfl, hfirst, hmore⟩
  · exact List.forall_mem_singleton.2 rfl
  · rw [isNonzeroDigit, Bool.and_eq_true] at hfirst
    exact List.forall_mem_cons.2 ⟨hfirst.1, hmore⟩

theorem Numeral.isWordPart {r : ℚ} (h : Numeral letters r) : ∀ e ∈ letters, isWordPart e = true := by
  cases h with
  | whole hdigits => exact fun e he => isWordPart_of_isDigit (hdigits.isDigit e he)
  | point hdigits _ hfraction =>
    refine List.forall_mem_append.2 ⟨fun e he => isWordPart_of_isDigit (hdigits.isDigit e he), ?_⟩
    exact List.forall_mem_cons.2 ⟨rfl, fun e he => isWordPart_of_isDigit (hfraction e he)⟩

/-! ## Lexemes at a place -/

section Places

variable {c c₁ c' : Cursor} {more : List (List Char)}

/-- No word stands at a place. -/
abbrev EndsWord (c : Cursor) : Prop := c.Meets fun d => isWordPart d = false

theorem Cursor.meets_iff {ok : Char → Prop} : c.Meets ok ↔ ∀ e ∈ c.rest.head?, ok e := by
  constructor
  · intro h e he
    obtain ⟨rest, hrest⟩ := List.head?_eq_some_iff.1 he
    exact h e rest hrest
  · intro h e rest hrest
    exact h e (List.head?_eq_some_iff.2 ⟨rest, hrest⟩)

theorem Blanks.lexemes_eq (h : Blanks c c') : lexemes c.rest = lexemes c'.rest := by
  obtain ⟨blanks, hblanks, hspells⟩ := h
  rw [hspells.rest, lexemes_blanks hblanks]

/-- The token of a sign is a lexeme. -/
theorem Token.lexemes_of_sign (h : Token [d] c c') (hword : isWordPart d = false)
    (hblank : Text.isBlank d = false) : lexemes c.rest = [d] :: lexemes c'.rest := by
  obtain ⟨c₁, hspells, hblanks⟩ := h
  rw [hspells.rest, ← hblanks.lexemes_eq]
  exact lexemes_sign hword hblank _

/-- The token of a word is a lexeme, if no further word stands right behind it. -/
theorem Token.lexemes_of_word (h : Token letters c c') (hne : letters ≠ [])
    (hword : ∀ e ∈ letters, isWordPart e = true) (hc' : EndsWord c') :
    lexemes c.rest = letters :: lexemes c'.rest := by
  obtain ⟨c₁, hspells, hblanks⟩ := h
  have hc₁ := hblanks.meets (fun _ hd => isWordPart_of_isBlank hd) hc'
  rw [hspells.rest, lexemes_word hne hword (Cursor.meets_iff.1 hc₁), hblanks.lexemes_eq]

/-- Where no blank stands in front, the letters of the first lexeme stand. -/
theorem exists_spells_of_lexemes (hc : c.Tight) (h : lexemes c.rest = letters :: more) :
    ∃ c₁, c.Spells letters c₁ ∧ lexemes c₁.rest = more ∧
      ((∀ e ∈ letters, isWordPart e = true) → EndsWord c₁) := by
  obtain ⟨back, hback, hmore, hends⟩ := exists_append_of_lexemes_eq_cons (Cursor.meets_iff.1 hc) h
  exact ⟨⟨c.position + letters.length, back⟩, ⟨hback, rfl⟩, hmore, fun hword =>
    Cursor.meets_iff.2 (hends hword)⟩

/-- Where no blank stands in front, the first lexeme is a token with all blanks behind it. -/
theorem exists_token_of_lexemes (hc : c.Tight) (h : lexemes c.rest = letters :: more) :
    ∃ c', Token letters c c' ∧ c'.Tight ∧ lexemes c'.rest = more := by
  obtain ⟨c₁, hspells, hmore, -⟩ := exists_spells_of_lexemes hc h
  have hblanks := c₁.blanks_skipBlanks
  exact ⟨c₁.skipBlanks, ⟨c₁, hspells, hblanks⟩, c₁.tight_skipBlanks, hblanks.lexemes_eq.symm.trans hmore⟩

end Places

end StagedTangent.Source
