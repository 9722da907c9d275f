import StagedTangent.Proofs.Source.Repetition

/-!
# What the parsers of tokens read

A name is read as far as it goes, and so are the digits of a numeral; where something else stands
behind them, that is what the grammar takes for a name or a numeral. A token that is read from a
place with no blank takes all blanks behind it, and so ends at such a place again.
-/

namespace StagedTangent.Source.Parser

variable {α : Type} {p : Parser α} {c c' : Cursor}

/-! ## Blanks -/

/-- Where no blank stands in front, only those behind are skipped. -/
theorem read_padded_of_tight (hc : c.Tight) {a : α} :
    (padded p).read c = some (a, c') ↔
      ∃ c₁, p.read c = some (a, c₁) ∧ Blanks c₁ c' ∧ c'.Tight := by
  rw [read_padded_eq_some, Cursor.skipBlanks_of_tight hc]
  refine exists_congr fun c₁ => and_congr_right fun _ => ?_
  constructor
  · rintro rfl
    exact ⟨c₁.blanks_skipBlanks, c₁.tight_skipBlanks⟩
  · rintro ⟨hblanks, htight⟩
    exact Cursor.skipBlanks_eq hblanks htight

/-- Blanks in front make no difference. -/
theorem read_padded_skipBlanks (p : Parser α) (c : Cursor) :
    (padded p).read c.skipBlanks = (padded p).read c := by
  rw [read, padded, Cursor.skipBlanks_of_tight c.tight_skipBlanks]
  rfl

/-- The token of a single character. -/
theorem read_symbol_eq_some (hc : c.Tight) {d e : Char} :
    (padded (char d)).read c = some (e, c') ↔ e = d ∧ Token [d] c c' ∧ c'.Tight := by
  rw [read_padded_of_tight hc]
  constructor
  · rintro ⟨c₁, hread, hblanks, htight⟩
    obtain ⟨rfl, hspells⟩ := read_char_eq_some.1 hread
    exact ⟨rfl, ⟨c₁, hspells, hblanks⟩, htight⟩
  · rintro ⟨rfl, ⟨c₁, hspells, hblanks⟩, htight⟩
    exact ⟨c₁, read_char_eq_some.2 ⟨rfl, hspells⟩, hblanks, htight⟩

theorem read_symbol_eq_none (hc : c.Tight) {d : Char} (h : c.Meets fun e => e ≠ d) :
    (padded (char d)).read c = none := by
  cases hread : (padded (char d)).read c with
  | none => rfl
  | some found =>
    obtain ⟨c₁, hchar, -⟩ := (read_padded_of_tight hc).1 hread
    cases (read_char_eq_none h).symm.trans hchar

theorem read_operator_eq_some (hc : c.Tight) {op found : Operator} :
    (operator op).read c = some (found, c') ↔ found = op ∧ Token [op.symbol] c c' ∧ c'.Tight := by
  rw [operator, read_map_eq_some]
  constructor
  · rintro ⟨_, hread, rfl⟩
    exact ⟨rfl, ((read_symbol_eq_some hc).1 hread).2⟩
  · rintro ⟨rfl, h⟩
    exact ⟨_, (read_symbol_eq_some hc).2 ⟨rfl, h⟩, rfl⟩

theorem symbol_injective : Function.Injective Operator.symbol := by
  intro op op' h
  cases op <;> cases op' <;> first | rfl | exact absurd h (by decide)

/-- Either of two operators. They are told apart by their signs. -/
theorem read_operators_eq_some (hc : c.Tight) {first second op : Operator} :
    (orElse (operator first) (operator second)).read c = some (op, c') ↔
      (op = first ∨ op = second) ∧ Token [op.symbol] c c' ∧ c'.Tight := by
  rw [read_orElse, Option.or_eq_some_iff, read_operator_eq_some hc, read_operator_eq_some hc]
  constructor
  · rintro (⟨rfl, h⟩ | ⟨-, rfl, h⟩)
    · exact ⟨.inl rfl, h⟩
    · exact ⟨.inr rfl, h⟩
  · rintro ⟨hop, h⟩
    by_cases hfirst : op = first
    · subst hfirst
      exact .inl ⟨rfl, h⟩
    · obtain rfl := hop.resolve_left hfirst
      refine .inr ⟨?_, rfl, h⟩
      cases hread : (operator first).read c with
      | none => rfl
      | some found =>
        obtain ⟨-, ⟨_, hspells, -⟩, -⟩ := (read_operator_eq_some hc).1 hread
        obtain ⟨⟨_, hspells', -⟩, -⟩ := h
        obtain ⟨hsymbol, -⟩ := List.cons.inj (hspells.rest.symm.trans hspells'.rest)
        exact absurd (symbol_injective hsymbol).symm hfirst

/-! ## Names -/

/-- The first character and the others. -/
theorem spells_cons {d : Char} {letters : List Char} :
    c.Spells (d :: letters) c' ↔ ∃ c₁, c.Spells [d] c₁ ∧ c₁.Spells letters c' := by
  constructor
  · intro h
    have happend : c.Spells ([d] ++ letters) c' := h
    exact happend.of_append
  · rintro ⟨c₁, hfirst, hmore⟩
    exact hfirst.append hmore

/-- A character of a class and as many of another as stand behind it. -/
theorem read_word_eq_some {start more : Char → Bool} {letters : List Char} :
    (andThen List.cons (satisfy start) (many (satisfy more))).read c = some (letters, c') ↔
      (∃ first rest, letters = first :: rest ∧ start first = true ∧ ∀ d ∈ rest, more d = true) ∧
        c.Spells letters c' ∧ c'.Meets fun d => more d = false := by
  rw [read_andThen_eq_some]
  constructor
  · rintro ⟨first, c₁, rest, hfirst, hrest, rfl⟩
    obtain ⟨hstart, hspells⟩ := read_satisfy_eq_some.1 hfirst
    obtain ⟨hall, hspells', hmeets⟩ := read_many_satisfy_eq_some.1 hrest
    exact ⟨⟨first, rest, rfl, hstart, hall⟩, spells_cons.2 ⟨c₁, hspells, hspells'⟩, hmeets⟩
  · rintro ⟨⟨first, rest, rfl, hstart, hall⟩, hspells, hmeets⟩
    obtain ⟨c₁, hfirst, hrest⟩ := spells_cons.1 hspells
    exact ⟨first, c₁, rest, read_satisfy_eq_some.2 ⟨hstart, hfirst⟩,
      read_many_satisfy_eq_some.2 ⟨hall, hrest, hmeets⟩, rfl⟩

theorem read_name_eq_some {letters : List Char} :
    name.read c = some (letters, c') ↔
      IsName letters ∧ c.Spells letters c' ∧ c'.Meets fun d => isNamePart d = false :=
  read_word_eq_some

theorem read_keyword_eq_some {u : Unit} :
    keyword.read c = some (u, c') ↔
      c.Spells ['f', 'n'] c' ∧ c'.Meets fun d => isNamePart d = false := by
  rw [keyword, read_accept_eq_some]
  constructor
  · rintro ⟨letters, hread, haccept⟩
    obtain ⟨-, hspells, hmeets⟩ := read_name_eq_some.1 hread
    split at haccept
    · next heq => exact ⟨heq ▸ hspells, hmeets⟩
    · cases haccept
  · rintro ⟨hspells, hmeets⟩
    exact ⟨['f', 'n'], read_name_eq_some.2
      ⟨⟨'f', ['n'], rfl, rfl, List.forall_mem_singleton.2 rfl⟩, hspells, hmeets⟩, rfl⟩

/-! ## Numerals -/

theorem isWhole_of_read {digits : List Char} (h : whole.read c = some (digits, c')) :
    IsWhole digits ∧ c.Spells digits c' := by
  rw [whole, read_orElse, Option.or_eq_some_iff] at h
  rcases h with h | ⟨-, h⟩
  · obtain ⟨hdigits, hspells, -⟩ := read_word_eq_some.1 h
    exact ⟨.inr hdigits, hspells⟩
  · obtain ⟨d, hd, rfl⟩ := read_map_eq_some.1 h
    obtain ⟨rfl, hspells⟩ := read_char_eq_some.1 hd
    exact ⟨.inl rfl, hspells⟩

theorem read_whole {digits : List Char} (h : IsWhole digits) (hspells : c.Spells digits c')
    (hmeets : c'.Meets fun d => d.isDigit = false) : whole.read c = some (digits, c') := by
  rw [whole, read_orElse, Option.or_eq_some_iff]
  rcases h with rfl | hdigits
  · refine .inr ⟨?_, read_map_eq_some.2 ⟨'0', read_char_eq_some.2 ⟨rfl, hspells⟩, rfl⟩⟩
    -- A zero is no first digit of a longer number.
    cases hread :
        (andThen List.cons (satisfy isNonzeroDigit) (many (satisfy Char.isDigit))).read c with
    | none => rfl
    | some found =>
      obtain ⟨⟨first, rest, hfound, hfirst, -⟩, hspells', -⟩ := read_word_eq_some.1 hread
      have hrest := hspells'.rest
      rw [hfound, hspells.rest] at hrest
      obtain ⟨rfl, -⟩ := List.cons.inj hrest
      exact absurd hfirst (by decide)
  · exact .inl (read_word_eq_some.2 ⟨hdigits, hspells, hmeets⟩)

theorem read_fraction_eq_some {digits : List Char} :
    fraction.read c = some (digits, c') ↔
      (digits ≠ [] ∧ ∀ d ∈ digits, d.isDigit = true) ∧ c.Spells ('.' :: digits) c' ∧
        c'.Meets fun d => d.isDigit = false := by
  rw [fraction, read_right_eq_some, spells_cons]
  constructor
  · rintro ⟨c₁, point, hpoint, hread⟩
    rw [read_many1, Option.bind_eq_some_iff] at hread
    obtain ⟨found, hfound, hmany⟩ := hread
    obtain ⟨rfl, hspells⟩ := read_char_eq_some.1 hpoint
    obtain ⟨hall, hspells', hmeets⟩ := read_many_satisfy_eq_some.1 hmany
    refine ⟨⟨?_, hall⟩, ⟨c₁, hspells, hspells'⟩, hmeets⟩
    rintro rfl
    obtain ⟨hdigit, hd⟩ := read_satisfy_eq_some.1 hfound
    obtain rfl := (Cursor.Spells.nil c₁).unique hspells'
    cases hdigit.symm.trans (hmeets _ _ hd.rest)
  · rintro ⟨⟨hne, hall⟩, ⟨c₁, hspells, hspells'⟩, hmeets⟩
    refine ⟨c₁, '.', read_char_eq_some.2 ⟨rfl, hspells⟩, ?_⟩
    obtain ⟨d, rest, rfl⟩ := List.exists_cons_of_ne_nil hne
    obtain ⟨c₂, hd, -⟩ := spells_cons.1 hspells'
    rw [read_many1, read_satisfy_eq_some.2 ⟨(List.forall_mem_cons.1 hall).1, hd⟩]
    exact read_many_satisfy_eq_some.2 ⟨hall, hspells', hmeets⟩

/-- The number that digits and the digits behind a point are read as. -/
theorem numeral_of_read {found : List Char × Option (List Char)}
    (h : (pair whole (optional fraction)).read c = some (found, c')) :
    ∃ letters, c.Spells letters c' ∧
      Numeral letters (Decimal.ofNumeral found.1 (found.2.getD [])).value := by
  obtain ⟨c₁, hwhole, hfraction⟩ := read_pair_eq_some.1 h
  obtain ⟨hdigits, hspells⟩ := isWhole_of_read hwhole
  obtain ⟨digits, fraction?⟩ := found
  dsimp only at hfraction hdigits hspells ⊢
  rw [read_optional, Option.or_eq_some_iff, Option.map_eq_some_iff] at hfraction
  rcases hfraction with ⟨⟨digits', c₂⟩, hread, heq⟩ | ⟨-, heq⟩
  · cases heq
    obtain ⟨⟨hne, hall⟩, hspells', -⟩ := read_fraction_eq_some.1 hread
    refine ⟨digits ++ '.' :: digits', hspells.append hspells', ?_⟩
    rw [Decimal.value_ofNumeral]
    exact .point hdigits hne hall
  · cases heq
    refine ⟨digits, hspells, ?_⟩
    rw [Decimal.value_ofNumeral]
    have hvalue : (naturalOfDigits digits : ℚ) + naturalOfDigits [] / 10 ^ ([] : List Char).length =
        naturalOfDigits digits := by simp [naturalOfDigits]
    rw [Option.getD_none, hvalue]
    exact .whole hdigits

theorem read_numeral {letters : List Char} {r : ℚ} (h : Numeral letters r)
    (hspells : c.Spells letters c') (hmeets : c'.Meets fun d => d.isDigit = false ∧ d ≠ '.') :
    ∃ found, (pair whole (optional fraction)).read c = some (found, c') ∧
      (Decimal.ofNumeral found.1 (found.2.getD [])).value = r := by
  have hdigit := hmeets.imp fun _ h => h.1
  cases h with
  | whole hdigits =>
    refine ⟨(letters, none), read_pair_eq_some.2 ⟨c', read_whole hdigits hspells hdigit, ?_⟩, ?_⟩
    · rw [read_optional]
      cases hread : fraction.read c' with
      | none => rfl
      | some found =>
        obtain ⟨-, hpoint, -⟩ := read_fraction_eq_some.1 hread
        exact absurd rfl (hmeets _ _ hpoint.rest).2
    · rw [Decimal.value_ofNumeral]
      simp [naturalOfDigits]
  | @point digits fraction hdigits hne hall =>
    obtain ⟨c₁, hfront, hback⟩ := hspells.of_append
    refine ⟨(digits, some fraction), read_pair_eq_some.2
      ⟨c₁, read_whole hdigits hfront (hback.meets rfl), ?_⟩, Decimal.value_ofNumeral _ _⟩
    rw [read_optional, read_fraction_eq_some.2 ⟨⟨hne, hall⟩, hback, hdigit⟩]
    rfl

theorem place_of_read {n : Nat} (h : place.read c = some (n, c')) :
    ∃ digits, IsWhole digits ∧ c.Spells digits c' ∧ naturalOfDigits digits < 2 ^ 64 ∧
      naturalOfDigits digits = n := by
  rw [place, read_accept_eq_some] at h
  obtain ⟨digits, hread, haccept⟩ := h
  obtain ⟨hdigits, hspells⟩ := isWhole_of_read hread
  dsimp only at haccept
  split at haccept
  · next hlt =>
    cases haccept
    exact ⟨digits, hdigits, hspells, hlt, rfl⟩
  · cases haccept

theorem read_place {digits : List Char} (h : IsWhole digits) (hspells : c.Spells digits c')
    (hlt : naturalOfDigits digits < 2 ^ 64) (hmeets : c'.Meets fun d => d.isDigit = false) :
    place.read c = some (naturalOfDigits digits, c') := by
  rw [place, read_accept_eq_some]
  exact ⟨digits, read_whole h hspells hmeets, if_pos hlt⟩

end StagedTangent.Source.Parser
