import Mathlib.Data.List.TakeWhile
import StagedTangent.Proofs.Source.Derivation

/-!
# What parsers read

Whether a parser succeeds, with which value and which rest, does not depend on the failures it keeps
on the way. `Parser.read` leaves them out, and for each combinator there is a lemma about `read`
alone. Letters between two places of a text come first: what single characters, names and blanks
come to is said in terms of `Cursor.Spells`.
-/

namespace StagedTangent.Source

variable {α β γ : Type}

/-! ## Places in a text -/

namespace Cursor

variable {c c₁ c' c'' : Cursor}

theorem ext_parts (hposition : c.position = c'.position) (hrest : c.rest = c'.rest) : c = c' := by
  cases c
  cases c'
  cases hposition
  cases hrest
  rfl

/-- The place behind some letters. -/
theorem Spells.unique {letters : List Char} (h : c.Spells letters c') (h' : c.Spells letters c'') :
    c' = c'' :=
  ext_parts (h.position.trans h'.position.symm)
    (List.append_cancel_left (h.rest.symm.trans h'.rest))

theorem Spells.nil (c : Cursor) : c.Spells [] c := ⟨rfl, rfl⟩

theorem Spells.append {front back : List Char} (h : c.Spells front c₁) (h' : c₁.Spells back c') :
    c.Spells (front ++ back) c' := by
  refine ⟨?_, ?_⟩
  · rw [h.rest, h'.rest, List.append_assoc]
  · rw [h'.position, h.position, List.length_append, Nat.add_assoc]

theorem Spells.of_append {front back : List Char} (h : c.Spells (front ++ back) c') :
    ∃ c₁, c.Spells front c₁ ∧ c₁.Spells back c' := by
  refine ⟨⟨c.position + front.length, back ++ c'.rest⟩, ⟨?_, rfl⟩, rfl, ?_⟩
  · rw [h.rest, List.append_assoc]
  · rw [h.position, List.length_append, Nat.add_assoc]

theorem Spells.length_eq {letters : List Char} (h : c.Spells letters c') :
    c.rest.length = letters.length + c'.rest.length := by
  rw [h.rest, List.length_append]

theorem Meets.imp {ok ok' : Char → Prop} (h : c.Meets ok) (himp : ∀ d, ok d → ok' d) :
    c.Meets ok' := fun d rest hrest => himp d (h d rest hrest)

theorem Meets.of_rest_eq_nil {ok : Char → Prop} (h : c.rest = []) : c.Meets ok := by
  intro d rest hrest
  cases h.symm.trans hrest

theorem Spells.meets {d : Char} {more : List Char} {ok : Char → Prop}
    (h : c.Spells (d :: more) c') (hd : ok d) : c.Meets ok := by
  intro e rest hrest
  cases h.rest.symm.trans hrest
  exact hd

/-- No blank stands at a place. -/
abbrev Tight (c : Cursor) : Prop := c.Meets fun d => Text.isBlank d = false

theorem blanks_skipBlanks (c : Cursor) : Blanks c c.skipBlanks := by
  refine ⟨c.rest.takeWhile Text.isBlank, fun b hb => List.mem_takeWhile_imp hb, ?_, rfl⟩
  exact List.takeWhile_append_dropWhile.symm

theorem tight_skipBlanks (c : Cursor) : c.skipBlanks.Tight := by
  intro d rest hrest
  have hhead := List.head?_dropWhile_not Text.isBlank c.rest
  have hdrop : c.rest.dropWhile Text.isBlank = d :: rest := hrest
  rw [hdrop] at hhead
  exact hhead

/-- All blanks have been skipped where no blank stands. -/
theorem skipBlanks_eq (h : Blanks c c') (htight : c'.Tight) : c.skipBlanks = c' := by
  obtain ⟨blanks, hblanks, hspells⟩ := h
  have hdrop : c.rest.dropWhile Text.isBlank = c'.rest := by
    rw [hspells.rest, List.dropWhile_append_of_pos hblanks]
    cases hrest : c'.rest with
    | nil => rfl
    | cons d rest =>
      have hd := htight d rest hrest
      rw [List.dropWhile_cons_of_neg (by rw [hd]; exact Bool.false_ne_true)]
  have hsplit : c.rest.takeWhile Text.isBlank ++ c'.rest = blanks ++ c'.rest := by
    rw [← hspells.rest, ← hdrop, List.takeWhile_append_dropWhile]
  have htake := List.append_cancel_right hsplit
  refine ext_parts ?_ hdrop
  rw [hspells.position, skipBlanks, htake]

theorem blanks_self (c : Cursor) : Blanks c c := ⟨[], nofun, .nil c⟩

theorem skipBlanks_of_tight (h : c.Tight) : c.skipBlanks = c := skipBlanks_eq (blanks_self c) h

end Cursor

/-! ## Reading -/

/-- The value and what is left to read. -/
def Outcome.reading? : Outcome α → Option (α × Cursor)
  | .success a rest _ => some (a, rest)
  | .failure _ => none

namespace Parser

/-- What a parser reads from a place on. -/
def read (p : Parser α) (c : Cursor) : Option (α × Cursor) := (p c).reading?

variable {p : Parser α} {q : Parser β} {c c' : Cursor}

/-- A text is a function if the parser of functions reads one. -/
theorem parse_eq_ok_iff {source : String} {f : Function} :
    parse source = .ok f ↔ ∃ stop, function.read (.ofString source) = some (f, stop) := by
  delta parse
  unfold read
  cases function (.ofString source) with
  | success g stop met => simp [Outcome.reading?]
  | failure failure => simp [Outcome.reading?]

/-! ### Single characters -/

theorem read_satisfy_eq_some {valid : Char → Bool} {d : Char} :
    (satisfy valid).read c = some (d, c') ↔ valid d = true ∧ c.Spells [d] c' := by
  rw [read, satisfy]
  cases hrest : c.rest with
  | nil =>
    refine iff_of_false nofun fun h => ?_
    have := h.2.rest
    rw [hrest] at this
    cases this
  | cons e rest =>
    dsimp only
    constructor
    · intro h
      split at h
      · next he =>
        cases h
        exact ⟨he, hrest, rfl⟩
      · cases h
    · rintro ⟨hd, hspells⟩
      have heq := hrest.symm.trans hspells.rest
      cases heq
      rw [if_pos hd]
      exact congrArg (fun stop => some (d, stop)) (Cursor.ext_parts hspells.position.symm rfl)

theorem read_char_eq_some {d e : Char} :
    (char d).read c = some (e, c') ↔ e = d ∧ c.Spells [d] c' := by
  have hchar : (char d).read c = (satisfy (fun e => decide (e = d))).read c := by
    rw [read, read, char, satisfy]
    cases c.rest with
    | nil => rfl
    | cons e rest =>
      by_cases he : e = d
      · simp [he, Outcome.reading?]
      · simp [he, Outcome.reading?]
  rw [hchar, read_satisfy_eq_some, decide_eq_true_iff]
  exact and_congr_right fun he => by rw [he]

theorem read_char_eq_none {d : Char} (h : c.Meets fun e => e ≠ d) : (char d).read c = none := by
  cases hread : (char d).read c with
  | none => rfl
  | some found =>
    obtain ⟨-, hspells⟩ := read_char_eq_some.1 hread
    exact absurd rfl (h d _ hspells.rest)

theorem read_endOfInput_eq_some {u : Unit} :
    endOfInput.read c = some (u, c') ↔ c.rest = [] ∧ c' = c := by
  rw [read, endOfInput]
  cases c.rest with
  | nil => simp [Outcome.reading?, eq_comm]
  | cons d rest => simp [Outcome.reading?]

/-! ### Sequence and choice -/

theorem read_andThen_eq_some {f : α → β → γ} {x : γ} :
    (andThen f p q).read c = some (x, c') ↔
      ∃ a c₁ b, p.read c = some (a, c₁) ∧ q.read c₁ = some (b, c') ∧ f a b = x := by
  unfold read andThen
  cases p c with
  | failure failure => simp [Outcome.reading?]
  | success a c₁ met =>
    dsimp only
    cases hq : q c₁ with
    | failure failure => simp [Outcome.reading?, hq]
    | success b c₂ met' => simp [Outcome.reading?, hq, and_comm]

theorem read_pair_eq_some {x : α × β} :
    (pair p q).read c = some (x, c') ↔
      ∃ c₁, p.read c = some (x.1, c₁) ∧ q.read c₁ = some (x.2, c') := by
  rw [pair, read_andThen_eq_some]
  constructor
  · rintro ⟨a, c₁, b, ha, hb, rfl⟩
    exact ⟨c₁, ha, hb⟩
  · rintro ⟨c₁, ha, hb⟩
    exact ⟨x.1, c₁, x.2, ha, hb, rfl⟩

theorem read_left_eq_some {a : α} :
    (left p q).read c = some (a, c') ↔
      ∃ c₁ b, p.read c = some (a, c₁) ∧ q.read c₁ = some (b, c') := by
  rw [left, read_andThen_eq_some]
  constructor
  · rintro ⟨a, c₁, b, ha, hb, rfl⟩
    exact ⟨c₁, b, ha, hb⟩
  · rintro ⟨c₁, b, ha, hb⟩
    exact ⟨a, c₁, b, ha, hb, rfl⟩

theorem read_right_eq_some {b : β} :
    (right p q).read c = some (b, c') ↔
      ∃ c₁ a, p.read c = some (a, c₁) ∧ q.read c₁ = some (b, c') := by
  rw [right, read_andThen_eq_some]
  constructor
  · rintro ⟨a, c₁, b, ha, hb, rfl⟩
    exact ⟨c₁, a, ha, hb⟩
  · rintro ⟨c₁, a, ha, hb⟩
    exact ⟨a, c₁, b, ha, hb, rfl⟩

theorem read_between_eq_some {opening : Parser β} {closing : Parser γ} {a : α} :
    (between opening closing p).read c = some (a, c') ↔
      ∃ b c₁ c₂ d, opening.read c = some (b, c₁) ∧ p.read c₁ = some (a, c₂) ∧
        closing.read c₂ = some (d, c') := by
  rw [between, read_left_eq_some]
  constructor
  · rintro ⟨c₂, d, hfirst, hclosing⟩
    obtain ⟨c₁, b, hopening, hp⟩ := read_right_eq_some.1 hfirst
    exact ⟨b, c₁, c₂, d, hopening, hp, hclosing⟩
  · rintro ⟨b, c₁, c₂, d, hopening, hp, hclosing⟩
    exact ⟨c₂, d, read_right_eq_some.2 ⟨c₁, b, hopening, hp⟩, hclosing⟩

theorem read_orElse (p p' : Parser α) (c : Cursor) :
    (orElse p p').read c = (p.read c).or (p'.read c) := by
  unfold read orElse
  cases p c with
  | success a c₁ met => rfl
  | failure failure => cases p' c <;> rfl

theorem read_oneOfThree (p p' p'' : Parser α) (c : Cursor) :
    (oneOfThree p p' p'').read c = ((p.read c).or (p'.read c)).or (p''.read c) := by
  unfold read oneOfThree
  cases p c with
  | success a c₁ met => rfl
  | failure failure =>
    cases p' c with
    | success a c₁ met => rfl
    | failure failure => cases p'' c <;> rfl

theorem read_optional (p : Parser α) (c : Cursor) :
    (optional p).read c =
      ((p.read c).map fun found => (some found.1, found.2)).or (some (none, c)) := by
  unfold read optional
  cases p c <;> rfl

/-! ### Values -/

theorem read_map_eq_some {f : α → β} {b : β} :
    (map f p).read c = some (b, c') ↔ ∃ a, p.read c = some (a, c') ∧ f a = b := by
  unfold read map
  cases p c with
  | success a c₁ met => simp [Outcome.reading?, and_comm]
  | failure failure => simp [Outcome.reading?]

theorem read_mapSpan_eq_some {f : α → Span → β} {b : β} :
    (mapSpan f p).read c = some (b, c') ↔
      ∃ a, p.read c = some (a, c') ∧ f a ⟨c.position, c'.position⟩ = b := by
  unfold read mapSpan
  cases p c with
  | success a c₁ met =>
    simp only [Outcome.reading?, Option.some.injEq, Prod.mk.injEq]
    constructor
    · rintro ⟨rfl, rfl⟩
      exact ⟨a, ⟨rfl, rfl⟩, rfl⟩
    · rintro ⟨_, ⟨rfl, rfl⟩, rfl⟩
      exact ⟨rfl, rfl⟩
  | failure failure => simp [Outcome.reading?]

theorem read_accept_eq_some {f : α → Span → Except Reason β} {b : β} :
    (accept f p).read c = some (b, c') ↔
      ∃ a, p.read c = some (a, c') ∧ f a ⟨c.position, c'.position⟩ = .ok b := by
  unfold read accept
  cases p c with
  | success a c₁ met =>
    dsimp only
    cases hf : f a ⟨c.position, c₁.position⟩ with
    | ok b' =>
      simp only [Outcome.reading?, Option.some.injEq, Prod.mk.injEq]
      constructor
      · rintro ⟨rfl, rfl⟩
        exact ⟨a, ⟨rfl, rfl⟩, hf⟩
      · rintro ⟨_, ⟨rfl, rfl⟩, hb⟩
        exact ⟨Except.ok.inj (hf.symm.trans hb), rfl⟩
    | error reason =>
      simp only [Outcome.reading?, Option.some.injEq, Prod.mk.injEq]
      refine iff_of_false nofun ?_
      rintro ⟨_, ⟨rfl, rfl⟩, hb⟩
      cases hf.symm.trans hb
  | failure failure => simp [Outcome.reading?]

theorem read_padded_eq_some {a : α} :
    (padded p).read c = some (a, c') ↔
      ∃ c₁, p.read c.skipBlanks = some (a, c₁) ∧ c₁.skipBlanks = c' := by
  unfold read padded
  cases p c.skipBlanks with
  | success a' c₁ met =>
    simp only [Outcome.reading?, Option.some.injEq, Prod.mk.injEq]
    constructor
    · rintro ⟨rfl, rfl⟩
      exact ⟨c₁, ⟨rfl, rfl⟩, rfl⟩
    · rintro ⟨_, ⟨rfl, rfl⟩, rfl⟩
      exact ⟨rfl, rfl⟩
  | failure failure => simp [Outcome.reading?]

end Parser

end StagedTangent.Source
