import Mathlib.Data.List.Induction
import Mathlib.Data.List.Lex

/-!
# What is wrong first

A check goes through the spots where something can be wrong and reports the first thing that is. The
spots are numbered as the sections of a text are: each comes before its own subsections, and these
come before the next section of the same level, which is the lexicographic order of lists of
numbers. `Finds` states that a check reports what is wrong first, and nothing if nothing is wrong.
Checks are put together one behind the other (`Finds.or`), item by item (`Finds.findSome?`) and as
steps that can fail (`Finds.bind`).
-/

namespace StagedTangent

/-- Where something can be wrong, numbered like the sections of a text. -/
abbrev Spot := List Nat

/-- A section comes before the later ones with all that is in it. -/
theorem section_lt {m n : Nat} (h : m < n) (spot spot' : Spot) : (m :: spot : Spot) < n :: spot' :=
  List.cons_lt_cons_iff.2 (.inl h)

variable {ε β γ : Type} {wrong wrong' : Spot → ε → Prop} {spot : Spot} {e : ε}

/-- Of all that is wrong this comes first. -/
structure Earliest (wrong : Spot → ε → Prop) (spot : Spot) (e : ε) : Prop where
  holds : wrong spot e
  first : ∀ spot' < spot, ∀ e', ¬ wrong spot' e'

/-- A check reports what is wrong first, and nothing if nothing is wrong. -/
def Finds (wrong : Spot → ε → Prop) : Option ε → Prop
  | none => ∀ spot e, ¬ wrong spot e
  | some e => ∃ spot, Earliest wrong spot e

/-- What a step fails with. -/
def failureOf? : Except ε β → Option ε
  | .error e => some e
  | .ok _ => none

theorem failureOf?_eq_some_iff {x : Except ε β} : failureOf? x = some e ↔ x = .error e := by
  cases x <;> simp [failureOf?]

theorem failureOf?_eq_none_iff {x : Except ε β} : failureOf? x = none ↔ ∃ b, x = .ok b := by
  cases x <;> simp [failureOf?]

/-! ## The first of two things -/

/-- What is wrong first is wrong first in front of other things as well. -/
theorem Earliest.inl (h : Earliest wrong spot e)
    (hbefore : ∀ spot' e', wrong' spot' e' → spot < spot') :
    Earliest (fun spot e => wrong spot e ∨ wrong' spot e) spot e := by
  refine ⟨.inl h.holds, fun spot' hlt e' hwrong => ?_⟩
  rcases hwrong with hwrong | hwrong
  · exact h.first spot' hlt e' hwrong
  · exact lt_asymm hlt (hbefore spot' e' hwrong)

/-- There is only one spot where something is wrong first. -/
theorem Earliest.unique {spot' : Spot} {e' : ε} (h : Earliest wrong spot e)
    (h' : Earliest wrong spot' e') : spot = spot' := by
  rcases lt_trichotomy spot spot' with hlt | heq | hgt
  · exact absurd h.holds (h'.first spot hlt e)
  · exact heq
  · exact absurd h'.holds (h.first spot' hgt e')

namespace Finds

variable {found found' : Option ε}

theorem congr (h : Finds wrong found) (hiff : ∀ spot e, wrong spot e ↔ wrong' spot e) :
    Finds wrong' found := by
  have heq : wrong = wrong' := funext fun spot => funext fun e => propext (hiff spot e)
  exact heq ▸ h

theorem eq_none_iff (h : Finds wrong found) : found = none ↔ ∀ spot e, ¬ wrong spot e := by
  cases found with
  | none => exact iff_of_true rfl h
  | some e =>
    obtain ⟨spot, hfirst⟩ := h
    exact iff_of_false nofun fun hnothing => hnothing spot e hfirst.holds

/-- What is reported is what comes first, if no spot has two things wrong with it. -/
theorem eq_some_iff (h : Finds wrong found)
    (hunique : ∀ spot e e', wrong spot e → wrong spot e' → e = e') :
    found = some e ↔ ∃ spot, Earliest wrong spot e := by
  constructor
  · rintro rfl
    exact h
  · rintro ⟨spot, hfirst⟩
    cases found with
    | none => exact absurd hfirst.holds (h spot e)
    | some e' =>
      obtain ⟨spot', hfirst'⟩ := h
      obtain rfl := hfirst.unique hfirst'
      rw [hunique spot e e' hfirst.holds hfirst'.holds]

/-- What is wrong before all subsections comes first. -/
theorem of_nil (h : wrong [] e) : Finds wrong (some e) :=
  ⟨[], h, fun spot' hlt => absurd hlt (List.not_lt_nil spot')⟩

/-- Nothing can be wrong. -/
theorem nothing : Finds (fun _ (_ : ε) => False) none := fun _ _ h => h

/-- One thing, that comes before its subsections, and what can be wrong behind it. -/
theorem guard {c : Prop} [Decidable c] {e : ε} (h : ¬ c → Finds wrong found) :
    Finds (fun spot e' => spot = [] ∧ c ∧ e' = e ∨ wrong spot e') (if c then some e else found) := by
  split
  · next hc => exact of_nil (.inl ⟨rfl, hc, rfl⟩)
  · next hc => exact (h hc).congr fun spot e' => (or_iff_right fun hwrong => hc hwrong.2.1).symm

/-- One thing can be wrong. -/
theorem ite {c : Prop} [Decidable c] (e : ε) :
    Finds (fun spot e' => spot = [] ∧ c ∧ e' = e) (if c then some e else none) :=
  (guard fun _ => nothing).congr fun _ _ => or_iff_left id

/-! ## Checks behind each other -/

/-- A check for one kind of thing in front of a check for another. -/
theorem or (h : Finds wrong found) (h' : Finds wrong' found')
    (hbefore : ∀ spot e spot' e', wrong spot e → wrong' spot' e' → spot < spot') :
    Finds (fun spot e => wrong spot e ∨ wrong' spot e) (found.or found') := by
  cases found with
  | none =>
    rw [Option.none_or]
    exact h'.congr fun spot e => (or_iff_right (h spot e)).symm
  | some e =>
    obtain ⟨spot, hfirst⟩ := h
    exact ⟨spot, hfirst.inl fun spot' e' => hbefore spot e spot' e' hfirst.holds⟩

/-- A step that can fail in front of another. -/
theorem bind {x : Except ε β} {f : β → Except ε γ} (h : Finds wrong (failureOf? x))
    (h' : ∀ b, x = .ok b → Finds wrong' (failureOf? (f b)))
    (hbefore : ∀ spot e spot' e', wrong spot e → wrong' spot' e' → spot < spot') :
    Finds (fun spot e => wrong spot e ∨ wrong' spot e) (failureOf? (x >>= f)) := by
  cases x with
  | error e =>
    obtain ⟨spot, hfirst⟩ := h
    exact ⟨spot, hfirst.inl fun spot' e' => hbefore spot e spot' e' hfirst.holds⟩
  | ok b => exact (h' b rfl).congr fun spot e => (or_iff_right (h spot e)).symm

/-- A check within a section. -/
theorem within (h : Finds wrong found) (n : Nat) :
    Finds (fun spot e => ∃ rest, spot = n :: rest ∧ wrong rest e) found := by
  cases found with
  | none =>
    rintro _ e ⟨rest, -, hwrong⟩
    exact h rest e hwrong
  | some e =>
    obtain ⟨spot, hfirst⟩ := h
    refine ⟨n :: spot, ⟨spot, rfl, hfirst.holds⟩, ?_⟩
    rintro _ hlt e' ⟨rest, rfl, hwrong⟩
    rcases List.cons_lt_cons_iff.1 hlt with hlt | ⟨-, hlt⟩
    · exact lt_irrefl n hlt
    · exact hfirst.first rest hlt e' hwrong

/-- A check that goes through items, each in a section of its own. -/
theorem findSome? {items : List β} {check : β → Option ε} {wrong : Nat → β → Spot → ε → Prop}
    (h : ∀ i item, items[i]? = some item → Finds (wrong i item) (check item)) :
    Finds (fun spot e => ∃ i item rest, items[i]? = some item ∧ spot = i :: rest ∧
      wrong i item rest e) (items.findSome? check) := by
  -- From the end, since an item comes behind all that stand before it.
  induction items using List.reverseRecOn with
  | nil =>
    rintro _ e ⟨i, item, rest, hitem, -⟩
    cases hitem
  | append_singleton items item ih =>
    have hfront := ih fun i item' hitem => h i item' <| by
      rw [List.getElem?_append_left (List.getElem?_eq_some_iff.1 hitem).1, hitem]
    have hlast := (h items.length item List.getElem?_concat_length).within items.length
    have hboth := hfront.or hlast fun spot e spot' e' hwrong hwrong' => by
      obtain ⟨i, item', rest, hitem, rfl, -⟩ := hwrong
      obtain ⟨rest', rfl, -⟩ := hwrong'
      exact section_lt (List.getElem?_eq_some_iff.1 hitem).1 rest rest'
    rw [List.findSome?_append, List.findSome?_singleton]
    refine hboth.congr fun spot e => ?_
    constructor
    · rintro (⟨i, item', rest, hitem, hwrong⟩ | ⟨rest, hwrong⟩)
      · refine ⟨i, item', rest, ?_, hwrong⟩
        rw [List.getElem?_append_left (List.getElem?_eq_some_iff.1 hitem).1, hitem]
      · exact ⟨items.length, item, rest, List.getElem?_concat_length, hwrong⟩
    · rintro ⟨i, item', rest, hitem, hwrong⟩
      rcases Nat.lt_or_ge i items.length with hlt | hge
      · rw [List.getElem?_append_left hlt] at hitem
        exact .inl ⟨i, item', rest, hitem, hwrong⟩
      · rw [List.getElem?_append_right hge, List.getElem?_singleton, Option.ite_none_right_eq_some,
          Option.some.injEq] at hitem
        obtain rfl : i = items.length := Nat.le_antisymm (Nat.sub_eq_zero_iff_le.1 hitem.1) hge
        exact .inr ⟨rest, hitem.2 ▸ hwrong⟩

/-- A check that goes through items with their places. -/
theorem findSome?_zipIdx {items : List β} {check : β × Nat → Option ε}
    {wrong : Nat → β → Spot → ε → Prop}
    (h : ∀ i item, items[i]? = some item → Finds (wrong i item) (check (item, i))) :
    Finds (fun spot e => ∃ i item rest, items[i]? = some item ∧ spot = i :: rest ∧
      wrong i item rest e) (items.zipIdx.findSome? check) := by
  have hplace : ∀ i (entry : β × Nat), items.zipIdx[i]? = some entry ↔
      items[i]? = some entry.1 ∧ entry.2 = i := by
    intro i entry
    rw [List.getElem?_zipIdx, Option.map_eq_some_iff, Nat.zero_add]
    constructor
    · rintro ⟨item, hitem, rfl⟩
      exact ⟨hitem, rfl⟩
    · rintro ⟨hitem, rfl⟩
      exact ⟨entry.1, hitem, rfl⟩
  have hentry : ∀ i entry, items.zipIdx[i]? = some entry →
      Finds (wrong i entry.1) (check entry) := by
    rintro i ⟨item, j⟩ hentry
    obtain ⟨hitem, rfl⟩ := (hplace i _).1 hentry
    exact h _ item hitem
  refine (Finds.findSome? hentry).congr fun spot e => ?_
  constructor
  · rintro ⟨i, entry, rest, hentry, hwrong⟩
    exact ⟨i, entry.1, rest, ((hplace i entry).1 hentry).1, hwrong⟩
  · rintro ⟨i, item, rest, hitem, hwrong⟩
    exact ⟨i, (item, i), rest, (hplace i _).2 ⟨hitem, rfl⟩, hwrong⟩

end Finds

end StagedTangent
