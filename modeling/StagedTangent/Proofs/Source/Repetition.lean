import StagedTangent.Proofs.Source.Reading

/-!
# Repetition and recursion of parsers

What a repetition reads are items one behind another, and such items are what it reads if no further
one can be read behind them; the same holds of items with separators between them. Both are stated
for `Parser.read`, with `Repeats` and `Items` of what the parser of the items reads. A parser that is
defined in terms of itself reads what its definition reads, where it answers only behind the place
at which it began.
-/

namespace StagedTangent.Source

variable {α β : Type}

/-- Items one behind another. -/
inductive Repeats (item : Form α) : Form (List α)
  | nil (c : Cursor) : Repeats item c [] c
  | cons {c c₁ c' : Cursor} {a : α} {as : List α} :
      item c a c₁ → Repeats item c₁ as c' → Repeats item c (a :: as) c'

namespace Parser

variable {p : Parser α} {q : Parser β} {c c' : Cursor}

/-! ## Repetition -/

/-- A parser stops before a place: it fails there or reads nothing. -/
def StopsAt (p : Parser α) (c : Cursor) : Prop :=
  ∀ a c', p.read c = some (a, c') → c.rest.length ≤ c'.rest.length

theorem StopsAt.of_read_eq_none (h : p.read c = none) : p.StopsAt c := by
  intro a c' hread
  rw [h] at hread
  cases hread

/-- One turn of a repetition. -/
theorem reading?_manyFrom (p : Parser α) (values : List α) (met : Option Failure) (c : Cursor) :
    (p.StopsAt c ∧ (manyFrom p values met c).reading? = some (values, c)) ∨
      ∃ a c₁ met', p.read c = some (a, c₁) ∧ c₁.rest.length < c.rest.length ∧
        manyFrom p values met c = manyFrom p (values ++ [a]) met' c₁ := by
  rw [manyFrom]
  cases hp : p c with
  | failure failure =>
    refine .inl ⟨.of_read_eq_none ?_, rfl⟩
    rw [read, hp]
    rfl
  | success a c₁ met' =>
    have hread : p.read c = some (a, c₁) := by
      rw [read, hp]
      rfl
    dsimp only
    split
    · next hshorter => exact .inr ⟨a, c₁, _, hread, hshorter, rfl⟩
    · next hnot =>
      refine .inl ⟨fun b c₂ hb => ?_, rfl⟩
      cases hread.symm.trans hb
      exact Nat.not_lt.1 hnot

/-- What a repetition reads are items one behind another, and it goes on as far as it can. -/
theorem repeats_of_manyFrom {values as : List α} {met : Option Failure}
    (h : (manyFrom p values met c).reading? = some (as, c')) :
    ∃ more, as = values ++ more ∧ p.StopsAt c' ∧
      Repeats (fun c a c' => p.read c = some (a, c')) c more c' := by
  generalize hlength : c.rest.length = n
  induction n using Nat.strongRecOn generalizing c values met with
  | ind n ih =>
    rcases reading?_manyFrom p values met c with ⟨hstops, heq⟩ | ⟨a, c₁, met', hread, hshorter, heq⟩
    · cases heq.symm.trans h
      exact ⟨[], (List.append_nil _).symm, hstops, .nil _⟩
    · obtain ⟨more, rfl, hstops, hrepeats⟩ := ih _ (hlength ▸ hshorter) (heq ▸ h) rfl
      exact ⟨a :: more, by simp, hstops, .cons hread hrepeats⟩

theorem repeats_of_read_many {as : List α} (h : (many p).read c = some (as, c')) :
    p.StopsAt c' ∧ Repeats (fun c a c' => p.read c = some (a, c')) c as c' := by
  obtain ⟨more, rfl, hresult⟩ := repeats_of_manyFrom h
  exact hresult

theorem manyFrom_of_repeats {values as : List α} {met : Option Failure}
    (h : Repeats (fun c a c' => p.read c = some (a, c') ∧ c'.rest.length < c.rest.length) c as c')
    (hend : p.StopsAt c') : (manyFrom p values met c).reading? = some (values ++ as, c') := by
  induction h generalizing values met with
  | nil c =>
    rcases reading?_manyFrom p values met c with ⟨-, heq⟩ | ⟨a, c₁, met', hread, hshorter, -⟩
    · rw [heq, List.append_nil]
    · exact absurd hshorter (Nat.not_lt.2 (hend a c₁ hread))
  | @cons c c₁ c' a as hitem _ ih =>
    rcases reading?_manyFrom p values met c with ⟨hstops, -⟩ | ⟨b, c₂, met', hread, -, heq⟩
    · exact absurd hitem.2 (Nat.not_lt.2 (hstops a c₁ hitem.1))
    · cases hitem.1.symm.trans hread
      rw [heq, ih hend, List.append_assoc]
      rfl

/-- Items one behind another are read if none can be read behind them. -/
theorem read_many_of_repeats {as : List α}
    (h : Repeats (fun c a c' => p.read c = some (a, c') ∧ c'.rest.length < c.rest.length) c as c')
    (hend : p.StopsAt c') : (many p).read c = some (as, c') :=
  manyFrom_of_repeats h hend

/-- The characters of a class, as many as stand there. -/
theorem read_many_satisfy_eq_some {valid : Char → Bool} {letters : List Char} :
    (many (satisfy valid)).read c = some (letters, c') ↔
      (∀ d ∈ letters, valid d = true) ∧ c.Spells letters c' ∧ c'.Meets fun d => valid d = false := by
  constructor
  · intro h
    obtain ⟨hstops, hrepeats⟩ := repeats_of_read_many h
    refine ⟨?_, ?_, fun d rest hrest => ?_⟩
    · clear h hstops
      induction hrepeats with
      | nil c => exact nofun
      | cons hitem _ ih => exact List.forall_mem_cons.2 ⟨(read_satisfy_eq_some.1 hitem).1, ih⟩
    · clear h hstops
      induction hrepeats with
      | nil c => exact .nil c
      | cons hitem _ ih => exact (read_satisfy_eq_some.1 hitem).2.append ih
    · by_contra hvalid
      have hspells : c'.Spells [d] ⟨c'.position + 1, rest⟩ := ⟨hrest, rfl⟩
      have hle := hstops d _ (read_satisfy_eq_some.2 ⟨eq_true_of_ne_false hvalid, hspells⟩)
      rw [hrest] at hle
      exact absurd hle (Nat.not_succ_le_self _)
  · rintro ⟨hall, hspells, hmeets⟩
    refine read_many_of_repeats ?_ (.of_read_eq_none ?_)
    · clear hmeets
      induction letters generalizing c with
      | nil =>
        obtain rfl := (Cursor.Spells.nil c).unique hspells
        exact .nil c
      | cons d letters ih =>
        have hcons : c.Spells ([d] ++ letters) c' := hspells
        obtain ⟨c₁, hfirst, hrest⟩ := hcons.of_append
        obtain ⟨hd, hall⟩ := List.forall_mem_cons.1 hall
        refine .cons ⟨read_satisfy_eq_some.2 ⟨hd, hfirst⟩, ?_⟩ (ih hall hrest)
        rw [hfirst.length_eq]
        exact Nat.lt_add_of_pos_left Nat.one_pos
    · cases hread : (satisfy valid).read c' with
      | none => rfl
      | some found =>
        obtain ⟨hvalid, hd⟩ := read_satisfy_eq_some.1 hread
        cases hvalid.symm.trans (hmeets _ _ hd.rest)

theorem read_many1 (p : Parser α) (c : Cursor) :
    (many1 p).read c = (p.read c).bind fun _ => (many p).read c := by
  unfold read many1
  cases p c <;> rfl

/-! ## Separated lists -/

theorem reading?_trailing (q : Parser β) (values : List α) (met : Option Failure) (last : Failure)
    (c : Cursor) : (trailing q values met last c).reading? =
      some (values, ((q.read c).map Prod.snd).getD c) := by
  unfold read trailing
  cases q c <;> rfl

/-- One turn of a list: there is no separator, or there is one with no item behind it, or there are
both, which ends the list only if they read nothing. -/
theorem reading?_separatedFrom (p : Parser α) (q : Parser β) (values : List α)
    (met : Option Failure) (c : Cursor) :
    (q.read c = none ∧ (separatedFrom p q values met c).reading? = some (values, c)) ∨
    (∃ b c₁, q.read c = some (b, c₁) ∧ p.read c₁ = none ∧
      (separatedFrom p q values met c).reading? = some (values, c₁)) ∨
    ∃ b c₁ a c₂, q.read c = some (b, c₁) ∧ p.read c₁ = some (a, c₂) ∧
      ((c.rest.length ≤ c₂.rest.length ∧
        (separatedFrom p q values met c).reading? = some (values, c)) ∨
      (c₂.rest.length < c.rest.length ∧
        ∃ met', separatedFrom p q values met c = separatedFrom p q (values ++ [a]) met' c₂)) := by
  rw [separatedFrom]
  cases hq : q c with
  | failure failure =>
    have hnone : q.read c = none := by rw [read, hq, Outcome.reading?]
    refine .inl ⟨hnone, ?_⟩
    dsimp only
    rw [reading?_trailing, hnone]
    rfl
  | success b c₁ met' =>
    have hsome : q.read c = some (b, c₁) := by rw [read, hq, Outcome.reading?]
    dsimp only
    cases hp : p c₁ with
    | failure failure =>
      refine .inr (.inl ⟨b, c₁, hsome, by rw [read, hp, Outcome.reading?], ?_⟩)
      dsimp only
      rw [reading?_trailing, hsome]
      rfl
    | success a c₂ met'' =>
      refine .inr (.inr ⟨b, c₁, a, c₂, hsome, by rw [read, hp, Outcome.reading?], ?_⟩)
      dsimp only
      split
      · next hshorter => exact .inr ⟨hshorter, _, rfl⟩
      · next hnot => exact .inl ⟨Nat.not_lt.1 hnot, rfl⟩

theorem further_of_separatedFrom {values as : List α} {met : Option Failure}
    (h : (separatedFrom p q values met c).reading? = some (as, c')) :
    ∃ more, as = values ++ more ∧ Further (fun c a c' => p.read c = some (a, c'))
      (fun c c' => ∃ b, q.read c = some (b, c')) c more c' := by
  generalize hlength : c.rest.length = n
  induction n using Nat.strongRecOn generalizing c values met with
  | ind n ih =>
    rcases reading?_separatedFrom p q values met c with ⟨-, heq⟩ | ⟨b, c₁, hq, -, heq⟩ |
      ⟨b, c₁, a, c₂, hq, hp, ⟨-, heq⟩ | ⟨hshorter, met', heq⟩⟩
    · cases heq.symm.trans h
      exact ⟨[], (List.append_nil _).symm, .last _⟩
    · cases heq.symm.trans h
      exact ⟨[], (List.append_nil _).symm, .trailing ⟨b, hq⟩⟩
    · cases heq.symm.trans h
      exact ⟨[], (List.append_nil _).symm, .last _⟩
    · obtain ⟨more, rfl, hfurther⟩ := ih _ (hlength ▸ hshorter) (heq ▸ h) rfl
      exact ⟨a :: more, by simp, .more ⟨b, hq⟩ hp hfurther⟩

/-- What is read as a list are items with separators. -/
theorem items_of_read_separated {as : List α} (h : (separated p q).read c = some (as, c')) :
    Items (fun c a c' => p.read c = some (a, c')) (fun c c' => ∃ b, q.read c = some (b, c'))
      c as c' := by
  rw [read, separated] at h
  cases hp : p c with
  | failure failure =>
    rw [hp] at h
    cases h
    exact .none _
  | success a c₁ met =>
    rw [hp] at h
    obtain ⟨more, rfl, hfurther⟩ := further_of_separatedFrom h
    exact .some (by rw [read, hp, Outcome.reading?]) hfurther

theorem separatedFrom_of_further {values as : List α} {met : Option Failure}
    (h : Further (fun c a c' => p.read c = some (a, c') ∧ c'.rest.length ≤ c.rest.length)
      (fun c c' => ∃ b, q.read c = some (b, c') ∧ c'.rest.length < c.rest.length) c as c')
    (hitem : p.read c' = none) (hseparator : q.read c' = none) :
    (separatedFrom p q values met c).reading? = some (values ++ as, c') := by
  induction h generalizing values met with
  | last c =>
    rcases reading?_separatedFrom p q values met c with ⟨-, heq⟩ | ⟨b, c₁, hq, -⟩ |
      ⟨b, c₁, a, c₂, hq, -⟩
    · rw [heq, List.append_nil]
    · cases hseparator.symm.trans hq
    · cases hseparator.symm.trans hq
  | @trailing c c' hcomma =>
    obtain ⟨b, hb, -⟩ := hcomma
    rcases reading?_separatedFrom p q values met c with ⟨hnone, -⟩ | ⟨b', c₁, hq, -, heq⟩ |
      ⟨b', c₁, a, c₂, hq, hp, -⟩
    · cases hnone.symm.trans hb
    · cases hb.symm.trans hq
      rw [heq, List.append_nil]
    · cases hb.symm.trans hq
      cases hitem.symm.trans hp
  | @more c c₁ c₂ c' a as hcomma ha _ ih =>
    obtain ⟨b, hb, hlt⟩ := hcomma
    rcases reading?_separatedFrom p q values met c with ⟨hnone, -⟩ | ⟨b', c₁', hq, hnone, -⟩ |
      ⟨b', c₁', a', c₂', hq, hp, ⟨hnot, -⟩ | ⟨-, met', heq⟩⟩
    · cases hnone.symm.trans hb
    · cases hb.symm.trans hq
      cases hnone.symm.trans ha.1
    · cases hb.symm.trans hq
      cases ha.1.symm.trans hp
      exact absurd (Nat.lt_of_le_of_lt ha.2 hlt) (Nat.not_lt.2 hnot)
    · cases hb.symm.trans hq
      cases ha.1.symm.trans hp
      rw [heq, ih hitem hseparator, List.append_assoc]
      rfl

/-- Items with separators are read as a list if neither can be read behind them. -/
theorem read_separated_of_items {as : List α}
    (h : Items (fun c a c' => p.read c = some (a, c') ∧ c'.rest.length ≤ c.rest.length)
      (fun c c' => ∃ b, q.read c = some (b, c') ∧ c'.rest.length < c.rest.length) c as c')
    (hitem : p.read c' = none) (hseparator : q.read c' = none) :
    (separated p q).read c = some (as, c') := by
  cases h with
  | none c =>
    rw [read] at hitem
    rw [read, separated]
    cases hp : p c with
    | failure failure => rfl
    | success a c₁ met =>
      rw [hp] at hitem
      cases hitem
  | @some c c₁ c' a as ha hfurther =>
    have hread := ha.1
    rw [read] at hread
    rw [read, separated]
    cases hp : p c with
    | failure failure =>
      rw [hp] at hread
      cases hread
    | success a' c₂ met =>
      rw [hp] at hread
      cases hread
      exact separatedFrom_of_further hfurther hitem hseparator

/-! ## Recursion -/

/-- A parser that answers only behind a place. -/
def behind (p : Parser α) (c : Cursor) : Parser α := fun inner =>
  if inner.rest.length < c.rest.length then p inner else .failure (inner.unexpected [])

theorem read_behind (h : c'.rest.length < c.rest.length) : (p.behind c).read c' = p.read c' := by
  rw [read, behind, if_pos h]
  rfl

theorem read_behind_eq_some {a : α} {stop : Cursor} :
    (p.behind c).read c' = some (a, stop) ↔
      c'.rest.length < c.rest.length ∧ p.read c' = some (a, stop) := by
  by_cases h : c'.rest.length < c.rest.length
  · rw [read_behind h, and_iff_right h]
  · refine iff_of_false (fun hread => ?_) fun hread => h hread.1
    rw [read, behind, if_neg h] at hread
    cases hread

/-- A parser that is defined in terms of itself uses itself behind the place where it began. -/
theorem read_fix (step : Parser α → Parser α) (c : Cursor) :
    read (fix step) c = (step (behind (fix step) c)).read c := by
  unfold read
  rw [fix.eq_1 step c]
  rfl

end Parser

end StagedTangent.Source
