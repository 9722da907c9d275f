import Mathlib.Data.List.Forall2
import Mathlib.Data.List.Induction

/-!
# Sequences of steps that can fail

What a sequence of steps yields tells what its steps have yielded. These lemmas take sequences in
`Except` and `Option` apart, so that no later proof unfolds a bind.
-/

namespace StagedTangent

section Steps

variable {ε β γ : Type}

/-- A step followed by others succeeds if both do. -/
theorem bind_eq_ok {x : Except ε β} {f : β → Except ε γ} {c : γ} :
    (x >>= f) = .ok c ↔ ∃ b, x = .ok b ∧ f b = .ok c := by
  cases x with
  | error e =>
    constructor
    · rintro ⟨⟩
    · rintro ⟨b, ⟨⟩, -⟩
  | ok b =>
    constructor
    · intro h
      exact ⟨b, rfl, h⟩
    · rintro ⟨b', h, h'⟩
      cases h
      exact h'

theorem bind_ok (x : Except ε β) : (x >>= fun b => .ok b) = x := by
  cases x <;> rfl

theorem ok_bind (b : β) (f : β → Except ε γ) : (Except.ok b >>= f) = f b := rfl

/-- Replacing the error of a step does not touch what it yields. -/
theorem mapError_eq_ok {δ : Type} {x : Except ε β} {f : ε → δ} {b : β} :
    x.mapError f = .ok b ↔ x = .ok b := by
  cases x <;> simp [Except.mapError]

theorem mapError_eq_error {δ : Type} {x : Except ε β} {f : ε → δ} {e : δ} :
    x.mapError f = .error e ↔ ∃ e', x = .error e' ∧ e = f e' := by
  cases x <;> simp [Except.mapError, eq_comm]

/-- Steps of which none fails yield one result each. -/
theorem mapM_eq_ok_map {f : β → Except ε γ} {g : β → γ} {xs : List β}
    (h : ∀ x ∈ xs, f x = .ok (g x)) : xs.mapM f = .ok (xs.map g) := by
  induction xs with
  | nil => rfl
  | cons x xs ih =>
    rw [List.mapM_cons, h x List.mem_cons_self, ok_bind,
      ih fun y hy => h y (List.mem_cons_of_mem x hy)]
    rfl

/-- A loop with an invariant, indexed by how many items it has passed, in which an item is either
bad in some way and stops the loop with the error that belongs to it, or is not and keeps the
invariant. The loop stops at the first bad item. -/
theorem foldlM_first {f : γ → β → Except ε γ} {xs : List β} {s : γ} (invariant : Nat → γ → Prop)
    (bad : Nat → ε → Prop) (hstart : invariant 0 s)
    (hstep : ∀ n x s, xs[n]? = some x → invariant n s →
      (∃ e, bad n e ∧ f s x = .error e) ∨
      ((∀ e, ¬ bad n e) ∧ ∃ s', f s x = .ok s' ∧ invariant (n + 1) s')) :
    (∃ n e, n < xs.length ∧ bad n e ∧ (∀ m < n, ∀ e, ¬ bad m e) ∧ xs.foldlM f s = .error e) ∨
    ((∀ n < xs.length, ∀ e, ¬ bad n e) ∧ ∃ s', xs.foldlM f s = .ok s' ∧
      invariant xs.length s') := by
  induction xs using List.reverseRecOn with
  | nil => exact .inr ⟨fun n hn => absurd hn (Nat.not_lt_zero n), s, rfl, hstart⟩
  | append_singleton xs x ih =>
    have hbefore := ih fun n y s' hy => by
      refine hstep n y s' ?_
      rw [List.getElem?_append_left (List.getElem?_eq_some_iff.1 hy).1, hy]
    simp only [List.foldlM_append, List.length_append, List.length_singleton]
    rcases hbefore with ⟨n, e, hn, hbad, hfirst, herror⟩ | ⟨hgood, s', hok, hinv⟩
    · refine .inl ⟨n, e, Nat.lt_succ_of_lt hn, hbad, hfirst, ?_⟩
      rw [herror]
      rfl
    · rw [hok, ok_bind, List.foldlM_cons]
      rcases hstep xs.length x s' (by simp) hinv with ⟨e, hbad, herror⟩ | ⟨hlast, s'', hok', hinv'⟩
      · refine .inl ⟨xs.length, e, Nat.lt_succ_self _, hbad, hgood, ?_⟩
        rw [herror]
        rfl
      · refine .inr ⟨fun n hn => ?_, s'', ?_, hinv'⟩
        · rcases Nat.lt_succ_iff_lt_or_eq.1 hn with hlt | rfl
          · exact hgood n hlt
          · exact hlast
        · rw [hok']
          rfl

/-- The case of a single way to be bad. -/
theorem foldlM_dichotomy {f : γ → β → Except ε γ} {xs : List β} {invariant : Nat → γ → Prop}
    {bad : Nat → Prop} {e : ε} {s : γ} (hstart : invariant 0 s)
    (hstep : ∀ n x s, xs[n]? = some x → invariant n s →
      (bad n ∧ f s x = .error e) ∨
      (¬ bad n ∧ ∃ s', f s x = .ok s' ∧ invariant (n + 1) s')) :
    ((∃ n < xs.length, bad n) ∧ xs.foldlM f s = .error e) ∨
    ((∀ n < xs.length, ¬ bad n) ∧ ∃ s', xs.foldlM f s = .ok s' ∧ invariant xs.length s') := by
  have hfirst := foldlM_first invariant (fun n e' => bad n ∧ e' = e) hstart fun n x s hx hinv => by
    rcases hstep n x s hx hinv with ⟨hbad, herror⟩ | ⟨hgood, hnext⟩
    · exact .inl ⟨e, ⟨hbad, rfl⟩, herror⟩
    · exact .inr ⟨fun _ hbad => hgood hbad.1, hnext⟩
  rcases hfirst with ⟨n, _, hn, ⟨hbad, rfl⟩, -, herror⟩ | ⟨hgood, hlast⟩
  · exact .inl ⟨⟨n, hn, hbad⟩, herror⟩
  · exact .inr ⟨fun n hn hbad => hgood n hn e ⟨hbad, rfl⟩, hlast⟩

/-- Of a loop that succeeds the first items do, and the rest goes on from what they leave. -/
theorem foldlM_take_eq_ok {f : γ → β → Except ε γ} {xs : List β} {s t : γ}
    (h : xs.foldlM f s = .ok t) (n : Nat) :
    ∃ u, (xs.take n).foldlM f s = .ok u ∧ (xs.drop n).foldlM f u = .ok t := by
  rw [← List.take_append_drop n xs, List.foldlM_append] at h
  exact bind_eq_ok.1 h

/-- One item more. -/
theorem foldlM_take_succ {f : γ → β → Except ε γ} {xs : List β} {n : Nat} {x : β}
    (hx : xs[n]? = some x) (s : γ) :
    (xs.take (n + 1)).foldlM f s = (xs.take n).foldlM f s >>= fun u => f u x := by
  obtain ⟨hlt, rfl⟩ := List.getElem?_eq_some_iff.1 hx
  rw [List.take_succ_eq_append_getElem hlt, List.foldlM_append]
  exact congrArg _ (funext fun u => bind_ok _)

/-- What every step of a loop does to its state, the whole loop does. -/
theorem foldlM_trans {f : γ → β → Except ε γ} {r : γ → γ → Prop} (hrefl : ∀ s, r s s)
    (htrans : ∀ {s t u}, r s t → r t u → r s u) (hstep : ∀ {s x t}, f s x = .ok t → r s t)
    {xs : List β} {s t : γ} (h : xs.foldlM f s = .ok t) : r s t := by
  induction xs generalizing s with
  | nil =>
    obtain rfl := Except.ok.inj h
    exact hrefl s
  | cons x xs ih =>
    rw [List.foldlM_cons] at h
    obtain ⟨u, hu, h⟩ := bind_eq_ok.1 h
    exact htrans (hstep hu) (ih h)

/-- Two loops over the same items do the same if they do so wherever an invariant holds that the
first of them keeps. -/
theorem foldlM_congr_of_invariant {f k : γ → β → Except ε γ} {xs : List β} {s : γ}
    (invariant : Nat → γ → Prop) (hstart : invariant 0 s)
    (hsame : ∀ n x s, xs[n]? = some x → invariant n s → f s x = k s x)
    (hkeep : ∀ n x s s', xs[n]? = some x → invariant n s → f s x = .ok s' →
      invariant (n + 1) s') : xs.foldlM f s = xs.foldlM k s := by
  induction xs generalizing s invariant with
  | nil => rfl
  | cons x xs ih =>
    rw [List.foldlM_cons, List.foldlM_cons, ← hsame 0 x s rfl hstart]
    cases hstep : f s x with
    | error e => rfl
    | ok s' =>
      exact ih (fun n => invariant (n + 1)) (hkeep 0 x s s' rfl hstart hstep)
        (fun n => hsame (n + 1)) (fun n => hkeep (n + 1))

/-- Two loops over matching items go along with each other if their steps do: where the one
succeeds, so does the other, and the states stay related. -/
theorem foldlM_along {β' γ' : Type} {f : γ → β → Except ε γ} {k : γ' → β' → Except ε γ'}
    {g : β → β'} {r : γ → γ' → Prop} {xs : List β}
    (hstep : ∀ x ∈ xs, ∀ s s' t, r s s' → f s x = .ok t → ∃ t', k s' (g x) = .ok t' ∧ r t t')
    {s t : γ} {s' : γ'} (hs : r s s') (h : xs.foldlM f s = .ok t) :
    ∃ t', (xs.map g).foldlM k s' = .ok t' ∧ r t t' := by
  induction xs generalizing s s' with
  | nil =>
    obtain rfl : s = t := Except.ok.inj h
    exact ⟨s', rfl, hs⟩
  | cons x xs ih =>
    rw [List.foldlM_cons] at h
    obtain ⟨u, hu, h⟩ := bind_eq_ok.1 h
    obtain ⟨u', hu', hrel⟩ := hstep x (List.mem_cons_self ..) s s' u hs hu
    rw [List.map_cons, List.foldlM_cons, hu', ok_bind]
    exact ih (fun y hy => hstep y (List.mem_cons_of_mem _ hy)) hrel h

end Steps

/-! ## Lists of optional results -/

/-- A list of optional results is there as a whole if every item is. -/
theorem mapM_eq_some_iff {β γ : Type} {f : β → Option γ} {xs : List β} {ys : List γ} :
    xs.mapM f = some ys ↔ List.Forall₂ (fun x y => f x = some y) xs ys := by
  induction xs generalizing ys with
  | nil => simp [eq_comm]
  | cons x xs ih =>
    rw [List.mapM_cons]
    constructor
    · intro h
      simp only [Option.bind_eq_bind, Option.bind_eq_some_iff, Option.pure_def,
        Option.some.injEq] at h
      obtain ⟨y, hy, zs, hzs, rfl⟩ := h
      exact .cons hy (ih.1 hzs)
    · rintro (_ | ⟨hy, hys⟩)
      simp [hy, ih.2 hys]

theorem exists_mapM_eq_some {β γ : Type} {f : β → Option γ} {xs : List β}
    (h : ∀ x ∈ xs, ∃ y, f x = some y) : ∃ ys, xs.mapM f = some ys := by
  induction xs with
  | nil => exact ⟨[], rfl⟩
  | cons x xs ih =>
    obtain ⟨y, hy⟩ := h x (List.mem_cons_self ..)
    obtain ⟨ys, hys⟩ := ih fun z hz => h z (List.mem_cons_of_mem _ hz)
    exact ⟨y :: ys, by simp [List.mapM_cons, hy, hys]⟩

theorem exists_of_mapM_eq_some {β γ : Type} {f : β → Option γ} {xs : List β} {ys : List γ}
    (h : xs.mapM f = some ys) : ∀ x ∈ xs, ∃ y, f x = some y := by
  have hall := mapM_eq_some_iff.1 h
  clear h
  induction hall with
  | nil => simp
  | cons hxy _ ih =>
    intro x hx
    rcases List.mem_cons.1 hx with rfl | hx
    · exact ⟨_, hxy⟩
    · exact ih x hx

theorem length_of_mapM_eq_some {β γ : Type} {f : β → Option γ} {xs : List β} {ys : List γ}
    (h : xs.mapM f = some ys) : ys.length = xs.length :=
  (mapM_eq_some_iff.1 h).length_eq.symm

theorem mapM_congr_left {β γ : Type} {f g : β → Option γ} {xs : List β}
    (h : ∀ x ∈ xs, f x = g x) : xs.mapM f = xs.mapM g := by
  induction xs with
  | nil => rfl
  | cons x xs ih =>
    rw [List.mapM_cons, List.mapM_cons, h x (List.mem_cons_self ..),
      ih fun z hz => h z (List.mem_cons_of_mem _ hz)]

/-- Results that carry over one by one carry over as a list. -/
theorem mapM_mono {β γ : Type} {f g : β → Option γ} {xs : List β} {ys : List γ}
    (h : ∀ x ∈ xs, ∀ y, f x = some y → g x = some y) (hf : xs.mapM f = some ys) :
    xs.mapM g = some ys := by
  rw [← hf]
  refine mapM_congr_left fun x hx => ?_
  obtain ⟨y, hy⟩ := exists_of_mapM_eq_some hf x hx
  rw [hy, h x hx y hy]

/-- What holds of the results one by one. -/
theorem forall₂_of_mapM {β γ : Type} {f : β → Option γ} {r : β → γ → Prop} {xs : List β}
    {ys : List γ} (h : ∀ x ∈ xs, ∀ y, f x = some y → r x y) (hf : xs.mapM f = some ys) :
    List.Forall₂ r xs ys := by
  have hall := mapM_eq_some_iff.1 hf
  clear hf
  induction hall with
  | nil => exact .nil
  | cons hxy _ ih =>
    exact .cons (h _ (List.mem_cons_self ..) _ hxy)
      (ih fun z hz => h z (List.mem_cons_of_mem _ hz))

/-- Every result in the list is that of an item. -/
theorem exists_of_mem_mapM {β γ : Type} {f : β → Option γ} {xs : List β} {ys : List γ}
    (hf : xs.mapM f = some ys) : ∀ y ∈ ys, ∃ x ∈ xs, f x = some y := by
  have hall := mapM_eq_some_iff.1 hf
  clear hf
  induction hall with
  | nil => simp
  | cons hxy _ ih =>
    intro y hy
    rcases List.mem_cons.1 hy with rfl | hy
    · exact ⟨_, List.mem_cons_self .., hxy⟩
    · obtain ⟨x, hx, hxy'⟩ := ih y hy
      exact ⟨x, List.mem_cons_of_mem _ hx, hxy'⟩

/-- Two lists of results of the same items are related if the results of every item are. -/
theorem forall₂_of_mapM_of_mapM {β γ δ : Type} {f : β → Option γ} {g : β → Option δ}
    {r : γ → δ → Prop} {xs : List β} {ys : List γ} {zs : List δ}
    (h : ∀ x ∈ xs, ∀ y z, f x = some y → g x = some z → r y z) (hf : xs.mapM f = some ys)
    (hg : xs.mapM g = some zs) : List.Forall₂ r ys zs := by
  have hys := mapM_eq_some_iff.1 hf
  have hzs := mapM_eq_some_iff.1 hg
  clear hf hg
  induction hys generalizing zs with
  | nil =>
    cases hzs
    exact .nil
  | cons hy _ ih =>
    obtain _ | ⟨hz, hzs⟩ := hzs
    exact .cons (h _ (List.mem_cons_self ..) _ _ hy hz)
      (ih (fun x hx => h x (List.mem_cons_of_mem _ hx)) hzs)

/-- Items of related lists at one place are related. -/
theorem rel_of_getElem? {β γ : Type} {r : β → γ → Prop} {xs : List β} {ys : List γ}
    (h : List.Forall₂ r xs ys) {i : Nat} {x : β} {y : γ} (hx : xs[i]? = some x)
    (hy : ys[i]? = some y) : r x y := by
  obtain ⟨hi, rfl⟩ := List.getElem?_eq_some_iff.1 hx
  obtain ⟨hi', rfl⟩ := List.getElem?_eq_some_iff.1 hy
  exact (List.forall₂_iff_get.1 h).2 i hi hi'

/-- The result of an item stands at its place. -/
theorem exists_getElem?_of_mapM {β γ : Type} {f : β → Option γ} {xs : List β} {ys : List γ}
    (hf : xs.mapM f = some ys) {i : Nat} {x : β} (hx : xs[i]? = some x) :
    ∃ y, ys[i]? = some y ∧ f x = some y := by
  have hall := mapM_eq_some_iff.1 hf
  clear hf
  induction hall generalizing i with
  | nil => cases hx
  | cons hxy _ ih =>
    cases i with
    | zero =>
      cases hx
      exact ⟨_, rfl, hxy⟩
    | succ i => exact ih hx

theorem mapM_singleton_eq_some {β γ : Type} {f : β → Option γ} {a : β} {ys : List γ} :
    [a].mapM f = some ys ↔ ∃ x, ys = [x] ∧ f a = some x := by
  rw [mapM_eq_some_iff]
  constructor
  · rintro (_ | ⟨hx, _ | _⟩)
    exact ⟨_, rfl, hx⟩
  · rintro ⟨x, rfl, hx⟩
    exact .cons hx .nil

theorem mapM_pair_eq_some {β γ : Type} {f : β → Option γ} {a b : β} {ys : List γ} :
    [a, b].mapM f = some ys ↔ ∃ x y, ys = [x, y] ∧ f a = some x ∧ f b = some y := by
  rw [mapM_eq_some_iff]
  constructor
  · rintro (_ | ⟨hx, _ | ⟨hy, _ | _⟩⟩)
    exact ⟨_, _, rfl, hx, hy⟩
  · rintro ⟨x, y, rfl, hx, hy⟩
    exact .cons hx (.cons hy .nil)

/-- Two lists of optional results, one behind the other. -/
theorem mapM_append_eq_some {β γ : Type} {f : β → Option γ} {xs xs' : List β} {ys ys' : List γ}
    (h : xs.mapM f = some ys) (h' : xs'.mapM f = some ys') :
    (xs ++ xs').mapM f = some (ys ++ ys') :=
  mapM_eq_some_iff.2 (List.rel_append (mapM_eq_some_iff.1 h) (mapM_eq_some_iff.1 h'))

/-- Replacing every item of a list of optional results. -/
theorem mapM_map_some {β γ δ : Type} (f : β → Option γ) (g : γ → δ) (xs : List β) :
    (xs.mapM f).map (List.map g) = xs.mapM fun x => (f x).map g := by
  induction xs with
  | nil => rfl
  | cons x xs ih =>
    rw [List.mapM_cons, List.mapM_cons, ← ih]
    cases f x with
    | none => rfl
    | some y => cases xs.mapM f <;> rfl

end StagedTangent
