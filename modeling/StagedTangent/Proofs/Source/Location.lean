import Mathlib.Data.List.DropRight
import Mathlib.Order.MinMax
import StagedTangent.Source.Diagnostic

/-!
# What a diagnostic points at

Ranges are given by characters, kept by bytes and shown by lines and columns. A byte at which a
character begins never divides one (`slice?_byteOffset`), so every range of characters has a
diagnostic and this can be shown. `Diagnostic.ofSpan_points` says what is in it and what is shown:
the line of its first character, and carets under the part of the range that lies in this line.
-/

namespace StagedTangent.Source

variable {cs : List Char} {i j place start stop : ℕ}

/-- The line of a place begins at a place: behind the last line end before it. -/
structure IsLineStart (cs : List Char) (place start : ℕ) : Prop where
  le : start ≤ place
  between : '\n' ∉ (cs.take place).drop start
  first : start = 0 ∨ cs[start - 1]? = some '\n'

/-- The line of a place ends at a place: before the first line end behind it. -/
structure IsLineStop (cs : List Char) (place stop : ℕ) : Prop where
  le : place ≤ stop
  le_length : stop ≤ cs.length
  between : '\n' ∉ (cs.take stop).drop place
  last : stop = cs.length ∨ cs[stop]? = some '\n'

theorem IsLineStart.unique {start' : ℕ} (h : IsLineStart cs place start)
    (h' : IsLineStart cs place start') : start = start' := by
  have hle : ∀ {s t : ℕ}, IsLineStart cs place s → IsLineStart cs place t → s ≤ t := by
    intro s t hs ht
    by_contra hlt
    have hbefore : cs[s - 1]? = some '\n' := hs.first.resolve_left (by omega)
    refine ht.between (List.mem_iff_getElem?.2 ⟨s - 1 - t, ?_⟩)
    have hs := hs.le
    rw [List.getElem?_drop, List.getElem?_take_of_lt (by omega), ← hbefore]
    congr 1
    omega
  exact Nat.le_antisymm (hle h h') (hle h' h)

theorem IsLineStop.unique {stop' : ℕ} (h : IsLineStop cs place stop)
    (h' : IsLineStop cs place stop') : stop = stop' := by
  have hle : ∀ {s t : ℕ}, IsLineStop cs place s → IsLineStop cs place t → t ≤ s := by
    intro s t hs ht
    have hlength := ht.le_length
    by_contra hlt
    have hbehind : cs[s]? = some '\n' := hs.last.resolve_left (by omega)
    refine ht.between (List.mem_iff_getElem?.2 ⟨s - place, ?_⟩)
    rw [List.getElem?_drop, Nat.add_sub_cancel' hs.le, List.getElem?_take_of_lt (by omega), hbehind]
  exact Nat.le_antisymm (hle h' h) (hle h h')

/-! ## Bytes of characters -/

theorem byteLength_cons (c : Char) (cs : List Char) :
    byteLength (c :: cs) = c.utf8Size + byteLength cs := rfl

theorem byteLength_append (front back : List Char) :
    byteLength (front ++ back) = byteLength front + byteLength back := by
  induction front with
  | nil => exact (Nat.zero_add _).symm
  | cons c front ih => rw [List.cons_append, byteLength_cons, byteLength_cons, ih, Nat.add_assoc]

/-- The bytes of a list of characters are those of its text. -/
theorem byteLength_eq_utf8ByteSize (cs : List Char) :
    byteLength cs = (String.ofList cs).utf8ByteSize := by
  induction cs with
  | nil => rfl
  | cons c cs ih =>
    rw [byteLength_cons, ih, String.ofList_cons, String.utf8ByteSize_append,
      String.utf8ByteSize_singleton]

theorem takeBytes_append (front back : List Char) :
    takeBytes (byteLength front) (front ++ back) = front := by
  induction front with
  | nil =>
    cases back with
    | nil => rfl
    | cons c back => exact if_neg (Nat.not_le.2 c.utf8Size_pos)
  | cons c front ih =>
    rw [byteLength_cons, List.cons_append, takeBytes, if_pos (Nat.le_add_right _ _),
      Nat.add_sub_cancel_left, ih]

theorem byteOffset_length : byteOffset cs cs.length = byteLength cs := by
  rw [byteOffset, List.take_length]

/-- Behind a text there is no place but its end. -/
theorem byteOffset_min : byteOffset cs (min i cs.length) = byteOffset cs i := by
  rw [byteOffset, byteOffset, ← List.take_eq_take_min]

/-- A place within a beginning of a text is at the same byte. -/
theorem byteOffset_take (h : i ≤ j) : byteOffset (cs.take j) i = byteOffset cs i := by
  rw [byteOffset, byteOffset, List.take_take, Nat.min_eq_left h]

theorem byteOffset_add : byteOffset cs (i + j) = byteOffset cs i + byteOffset (cs.drop i) j := by
  rw [byteOffset, byteOffset, byteOffset, List.take_add, byteLength_append]

theorem byteOffset_monotone (cs : List Char) : Monotone (byteOffset cs) := by
  intro i j h
  obtain ⟨k, rfl⟩ := Nat.exists_eq_add_of_le h
  rw [byteOffset_add]
  exact Nat.le_add_right _ _

/-- A beginning up to a character is that many characters. -/
theorem upTo?_byteOffset (cs : List Char) (i : ℕ) : upTo? cs (byteOffset cs i) = some (cs.take i) := by
  have htake := takeBytes_append (cs.take i) (cs.drop i)
  rw [List.take_append_drop] at htake
  rw [upTo?, byteOffset, htake]
  exact if_pos rfl

/-- A slice between characters is that range of characters. -/
theorem slice?_byteOffset (hi : i ≤ cs.length) (h : i ≤ j) :
    slice? cs (byteOffset cs i) (byteOffset cs j) = some ((cs.take j).drop i) := by
  rw [slice?, upTo?_byteOffset, upTo?_byteOffset, Option.bind_eq_bind, Option.bind_some,
    Option.bind_some, if_pos (byteOffset_monotone cs h), List.length_take_of_le hi]

/-! ## Lines of characters -/

/-- The line start of the text before a place is that of the place. -/
theorem exists_isLineStart (h : place ≤ cs.length) :
    ∃ start, IsLineStart cs place start ∧ lineStart (cs.take place) = byteOffset cs start := by
  let isText : Char → Bool := fun c => decide (c ≠ '\n')
  let front := (cs.take place).rdropWhile isText
  let line := (cs.take place).rtakeWhile isText
  have hsplit : front ++ line = cs.take place := List.rdropWhile_append_rtakeWhile
  have hle : front.length ≤ place := by
    rw [← List.length_take_of_le h, ← hsplit, List.length_append]
    exact Nat.le_add_right _ _
  have htake : cs.take front.length = front := by
    have hfront := congrArg (List.take front.length) hsplit
    rwa [List.take_left, List.take_take, Nat.min_eq_left hle, eq_comm] at hfront
  refine ⟨front.length, ⟨hle, ?_, ?_⟩, ?_⟩
  · rw [← hsplit, List.drop_left]
    intro hmem
    have htext : isText '\n' = true := List.mem_rtakeWhile_imp hmem
    exact Bool.false_ne_true htext
  · rcases eq_or_ne front [] with hnil | hne
    · exact .inl (List.length_eq_zero_iff.2 hnil)
    · have hlast : ¬isText (front.getLast hne) = true := List.rdropWhile_last_not isText _ hne
      have hend : front.getLast hne = '\n' := not_not.1 fun h => hlast (decide_eq_true h)
      have hlt : front.length - 1 < front.length := Nat.sub_lt (List.length_pos_iff.2 hne) Nat.one_pos
      rw [← List.getElem?_take_of_lt hlt, htake, ← List.getLast?_eq_getElem?,
        List.getLast?_eq_some_getLast hne, hend]
      exact .inr rfl
  · rw [byteOffset, htake]
    rfl

/-- The line stop of the text behind a place is that of the place. -/
theorem exists_isLineStop (h : place ≤ cs.length) :
    ∃ stop, IsLineStop cs place stop ∧
      byteOffset cs place + lineStop (cs.drop place) = byteOffset cs stop := by
  let isText : Char → Bool := fun c => decide (c ≠ '\n')
  let line := (cs.drop place).takeWhile isText
  let behind := (cs.drop place).dropWhile isText
  have hsplit : line ++ behind = cs.drop place := List.takeWhile_append_dropWhile
  have htake : (cs.drop place).take line.length = line := by rw [← hsplit, List.take_left]
  have hlength : place + line.length + behind.length = cs.length := by
    rw [Nat.add_assoc, ← List.length_append, hsplit, List.length_drop, Nat.add_sub_of_le h]
  refine ⟨place + line.length, ⟨Nat.le_add_right _ _, hlength ▸ Nat.le_add_right _ _, ?_, ?_⟩, ?_⟩
  · rw [List.drop_take, Nat.add_sub_cancel_left, htake]
    intro hmem
    have htext : isText '\n' = true := List.mem_takeWhile_imp hmem
    exact Bool.false_ne_true htext
  · rcases eq_or_ne behind [] with hnil | hne
    · rw [hnil, List.length_nil, Nat.add_zero] at hlength
      exact .inl hlength
    · have hfirst : isText (behind.head hne) = false := List.head_dropWhile_not isText hne
      have hend : behind.head hne = '\n' := not_not.1 (of_decide_eq_false hfirst)
      rw [← List.getElem?_drop, ← hsplit, List.getElem?_append_right le_rfl, Nat.sub_self,
        ← List.head?_eq_getElem?, List.head?_eq_some_head hne, hend]
      exact .inr rfl
  · have hline : byteOffset (cs.drop place) line.length = byteLength line := by rw [byteOffset, htake]
    rw [byteOffset_add, hline]
    rfl

/-- The text before a place is a slice. -/
theorem slice?_before (cs : List Char) (place : ℕ) :
    slice? cs 0 (byteOffset cs place) = some (cs.take place) :=
  slice?_byteOffset (Nat.zero_le _) (Nat.zero_le _)

/-- The text behind a place is a slice. -/
theorem slice?_behind (h : place ≤ cs.length) :
    slice? cs (byteOffset cs place) (byteLength cs) = some (cs.drop place) := by
  rw [← byteOffset_length, slice?_byteOffset h h, List.take_length]

theorem IsLineStart.lineStart_eq (h : IsLineStart cs place start) (hplace : place ≤ cs.length) :
    lineStart (cs.take place) = byteOffset cs start := by
  obtain ⟨start', h', heq⟩ := exists_isLineStart hplace
  rw [heq, h.unique h']

theorem IsLineStop.lineStop_eq (h : IsLineStop cs place stop) :
    byteOffset cs place + lineStop (cs.drop place) = byteOffset cs stop := by
  obtain ⟨stop', h', heq⟩ := exists_isLineStop (h.le.trans h.le_length)
  rw [heq, h.unique h']

/-! ## Diagnostics of ranges of characters -/

/-- The location of a character: one more than the line ends before it, and one more than the
characters from where its line begins. -/
theorem IsLineStart.location_eq (h : IsLineStart cs place start) (hplace : place ≤ cs.length) :
    Location.of? cs (byteOffset cs place) =
      some ⟨(cs.take place).count '\n' + 1, place - start + 1⟩ := by
  have hlength : (cs.take place).length = place := List.length_take_of_le hplace
  have hline : slice? (cs.take place) (lineStart (cs.take place)) (byteLength (cs.take place)) =
      some ((cs.take place).drop start) := by
    rw [h.lineStart_eq hplace, ← byteOffset_take h.le]
    exact slice?_behind (h.le.trans hlength.ge)
  rw [Location.of?, slice?_before, Option.bind_eq_bind, Option.bind_some, hline, Option.bind_some,
    List.length_drop, hlength]

/-- A place is moved between two others as its byte is moved between theirs. -/
theorem clamp?_byteOffset (h : start ≤ stop) :
    clamp? (byteOffset cs place) (byteOffset cs start) (byteOffset cs stop) =
      some (byteOffset cs (max start (min place stop))) := by
  have hmonotone := byteOffset_monotone cs
  rw [clamp?, if_pos (hmonotone h), hmonotone.map_max, hmonotone.map_min]

namespace Diagnostic

variable {source : String} {a b first last : ℕ}

/-- A range of characters has a diagnostic, with the bytes and the locations of its ends. -/
theorem ofSpan?_eq_some {first' : ℕ} (message : String) (ha : a ≤ source.toList.length)
    (hb : b ≤ source.toList.length) (hfirst : IsLineStart source.toList a first)
    (hfirst' : IsLineStart source.toList b first') :
    ofSpan? source message ⟨a, b⟩ = some
      ⟨message, ⟨byteOffset source.toList a, byteOffset source.toList b⟩,
        ⟨(source.toList.take a).count '\n' + 1, a - first + 1⟩,
        ⟨(source.toList.take b).count '\n' + 1, b - first' + 1⟩⟩ := by
  rw [ofSpan?, hfirst.location_eq ha, hfirst'.location_eq hb]
  rfl

/-- The range of bytes of a diagnostic. -/
theorem ofSpan_span (message : String) (ha : a ≤ source.toList.length)
    (hb : b ≤ source.toList.length) :
    (ofSpan source message ⟨a, b⟩).span =
      ⟨byteOffset source.toList a, byteOffset source.toList b⟩ := by
  obtain ⟨first, hfirst, -⟩ := exists_isLineStart ha
  obtain ⟨first', hfirst', -⟩ := exists_isLineStart hb
  rw [ofSpan, ofSpan?_eq_some message ha hb hfirst hfirst', Option.getD_some]

/-- A diagnostic of a range of characters is shown, with the line that the range begins in and
carets under what lies in this line. -/
theorem render?_eq_some {d : Diagnostic}
    (hspan : d.span = ⟨byteOffset source.toList a, byteOffset source.toList b⟩)
    (hfirst : IsLineStart source.toList a first) (hlast : IsLineStop source.toList a last) :
    d.render? source = some ("error: " ++ d.message ++ "\n" ++
      s!"--> line {d.start.line}, col {d.start.column}\n" ++
      String.ofList ((source.toList.take last).drop first) ++ "\n" ++
      String.ofList (List.replicate (a - first) ' ') ++
      String.ofList (List.replicate (max 1 (min b last - a)) '^')) := by
  rw [render?, hspan]
  generalize source.toList = cs at *
  have ha : a ≤ cs.length := hlast.le.trans hlast.le_length
  have hstart : min (byteOffset cs a) (byteLength cs) = byteOffset cs a := by
    rw [← byteOffset_length]
    exact Nat.min_eq_left (byteOffset_monotone cs ha)
  have hmarked : a ≤ max a (min b last) := Nat.le_max_left _ _
  have hwidth : ((cs.take (max a (min b last))).drop a).length = min b last - a := by
    have hle := hlast.le_length
    rw [List.length_drop, List.length_take]
    omega
  have hindent : ((cs.take a).drop first).length = a - first := by
    rw [List.length_drop, List.length_take_of_le ha]
  simp only [hstart, slice?_before, slice?_behind ha, Option.bind_eq_bind, Option.bind_some,
    hfirst.lineStart_eq ha, hlast.lineStop_eq, slice?_byteOffset (hfirst.le.trans ha) hfirst.le,
    slice?_byteOffset (hfirst.le.trans ha) (hfirst.le.trans hlast.le), clamp?_byteOffset hlast.le,
    slice?_byteOffset ha hmarked, hwidth, hindent]

/-- Every range of characters, its ends moved back into the text, has a diagnostic, and this can be
shown. It has the bytes of both ends and their lines and columns. What is shown is the line of the
first end from its first to its last character, and carets from the first end to the second as far
as this line goes, or one. -/
theorem ofSpan_points (source message : String) (a b : ℕ) :
    let cs := source.toList
    let a' := min a cs.length
    let b' := min b cs.length
    let d := ofSpan source message ⟨a, b⟩
    ∃ first first' last, IsLineStart cs a' first ∧ IsLineStart cs b' first' ∧ IsLineStop cs a' last ∧
      ofSpan? source message ⟨a, b⟩ = some d ∧
      d = ⟨message,
        ⟨(String.ofList (cs.take a')).utf8ByteSize, (String.ofList (cs.take b')).utf8ByteSize⟩,
        ⟨(cs.take a').count '\n' + 1, a' - first + 1⟩,
        ⟨(cs.take b').count '\n' + 1, b' - first' + 1⟩⟩ ∧
      d.render? source = some (d.render source) ∧
      d.render source = "error: " ++ message ++ "\n" ++
        s!"--> line {d.start.line}, col {d.start.column}\n" ++
        String.ofList ((cs.take last).drop first) ++ "\n" ++
        String.ofList (List.replicate (d.start.column - 1) ' ') ++
        String.ofList (List.replicate (max 1 (min b' last - a')) '^') := by
  intro cs a' b' d
  have ha : a' ≤ cs.length := Nat.min_le_right _ _
  have hb : b' ≤ cs.length := Nat.min_le_right _ _
  obtain ⟨first, hfirst, -⟩ := exists_isLineStart ha
  obtain ⟨first', hfirst', -⟩ := exists_isLineStart hb
  obtain ⟨last, hlast, -⟩ := exists_isLineStop ha
  have hclamped : ofSpan? source message ⟨a', b'⟩ = ofSpan? source message ⟨a, b⟩ := by
    rw [ofSpan?, ofSpan?]
    dsimp only
    rw [byteOffset_min, byteOffset_min]
  have hsome := ofSpan?_eq_some message ha hb hfirst hfirst'
  rw [hclamped] at hsome
  have hd : ofSpan? source message ⟨a, b⟩ = some d := by
    rw [hsome, Option.some.injEq]
    change _ = (ofSpan? source message ⟨a, b⟩).getD _
    rw [hsome, Option.getD_some]
  have hfields := Option.some.inj (hd.symm.trans hsome)
  have hmessage : d.message = message := congrArg Diagnostic.message hfields
  have hcolumn : d.start.column - 1 = a' - first := by
    rw [hfields]
    exact Nat.add_sub_cancel _ _
  have hrender := render?_eq_some (congrArg Diagnostic.span hfields) hfirst hlast
  rw [hmessage, ← hcolumn] at hrender
  refine ⟨first, first', last, hfirst, hfirst', hlast, hd, ?_, ?_, ?_⟩
  · rw [hfields, byteOffset, byteOffset, byteLength_eq_utf8ByteSize, byteLength_eq_utf8ByteSize]
  · rw [render, hrender, Option.getD_some]
  · rw [render, hrender, Option.getD_some]

end Diagnostic

end StagedTangent.Source
