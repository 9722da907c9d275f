import StagedTangent.Proofs.Number.Representable
import StagedTangent.Proofs.Source.Completeness
import StagedTangent.Proofs.Source.Segment

/-!
# Shifts as they are written

The shift of a `circshift` is read as a number like any other and so goes through the binary number
nearest to its numeral. `shift_of_numeral` says what becomes of every whole numeral: which shift is
recorded, from where on it is refused, and for which numerals it is the shift that is written.
-/

namespace StagedTangent.Source

/-- A function that shifts its parameter by an amount. -/
def shiftText (amount : List Char) : String := "fn f(x) = circshift(x, " ++ String.ofList amount ++ ")"

/-- A text is recorded as its one parameter and a shift of it. -/
def RecordsShift (source : String) (k : ℤ) : Prop :=
  ∃ f p, parse source = .ok f ∧ f.toProgram = .ok p ∧
    p.nodes = [.argument 0, .call (.circshift k) [0]] ∧ p.result = 1

/-- A text is read as a function, which is refused for a shift. -/
def RefusesShift (source : String) : Prop :=
  ∃ f span, parse source = .ok f ∧ f.toProgram = .error (.notAShift span)

/-- The shift by a numeral, with and without a minus sign, is the one that is written. A numeral of
`2 ^ 63` or more is refused. -/
def ShiftsAsWritten (digits : List Char) : Prop :=
  (naturalOfDigits digits < 2 ^ 63 →
    RecordsShift (shiftText digits) (naturalOfDigits digits) ∧
      RecordsShift (shiftText ('-' :: digits)) (-naturalOfDigits digits)) ∧
  (2 ^ 63 ≤ naturalOfDigits digits →
    RefusesShift (shiftText digits) ∧ RefusesShift (shiftText ('-' :: digits)))

/-! ## Reading the text -/

theorem expression_of_negated {c c' : Cursor} {e : Expr}
    (h : Negated (Indexed (Atom Expression)) c e c') : Expression c e c' :=
  .mk (.operand (.operand h))

/-- The function of a shift by an expression. -/
def shiftFunction (shift : Expr) (stop : Nat) : Function :=
  ⟨"f", [⟨"x", ⟨5, 6⟩⟩], .call "circshift" [.ident "x" ⟨20, 21⟩, shift] ⟨10, stop⟩, ⟨0, stop⟩⟩

variable {amount : List Char} {shift : Expr}

/-- The body of the text is a call with the shift. -/
theorem expression_shiftCall
    (h : Expression ⟨23, amount ++ [')']⟩ shift ⟨23 + amount.length, [')']⟩) :
    Expression
      ⟨10, 'c' :: 'i' :: 'r' :: 'c' :: 's' :: 'h' :: 'i' :: 'f' :: 't' :: '(' :: 'x' :: ',' :: ' ' ::
        (amount ++ [')'])⟩
      (.call "circshift" [.ident "x" ⟨20, 21⟩, shift] ⟨10, 23 + amount.length + 1⟩)
      ⟨23 + amount.length + 1, []⟩ := by
  have hcallee : IsName ['c', 'i', 'r', 'c', 's', 'h', 'i', 'f', 't'] :=
    ⟨'c', _, rfl, rfl, by simp [isNamePart]⟩
  have hx : IsName ['x'] := ⟨'x', [], rfl, rfl, List.forall_mem_nil _⟩
  -- The places behind the signs of the call, from its end on.
  let behind : Cursor := ⟨23 + amount.length + 1, []⟩
  let amountAt : Cursor := ⟨23, amount ++ [')']⟩
  let commaAt : Cursor := ⟨21, ',' :: ' ' :: amountAt.rest⟩
  let argAt : Cursor := ⟨20, 'x' :: commaAt.rest⟩
  let openAt : Cursor := ⟨19, '(' :: argAt.rest⟩
  let calleeAt : Cursor :=
    ⟨10, 'c' :: 'i' :: 'r' :: 'c' :: 's' :: 'h' :: 'i' :: 'f' :: 't' :: openAt.rest⟩
  have hname : calleeAt.Spells ['c', 'i', 'r', 'c', 's', 'h', 'i', 'f', 't'] openAt := ⟨rfl, rfl⟩
  have hopening : openAt.Spells ['('] argAt := ⟨rfl, rfl⟩
  have harg : argAt.Spells ['x'] commaAt := ⟨rfl, rfl⟩
  have hcomma : Token [','] commaAt amountAt :=
    ⟨⟨22, ' ' :: amountAt.rest⟩, ⟨rfl, rfl⟩, [' '], List.forall_mem_singleton.2 rfl, rfl, rfl⟩
  have hclosing : Cursor.Spells ⟨23 + amount.length, [')']⟩ [')'] behind := ⟨rfl, rfl⟩
  have hident : Expression argAt (.ident "x" ⟨20, 21⟩) commaAt :=
    expression_of_negated (.operand (.operand (.ident hx harg commaAt.blanks_self)))
  exact expression_of_negated (.operand (.operand (.call hcallee hname.token hopening.token
    (.some hident (.more hcomma h (.last _))) hclosing.token)))

/-- A text with an expression for the shift is the function of the shift. -/
theorem parse_shiftText
    (h : Expression ⟨23, amount ++ [')']⟩ shift ⟨23 + amount.length, [')']⟩) :
    parse (shiftText amount) = .ok (shiftFunction shift (23 + amount.length + 1)) := by
  have hblank : ∀ b ∈ [' '], Text.isBlank b = true := List.forall_mem_singleton.2 rfl
  have hx : IsName ['x'] := ⟨'x', [], rfl, rfl, List.forall_mem_nil _⟩
  have hf : IsName ['f'] := ⟨'f', [], rfl, rfl, List.forall_mem_nil _⟩
  -- The places behind the blanks and signs of the text, from its body on.
  let bodyAt : Cursor :=
    ⟨10, 'c' :: 'i' :: 'r' :: 'c' :: 's' :: 'h' :: 'i' :: 'f' :: 't' :: '(' :: 'x' :: ',' :: ' ' ::
      (amount ++ [')'])⟩
  let equalsAt : Cursor := ⟨8, '=' :: ' ' :: bodyAt.rest⟩
  let closeAt : Cursor := ⟨6, ')' :: ' ' :: equalsAt.rest⟩
  let paramAt : Cursor := ⟨5, 'x' :: closeAt.rest⟩
  let openAt : Cursor := ⟨4, '(' :: paramAt.rest⟩
  let nameAt : Cursor := ⟨3, 'f' :: openAt.rest⟩
  let keywordAt : Cursor := ⟨0, 'f' :: 'n' :: ' ' :: nameAt.rest⟩
  have hkeyword : keywordAt.Spells ['f', 'n'] ⟨2, ' ' :: nameAt.rest⟩ := ⟨rfl, rfl⟩
  have hbehind : Cursor.Meets ⟨2, ' ' :: nameAt.rest⟩ fun d => isNamePart d = false := by
    rintro d rest ⟨⟩
    rfl
  have hblanks : Blanks ⟨2, ' ' :: nameAt.rest⟩ nameAt := ⟨[' '], hblank, rfl, rfl⟩
  have hname : nameAt.Spells ['f'] openAt := ⟨rfl, rfl⟩
  have hopening : openAt.Spells ['('] paramAt := ⟨rfl, rfl⟩
  have hspells : paramAt.Spells ['x'] closeAt := ⟨rfl, rfl⟩
  have hparam : Parameter paramAt ⟨"x", ⟨5, 6⟩⟩ closeAt :=
    .mk paramAt.blanks_self hx hspells closeAt.blanks_self
  have hclosing : Token [')'] closeAt equalsAt :=
    ⟨⟨7, ' ' :: equalsAt.rest⟩, ⟨rfl, rfl⟩, [' '], hblank, rfl, rfl⟩
  have hequals : Token ['='] equalsAt bodyAt :=
    ⟨⟨9, ' ' :: bodyAt.rest⟩, ⟨rfl, rfl⟩, [' '], hblank, rfl, rfl⟩
  have hdefinition : Definition keywordAt (shiftFunction shift (23 + amount.length + 1))
      ⟨23 + amount.length + 1, []⟩ :=
    .mk keywordAt.blanks_self hkeyword hbehind hblanks hf hname.token hopening
      (.some hparam (.last _)) hclosing hequals (expression_shiftCall h)
  have htext : Cursor.ofString (shiftText amount) = keywordAt := by
    delta Cursor.ofString shiftText
    simp [keywordAt, nameAt, openAt, paramAt, closeAt, equalsAt, bodyAt]
  rw [Parser.parse_eq_ok_iff, htext]
  exact ⟨_, Parser.read_function hdefinition rfl⟩

/-! ## Recording the function -/

/-- Recording the body records its shift. -/
theorem record_shiftFunction {names : Names} (hx : names.lookup "x" = some 0) (shift : Expr)
    (stop : Nat) (r : Recorder) :
    (shiftFunction shift stop).body.record names r =
      (shiftOf shift).map fun k => r.call (.circshift k) [0] := by
  have hident : (Expr.ident "x" ⟨20, 21⟩).record names r = .ok (0, r) := by
    rw [Expr.record.eq_def]
    dsimp only
    rw [hx]
    rfl
  have hcall : (shiftFunction shift stop).body.record names = (do
      let vector ← (Expr.ident "x" ⟨20, 21⟩).record names
      let amount ← shiftOf shift
      .call (.circshift amount) [vector]) := by
    rw [shiftFunction, Expr.record.eq_def]
    rfl
  rw [hcall]
  change (Expr.ident "x" ⟨20, 21⟩).record names r >>= _ = _
  rw [hident]
  cases shiftOf shift <;> rfl

theorem toProgram_shiftFunction (shift : Expr) (stop : Nat) :
    (shiftFunction shift stop).toProgram = (shiftOf shift).map fun k =>
      ⟨.append .empty #[.argument 0, .call (.circshift k) [0]], [0], 1, 1⟩ := by
  have hsome : (shiftFunction shift stop).params.isEmpty = false := rfl
  have hnone : Function.repeated? (shiftFunction shift stop).params = none := rfl
  have hlength : (shiftFunction shift stop).params.length = 1 := rfl
  rw [Function.toProgram, hsome, if_neg Bool.false_ne_true, hnone]
  dsimp only
  rw [hlength]
  change (shiftFunction shift stop).body.record _ _ >>= _ = _
  rw [record_shiftFunction rfl]
  cases shiftOf shift <;> rfl

/-- A text with an expression for the shift is recorded with the shift that this stands for. -/
theorem recordsShift_iff
    (h : Expression ⟨23, amount ++ [')']⟩ shift ⟨23 + amount.length, [')']⟩) {k : ℤ} :
    RecordsShift (shiftText amount) k ↔ shiftOf shift = .ok k := by
  have hparse := parse_shiftText h
  have hprogram := toProgram_shiftFunction shift (23 + amount.length + 1)
  constructor
  · rintro ⟨f, p, hf, hp, hnodes, -⟩
    obtain rfl := Except.ok.inj (hparse.symm.trans hf)
    rw [hprogram] at hp
    cases hshift : shiftOf shift with
    | error e =>
      rw [hshift] at hp
      cases hp
    | ok k' =>
      rw [hshift] at hp
      obtain rfl := Except.ok.inj hp
      obtain ⟨hcall, -⟩ := List.cons.inj (List.cons.inj hnodes).2
      obtain ⟨⟨⟩, -⟩ := Node.call.inj hcall
      rfl
  · intro hshift
    rw [hshift] at hprogram
    exact ⟨_, _, hparse, hprogram, rfl, rfl⟩

/-- A text with an expression for the shift is refused if this stands for none. -/
theorem refusesShift
    (h : Expression ⟨23, amount ++ [')']⟩ shift ⟨23 + amount.length, [')']⟩) {span : Span}
    (hshift : shiftOf shift = .error (.notAShift span)) : RefusesShift (shiftText amount) := by
  have hprogram := toProgram_shiftFunction shift (23 + amount.length + 1)
  rw [hshift] at hprogram
  exact ⟨_, span, parse_shiftText h, hprogram⟩

theorem RecordsShift.not_refusesShift {source : String} {k : ℤ} (h : RecordsShift source k) :
    ¬RefusesShift source := by
  rintro ⟨g, span, hg, hrefused⟩
  obtain ⟨f, p, hf, hp, -⟩ := h
  obtain rfl := Except.ok.inj (hf.symm.trans hg)
  cases hp.symm.trans hrefused

/-! ## Numerals as shifts -/

/-- A numeral without a fraction is read to the number nearest to its whole number. -/
theorem toBinary64_isNearest_whole (digits : List Char) :
    ((Decimal.ofNumeral digits []).toBinary64 false).IsNearest (naturalOfDigits digits) := by
  have hvalue : (Decimal.ofNumeral digits []).value = naturalOfDigits digits := by
    rw [Decimal.value_ofNumeral]
    simp [naturalOfDigits]
  rw [← hvalue]
  exact Decimal.toBinary64_isNearest _

variable {digits : List Char} {x : Binary64}

/-- A whole numeral stands for the number nearest to it. -/
theorem negated_of_whole (h : IsWhole digits) (hx : x.IsNearest (naturalOfDigits digits))
    (position : Nat) (rest : List Char) :
    Negated (Indexed (Atom Expression)) ⟨position, digits ++ rest⟩
      (.numeral x ⟨position, position + digits.length⟩) ⟨position + digits.length, rest⟩ := by
  have hspells : Cursor.Spells ⟨position, digits ++ rest⟩ digits ⟨position + digits.length, rest⟩ :=
    ⟨rfl, rfl⟩
  exact .operand (.operand (.numeral (.whole h) hx hspells (Cursor.blanks_self _)))

theorem expression_of_whole (h : IsWhole digits) (hx : x.IsNearest (naturalOfDigits digits)) :
    Expression ⟨23, digits ++ [')']⟩ (.numeral x ⟨23, 23 + digits.length⟩)
      ⟨23 + digits.length, [')']⟩ :=
  expression_of_negated (negated_of_whole h hx 23 [')'])

theorem expression_of_opposite (h : IsWhole digits) (hx : x.IsNearest (naturalOfDigits digits)) :
    Expression ⟨23, '-' :: digits ++ [')']⟩
      (.negation (.numeral x ⟨24, 24 + digits.length⟩) ⟨23, 24 + digits.length⟩)
      ⟨23 + ('-' :: digits).length, [')']⟩ := by
  have hsign : Cursor.Spells ⟨23, '-' :: digits ++ [')']⟩ ['-'] ⟨24, digits ++ [')']⟩ := ⟨rfl, rfl⟩
  have hlength : 23 + ('-' :: digits).length = 24 + digits.length := by
    rw [List.length_cons]
    omega
  rw [hlength]
  exact expression_of_negated (.negation hsign.token (negated_of_whole h hx 24 [')']))

theorem shiftOfNumeral_of_lt {k : ℤ} (hx : x.toInt? = some k) (hk : k.natAbs < 2 ^ 63) (span : Span) :
    shiftOfNumeral x span = .ok k := by
  rw [shiftOfNumeral, hx]
  exact if_pos hk

theorem shiftOfNumeral_of_le (hx : ∀ k : ℤ, x.toInt? = some k → 2 ^ 63 ≤ k.natAbs) (span : Span) :
    shiftOfNumeral x span = .error (.notAShift span) := by
  rw [shiftOfNumeral]
  split
  · next k hk => exact if_neg (Nat.not_lt.2 (hx k hk))
  · rfl

/-- The shifts that are recorded for a numeral with and without a minus sign. -/
theorem recordsShift_of_toInt? (h : IsWhole digits) (hx : x.IsNearest (naturalOfDigits digits)) {m : ℕ}
    (hm : x.toInt? = some (m : ℤ)) (hlt : m < 2 ^ 63) (k : ℤ) :
    (RecordsShift (shiftText digits) k ↔ k = m) ∧
      (RecordsShift (shiftText ('-' :: digits)) k ↔ k = -m) := by
  have hshift := shiftOfNumeral_of_lt hm (by rwa [Int.natAbs_natCast])
  constructor
  · rw [recordsShift_iff (expression_of_whole h hx), shiftOf, hshift, Except.ok.injEq]
    exact eq_comm
  · rw [recordsShift_iff (expression_of_opposite h hx), shiftOf, hshift, Except.map, Except.ok.injEq]
    exact eq_comm

theorem refusesShift_of_toInt? (h : IsWhole digits) (hx : x.IsNearest (naturalOfDigits digits))
    (hle : ∀ k : ℤ, x.toInt? = some k → 2 ^ 63 ≤ k.natAbs) :
    RefusesShift (shiftText digits) ∧ RefusesShift (shiftText ('-' :: digits)) := by
  have hshift := shiftOfNumeral_of_le hle
  have hopposite : ∀ span span' : Span,
      shiftOf (.negation (.numeral x span) span') = .error (.notAShift span) := by
    intro span span'
    rw [shiftOf, hshift]
    rfl
  exact ⟨refusesShift (expression_of_whole h hx) (hshift _),
    refusesShift (expression_of_opposite h hx) (hopposite _ _)⟩

/-- The shift by a whole numeral is the number nearest to it, and it is refused from the middle of
`2 ^ 63` and the number before it on. So it is the shift that is written, and refused only from
`2 ^ 63` on, exactly if the numeral fits into a binary number or is `2 ^ 63` or more. -/
theorem shift_of_numeral (h : IsWhole digits) :
    (naturalOfDigits digits < 2 ^ 63 - 512 →
      ∃ (x : Binary64) (m : ℕ), x.IsNearest (naturalOfDigits digits) ∧ x.size = m ∧
        RecordsShift (shiftText digits) m ∧ RecordsShift (shiftText ('-' :: digits)) (-m)) ∧
    (2 ^ 63 - 512 ≤ naturalOfDigits digits →
      RefusesShift (shiftText digits) ∧ RefusesShift (shiftText ('-' :: digits))) ∧
    (ShiftsAsWritten digits ↔
      (naturalOfDigits digits < 2 ^ 63 → Binary64.Fits (naturalOfDigits digits))) := by
  have hx := toBinary64_isNearest_whole digits
  generalize (Decimal.ofNumeral digits []).toBinary64 false = x at hx
  have hrefused : 2 ^ 63 - 512 ≤ naturalOfDigits digits →
      RefusesShift (shiftText digits) ∧ RefusesShift (shiftText ('-' :: digits)) :=
    fun hle => refusesShift_of_toInt? h hx fun _ => hx.le_natAbs_of_toInt? hle
  refine ⟨fun hlt => ?_, hrefused, fun hwritten hlt => ?_, fun hfits => ⟨fun hlt => ?_, fun hle => ?_⟩⟩
  · obtain ⟨m, hsize, hm, htoInt⟩ := hx.exists_toInt? hlt
    have hrecords := recordsShift_of_toInt? h hx htoInt hm
    exact ⟨x, m, hx, hsize, (hrecords m).1.2 rfl, (hrecords (-m)).2.2 rfl⟩
  · obtain ⟨hrecorded, -⟩ := hwritten.1 hlt
    rcases Nat.lt_or_ge (naturalOfDigits digits) (2 ^ 63 - 512) with hsmall | hlarge
    · obtain ⟨m, hsize, hm, htoInt⟩ := hx.exists_toInt? hsmall
      have heq := ((recordsShift_of_toInt? h hx htoInt hm _).1.1 hrecorded)
      rw [← hx.size_eq_iff (hlt.trans (by norm_num)), hsize, Int.natCast_inj.1 heq]
    · exact absurd (hrefused hlarge).1 hrecorded.not_refusesShift
  · have hsize := hx.size_eq_of_fits (hfits hlt) (hlt.trans (by norm_num))
    have hsmall : x.size < 2 ^ 63 := by
      rw [hsize]
      exact_mod_cast hlt
    obtain ⟨m, hm, hbound, htoInt⟩ := hx.exists_toInt? (hx.size_lt_iff.1 hsmall)
    obtain rfl : naturalOfDigits digits = m := Nat.cast_injective (hsize.symm.trans hm)
    have hrecords := recordsShift_of_toInt? h hx htoInt hbound
    exact ⟨(hrecords _).1.2 rfl, (hrecords _).2.2 rfl⟩
  · exact hrefused ((Nat.sub_le _ _).trans hle)

/-- The largest number below `2 ^ 63` is refused. -/
theorem shift_of_numeral_largest :
    RefusesShift (shiftText "9223372036854775807".toList) ∧
      RefusesShift (shiftText ('-' :: "9223372036854775807".toList)) :=
  (shift_of_numeral (.inr ⟨'9', "223372036854775807".toList, rfl, rfl, by simp⟩)).2.1 (by decide)

/-- The first whole number that is no binary number is recorded as the one before it. -/
theorem shift_of_rounded_numeral :
    RecordsShift "fn f(x) = circshift(x, 9007199254740993)" 9007199254740992 ∧
      ¬RecordsShift "fn f(x) = circshift(x, 9007199254740993)" 9007199254740993 := by
  have hwhole : IsWhole "9007199254740993".toList :=
    .inr ⟨'9', "007199254740993".toList, rfl, rfl, by simp⟩
  have htext : shiftText "9007199254740993".toList = "fn f(x) = circshift(x, 9007199254740993)" := by
    decide +kernel
  have hrecords := recordsShift_of_toInt? hwhole (toBinary64_isNearest_whole _)
    (m := 9007199254740992) (by decide +kernel) (by decide)
  rw [htext] at hrecords
  rw [(hrecords _).1, (hrecords _).1]
  decide

end StagedTangent.Source
