import StagedTangent.Number.Layout
import StagedTangent.Proofs.Number.ReadBack

/-!
# The text of a number

However a layout arranges the digits of a decimal, with a point among them, zeros around them or a
power of ten behind them, the text stands for the decimal's value (`numberOf_decimal`). Texts of
binary numbers therefore tell them apart, unless they are NaNs (`Layout.write_injective`).
-/

namespace StagedTangent

/-! ## Texts that are cut at a character -/

section Cut

variable {α : Type} {p : α → Bool} {front back front' back' : List α}

/-- What is of a class goes as far as the first item that is not. -/
theorem takeWhile_cut (hfront : ∀ c ∈ front, p c = true) (hback : ∀ c ∈ back.head?, p c = false) :
    (front ++ back).takeWhile p = front := by
  rw [List.takeWhile_append_of_pos hfront]
  cases back with
  | nil => rw [List.takeWhile_nil, List.append_nil]
  | cons c back => rw [List.takeWhile_cons_of_neg (by simp [hback c rfl]), List.append_nil]

theorem dropWhile_cut (hfront : ∀ c ∈ front, p c = true) (hback : ∀ c ∈ back.head?, p c = false) :
    (front ++ back).dropWhile p = back := by
  have hparts : (front ++ back).takeWhile p ++ (front ++ back).dropWhile p = front ++ back :=
    List.takeWhile_append_dropWhile
  rw [takeWhile_cut hfront hback] at hparts
  exact List.append_cancel_left hparts

/-- Two texts that are cut at the same place have the same parts. -/
theorem append_inj_of_cut (hfront : ∀ c ∈ front, p c = true) (hback : ∀ c ∈ back.head?, p c = false)
    (hfront' : ∀ c ∈ front', p c = true) (hback' : ∀ c ∈ back'.head?, p c = false)
    (h : front ++ back = front' ++ back') : front = front' ∧ back = back' := by
  constructor
  · rw [← takeWhile_cut hfront hback, h, takeWhile_cut hfront' hback']
  · rw [← dropWhile_cut hfront hback, h, dropWhile_cut hfront' hback']

end Cut

/-! ## Digits -/

theorem naturalOfDigits_toDigits (n : Nat) : naturalOfDigits (Nat.toDigits 10 n) = n := by
  rw [naturalOfDigits]
  exact Nat.ofDigitChars_eq_foldl.symm.trans Nat.ofDigitChars_ten_toDigits

theorem naturalOfDigits_zeros (n : Nat) : naturalOfDigits (Layout.zeros n) = 0 := by
  rw [naturalOfDigits]
  exact Nat.ofDigitChars_eq_foldl.symm.trans Nat.ofDigitChars_replicate_zero

theorem isDigit_of_mem_toDigits {n : Nat} {c : Char} (h : c ∈ Nat.toDigits 10 n) :
    c.isDigit = true :=
  Nat.isDigit_of_mem_toDigits (by norm_num) (by norm_num) h

theorem isDigit_of_mem_zeros {n : Nat} {c : Char} (h : c ∈ Layout.zeros n) : c.isDigit = true := by
  rw [List.eq_of_mem_replicate h]
  rfl

/-- The whole number that digits stand for, with or without a sign in front of them. -/
def integerOf : List Char → ℤ
  | '-' :: digits => -naturalOfDigits digits
  | '+' :: digits => naturalOfDigits digits
  | digits => naturalOfDigits digits

theorem integerOf_of_isDigit {digits : List Char} (h : ∀ c ∈ digits, c.isDigit = true) :
    integerOf digits = naturalOfDigits digits := by
  unfold integerOf
  split
  · cases h _ List.mem_cons_self
  · cases h _ List.mem_cons_self
  · rfl

/-- The text of a natural number is made of its digits. -/
theorem toList_toString_nat (n : Nat) : (toString n).toList = Nat.toDigits 10 n := by
  rw [Nat.toString_eq_repr, Nat.toList_repr]

theorem toList_toString_int (k : ℤ) : (toString k).toList =
    if 0 ≤ k then Nat.toDigits 10 k.toNat else '-' :: Nat.toDigits 10 (-k).toNat := by
  rw [Int.toString_eq_repr, Int.repr_eq_if]
  split
  · rw [Nat.toList_repr]
  · rw [String.toList_append, Nat.toList_repr]
    rfl

/-- The text of a natural number tells it from all others. -/
theorem toString_nat_injective {m n : Nat} (h : toString m = toString n) : m = n := by
  have hchars := congrArg String.toList h
  rw [toList_toString_nat, toList_toString_nat] at hchars
  rw [← naturalOfDigits_toDigits m, hchars, naturalOfDigits_toDigits]

theorem integerOf_toString (k : ℤ) : integerOf (toString k).toList = k := by
  rw [toList_toString_int]
  split
  · rw [integerOf_of_isDigit fun c => isDigit_of_mem_toDigits, naturalOfDigits_toDigits]
    omega
  · rw [integerOf, naturalOfDigits_toDigits]
    omega

/-- The text of a whole number tells it from all others. -/
theorem toString_int_injective {k l : ℤ} (h : toString k = toString l) : k = l := by
  rw [← integerOf_toString k, h, integerOf_toString]

/-! ## The value of a text -/

/-- The number that digits stand for, with a point among them and a power of ten behind an `e`. -/
def numberOf (cs : List Char) : ℚ :=
  let mantissa := cs.takeWhile fun c => decide (c ≠ 'e')
  let whole := mantissa.takeWhile fun c => decide (c ≠ '.')
  let fraction := (mantissa.dropWhile fun c => decide (c ≠ '.')).tail
  let power := (cs.dropWhile fun c => decide (c ≠ 'e')).tail
  (Decimal.ofNumeral whole fraction).value * 10 ^ integerOf power

theorem ne_of_isDigit {c d : Char} (hc : c.isDigit = true) (hd : d.isDigit = false) :
    decide (c ≠ d) = true := by
  rw [decide_eq_true_eq]
  rintro rfl
  cases hc.symm.trans hd

/-- A text of digits, perhaps with a fraction and with a power, stands for what its parts say. -/
theorem numberOf_eq {whole fraction point power : List Char}
    (hwhole : ∀ c ∈ whole, c.isDigit = true) (hfraction : ∀ c ∈ fraction, c.isDigit = true)
    (hpoint : point = [] ∧ fraction = [] ∨ point = '.' :: fraction)
    (hpower : ∀ c ∈ power.head?, c = 'e') :
    numberOf (whole ++ point ++ power) =
      (Decimal.ofNumeral whole fraction).value * 10 ^ integerOf power.tail := by
  have hnot : ∀ c ∈ whole ++ point, decide (c ≠ 'e') = true := by
    refine List.forall_mem_append.2 ⟨fun c hc => ne_of_isDigit (hwhole c hc) rfl, ?_⟩
    rcases hpoint with ⟨rfl, -⟩ | rfl
    · exact List.forall_mem_nil _
    · exact List.forall_mem_cons.2 ⟨rfl, fun c hc => ne_of_isDigit (hfraction c hc) rfl⟩
  have hbehind : ∀ c ∈ power.head?, decide (c ≠ 'e') = false := by
    intro c hc
    rw [hpower c hc]
    rfl
  have hdot : ∀ c ∈ whole, decide (c ≠ '.') = true := fun c hc => ne_of_isDigit (hwhole c hc) rfl
  have hhead : ∀ c ∈ point.head?, decide (c ≠ '.') = false := by
    rcases hpoint with ⟨rfl, -⟩ | rfl
    · exact nofun
    · rintro c ⟨⟩
      rfl
  have htail : point.tail = fraction := by
    rcases hpoint with ⟨rfl, rfl⟩ | rfl <;> rfl
  rw [numberOf, takeWhile_cut hnot hbehind, dropWhile_cut hnot hbehind, takeWhile_cut hdot hhead,
    dropWhile_cut hdot hhead, htail]

/-- Without a power of ten nothing is scaled. -/
theorem numberOf_eq_value {whole fraction point : List Char}
    (hwhole : ∀ c ∈ whole, c.isDigit = true) (hfraction : ∀ c ∈ fraction, c.isDigit = true)
    (hpoint : point = [] ∧ fraction = [] ∨ point = '.' :: fraction) :
    numberOf (whole ++ point) = (Decimal.ofNumeral whole fraction).value := by
  have hnone : ∀ c ∈ ([] : List Char).head?, c = 'e' := nofun
  have h := numberOf_eq hwhole hfraction hpoint hnone
  rwa [List.append_nil, List.tail_nil, integerOf_of_isDigit (List.forall_mem_nil _),
    naturalOfDigits, List.foldl_nil, Nat.cast_zero, zpow_zero, mul_one] at h

namespace Layout

variable (layout : Layout)

/-- Digits keep their value wherever the point is put. -/
theorem numberOf_positional (n : Nat) (power : ℤ) :
    numberOf (layout.positional (Nat.toDigits 10 n) power) =
      n * 10 ^ (power + 1 - (Nat.toDigits 10 n).length) := by
  have hdigits : ∀ c ∈ Nat.toDigits 10 n, c.isDigit = true := fun c => isDigit_of_mem_toDigits
  have hvalue := naturalOfDigits_toDigits n
  generalize Nat.toDigits 10 n = digits at hdigits hvalue
  unfold positional
  split
  · next k =>
    have hzeros : ∀ c ∈ zeros k ++ digits, c.isDigit = true :=
      List.forall_mem_append.2 ⟨fun c => isDigit_of_mem_zeros, hdigits⟩
    have htext : ['0', '.'] ++ zeros k ++ digits = ['0'] ++ '.' :: (zeros k ++ digits) := by simp
    rw [htext, numberOf_eq_value (List.forall_mem_singleton.2 rfl) hzeros (.inr rfl), Decimal.value,
      Decimal.ofNumeral]
    dsimp only
    rw [naturalOfDigits_append, naturalOfDigits_append, naturalOfDigits_zeros, hvalue,
      List.length_append, zeros, List.length_replicate]
    have hzero : naturalOfDigits ['0'] = 0 := rfl
    rw [hzero, Nat.zero_mul, Nat.zero_mul, Nat.zero_add, Nat.zero_add, Int.negSucc_eq]
    congr 2
    omega
  · next k =>
    split
    · next hle =>
      have hwhole : ∀ c ∈ digits ++ zeros (k + 1 - digits.length), c.isDigit = true :=
        List.forall_mem_append.2 ⟨hdigits, fun c => isDigit_of_mem_zeros⟩
      have hnumber : numberOf (digits ++ zeros (k + 1 - digits.length) ++
          if layout.wholePoint then ['.', '0'] else []) =
            naturalOfDigits (digits ++ zeros (k + 1 - digits.length)) := by
        split
        · rw [numberOf_eq_value hwhole (List.forall_mem_singleton.2 rfl) (.inr rfl),
            Decimal.value_ofNumeral]
          simp [naturalOfDigits]
        · rw [numberOf_eq_value hwhole (List.forall_mem_nil _) (.inl ⟨rfl, rfl⟩),
            Decimal.value_ofNumeral]
          simp [naturalOfDigits]
      have hexponent : (Int.ofNat k + 1 - digits.length : ℤ) = (k + 1 - digits.length : ℕ) := by
        rw [Int.ofNat_eq_natCast]
        omega
      rw [hnumber, naturalOfDigits_append, naturalOfDigits_zeros, hvalue, hexponent, zpow_natCast,
        zeros, List.length_replicate, Nat.add_zero, Nat.cast_mul, Nat.cast_pow, Nat.cast_ofNat]
    · next hlt =>
      have hpoint : ['.'] ++ digits.drop (k + 1) = '.' :: digits.drop (k + 1) := rfl
      rw [List.append_assoc, hpoint,
        numberOf_eq_value (fun c hc => hdigits c (List.mem_of_mem_take hc))
          (fun c hc => hdigits c (List.mem_of_mem_drop hc)) (.inr rfl),
        Decimal.value, Decimal.ofNumeral]
      dsimp only
      rw [List.take_append_drop, hvalue, List.length_drop, Int.ofNat_eq_natCast]
      congr 2
      omega

/-- The power of ten behind the digits makes up for the place of the point. -/
theorem numberOf_scientific (n : Nat) (power : ℤ) :
    numberOf (layout.scientific (Nat.toDigits 10 n) power) =
      n * 10 ^ (power + 1 - (Nat.toDigits 10 n).length) := by
  have hdigits : ∀ c ∈ Nat.toDigits 10 n, c.isDigit = true := fun c => isDigit_of_mem_toDigits
  have hvalue := naturalOfDigits_toDigits n
  have hne : 0 < (Nat.toDigits 10 n).length := List.length_pos_iff.2 Nat.toDigits_ne_nil
  generalize Nat.toDigits 10 n = digits at hdigits hvalue hne
  let point := if digits.length ≤ 1 then [] else ['.']
  let sign := if layout.plusSign && decide (0 ≤ power) then ['+'] else []
  have hpoint : point ++ digits.drop 1 = [] ∧ digits.drop 1 = [] ∨
      point ++ digits.drop 1 = '.' :: digits.drop 1 := by
    by_cases hshort : digits.length ≤ 1
    · have hnil := List.drop_eq_nil_of_le hshort
      exact .inl ⟨by rw [hnil, List.append_nil]; exact if_pos hshort, hnil⟩
    · exact .inr (by rw [show point = ['.'] from if_neg hshort]; rfl)
  have hsigned : integerOf (sign ++ (toString power).toList) = power := by
    by_cases hplus : (layout.plusSign && decide (0 ≤ power)) = true
    · have hnonneg : 0 ≤ power := by simpa using (Bool.and_eq_true_iff.1 hplus).2
      rw [show sign = ['+'] from if_pos hplus, toList_toString_int, if_pos hnonneg,
        List.singleton_append, integerOf, naturalOfDigits_toDigits]
      omega
    · rw [show sign = [] from if_neg hplus, List.nil_append, integerOf_toString]
  have htext : layout.scientific digits power = digits.take 1 ++ (point ++ digits.drop 1) ++
      'e' :: (sign ++ (toString power).toList) := by
    rw [scientific]
    simp [point, sign]
  rw [htext, numberOf_eq (fun c hc => hdigits c (List.mem_of_mem_take hc))
    (fun c hc => hdigits c (List.mem_of_mem_drop hc)) hpoint (by rintro c ⟨⟩; rfl), List.tail_cons,
    hsigned, Decimal.value, Decimal.ofNumeral]
  dsimp only
  rw [List.take_append_drop, hvalue, List.length_drop, mul_assoc, ← zpow_add₀ (by norm_num)]
  congr 2
  omega

/-- The text of a decimal stands for its value. -/
theorem numberOf_decimal (d : Decimal) : numberOf (layout.decimal d) = d.value := by
  rw [decimal, Decimal.value]
  have hexponent : d.exponent + ((Nat.toDigits 10 d.digits).length : ℤ) - 1 + 1 -
      (Nat.toDigits 10 d.digits).length = d.exponent := by omega
  split
  · rw [numberOf_positional, hexponent]
  · rw [numberOf_scientific, hexponent]

/-! ## The text of a binary number -/

/-- The characters that texts of numbers are made of. -/
def isNumberPart (c : Char) : Bool :=
  c.isDigit || ['.', 'e', '+', '-', 'i', 'n', 'f', 'N', 'a'].contains c

theorem isNumberPart_of_isDigit {c : Char} (h : c.isDigit = true) : isNumberPart c = true := by
  rw [isNumberPart, h, Bool.true_or]

theorem isNumberPart_toString_nat (n : Nat) : ∀ c ∈ (toString n).toList, isNumberPart c = true := by
  rw [toList_toString_nat]
  exact fun c hc => isNumberPart_of_isDigit (isDigit_of_mem_toDigits hc)

theorem isNumberPart_toString_int (k : ℤ) : ∀ c ∈ (toString k).toList, isNumberPart c = true := by
  have hdigits : ∀ n, ∀ c ∈ Nat.toDigits 10 n, isNumberPart c = true :=
    fun n c hc => isNumberPart_of_isDigit (isDigit_of_mem_toDigits hc)
  rw [toList_toString_int]
  split
  · exact hdigits _
  · exact List.forall_mem_cons.2 ⟨rfl, hdigits _⟩

theorem isNumberPart_positional {digits : List Char} (h : ∀ c ∈ digits, isNumberPart c = true)
    (power : ℤ) : ∀ c ∈ layout.positional digits power, isNumberPart c = true := by
  have hzeros : ∀ n, ∀ c ∈ zeros n, isNumberPart c = true :=
    fun n c hc => isNumberPart_of_isDigit (isDigit_of_mem_zeros hc)
  have hpoint : isNumberPart '.' = true := rfl
  have hzero : isNumberPart '0' = true := rfl
  unfold positional
  split
  · simp only [List.forall_mem_append, List.forall_mem_cons]
    exact ⟨⟨⟨hzero, hpoint, List.forall_mem_nil _⟩, hzeros _⟩, h⟩
  · split
    · simp only [List.forall_mem_append]
      refine ⟨⟨h, hzeros _⟩, ?_⟩
      split
      · exact List.forall_mem_cons.2 ⟨hpoint, List.forall_mem_singleton.2 hzero⟩
      · exact List.forall_mem_nil _
    · simp only [List.forall_mem_append, List.forall_mem_singleton]
      exact ⟨⟨fun c hc => h c (List.mem_of_mem_take hc), hpoint⟩,
        fun c hc => h c (List.mem_of_mem_drop hc)⟩

theorem isNumberPart_scientific {digits : List Char} (h : ∀ c ∈ digits, isNumberPart c = true)
    (power : ℤ) : ∀ c ∈ layout.scientific digits power, isNumberPart c = true := by
  have hsingle : ∀ {condition : Bool} {d : Char}, isNumberPart d = true →
      ∀ c ∈ (if condition then [d] else []), isNumberPart c = true := by
    intro condition d hd
    cases condition
    · exact List.forall_mem_nil _
    · exact List.forall_mem_singleton.2 hd
  rw [scientific]
  simp only [List.forall_mem_append, List.forall_mem_singleton]
  refine ⟨⟨⟨⟨⟨fun c hc => h c (List.mem_of_mem_take hc), ?_⟩,
    fun c hc => h c (List.mem_of_mem_drop hc)⟩, rfl⟩, hsingle rfl⟩, isNumberPart_toString_int power⟩
  split
  · exact List.forall_mem_nil _
  · exact List.forall_mem_singleton.2 rfl

/-- The text of a number has no other characters, no blanks and no brackets in particular. -/
theorem isNumberPart_write (x : Binary64) :
    ∀ c ∈ (layout.write x).toList, isNumberPart c = true := by
  have hsign : ∀ c ∈ (if x.isNegative then "-" else "").toList, isNumberPart c = true := by
    split
    · exact List.forall_mem_singleton.2 rfl
    · exact List.forall_mem_nil _
  unfold write
  dsimp only
  split
  · exact List.all_eq_true.1 (by decide)
  · rw [String.toList_append, List.forall_mem_append]
    exact ⟨hsign, List.all_eq_true.1 (by decide)⟩
  · rw [String.toList_append, List.forall_mem_append, String.toList_ofList]
    refine ⟨hsign, ?_⟩
    have hdigits : ∀ c ∈ Nat.toDigits 10 (x.shortest layout.tie).digits, isNumberPart c = true :=
      fun c hc => isNumberPart_of_isDigit (isDigit_of_mem_toDigits hc)
    rw [decimal]
    split
    · exact layout.isNumberPart_positional hdigits _
    · exact layout.isNumberPart_scientific hdigits _

/-- Every text of a decimal begins with a digit. -/
theorem exists_head?_decimal (d : Decimal) :
    ∃ c, (layout.decimal d).head? = some c ∧ c.isDigit = true := by
  have hne : Nat.toDigits 10 d.digits ≠ [] := Nat.toDigits_ne_nil
  obtain ⟨c, digits, hdigits⟩ := List.exists_cons_of_ne_nil hne
  have hmem : c ∈ Nat.toDigits 10 d.digits := hdigits ▸ List.mem_cons_self
  have hc : c.isDigit = true := isDigit_of_mem_toDigits hmem
  rw [decimal, hdigits]
  split
  · unfold positional
    split
    · exact ⟨'0', rfl, rfl⟩
    · split <;> exact ⟨c, rfl, hc⟩
  · exact ⟨c, rfl, hc⟩

/-- How a number is written without its sign. -/
inductive Unsigned (layout : Layout) (x : Binary64) : List Char → Prop
  | infinite {negative : Bool} (h : x.meaning = .infinite negative) :
    Unsigned layout x ['i', 'n', 'f']
  | finite {negative : Bool} {significand : Nat} {exponent : Int}
      (h : x.meaning = .finite negative significand exponent) :
    Unsigned layout x (layout.decimal (x.shortest layout.tie))

variable {layout} {x y : Binary64} {text : List Char}

/-- A number is written with a minus sign or without. -/
theorem exists_unsigned (layout : Layout) (hx : x.isNaN = false) :
    ∃ text, layout.Unsigned x text ∧
      (layout.write x).toList = (if x.isNegative then ['-'] else []) ++ text := by
  have hsign : (if x.isNegative then "-" else "").toList = if x.isNegative then ['-'] else [] :=
    apply_ite ..
  unfold write
  dsimp only
  split
  · next hmeaning => exact absurd hmeaning (Binary64.isNaN_eq_false_iff.1 hx)
  · next hmeaning => exact ⟨_, .infinite hmeaning, by rw [String.toList_append, hsign]; rfl⟩
  · next hmeaning =>
    exact ⟨_, .finite hmeaning, by rw [String.toList_append, hsign, String.toList_ofList]⟩

theorem Unsigned.head?_ne (h : layout.Unsigned x text) :
    ∀ c ∈ text.head?, decide (c = '-') = false := by
  cases h with
  | infinite => rintro c ⟨⟩; rfl
  | finite =>
    obtain ⟨c, hhead, hdigit⟩ := layout.exists_head?_decimal (x.shortest layout.tie)
    intro d hd
    obtain rfl := Option.some.inj (hhead.symm.trans hd)
    exact decide_eq_false (by rintro rfl; cases hdigit)

/-- Numbers of one sign are told apart by how they are written without it. -/
theorem Unsigned.eq (hx : layout.Unsigned x text) (hy : layout.Unsigned y text)
    (hsign : x.isNegative = y.isNegative) : x = y := by
  generalize htext : text = text' at hy
  cases hx with
  | infinite hx =>
    cases hy with
    | infinite hy =>
      exact Binary64.eq_of_isNegative_eq hsign ((Binary64.magnitude_of_infinite hx).trans
        (Binary64.magnitude_of_infinite hy).symm)
    | finite =>
      obtain ⟨c, hhead, hdigit⟩ := layout.exists_head?_decimal (y.shortest layout.tie)
      rw [← htext] at hhead
      obtain rfl := Option.some.inj hhead
      cases hdigit
  | finite hx =>
    cases hy with
    | infinite =>
      obtain ⟨c, hhead, hdigit⟩ := layout.exists_head?_decimal (x.shortest layout.tie)
      rw [htext] at hhead
      obtain rfl := Option.some.inj hhead
      cases hdigit
    | finite hy =>
      have hvalue : (x.shortest layout.tie).value = (y.shortest layout.tie).value := by
        rw [← layout.numberOf_decimal, htext, layout.numberOf_decimal]
      exact Binary64.eq_of_shortest_value_eq hx hy hsign hvalue

/-- The text of a number tells it from all others, in every layout. -/
theorem write_injective (hx : x.isNaN = false) (hy : y.isNaN = false)
    (h : layout.write x = layout.write y) : x = y := by
  obtain ⟨text, htext, hwrite⟩ := exists_unsigned layout hx
  obtain ⟨text', htext', hwrite'⟩ := exists_unsigned layout hy
  have hminus : ∀ negative : Bool,
      ∀ c ∈ (if negative then ['-'] else []), decide (c = '-') = true := by
    intro negative
    cases negative
    · exact List.forall_mem_nil _
    · exact List.forall_mem_singleton.2 rfl
  rw [h, hwrite'] at hwrite
  obtain ⟨hsign, rfl⟩ :=
    append_inj_of_cut (hminus _) htext'.head?_ne (hminus _) htext.head?_ne hwrite
  refine htext.eq htext' ?_
  cases hnegative : x.isNegative <;> cases hnegative' : y.isNegative <;> simp_all

theorem write_of_isNaN (hx : x.isNaN = true) : layout.write x = "NaN" := by
  rw [write, Binary64.isNaN_iff.1 hx]

/-- Nothing else is written as a NaN is. -/
theorem write_ne_of_isNaN (hx : x.isNaN = false) : layout.write x ≠ "NaN" := by
  intro h
  obtain ⟨text, htext, hwrite⟩ := exists_unsigned layout hx
  rw [h] at hwrite
  cases hnegative : x.isNegative with
  | true => rw [hnegative] at hwrite; cases hwrite
  | false =>
    rw [hnegative, if_neg Bool.false_ne_true, List.nil_append] at hwrite
    cases htext with
    | infinite => cases hwrite
    | finite =>
      obtain ⟨c, hhead, hdigit⟩ := layout.exists_head?_decimal (x.shortest layout.tie)
      rw [← hwrite] at hhead
      obtain rfl := Option.some.inj hhead
      cases hdigit

/-- Two numbers have the same text exactly if they are the same or both NaNs. -/
theorem write_eq_iff : layout.write x = layout.write y ↔
    x = y ∨ x.isNaN = true ∧ y.isNaN = true := by
  constructor
  · intro h
    cases hx : x.isNaN <;> cases hy : y.isNaN
    · exact .inl (write_injective hx hy h)
    · exact absurd (h.trans (write_of_isNaN hy)) (write_ne_of_isNaN hx)
    · exact absurd (h.symm.trans (write_of_isNaN hx)) (write_ne_of_isNaN hy)
    · exact .inr ⟨rfl, rfl⟩
  · rintro (rfl | ⟨hx, hy⟩)
    · rfl
    · rw [write_of_isNaN hx, write_of_isNaN hy]

end Layout

end StagedTangent
