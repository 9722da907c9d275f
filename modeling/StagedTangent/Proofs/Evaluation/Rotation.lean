import Mathlib.Data.List.Rotate
import StagedTangent.Evaluation.Apply

/-!
# Rotating vectors

A shift moves the elements of a vector toward its end, and what passes the end comes in at the
front. So the places of a vector are counted modulo its length, and a shift of any size and sign
subtracts from them. Shifts behind each other add up (`rotate_rotate`), whether or not their sum is
one that an operation can be given. The main statement is `apply_circshift_rotates`.
-/

namespace StagedTangent.Value

variable {α : Type}

/-! ## Rotating lists -/

@[simp] theorem rotate_nil (shift : Int) : rotate ([] : List α) shift = [] := by simp [rotate]

/-- A shift toward the end is one toward the front by its opposite. -/
theorem rotate_eq_rotate (xs : List α) (shift : Int) :
    rotate xs shift = xs.rotate ((-shift) % (xs.length : Int)).toNat := by
  rcases Nat.eq_zero_or_pos xs.length with hzero | hpos
  · rw [List.eq_nil_of_length_eq_zero hzero, rotate_nil, List.rotate_nil]
  · have hlt : (-shift) % (xs.length : Int) < xs.length :=
      Int.emod_lt_of_pos _ (Int.natCast_pos.2 hpos)
    rw [rotate, List.rotate_eq_drop_append_take (by omega)]

@[simp] theorem length_rotate (xs : List α) (shift : Int) :
    (rotate xs shift).length = xs.length := by
  rw [rotate_eq_rotate, List.length_rotate]

/-- The element at a place is the one that stood before it by the shift, modulo the length. -/
theorem getElem?_rotate (xs : List α) (shift : Int) {i : Nat} (hi : i < xs.length) :
    (rotate xs shift)[i]? = xs[((i - shift) % (xs.length : Int)).toNat]? := by
  have hnonneg : 0 ≤ (-shift) % (xs.length : Int) := Int.emod_nonneg _ (by omega)
  have hplace : (((i + ((-shift) % (xs.length : Int)).toNat) % xs.length : Nat) : Int) =
      (i - shift) % (xs.length : Int) := by
    rw [Int.natCast_emod, Int.natCast_add, Int.toNat_of_nonneg hnonneg, Int.add_emod_emod,
      Int.sub_eq_add_neg]
  rw [rotate_eq_rotate, List.getElem?_rotate hi, ← hplace, Int.toNat_natCast]

example : rotate [1, 2, 3] 1 = [3, 1, 2] ∧ rotate [1, 2, 3] (-4) = [2, 3, 1] := by decide

/-- Shifts behind each other add up. -/
theorem rotate_rotate (xs : List α) (a b : Int) : rotate (rotate xs a) b = rotate xs (a + b) := by
  refine List.ext_getElem? fun i => ?_
  rcases Nat.lt_or_ge i xs.length with hi | hi
  · have hlt : ((i - b) % (xs.length : Int)).toNat < xs.length := by
      have := Int.emod_lt_of_pos (i - b) (b := (xs.length : Int)) (by omega)
      omega
    have hnonneg : 0 ≤ (i - b) % (xs.length : Int) := Int.emod_nonneg _ (by omega)
    rw [getElem?_rotate _ b (by rwa [length_rotate]), length_rotate, getElem?_rotate _ a hlt,
      Int.toNat_of_nonneg hnonneg, Int.emod_sub_emod, getElem?_rotate _ (a + b) hi]
    rw [Int.sub_sub, Int.add_comm b a]
  · rw [List.getElem?_eq_none (by simpa using hi), List.getElem?_eq_none (by simpa using hi)]

@[simp] theorem rotate_zero (xs : List α) : rotate xs 0 = xs := by simp [rotate]

/-- The elements move toward the end by the remainder of the shift. -/
theorem rotate_eq_rotateRight (xs : List α) (shift : Int) :
    rotate xs shift = xs.rotateRight (shift % (xs.length : Int)).toNat := by
  rcases Nat.lt_or_ge 1 xs.length with hlong | hshort
  · have hnonneg : 0 ≤ shift % (xs.length : Int) := Int.emod_nonneg _ (by omega)
    have hlt : shift % (xs.length : Int) < xs.length := Int.emod_lt_of_pos _ (by omega)
    obtain ⟨places, hplaces⟩ := Int.eq_ofNat_of_zero_le hnonneg
    have hright : xs.rotateRight places = xs.rotate (xs.length - places) := by
      rw [List.rotateRight, if_neg (Nat.not_le.2 hlong), Nat.mod_eq_of_lt (by omega),
        List.rotate_eq_drop_append_take (Nat.sub_le ..)]
    have hopposite : ((-shift) % (xs.length : Int)).toNat = (xs.length - places) % xs.length := by
      have hsub : (-shift) % (xs.length : Int) = ((xs.length - places : Nat) : Int) % xs.length := by
        rw [Int.natCast_sub (by omega), ← hplaces, Int.sub_emod_emod, Int.sub_emod_left]
      rw [hsub, ← Int.natCast_emod, Int.toNat_natCast]
    rw [hplaces, Int.toNat_natCast, hright, rotate_eq_rotate, hopposite, List.rotate_mod]
  · have hsingle : (-shift) % (xs.length : Int) = 0 ∨ xs = [] := by
      rcases Nat.le_one_iff_eq_zero_or_eq_one.1 hshort with h | h
      · exact .inr (List.eq_nil_of_length_eq_zero h)
      · exact .inl (by rw [h, Int.natCast_one, Int.emod_one])
    rw [List.rotateRight, if_pos hshort, rotate_eq_rotate]
    rcases hsingle with h | rfl
    · rw [h, Int.toNat_zero, List.rotate_zero]
    · exact List.rotate_nil _

/-! ## Shifting vectors -/

variable [Scalar α]

/-- A shift moves the elements of a vector toward its end by the remainder of the shift: behind it
there stands at every place `i` what stood at the place `i - a` modulo the length. A second shift
takes its amount off as well, so that the opposite shift restores the vector. An empty vector stays
as it is. -/
theorem apply_circshift_rotates (xs : List α) (a : Int) :
    ∃ ys, apply (.circshift a) [.vector xs] = .ok (.vector ys) ∧
      ys = xs.rotateRight (a % (xs.length : Int)).toNat ∧ ys.length = xs.length ∧
      (∀ i : Fin xs.length, ys[i.val]? = xs[((i - a) % (xs.length : Int)).toNat]?) ∧
      (∀ b : Int, ∃ zs, apply (.circshift b) [.vector ys] = .ok (.vector zs) ∧
        zs.length = xs.length ∧
        ∀ i : Fin xs.length, zs[i.val]? = xs[((i - a - b) % (xs.length : Int)).toNat]?) ∧
      apply (.circshift (-a)) [.vector ys] = .ok (.vector xs) ∧
      apply (.circshift a) [.vector ([] : List α)] = .ok (.vector []) := by
  have hshift : ∀ (vs : List α) (shift : Int),
      apply (.circshift shift) [.vector vs] = .ok (.vector (rotate vs shift)) := fun _ _ => rfl
  refine ⟨rotate xs a, hshift xs a, rotate_eq_rotateRight xs a, length_rotate xs a,
    fun i => getElem?_rotate xs a i.isLt, fun b => ⟨rotate xs (a + b), ?_, ?_, fun i => ?_⟩, ?_, ?_⟩
  · rw [hshift, rotate_rotate]
  · exact length_rotate xs (a + b)
  · rw [getElem?_rotate xs (a + b) i.isLt, Int.sub_sub]
  · rw [hshift, rotate_rotate, Int.add_right_neg, rotate_zero]
  · rw [hshift, rotate_nil]

end StagedTangent.Value
