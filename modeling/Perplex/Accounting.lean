import Mathlib.Algebra.BigOperators.Fin
import Mathlib.Algebra.BigOperators.Field
import Mathlib.Algebra.Order.BigOperators.Group.Finset
import Mathlib.Algebra.Order.Field.Rat
import Mathlib.Algebra.Order.Field.Basic
import Mathlib.Tactic.FieldSimp
import Mathlib.Tactic.Linarith
import Mathlib.Tactic.Ring

/-! Exact accounting over truncated arithmetic: how far a truncated quotient is from the
exact one, and how a sum over all accounts moves when one of them does. -/
namespace Perplex

/-- Truncation loses less than one unit, and moves toward zero. -/
theorem tdiv_mul_bounds (z : ℤ) {k : ℕ} (hk : 0 < k) :
    z-k < z.tdiv k*k ∧ z.tdiv k*k < z+k ∧ (0 ≤ z → z.tdiv k*k ≤ z) := by
  have heq := Int.mul_tdiv_add_tmod z k
  have hlt := Int.tmod_lt_of_pos z (Int.natCast_pos.mpr hk)
  have hgt := Int.lt_tmod_of_pos z (Int.natCast_pos.mpr hk)
  rw [mul_comm] at heq
  refine ⟨by omega, by omega, ?_⟩
  intro hz
  have hmod := Int.tmod_nonneg (k:ℤ) hz
  omega

/-- Truncation moves a quotient by less than one. -/
theorem abs_tdiv_sub_lt_one (z : ℤ) {k : ℕ} (hk : 0 < k) :
    |(z.tdiv k:ℚ)-(z:ℚ)/k| < 1 := by
  have hk' : (0:ℚ) < k := by exact_mod_cast hk
  obtain ⟨hlow, hhigh, -⟩ := tdiv_mul_bounds z hk
  have hlow' : (z:ℚ)-k < z.tdiv k*k := by exact_mod_cast hlow
  have hhigh' : (z.tdiv k:ℚ)*k < z+k := by exact_mod_cast hhigh
  have hbelow : (z:ℚ)/k < z.tdiv k+1 := by
    rw [div_lt_iff₀ hk']
    linarith
  have habove : (z.tdiv k:ℚ)-1 < z/k := by
    rw [lt_div_iff₀ hk']
    linarith
  rw [abs_lt]
  constructor <;> linarith

/-- A floored quotient is below the exact one by less than one. -/
theorem natDiv_le_and_lt (n : ℕ) {k : ℕ} (hk : 0 < k) :
    ((n/k : ℕ):ℚ) ≤ (n:ℚ)/k ∧ (n:ℚ)/k < ((n/k : ℕ):ℚ)+1 := by
  have hk' : (0:ℚ) < k := by exact_mod_cast hk
  constructor
  · rw [le_div_iff₀ hk']
    exact_mod_cast Nat.div_mul_le_self n k
  · rw [div_lt_iff₀ hk']
    have h := Nat.lt_div_mul_add hk (a := n)
    have hq : (n:ℚ) < ((n/k*k+k : ℕ):ℚ) := by exact_mod_cast h
    push_cast at hq
    linarith

theorem natAbs_cast_of_nonneg {z : ℤ} (h : 0 ≤ z) : (z.natAbs:ℚ) = z := by
  rw [Nat.cast_natAbs, abs_of_nonneg h]

theorem natAbs_cast_of_nonpos {z : ℤ} (h : z ≤ 0) : (z.natAbs:ℚ) = -z := by
  rw [Nat.cast_natAbs, abs_of_nonpos h, Int.cast_neg]

section Sums
variable {ι κ M : Type} [Fintype ι] [Fintype κ] [AddCommGroup M]

/-- A sum moves by as much as the only term that moves. -/
theorem sum_sub_sum_of_eq_off (f g : ι → M) (a : ι) (h : ∀ i, i ≠ a → f i = g i) :
    ∑ i, f i-∑ i, g i = f a-g a := by
  rw [← Finset.sum_sub_distrib]
  apply Finset.sum_eq_single a
  · intro i _ hi
    rw [h i hi, sub_self]
  · intro ha
    exact absurd (Finset.mem_univ a) ha

theorem sum_sum_sub_of_eq_off (f g : ι → κ → M) (a : ι) (b : κ)
    (h : ∀ i j, ¬ (i = a ∧ j = b) → f i j = g i j) :
    ∑ i, ∑ j, f i j-∑ i, ∑ j, g i j = f a b-g a b := by
  have houter := sum_sub_sum_of_eq_off (fun i => ∑ j, f i j) (fun i => ∑ j, g i j) a
    (fun i hi => Finset.sum_congr rfl (fun j _ => h i j (fun he => hi he.1)))
  have hinner := sum_sub_sum_of_eq_off (f a) (g a) b (fun j hj => h a j (fun he => hj he.2))
  rw [houter]
  exact hinner

/-- Terms that differ by at most one, and only on `s`, add up to at most its size. -/
theorem abs_sum_sub_sum_le_card {f g : ι → ℚ} {s : Finset ι} (hoff : ∀ i, i ∉ s → f i = g i)
    (hon : ∀ i ∈ s, |f i-g i| ≤ 1) : |∑ i, f i-∑ i, g i| ≤ s.card := by
  have hsum : ∑ i, f i-∑ i, g i = ∑ i ∈ s, (f i-g i) := by
    rw [← Finset.sum_sub_distrib]
    apply (Finset.sum_subset (Finset.subset_univ s) _).symm
    intro i _ hi
    rw [hoff i hi, sub_self]
  calc |∑ i, f i-∑ i, g i| = |∑ i ∈ s, (f i-g i)| := by rw [hsum]
    _ ≤ ∑ i ∈ s, |f i-g i| := Finset.abs_sum_le_sum_abs _ _
    _ ≤ ∑ _i ∈ s, 1 := Finset.sum_le_sum hon
    _ = s.card := by simp

end Sums

end Perplex
