import Mathlib.Algebra.Order.Floor.Ring
import Mathlib.Data.Rat.Floor
import Mathlib.Tactic.FieldSimp
import Mathlib.Tactic.Linarith
import Mathlib.Tactic.Ring

/-! Decimal numbers of bounded size: an integer below a limit, over a power of ten up to a number
of digits. A result that is not such a number is rounded to one, and amounts that are multiples of
one power of ten and stay below the limit are never rounded. -/
namespace Perplex

structure DecimalFormat where
  limit : ℕ
  digits : ℕ

/-- A multiple of `10^-k` that is not negative. -/
def OnScale (k : ℕ) (x : ℚ) : Prop := ∃ n : ℕ, x = n/10^k

namespace OnScale
variable {k : ℕ} {x y : ℚ}

theorem zero (k : ℕ) : OnScale k 0 := ⟨0, by simp⟩

theorem nonneg (h : OnScale k x) : 0 ≤ x := by
  obtain ⟨n, rfl⟩ := h
  positivity

theorem add (hx : OnScale k x) (hy : OnScale k y) : OnScale k (x+y) := by
  obtain ⟨n, rfl⟩ := hx
  obtain ⟨m, rfl⟩ := hy
  exact ⟨n+m, by push_cast; ring⟩

theorem min (hx : OnScale k x) (hy : OnScale k y) : OnScale k (min x y) := by
  rcases min_choice x y with h | h <;> rw [h] <;> assumption

theorem sub (hx : OnScale k x) (hy : OnScale k y) (hle : y ≤ x) : OnScale k (x-y) := by
  obtain ⟨n, rfl⟩ := hx
  obtain ⟨m, rfl⟩ := hy
  have hpow : (0:ℚ) < 10^k := by positivity
  have hmn : m ≤ n := by exact_mod_cast (div_le_div_iff_of_pos_right hpow).mp hle
  exact ⟨n-m, by rw [Nat.cast_sub hmn]; ring⟩

theorem sum {xs : List ℚ} (h : ∀ x ∈ xs, OnScale k x) : OnScale k xs.sum := by
  induction xs with
  | nil => exact zero k
  | cons x xs ih =>
    obtain ⟨hx, hxs⟩ := List.forall_mem_cons.mp h
    rw [List.sum_cons]
    exact hx.add (ih hxs)

end OnScale

namespace DecimalFormat
variable (F : DecimalFormat)

/-- The numbers of the format. -/
def Represents (x : ℚ) : Prop :=
  ∃ (m : ℤ) (k : ℕ), m.natAbs < F.limit ∧ k ≤ F.digits ∧ x = m/10^k

/-- A rounding keeps the numbers of the format. -/
def IsRounding (round : ℚ → ℚ) : Prop := ∀ x, F.Represents x → round x = x

/-- The amounts of scale `k` in the format. -/
structure Grid (k : ℕ) (x : ℚ) : Prop where
  scale : k ≤ F.digits
  mem : OnScale k x
  bound : x*10^k < F.limit

/-- The running sum of `xs` on top of `acc`, as long as it fits. -/
def runningSum (round : ℚ → ℚ) : ℚ → List ℚ → Option ℚ
  | acc, [] => some acc
  | acc, x :: xs => if |acc+x| < F.limit then runningSum round (round (acc+x)) xs else none

namespace Grid
variable {F} {k : ℕ} {x y : ℚ} {round : ℚ → ℚ}

theorem nonneg (h : F.Grid k x) : 0 ≤ x := h.mem.nonneg

theorem represents (h : F.Grid k x) : F.Represents x := by
  obtain ⟨n, rfl⟩ := h.mem
  have hn : (n:ℚ) < F.limit := by
    have hbound := h.bound
    rwa [div_mul_cancel₀ _ (by positivity)] at hbound
  exact ⟨n, k, by simpa using hn, h.scale, by simp⟩

theorem round_eq (h : F.Grid k x) (hround : F.IsRounding round) : round x = x :=
  hround x h.represents

theorem abs_lt (h : F.Grid k x) : |x| < F.limit := by
  rw [abs_of_nonneg h.nonneg]
  have hone : (1:ℚ) ≤ 10^k := one_le_pow₀ (by norm_num)
  exact lt_of_le_of_lt (le_mul_of_one_le_right h.nonneg hone) h.bound

/-- Less of the same scale is in the format too. -/
theorem of_le (hy : F.Grid k y) (hx : OnScale k x) (hle : x ≤ y) : F.Grid k x :=
  ⟨hy.scale, hx, lt_of_le_of_lt (mul_le_mul_of_nonneg_right hle (by positivity)) hy.bound⟩

theorem min (hx : F.Grid k x) (hy : F.Grid k y) : F.Grid k (min x y) :=
  hx.of_le (hx.mem.min hy.mem) (min_le_left x y)

theorem sub (hx : F.Grid k x) (hy : F.Grid k y) (hle : y ≤ x) : F.Grid k (x-y) :=
  hx.of_le (hx.mem.sub hy.mem hle) (by linarith [hy.nonneg])

theorem sub_min_left (hx : F.Grid k x) (hy : F.Grid k y) : F.Grid k (x-Min.min x y) :=
  hx.sub (hx.min hy) (min_le_left x y)

theorem sub_min_right (hx : F.Grid k x) (hy : F.Grid k y) : F.Grid k (y-Min.min x y) :=
  hy.sub (hx.min hy) (min_le_right x y)

/-- A sum in the format has its running sums in the format. -/
theorem runningSum_eq {xs : List ℚ} {acc : ℚ} (hround : F.IsRounding round)
    (hacc : OnScale k acc) (hxs : ∀ x ∈ xs, OnScale k x) (h : F.Grid k (acc+xs.sum)) :
    F.runningSum round acc xs = some (acc+xs.sum) := by
  induction xs generalizing acc with
  | nil => simp [runningSum]
  | cons x xs ih =>
    obtain ⟨hx, hrest⟩ := List.forall_mem_cons.mp hxs
    have hsum := OnScale.sum hrest
    rw [List.sum_cons, ← add_assoc] at h ⊢
    have hpart : F.Grid k (acc+x) := h.of_le (hacc.add hx) (by linarith [hsum.nonneg])
    rw [runningSum, if_pos hpart.abs_lt, hpart.round_eq hround]
    exact ih hpart.mem hrest h

theorem iff_den : F.Grid k x ↔ k ≤ F.digits ∧ 0 ≤ x ∧ (x*10^k).den = 1 ∧ x*10^k < F.limit := by
  have hten : (10:ℚ)^k ≠ 0 := by positivity
  constructor
  · intro h
    refine ⟨h.scale, h.nonneg, ?_, h.bound⟩
    obtain ⟨n, rfl⟩ := h.mem
    rw [div_mul_cancel₀ _ hten]
    exact Rat.den_natCast n
  · rintro ⟨hk, hnonneg, hden, hbound⟩
    refine ⟨hk, ⟨(x*10^k).num.toNat, ?_⟩, hbound⟩
    have hnum : 0 ≤ (x*10^k).num := Rat.num_nonneg.mpr (by positivity)
    have hcast : (((x*10^k).num.toNat : ℕ) : ℚ) = x*10^k := by
      rw [← Int.cast_natCast, Int.toNat_of_nonneg hnum]
      exact (Rat.den_eq_one_iff _).mp hden
    rw [hcast, mul_div_cancel_right₀ _ hten]

instance : Decidable (F.Grid k x) := decidable_of_iff _ iff_den.symm

end Grid

/-- The integer closest to `x`, and the even one of two. -/
def nearest (x : ℚ) : ℤ :=
  let n := ⌊x⌋
  if x-n < 1/2 then n else if 1/2 < x-n then n+1 else if n%2 = 0 then n else n+1

theorem nearest_intCast (n : ℤ) : nearest n = n := by simp [nearest]

/-- With at most `k` digits: as many as the limit leaves room for. -/
def roundTo : ℕ → ℚ → ℚ
  | 0, x => nearest x
  | k+1, x =>
    let m := nearest (x*10^(k+1))
    if m.natAbs < F.limit then m/10^(k+1) else roundTo k x

/-- Round half to even. -/
def halfEven (x : ℚ) : ℚ := F.roundTo F.digits x

theorem roundTo_of_represented {m : ℤ} {k j : ℕ} (hm : m.natAbs < F.limit) (hk : k ≤ j) :
    F.roundTo j (m/10^k) = m/10^k := by
  induction j with
  | zero =>
    obtain rfl := Nat.le_zero.mp hk
    simp [roundTo, nearest_intCast]
  | succ j ih =>
    obtain ⟨d, hd⟩ := Nat.exists_eq_add_of_le hk
    have hpow : (10:ℚ)^(j+1) = 10^k*10^d := by rw [hd, pow_add]
    have hten : (10:ℚ)^k ≠ 0 := by positivity
    -- with enough digits the mantissa is an integer again
    have hint : (m:ℚ)/10^k*10^(j+1) = ((m*10^d : ℤ) : ℚ) := by
      rw [hpow]
      push_cast
      field_simp
    rw [roundTo, hint]
    simp only [nearest_intCast]
    split_ifs with hfits
    · rw [← hint, mul_div_assoc, div_self (by positivity), mul_one]
    · -- only a smaller number of digits can fit, so the scale is smaller
      rcases Nat.lt_or_ge k (j+1) with hlt | hge
      · exact ih (Nat.lt_succ_iff.mp hlt)
      · obtain rfl : d = 0 := by omega
        exact absurd (by simpa using hm) hfits

theorem halfEven_isRounding : F.IsRounding F.halfEven := by
  rintro x ⟨m, k, hm, hk, rfl⟩
  exact F.roundTo_of_represented hm hk

end DecimalFormat

end Perplex
