import Mathlib.Algebra.Order.Field.Basic
import Mathlib.Algebra.Order.Archimedean.Basic
import Mathlib.Tactic.Linarith
import Mathlib.Tactic.Ring
import Mathlib.Tactic.Push

/-!
Token buckets. The level is a number of tokens and the clock reading of the last draw; a draw
first adds the tokens of the time since then, up to a capacity, and then takes one token if there
is one. Readings are natural numbers in any order; a reading behind the stored one adds nothing.
-/

namespace Perplex.TokenBucket

/-- What a bucket stores. -/
structure Level (K : Type) where
  tokens : K
  stamp : ℕ
deriving DecidableEq

/-- The upward moves of consecutive readings, from reading `a` on. -/
def climb (a : ℕ) : List ℕ → ℕ
  | [] => 0
  | b :: rs => (b-a)+climb b rs

/-- Readings in order climb only from the first to the last of them. -/
theorem climb_le_of_sorted {a z : ℕ} {rs : List ℕ} (hs : (a :: rs).Pairwise (· ≤ ·))
    (hz : ∀ r ∈ a :: rs, r ≤ z) : climb a rs ≤ z-a := by
  induction rs generalizing a with
  | nil => exact Nat.zero_le _
  | cons b rs ih =>
    have hab : a ≤ b := List.rel_of_pairwise_cons hs (by simp)
    have hb := ih hs.of_cons (fun r hr => hz r (List.mem_cons_of_mem _ hr))
    have hbz : b ≤ z := hz b (by simp)
    simp only [climb]
    omega

/-- `n` swings of the readings between `a` and `b`. -/
def swings (a b : ℕ) : ℕ → List ℕ
  | 0 => []
  | n+1 => a :: b :: swings a b n

theorem mem_swings {a b n r : ℕ} (h : r ∈ swings a b n) : r = a ∨ r = b := by
  induction n with
  | zero => cases h
  | succ n ih =>
    simp only [swings, List.mem_cons] at h
    tauto

section Field
variable {K : Type} [Field K] [LinearOrder K]

/-- The tokens present at reading `now`, before the draw. -/
def Level.fill (cap rate : K) (s : Level K) (now : ℕ) : K :=
  min cap (s.tokens+((now-s.stamp : ℕ) : K)*rate)

/-- One draw: whether a token was taken, and what is stored after it. -/
def Level.take (cap rate : K) (s : Level K) (now : ℕ) : Bool × Level K :=
  if 1 ≤ s.fill cap rate now then (true,⟨s.fill cap rate now-1,now⟩)
  else (false,⟨s.fill cap rate now,now⟩)

/-- Draws at the given readings, one after the other. -/
def Level.takes (cap rate : K) (s : Level K) : List ℕ → List Bool × Level K
  | [] => ([],s)
  | now :: rs =>
    let d := s.take cap rate now
    (d.1 :: (d.2.takes cap rate rs).1,(d.2.takes cap rate rs).2)

variable {cap rate : K} {s : Level K} {now : ℕ}

@[simp]
theorem take_stamp : (s.take cap rate now).2.stamp = now := by
  unfold Level.take
  split_ifs <;> rfl

theorem take_fst : (s.take cap rate now).1 = decide (1 ≤ s.fill cap rate now) := by
  unfold Level.take
  split_ifs with h <;> simp [h]

theorem take_tokens : (s.take cap rate now).2.tokens =
    if 1 ≤ s.fill cap rate now then s.fill cap rate now-1 else s.fill cap rate now := by
  unfold Level.take
  split_ifs <;> rfl

theorem take_congr {s' : Level K} (h : s.fill cap rate now = s'.fill cap rate now) :
    s.take cap rate now = s'.take cap rate now := by
  simp only [Level.take, h]

/-- A draw that gets no token leaves what it found. -/
theorem take_eq_of_not (h : (s.take cap rate now).1 = false) :
    (s.take cap rate now).2.tokens = s.fill cap rate now ∧ s.fill cap rate now < 1 := by
  rw [take_fst, decide_eq_false_iff_not] at h
  exact ⟨by rw [take_tokens, if_neg h],not_le.mp h⟩

/-- Below a capacity of one token nothing is ever drawn. -/
theorem count_eq_zero (hcap : cap < 1) (rs : List ℕ) :
    (s.takes cap rate rs).1.count true = 0 := by
  induction rs generalizing s with
  | nil => rfl
  | cons r rs ih =>
    have h : ¬ 1 ≤ s.fill cap rate r := not_le.mpr ((min_le_left _ _).trans_lt hcap)
    simp only [Level.takes, List.count_cons, ih, take_fst, h]
    rfl

theorem takes_append (cap rate : K) (s : Level K) (rs rs' : List ℕ) : s.takes cap rate (rs ++ rs') =
    ((s.takes cap rate rs).1 ++ ((s.takes cap rate rs).2.takes cap rate rs').1,
      ((s.takes cap rate rs).2.takes cap rate rs').2) := by
  induction rs generalizing s with
  | nil => rfl
  | cons r rs ih => simp only [List.cons_append, Level.takes, ih]

variable [IsStrictOrderedRing K]

/-- A draw keeps the level between zero and the capacity. -/
theorem take_bounds (now : ℕ) (hcap : 0 ≤ cap) (hrate : 0 ≤ rate) (hs : 0 ≤ s.tokens) :
    0 ≤ (s.take cap rate now).2.tokens ∧ (s.take cap rate now).2.tokens ≤ cap := by
  have hfill : 0 ≤ s.fill cap rate now :=
    le_min hcap (add_nonneg hs (mul_nonneg (Nat.cast_nonneg _) hrate))
  have hle : s.fill cap rate now ≤ cap := min_le_left _ _
  rw [take_tokens]
  split_ifs with h
  · constructor <;> linarith
  · exact ⟨hfill,hle⟩

theorem takes_bounds (hcap : 0 ≤ cap) (hrate : 0 ≤ rate) (hs : 0 ≤ s.tokens)
    (hle : s.tokens ≤ cap) (rs : List ℕ) :
    0 ≤ (s.takes cap rate rs).2.tokens ∧ (s.takes cap rate rs).2.tokens ≤ cap := by
  induction rs generalizing s with
  | nil => exact ⟨hs,hle⟩
  | cons r rs ih =>
    have h := take_bounds r hcap hrate hs
    exact ih h.1 h.2

/-- The potential: what was drawn and what is left came from the first level and from the time
the readings climbed. -/
theorem count_add_tokens_le (cap rate : K) (s : Level K) (rs : List ℕ) :
    ((s.takes cap rate rs).1.count true : K)+(s.takes cap rate rs).2.tokens ≤
      s.tokens+(climb s.stamp rs : K)*rate := by
  induction rs generalizing s with
  | nil => simp [Level.takes, climb]
  | cons r rs ih =>
    have hrest := ih (s.take cap rate r).2
    have hfill : s.fill cap rate r ≤ s.tokens+((r-s.stamp : ℕ) : K)*rate := min_le_right _ _
    have hdraw : ((if (s.take cap rate r).1 = true then 1 else 0 : ℕ) : K)+
        (s.take cap rate r).2.tokens = s.fill cap rate r := by
      rw [take_fst, take_tokens]
      by_cases h : 1 ≤ s.fill cap rate r <;> simp [h]
    simp only [Level.takes, climb, List.count_cons, take_stamp, beq_iff_eq, Nat.cast_add] at hrest ⊢
    calc _ = (((s.take cap rate r).2.takes cap rate rs).1.count true : K)+
          ((s.take cap rate r).2.takes cap rate rs).2.tokens+
          ((if (s.take cap rate r).1 = true then 1 else 0 : ℕ) : K) := by ring
      _ ≤ (s.take cap rate r).2.tokens+(climb r rs : K)*rate+
          ((if (s.take cap rate r).1 = true then 1 else 0 : ℕ) : K) := by linarith
      _ = s.fill cap rate r+(climb r rs : K)*rate := by rw [← hdraw]; ring
      _ ≤ s.tokens+(((r-s.stamp : ℕ) : K)+(climb r rs : K))*rate := by linarith

/-- A bucket left alone for long enough is full. -/
theorem fill_eq_cap (hs : 0 ≤ s.tokens) (h : cap ≤ ((now-s.stamp : ℕ) : K)*rate) :
    s.fill cap rate now = cap :=
  min_eq_left (by linarith)

/-- A swing either lets a token through or adds the tokens of its whole width. -/
theorem swing_le (hcap : 1 ≤ cap) (hrate : 0 ≤ rate) (hs : 0 ≤ s.tokens) (hle : s.tokens ≤ cap)
    (a b : ℕ) : s.tokens+((b-a : ℕ) : K)*rate ≤
      ((s.takes cap rate [a,b]).1.count true : K)*(cap+((b-a : ℕ) : K)*rate)+
        (s.takes cap rate [a,b]).2.tokens := by
  have hcap₀ : 0 ≤ cap := zero_le_one.trans hcap
  have hw : 0 ≤ ((b-a : ℕ) : K)*rate := mul_nonneg (Nat.cast_nonneg _) hrate
  have h₁ := take_bounds a hcap₀ hrate hs
  have h₂ := take_bounds b hcap₀ hrate h₁.1
  simp only [Level.takes]
  obtain hc | hc := Nat.eq_zero_or_pos
    ([(s.take cap rate a).1,((s.take cap rate a).2.take cap rate b).1].count true)
  · -- no token went through, so the capacity was not reached
    rw [hc]
    simp only [List.count_eq_zero, List.mem_cons, List.not_mem_nil, or_false, not_or,
      eq_comm (a := true), Bool.not_eq_true] at hc
    have ha := take_eq_of_not hc.1
    have hb := take_eq_of_not hc.2
    have hback : s.tokens ≤ s.fill cap rate a :=
      le_min hle (le_add_of_nonneg_right (mul_nonneg (Nat.cast_nonneg _) hrate))
    have hfill : (s.take cap rate a).2.fill cap rate b =
        s.fill cap rate a+((b-a : ℕ) : K)*rate := by
      have h := hb.2
      simp only [Level.fill, take_stamp, ha.1] at h ⊢
      obtain h | h := min_lt_iff.mp h
      · exact absurd h (not_lt.mpr hcap)
      · exact min_eq_right (by linarith)
    rw [hb.1, hfill]
    simp only [Nat.cast_zero, zero_mul, zero_add]
    linarith
  · have hone : (1 : K) ≤ (([(s.take cap rate a).1,
        ((s.take cap rate a).2.take cap rate b).1].count true : ℕ) : K) := Nat.one_le_cast.mpr hc
    have hmul := mul_le_mul_of_nonneg_right hone (add_nonneg hcap₀ hw)
    linarith

theorem swings_le (hcap : 1 ≤ cap) (hrate : 0 ≤ rate) (hs : 0 ≤ s.tokens) (hle : s.tokens ≤ cap)
    (a b n : ℕ) : s.tokens+n*(((b-a : ℕ) : K)*rate) ≤
      ((s.takes cap rate (swings a b n)).1.count true : K)*(cap+((b-a : ℕ) : K)*rate)+
        (s.takes cap rate (swings a b n)).2.tokens := by
  induction n generalizing s with
  | zero => simp [swings, Level.takes]
  | succ n ih =>
    have hcap₀ : 0 ≤ cap := zero_le_one.trans hcap
    have h₁ := take_bounds a hcap₀ hrate hs
    have h₂ := take_bounds b hcap₀ hrate h₁.1
    have hone := swing_le hcap hrate hs hle a b
    have hrest := ih h₂.1 h₂.2
    have happ := takes_append cap rate s [a,b] (swings a b n)
    simp only [List.cons_append, List.nil_append] at happ
    simp only [swings, happ, List.count_append, Nat.cast_add, Nat.cast_one]
    simp only [Level.takes] at hone hrest ⊢
    linarith

/-- Swinging readings draw any number of tokens. -/
theorem exists_swings_count [Archimedean K] (hcap : 1 ≤ cap) (hrate : 0 < rate) {a b : ℕ}
    (hab : a < b) (hs : 0 ≤ s.tokens) (hle : s.tokens ≤ cap) (k : K) :
    ∃ n, k < ((s.takes cap rate (swings a b n)).1.count true : K) := by
  have hw : 0 < ((b-a : ℕ) : K)*rate := mul_pos (Nat.cast_pos.mpr (by omega)) hrate
  obtain ⟨n,hn⟩ := exists_nat_gt ((k*(cap+((b-a : ℕ) : K)*rate)+cap)/(((b-a : ℕ) : K)*rate))
  rw [div_lt_iff₀ hw] at hn
  have h := swings_le hcap hrate.le hs hle a b n
  have hend := (takes_bounds (zero_le_one.trans hcap) hrate.le hs hle (swings a b n)).2
  refine ⟨n,?_⟩
  by_contra hk
  have := mul_le_mul_of_nonneg_right (not_lt.mp hk) (by linarith : 0 ≤ cap+((b-a : ℕ) : K)*rate)
  linarith

/-- A draw that gets no token loses none of those that come in up to `z`, whatever its reading. -/
theorem le_of_not_take (hcap : 1 ≤ cap) (hrate : 0 ≤ rate)
    (h : (s.take cap rate now).1 = false) (z : ℕ) :
    s.tokens+((z-s.stamp : ℕ) : K)*rate ≤
      (s.take cap rate now).2.tokens+((z-now : ℕ) : K)*rate := by
  obtain ⟨htokens, hlow⟩ := take_eq_of_not h
  have hfill : s.fill cap rate now = s.tokens+((now-s.stamp : ℕ) : K)*rate := by
    unfold Level.fill at hlow ⊢
    rcases min_lt_iff.mp hlow with hlow | hlow
    · exact absurd hlow (not_lt.mpr hcap)
    · exact min_eq_right (hlow.le.trans hcap)
  have htime : ((z-s.stamp : ℕ) : K) ≤ ((now-s.stamp : ℕ) : K)+((z-now : ℕ) : K) := by
    rw [← Nat.cast_add]
    exact Nat.cast_le.mpr (by omega)
  have hmul := mul_le_mul_of_nonneg_right htime hrate
  rw [htokens, hfill]
  linarith

end Field
end Perplex.TokenBucket
