import Perplex.EdgeDecimal
import Perplex.EdgePositions
import Perplex.OracleAdapter

/-! The Pyth price that the server keeps. Hermes sends an integer with an exponent, `HermesSource`
makes a `Decimal` of it, and the submitter of the server writes that at 18 decimals. The contract
has the same integer from Pyth, and `_scaleToX18`. -/
namespace Perplex.Hermes

/-- A panic, or `OracleError::Schema`. -/
inductive Failure where
  | panic
  | schema (why : String)
deriving DecidableEq, Repr

/-- `HermesPrice` after its text is parsed: an `i128` with an `i32` exponent. -/
structure HermesPrice where
  price : ℤ
  expo : ℤ
  price_fits : -2^127 ≤ price ∧ price < 2^127
  expo_fits : -2^31 ≤ expo ∧ expo < 2^31

/-- `as i64`. -/
def asI64 (z : ℤ) : ℤ := z.bmod (2^64)

/-- `-z` of an `i32`. The least one has no negative: it panics in a build with overflow checks,
and stays what it is in another. -/
def negI32 (checks : Bool) (z : ℤ) : Except Failure ℤ :=
  if z = -2^31 then if checks then .error .panic else .ok z else .ok (-z)

/-- `Decimal::try_new`, and what it says of a scale that it does not take. -/
def tryNew (complaint : ℕ → String) (n : ℤ) (scale : ℕ) : Except String ℚ :=
  ensure (scale ≤ 28) (complaint scale) (n/10^scale)

/-- `scale_to_x18`. -/
def scaleToX18 (checks : Bool) (complaint : ℕ → String) (price expo : ℤ) : Except Failure ℚ := do
  let negated ← negI32 checks expo
  let scale ← ensure (0 ≤ negated) (.schema "non-negative expo") negated.toNat
  -- the price is cut to 64 bits on its way in
  (tryNew complaint (asI64 price) scale).mapError .schema

/-- `scale_decimal_to_x18`. -/
def scaleDecimalToX18 (round : ℚ → ℚ) (d : ℚ) : Except Failure String := do
  let x ← Edge.Decimal.scaleX18 round .panic d
  return toString x

/-- A result that a `Decimal` can hold is not rounded. -/
def Exact (round : ℚ → ℚ) : Prop :=
  ∀ (m : ℤ) (k : ℕ), |m| < 2^96 → k ≤ 28 → round (m/10^k) = m/10^k

/-- The cast keeps the 64-bit integers, and no others. -/
theorem asI64_eq_self {z : ℤ} : asI64 z = z ↔ -2^63 ≤ z ∧ z < 2^63 := by
  rw [asI64, Int.bmod_def]
  split_ifs <;> omega

/-- What the source answers, by the exponent. -/
theorem scaleToX18_cases (checks : Bool) (complaint : ℕ → String) (price expo : ℤ) :
    (checks = true ∧ expo = -2^31 ∧ scaleToX18 checks complaint price expo = .error .panic) ∨
    (¬ (checks = true ∧ expo = -2^31) ∧ (expo < -28 ∨ 0 < expo) ∧
      ∃ why, scaleToX18 checks complaint price expo = .error (.schema why)) ∨
    (-28 ≤ expo ∧ expo ≤ 0 ∧
      scaleToX18 checks complaint price expo = .ok (asI64 price*(10:ℚ)^expo)) := by
  by_cases hleast : expo = -2^31
  · -- without checks the least exponent stays negative, and is refused for that
    subst hleast
    cases checks
    · exact .inr (.inl ⟨by simp, .inl (by norm_num), _, rfl⟩)
    · exact .inl ⟨rfl, rfl, rfl⟩
  right
  have hscale : scaleToX18 checks complaint price expo =
      ensure (0 ≤ -expo) (.schema "non-negative expo") (-expo).toNat >>= fun scale =>
        (tryNew complaint (asI64 price) scale).mapError Failure.schema := by
    rw [scaleToX18, negI32, if_neg hleast]
    rfl
  rcases lt_or_ge 0 expo with hpos | hpos
  · left
    refine ⟨fun h => hleast h.2, .inr hpos, "non-negative expo", ?_⟩
    rw [hscale, ensure, if_neg (by omega)]
    rfl
  obtain ⟨k, rfl⟩ := Int.exists_eq_neg_ofNat hpos
  rw [neg_neg, ensure_of (Int.natCast_nonneg k), Int.toNat_natCast] at hscale
  change _ = (tryNew complaint (asI64 price) k).mapError Failure.schema at hscale
  rw [hscale]
  by_cases hk : k ≤ 28
  · right
    refine ⟨by omega, hpos, ?_⟩
    rw [tryNew, ensure_of hk, zpow_neg, zpow_natCast, ← div_eq_mul_inv]
    rfl
  · left
    refine ⟨fun h => hleast h.2, .inl (by omega), complaint k, ?_⟩
    rw [tryNew, ensure, if_neg hk]
    rfl

/-- What the server writes is the price at 18 decimals, rounded down. -/
theorem scaleDecimalToX18_ok {round : ℚ → ℚ} (hround : Exact round) {price expo : ℤ} {text : String}
    (hpos : 0 ≤ price) (hfits : price < 2^63) (hlow : -28 ≤ expo)
    (h : scaleDecimalToX18 round (price*(10:ℚ)^expo) = .ok text) :
    text = toString (Oracle.scaled price (18+expo)) := by
  have hshift : (price:ℚ)*(10:ℚ)^expo*10^18 = price*(10:ℚ)^(18+expo) := by
    rw [zpow_add₀ (by norm_num), mul_assoc, mul_comm ((10:ℚ)^expo)]
    norm_cast
  simp only [scaleDecimalToX18, chain_ok_iff, Edge.Decimal.scaleX18, Edge.Decimal.scale_eq_ok,
    hshift] at h
  obtain ⟨x, ⟨hx, rfl⟩, h⟩ := h
  have hexact : round (price*(10:ℚ)^(18+expo)) = price*(10:ℚ)^(18+expo) := by
    rcases le_or_gt 0 (18+expo) with h18 | h18
    · -- an integer, and small enough as the multiplication has not failed
      obtain ⟨k, hk⟩ := Int.eq_ofNat_of_zero_le h18
      have hint : (price:ℚ)*(10:ℚ)^(18+expo) = ((price*10^k : ℤ):ℚ)/10^0 := by
        rw [hk, zpow_natCast]
        push_cast
        ring
      rw [hint] at hx ⊢
      refine hround _ 0 ?_ (by norm_num)
      rw [pow_zero, div_one, Edge.Decimal.Fits] at hx
      exact_mod_cast hx
    · obtain ⟨k, hk⟩ := Int.exists_eq_neg_ofNat h18.le
      rw [hk, zpow_neg, zpow_natCast, ← div_eq_mul_inv]
      refine hround price k ?_ (by omega)
      rw [abs_of_nonneg hpos]
      omega
  have hnonneg : 0 ≤ (price:ℚ)*(10:ℚ)^(18+expo) :=
    mul_nonneg (Int.cast_nonneg hpos) (zpow_nonneg (by norm_num) _)
  rw [hexact, Edge.trunc_eq_floor hnonneg] at h
  exact (Except.ok.inj h).symm

section Agree
variable {checks : Bool} {complaint : ℕ → String} {round : ℚ → ℚ}

/-- The source fails or has the exact price, and the server has what the contract has where both
have one. This is so unless the exponent is the least one and the build has overflow checks, or the
source takes the exponent and the price has more than 64 bits. -/
theorem scaling_agrees_iff (hround : Exact round) (p : HermesPrice) :
    (((∃ why, scaleToX18 checks complaint p.price p.expo = .error (.schema why)) ∨
        scaleToX18 checks complaint p.price p.expo = .ok (p.price*(10:ℚ)^p.expo)) ∧
      (0 < p.price → p.price < 2^63 → ∀ d text v,
        scaleToX18 checks complaint p.price p.expo = .ok d → scaleDecimalToX18 round d = .ok text →
          Oracle.scaleToX18 p.price.toNat p.expo = .ok v → text = toString v)) ↔
    ¬ (checks = true ∧ p.expo = -2^31) ∧
      (-28 ≤ p.expo → p.expo ≤ 0 → -2^63 ≤ p.price ∧ p.price < 2^63) := by
  have hcases := scaleToX18_cases checks complaint p.price p.expo
  have hagree : 0 < p.price → p.price < 2^63 → ∀ d text v,
      scaleToX18 checks complaint p.price p.expo = .ok d → scaleDecimalToX18 round d = .ok text →
        Oracle.scaleToX18 p.price.toNat p.expo = .ok v → text = toString v := by
    intro hpos hfits d text v hd htext hv
    obtain ⟨-, -, h⟩ | ⟨-, -, why, h⟩ | ⟨hlow, -, h⟩ := hcases
    · rw [h] at hd
      cases hd
    · rw [h] at hd
      cases hd
    · rw [h, asI64_eq_self.mpr (by omega)] at hd
      cases hd
      have hv := Oracle.scaleToX18_ok hv
      rw [Int.toNat_of_nonneg hpos.le] at hv
      rw [scaleDecimalToX18_ok hround hpos.le hfits hlow htext, ← hv]
      rfl
  rw [and_iff_left hagree]
  obtain ⟨hchecks, hexpo, h⟩ | ⟨hno, hrange, why, h⟩ | ⟨hlow, hhigh, h⟩ := hcases
  · rw [h]
    refine iff_of_false ?_ fun hcond => hcond.1 ⟨hchecks, hexpo⟩
    rintro (⟨why, he⟩ | he) <;> cases he
  · refine iff_of_true (.inl ⟨why, h⟩) ⟨hno, ?_⟩
    omega
  · have hten : (10:ℚ)^p.expo ≠ 0 := zpow_ne_zero _ (by norm_num)
    rw [h]
    simp only [reduceCtorEq, exists_false, false_or, Except.ok.injEq, mul_left_inj' hten,
      Int.cast_inj, asI64_eq_self]
    refine ⟨fun hfits => ⟨?_, fun _ _ => hfits⟩, fun hcond => hcond.2 hlow hhigh⟩
    omega

end Agree

/-- 100000 with five decimals. -/
def btcPrice : HermesPrice := ⟨10^10, -5, by decide, by decide⟩

theorem scaling_agrees_iff_btc :
    scaleToX18 true (fun _ => "") btcPrice.price btcPrice.expo = .ok 100000 ∧
      scaleDecimalToX18 id 100000 = .ok "100000000000000000000000" ∧
      "100000000000000000000000" = toString (100000*10^18) := by
  have hd : scaleToX18 true (fun _ => "") btcPrice.price btcPrice.expo = .ok 100000 := by
    decide +kernel
  have htext : scaleDecimalToX18 id 100000 = .ok "100000000000000000000000" := by decide +kernel
  have hv : Oracle.scaleToX18 btcPrice.price.toNat btcPrice.expo = .ok (100000*10^18) := by
    decide +kernel
  have hexact : Exact id := fun _ _ _ _ => rfl
  have hcond : ¬ (true = true ∧ btcPrice.expo = -2^31) ∧ (-28 ≤ btcPrice.expo →
      btcPrice.expo ≤ 0 → -2^63 ≤ btcPrice.price ∧ btcPrice.price < 2^63) := by decide
  exact ⟨hd, htext, ((scaling_agrees_iff hexact btcPrice).mpr hcond).2 (by decide) (by decide)
    _ _ _ hd htext hv⟩

/-- A price of `2^63` with eight decimals turns negative, and the least exponent panics in a build
with overflow checks. -/
theorem wide_price_wraps :
    scaleToX18 false (fun _ => "") (2^63) (-8) = .ok (-92233720368.54775808) ∧
      ((2^63 : ℤ):ℚ)*(10:ℚ)^(-8:ℤ) = 92233720368.54775808 ∧
      scaleToX18 true (fun _ => "") 1 (-2^31) = .error .panic := by
  refine ⟨?_, ?_, ?_⟩ <;> decide +kernel

end Perplex.Hermes
