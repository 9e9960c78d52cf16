import Perplex.AccountHealth
import Perplex.ChainLiquidation

/-! The keeper judges a position by exact fractions, the registry by integers that are cut off
after every division. Both call the same positions liquidatable except within a few wei of
the maintenance margin. -/
namespace Perplex.Chain

/-- The 18 decimals of the registry, read as a fraction. -/
def Position.exact (p : Position) : Margin.Position :=
  ⟨(p.size:ℚ)/E18, (p.entryPriceX18:ℚ)/E18⟩

def MarketParams.exact (mp : MarketParams) : Margin.MarketParams :=
  ⟨mp.imRatioBps, mp.mmRatioBps⟩

/-- The 6 decimals of the vault. -/
def State.exactCollateral (s : State) (user : Address) : ℚ := (s.vault.balances user:ℚ)/10^6

namespace State
variable (s : State) (user : Address) (market : MarketId) (mark : ℕ)

theorem exactCollateral_scaled :
    E18*s.exactCollateral user = (s.collateralX18 user:ℚ) := by
  simp only [exactCollateral, collateralX18, E18, USDC_TO_X18]
  push_cast
  ring

/-- One division, rounded toward zero. -/
theorem unrealisedPnl_error :
    |(s.unrealisedPnlX18 user market mark:ℚ)-
      E18*Margin.unrealisedPnl (s.registry.positions user market).exact ((mark:ℚ)/E18)| < 1 := by
  have hE : (0:ℚ) < E18 := by norm_num [E18]
  have hexact (p : Position) : E18*Margin.unrealisedPnl p.exact ((mark:ℚ)/E18) =
      ((p.size*((mark:ℤ)-p.entryPriceX18) : ℤ):ℚ)/E18 := by
    by_cases h0 : p.size = 0
    · simp [Margin.unrealisedPnl, Position.exact, h0]
    · have hne : p.exact.size ≠ 0 := div_ne_zero (by exact_mod_cast h0) hE.ne'
      rw [Margin.unrealisedPnl, if_neg hne]
      simp only [Position.exact]
      push_cast
      field_simp
  rw [hexact]
  exact abs_tdiv_sub_lt_one _ (by norm_num [E18])

variable {s market} {mp : MarketParams}

/-- Two floors, of the notional and of the margin: at a ratio of at most a quarter they lose
less than one and a quarter together. -/
theorem maintenanceMargin_error (hmp : s.markets.params market = some mp)
    (hmax : mp.mmRatioBps ≤ 2500) :
    let margin := E18*Margin.maintenanceMargin (s.registry.positions user market).exact
      ((mark:ℚ)/E18) mp.exact
    (s.maintenanceMarginX18 user market mark:ℚ) ≤ margin ∧
      margin < s.maintenanceMarginX18 user market mark+5/4 := by
  have hE : (0:ℚ) < E18 := by norm_num [E18]
  have hratio : (mp.mmRatioBps:ℚ) ≤ 2500 := by exact_mod_cast hmax
  simp only [maintenanceMarginX18, hmp]
  generalize s.registry.positions user market = p
  have hexact : E18*Margin.maintenanceMargin p.exact ((mark:ℚ)/E18) mp.exact =
      ((p.size.natAbs*mark : ℕ):ℚ)/E18*mp.mmRatioBps/10000 := by
    simp only [Margin.maintenanceMargin, Margin.notional, Position.exact, MarketParams.exact,
      abs_div, abs_of_pos hE, Nat.cast_mul, Nat.cast_natAbs, Int.cast_abs]
    field_simp
  obtain ⟨hn, hn'⟩ := natDiv_le_and_lt (p.size.natAbs*mark) (by norm_num [E18] : 0 < E18)
  obtain ⟨hm, hm'⟩ := natDiv_le_and_lt (p.size.natAbs*mark/E18*mp.mmRatioBps)
    (by norm_num [BPS] : 0 < BPS)
  have hlow := mul_le_mul_of_nonneg_right hn (Nat.cast_nonneg (α := ℚ) mp.mmRatioBps)
  have hhigh := mul_le_mul_of_nonneg_right hn'.le (Nat.cast_nonneg (α := ℚ) mp.mmRatioBps)
  rw [hexact]
  push_cast [BPS] at hm hm' hlow hhigh ⊢
  constructor
  · linarith
  · linarith

variable {user mark}

/-- Keeper and chain agree on who is liquidatable: with a maintenance margin of at least two
wei and an equity at least three wei away from it, the exact health factor is below one if and
only if the registry answers less than one. -/
theorem keeper_agrees (hmp : s.markets.params market = some mp) (hmax : mp.mmRatioBps ≤ 2500)
    (hfits : s.HealthFits user market mark)
    (hmargin : 2/10^18 ≤ Margin.maintenanceMargin (s.registry.positions user market).exact
      ((mark:ℚ)/E18) mp.exact)
    (hband : 3/10^18 ≤ |s.exactCollateral user+
      Margin.unrealisedPnl (s.registry.positions user market).exact ((mark:ℚ)/E18)-
      Margin.maintenanceMargin (s.registry.positions user market).exact ((mark:ℚ)/E18) mp.exact|) :
    (∃ h, Margin.healthFactor (s.registry.positions user market).exact ((mark:ℚ)/E18)
        (s.exactCollateral user) mp.exact = some h ∧ h < 1) ↔
      ∃ hf, s.healthFactor user market mark = .ok hf ∧ hf < E18 := by
  have hsize : (s.registry.positions user market).size ≠ 0 := by
    intro h0
    norm_num [Margin.maintenanceMargin, Margin.notional, Position.exact, h0] at hmargin
  have hpnl := abs_lt.mp (unrealisedPnl_error s user market mark)
  obtain ⟨hlow, hhigh⟩ := maintenanceMargin_error user mark hmp hmax
  have hcol := exactCollateral_scaled s user
  rw [healthFactor_lt_one hsize, Margin.healthFactor_lt_one]
  unfold Margin.requirement requirementX18
  generalize Margin.maintenanceMargin _ _ _ = margin at *
  generalize Margin.unrealisedPnl _ _ = pnl at *
  generalize s.maintenanceMarginX18 user market mark = marginX18 at *
  generalize s.unrealisedPnlX18 user market mark = pnlX18 at *
  generalize s.collateralX18 user = collateralX18 at *
  generalize s.exactCollateral user = collateral at *
  have hE : (E18:ℚ) = 10^18 := by norm_num [E18]
  rw [hE] at hpnl hlow hhigh hcol
  have hpos : 0 < margin := by linarith
  have hposX18 : marginX18 ≠ 0 := by
    rintro rfl
    push_cast at hhigh
    linarith
  have hcast : (collateralX18:ℤ) < marginX18-pnlX18 ↔ (collateralX18:ℚ) < marginX18-pnlX18 := by
    exact_mod_cast Iff.rfl
  -- outside the band both comparisons come out as the sign of the exact difference
  rw [hcast]
  rcases le_abs.mp hband with habove | hbelow
  · refine iff_of_false ?_ ?_
    · rintro (⟨-, hlt⟩ | ⟨hneg, -⟩) <;> linarith
    · rintro ⟨-, -, hlt⟩
      linarith
  · exact iff_of_true (Or.inl ⟨hpos, by linarith⟩) ⟨hfits, hposX18, by linarith⟩

end State

/-- A long of one contract with 10 of collateral, marked down from 100 to 92: the equity is 2
and the margin 2.3. -/
theorem keeper_agrees_markedDown :
    (∃ h, Margin.healthFactor ((devnetAfter (markedDown (92*10^18))).registry.positions 101
        1).exact (((92*10^18 : ℕ):ℚ)/E18) ((devnetAfter (markedDown (92*10^18))).exactCollateral
        101) btcParams.exact = some h ∧ h < 1) ↔
      ∃ hf, (devnetAfter (markedDown (92*10^18))).healthFactor 101 1 (92*10^18) = .ok hf ∧
        hf < E18 := by
  have hmp : (devnetAfter (markedDown (92*10^18))).markets.params 1 = some btcParams := by
    decide +kernel
  have hpos : (devnetAfter (markedDown (92*10^18))).registry.positions 101 1 =
      ⟨10^18, 100*10^18, 0⟩ := by decide +kernel
  have hbal : (devnetAfter (markedDown (92*10^18))).vault.balances 101 = 10^7 := by
    decide +kernel
  have hfits : (devnetAfter (markedDown (92*10^18))).HealthFits 101 1 (92*10^18) := by
    refine ⟨?_, by decide +kernel, ⟨by decide, by decide +kernel, by decide +kernel⟩,
      by decide +kernel, by decide +kernel⟩
    intro mp h
    obtain rfl : btcParams = mp := Option.some.inj (hmp.symm.trans h)
    decide +kernel
  refine State.keeper_agrees hmp (by decide) hfits ?_ ?_
  · rw [hpos]
    norm_num [Margin.maintenanceMargin, Margin.notional, Position.exact, MarketParams.exact,
      btcParams, E18]
  · rw [hpos, State.exactCollateral, hbal]
    norm_num [Margin.maintenanceMargin, Margin.notional, Margin.unrealisedPnl, Position.exact,
      MarketParams.exact, btcParams, E18]

end Perplex.Chain
