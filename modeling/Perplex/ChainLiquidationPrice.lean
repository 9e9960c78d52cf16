import Perplex.ChainFacts

/-! `liquidationPrice` of `PositionRegistry`, the price at which a position would become
liquidatable. Its divisor is the size times one minus the maintenance ratio, cut off to an
integer. -/
namespace Perplex.Chain

/-- Checked division: zero divisors panic. -/
def divU (a b : ℕ) : Tx ℕ := ensure (b ≠ 0) .panic (a/b)

@[simp]
theorem divU_eq_ok {a b c : ℕ} : divU a b = .ok c ↔ b ≠ 0 ∧ a/b = c := ensure_eq_ok

namespace State

/-- `liquidationPrice`. -/
def liquidationPrice (s : State) (user : Address) (market : MarketId) : Tx ℕ :=
  let p := s.registry.positions user market
  if p.size = 0 then return 0
  else do
    let mp ← s.markets.getParams market
    let mmRatio ← mulU mp.mmRatioBps (10^14)
    let collateralX18 ← mulU (s.vault.balances user) USDC_TO_X18
    let sizeAbsX18 := p.size.natAbs
    let entry := p.entryPriceX18
    let entryNotional ← mulU sizeAbsX18 entry
    if 0 < p.size then
      let num := entryNotional/E18
      -- the collateral alone covers the position down to a price of zero
      if num ≤ collateralX18 then return 0
      else
        let num ← subU num collateralX18
        let ratio ← subU E18 mmRatio
        -- zero for the smallest size
        let scaled ← mulU sizeAbsX18 ratio
        let den := scaled/E18
        let wide ← mulU num E18
        divU wide den
    else
      let num ← addU (entryNotional/E18) collateralX18
      let ratio ← addU E18 mmRatio
      let scaled ← mulU sizeAbsX18 ratio
      let den := scaled/E18
      let wide ← mulU num E18
      divU wide den

/-- The products of `liquidationPrice`, each on the side that computes it, are in range. -/
structure LiquidationPriceFits (s : State) (user : Address) (market : MarketId)
    (mmRatio : ℕ) : Prop where
  collateral : s.vault.balances user*USDC_TO_X18 < 2^256
  notional : (s.registry.positions user market).size.natAbs*
    (s.registry.positions user market).entryPriceX18 < 2^256
  long : 0 < (s.registry.positions user market).size →
    (s.registry.positions user market).size.natAbs*(E18-mmRatio) < 2^256 ∧
    ((s.registry.positions user market).size.natAbs*
      (s.registry.positions user market).entryPriceX18/E18-
      s.vault.balances user*USDC_TO_X18)*E18 < 2^256
  short : (s.registry.positions user market).size < 0 →
    (s.registry.positions user market).size.natAbs*(E18+mmRatio) < 2^256 ∧
    ((s.registry.positions user market).size.natAbs*
      (s.registry.positions user market).entryPriceX18/E18+
      s.vault.balances user*USDC_TO_X18)*E18 < 2^256

/-- The divisor of a long is cut off to zero for a size of one unit only: the ratio is at least
three quarters and less than one. -/
theorem long_divisor_eq_zero_iff {size mmRatio : ℕ} (hsize : 0 < size) (hpos : 0 < mmRatio)
    (hmax : mmRatio ≤ 2500*10^14) : size*(E18-mmRatio)/E18 = 0 ↔ size = 1 := by
  have hE : E18 = 10^18 := rfl
  rw [Nat.div_eq_zero_iff_lt (by decide)]
  constructor
  · intro hlt
    by_contra hne
    have htwo : 2*(E18-mmRatio) ≤ size*(E18-mmRatio) := Nat.mul_le_mul_right _ (by omega)
    omega
  · rintro rfl
    omega

/-- The divisor of a short is never zero. -/
theorem short_divisor_ne_zero {size : ℕ} (hsize : 0 < size) (mmRatio : ℕ) :
    size*(E18+mmRatio)/E18 ≠ 0 := by
  have hle : E18 ≤ size*(E18+mmRatio) :=
    le_trans (Nat.le_add_right _ _) (Nat.le_mul_of_pos_left _ hsize)
  have hone := Nat.div_le_div_right (c := E18) hle
  rw [Nat.div_self (by decide)] at hone
  omega

/-- A short is always priced: its divisor is not zero. -/
theorem short_returns {s : State} {user : Address} {market : MarketId} {mp : MarketParams}
    (hmp : s.markets.params market = some mp) (hmm : mp.mmRatioBps*10^14 < 2^256)
    (hfits : s.LiquidationPriceFits user market (mp.mmRatioBps*10^14))
    (hneg : (s.registry.positions user market).size < 0) :
    Succeeds (s.liquidationPrice user market) := by
  have hget : s.markets.getParams market = .ok mp := getParams_eq_ok.mpr hmp
  obtain ⟨hcol, hnot, -, hshort⟩ := hfits
  obtain ⟨hscaled, hwide⟩ := hshort hneg
  unfold liquidationPrice
  generalize s.registry.positions user market = p at *
  generalize hc : s.vault.balances user*USDC_TO_X18 = collateral at *
  have hden := short_divisor_ne_zero (Int.natAbs_pos.mpr hneg.ne) (mp.mmRatioBps*10^14)
  have hsum : p.size.natAbs*p.entryPriceX18/E18+collateral < 2^256 :=
    lt_of_le_of_lt (Nat.le_mul_of_pos_right _ (by decide)) hwide
  have hratio : E18+mp.mmRatioBps*10^14 < 2^256 :=
    lt_of_le_of_lt (Nat.le_mul_of_pos_left _ (Int.natAbs_pos.mpr hneg.ne)) hscaled
  refine ⟨(p.size.natAbs*p.entryPriceX18/E18+collateral)*E18/
    (p.size.natAbs*(E18+mp.mmRatioBps*10^14)/E18), ?_⟩
  simp only [if_neg hneg.ne, if_neg hneg.not_gt, hget, hc, chain_ok_iff, mulU_eq_ok, addU_eq_ok,
    divU_eq_ok, Except.ok.injEq, exists_eq_left']
  exact ⟨_, ⟨hmm, rfl⟩, _, ⟨hcol, rfl⟩, _, ⟨hnot, rfl⟩, _, ⟨hsum, rfl⟩, _, ⟨hratio, rfl⟩,
    _, ⟨hscaled, rfl⟩, _, ⟨hwide, rfl⟩, hden, rfl⟩

/-- A long is priced when the collateral covers it or its divisor is not zero. -/
theorem long_returns_iff {s : State} {user : Address} {market : MarketId} {mp : MarketParams}
    (hmp : s.markets.params market = some mp) (hmm : mp.mmRatioBps*10^14 ≤ E18)
    (hfits : s.LiquidationPriceFits user market (mp.mmRatioBps*10^14))
    (hpos : 0 < (s.registry.positions user market).size) :
    Succeeds (s.liquidationPrice user market) ↔
      (s.registry.positions user market).size.natAbs*
        (s.registry.positions user market).entryPriceX18/E18 ≤
          s.vault.balances user*USDC_TO_X18 ∨
      (s.registry.positions user market).size.natAbs*(E18-mp.mmRatioBps*10^14)/E18 ≠ 0 := by
  have hget : s.markets.getParams market = .ok mp := getParams_eq_ok.mpr hmp
  have hfit : mp.mmRatioBps*10^14 < 2^256 := lt_of_le_of_lt hmm (by decide)
  obtain ⟨hcol, hnot, hlong, -⟩ := hfits
  obtain ⟨hscaled, hwide⟩ := hlong hpos
  unfold liquidationPrice
  generalize s.registry.positions user market = p at *
  generalize hc : s.vault.balances user*USDC_TO_X18 = collateral at *
  by_cases hcover : p.size.natAbs*p.entryPriceX18/E18 ≤ collateral
  · refine iff_of_true ⟨0, ?_⟩ (Or.inl hcover)
    simp only [if_neg hpos.ne', if_pos hpos, hget, hc, chain_ok_iff, mulU_eq_ok,
      Except.ok.injEq, exists_eq_left']
    exact ⟨_, ⟨hfit, rfl⟩, _, ⟨hcol, rfl⟩, _, ⟨hnot, rfl⟩, if_pos hcover⟩
  · -- only the division is left to fail
    rw [or_iff_right hcover]
    constructor
    · rintro ⟨v, h⟩
      simp only [if_neg hpos.ne', if_pos hpos, hget, hc, chain_ok_iff, mulU_eq_ok,
        Except.ok.injEq, exists_eq_left'] at h
      obtain ⟨_, ⟨-, rfl⟩, _, ⟨-, rfl⟩, _, ⟨-, rfl⟩, h⟩ := h
      simp only [if_neg hcover, chain_ok_iff, subU_eq_ok, mulU_eq_ok, divU_eq_ok] at h
      obtain ⟨_, ⟨-, rfl⟩, _, ⟨-, rfl⟩, _, ⟨-, rfl⟩, _, ⟨-, rfl⟩, hne, -⟩ := h
      exact hne
    · intro hne
      refine ⟨(p.size.natAbs*p.entryPriceX18/E18-collateral)*E18/
        (p.size.natAbs*(E18-mp.mmRatioBps*10^14)/E18), ?_⟩
      simp only [if_neg hpos.ne', if_pos hpos, hget, hc, chain_ok_iff, mulU_eq_ok,
        Except.ok.injEq, exists_eq_left']
      refine ⟨_, ⟨hfit, rfl⟩, _, ⟨hcol, rfl⟩, _, ⟨hnot, rfl⟩, ?_⟩
      simp only [if_neg hcover, chain_ok_iff, subU_eq_ok, mulU_eq_ok, divU_eq_ok]
      exact ⟨_, ⟨by omega, rfl⟩, _, ⟨hmm, rfl⟩, _, ⟨hscaled, rfl⟩, _, ⟨hwide, rfl⟩, hne, rfl⟩

/-- With products that fit, the price is computed exactly unless the position is a long of a
single unit whose notional at entry, in whole wei, is more than the collateral. -/
theorem liquidationPrice_returns_iff {s : State} {user : Address} {market : MarketId}
    {mp : MarketParams} (hmp : s.markets.params market = some mp) (hvalid : mp.Valid)
    (hfits : s.LiquidationPriceFits user market (mp.mmRatioBps*10^14)) :
    Succeeds (s.liquidationPrice user market) ↔
      ¬ ((s.registry.positions user market).size = 1 ∧ s.vault.balances user*USDC_TO_X18 <
        (s.registry.positions user market).entryPriceX18/E18) := by
  have hratio : 0 < mp.mmRatioBps ∧ mp.mmRatioBps ≤ 2500 := by
    have h := hvalid.2.1
    simp only [MAX_MM_BPS] at h
    omega
  have hE : E18 = 10^18 := rfl
  rcases lt_trichotomy (s.registry.positions user market).size 0 with hneg | hzero | hpos
  · exact iff_of_true (short_returns hmp (by omega) hfits hneg) (by omega)
  · simp [liquidationPrice, hzero]
  · have hden := long_divisor_eq_zero_iff (Int.natAbs_pos.mpr hpos.ne') (by omega)
      (by omega : mp.mmRatioBps*10^14 ≤ 2500*10^14)
    have hone : (s.registry.positions user market).size.natAbs = 1 ↔
        (s.registry.positions user market).size = 1 := by omega
    rw [long_returns_iff hmp (by omega) hfits hpos, Ne, hden, hone, ← not_lt, ← not_and_or]
    refine not_congr ⟨fun ⟨hlt, h1⟩ => ⟨h1, ?_⟩, fun ⟨h1, hlt⟩ => ⟨?_, h1⟩⟩
    · simpa [h1] using hlt
    · simpa [h1] using hlt

end State

/-- A long of one contract at 100 with 10 of collateral has a liquidation price. -/
theorem liquidationPrice_returns_oneContract :
    Succeeds ((devnetAfter (oneContract (10*10^6) (100*10^6))).liquidationPrice 101 1) := by
  have hmp : (devnetAfter (oneContract (10*10^6) (100*10^6))).markets.params 1 =
      some btcParams := by decide +kernel
  refine (State.liquidationPrice_returns_iff hmp (by decide) ?_).mpr (by decide +kernel)
  exact ⟨by decide +kernel, by decide +kernel, by decide +kernel, by decide +kernel⟩

/-- User 101, without collateral, buys one unit of the smallest size from 102 at 100. -/
def dustLong : List Call :=
  [.listMarket 1 1 btcParams, .oracleAnswer 1 (some (100*10^18)),
    .applyBatch [⟨101, 1, 1, 100*10^18, 0⟩, ⟨102, 1, -1, 100*10^18, 0⟩] 0 0 8 0]

/-- The divisor 0.975 is cut off to zero, and the view panics. -/
theorem dust_long_panics :
    Reachable devnet (devnetAfter dustLong) ∧
    (devnetAfter dustLong).markets.params 1 = some btcParams ∧ btcParams.Valid ∧
    (devnetAfter dustLong).LiquidationPriceFits 101 1 (btcParams.mmRatioBps*10^14) ∧
    ((devnetAfter dustLong).registry.positions 101 1).size = 1 ∧
    (devnetAfter dustLong).liquidationPrice 101 1 = .error .panic := by
  refine ⟨reachable_devnetAfter (by decide +kernel), by decide +kernel, by decide, ?_,
    by decide +kernel, by decide +kernel⟩
  exact ⟨by decide +kernel, by decide +kernel, by decide +kernel, by decide +kernel⟩

end Perplex.Chain
