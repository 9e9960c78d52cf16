import Perplex.ChainInvariant

/-! When an unhealthy position can be liquidated. `liquidate` settles the PnL and funding
of the position in the vault before it seizes the balance; the settlement reverts when the
loss exceeds the balance, and the seizure when the settled balance exceeds
`totalDeposits`. -/
namespace Perplex.Chain

namespace State
variable {s : State} {user : Address} {market : MarketId} {mark : ℕ}

/-- The raw amount `liquidate` settles: PnL at the mark and accrued funding. -/
def closingDelta (s : State) (user : Address) (market : MarketId) (mark : ℕ) : ℤ :=
  let p := s.registry.positions user market
  (p.pnlAt mark+p.fundingAt (s.registry.marketIndexFunding market)).tdiv USDC_TO_X18

/-- The balance covers the settlement, the counter covers what is left to seize, and the
funding arithmetic stays in range. -/
structure Liquidatable (s : State) (user : Address) (market : MarketId) (mark : ℕ) : Prop where
  loss_covered : 0 ≤ (s.vault.balances user:ℤ)+s.closingDelta user market mark
  seizure_counted :
    (s.vault.balances user:ℤ)+s.closingDelta user market mark ≤ s.vault.totalDeposits
  funding_fits : (s.registry.positions user market).FundingFits
    (s.registry.marketIndexFunding market)
  size_fits : InInt256 (-(s.registry.positions user market).size)

/-- What a low health factor says about the arithmetic that `liquidate` repeats. -/
theorem healthFactor_low {hf : ℕ} (hsize : (s.registry.positions user market).size ≠ 0)
    (h : s.healthFactor user market mark = .ok hf) (hlow : hf < E18) :
    (s.registry.positions user market).PriceFits mark ∧ 0 < mark ∧
      (s.registry.positions user market).size.natAbs*mark < 2^256 ∧
      ∃ mp, s.markets.params market = some mp := by
  have hmax : ¬ UINT_MAX < E18 := by decide
  obtain ⟨mp, hmp, hn, -, h⟩ := (healthFactor_eq_ok hsize).mp h
  -- a position whose margin rounds to zero counts as healthy
  rcases h with ⟨-, rfl⟩ | ⟨hmm, -, hfits, -, -⟩
  · exact absurd hlow hmax
  · refine ⟨hfits, ?_, hn, mp, hmp⟩
    rcases Nat.eq_zero_or_pos mark with rfl | hpos
    · simp at hmm
    · exact hpos

/-- The bonus never overflows: a validated bonus ratio is at most ten percent. -/
theorem computeBonusUSDC_ok {size : ℤ} {mp : MarketParams}
    (hmp : s.markets.params market = some mp) (hvalid : mp.Valid)
    (hn : size.natAbs*mark < 2^256) :
    ∃ bonus, s.computeBonusUSDC market mark size = .ok bonus := by
  have hget : s.markets.getParams market = .ok mp := by
    simp [Markets.getParams, hmp]
  have hbps : mp.liqBonusBps ≤ 1000 := not_lt.mp hvalid.2.2.1
  have hscaled : size.natAbs*mark/E18*mp.liqBonusBps < 2^256 := by
    have hE : E18 = 10^18 := rfl
    calc size.natAbs*mark/E18*mp.liqBonusBps ≤ size.natAbs*mark/E18*1000 :=
        Nat.mul_le_mul_left _ hbps
      _ < 2^256 := by
        rw [hE]
        omega
  simp only [computeBonusUSDC, notional, hget, chain_ok_iff, mulU_eq_ok, tx_pure_eq_ok]
  exact ⟨_, mp, rfl, _, ⟨_, ⟨hn, rfl⟩, rfl⟩, _, ⟨hscaled, rfl⟩, rfl⟩

/-- PnL and funding are both quotients by `1e18`, so their sum is in range. -/
theorem closing_sum_fits {x y : ℤ} (hx : InInt256 x) (hy : InInt256 y) :
    InInt256 (x.tdiv E18+-(y.tdiv E18)) := by
  have hqx := Int.natAbs_tdiv x (E18:ℤ)
  have hqy := Int.natAbs_tdiv y (E18:ℤ)
  have hE : (E18:ℤ).natAbs = 10^18 := rfl
  rw [hE] at hqx hqy
  have hqx' : (x.tdiv E18).natAbs = x.natAbs/10^18 := hqx
  have hqy' : (y.tdiv E18).natAbs = y.natAbs/10^18 := hqy
  unfold InInt256 at *
  omega

variable {d : Deployment}

/-- Closing the whole position succeeds exactly when the arithmetic fits and the balance
stays in range. -/
theorem closeAndSettle_whole (hr : s.registry.Tracked)
    (hact : s.markets.isMarketActive market = true) (hu : user ≠ 0) (hmark : 0 < mark)
    (hsize : (s.registry.positions user market).size ≠ 0)
    (hprice : (s.registry.positions user market).PriceFits mark) :
    (∃ x, s.closeAndSettle d user market mark (-(s.registry.positions user market).size) = .ok x) ↔
      (s.registry.positions user market).FundingFits (s.registry.marketIndexFunding market) ∧
      0 ≤ (s.vault.balances user:ℤ)+s.closingDelta user market mark ∧
      (0 < s.closingDelta user market mark →
        (s.vault.balances user:ℤ)+s.closingDelta user market mark < 2^256) := by
  have hzero := add_neg_cancel (s.registry.positions user market).size
  simp only [closeAndSettle, chain_ok_iff, Prod.exists, addI_eq_ok,
    Vault.settle_unless_zero (d := d) (Or.inr rfl), tx_pure_eq_ok]
  constructor
  · rintro ⟨_, _, _, realised, funding, r', hfill, _, ⟨-, rfl⟩, v, ⟨⟨hcov, hup⟩, rfl⟩, -⟩
    obtain ⟨hff, -, rfl, rfl⟩ :=
      (Registry.applyFill_close hr (Or.inr rfl) hact hu hmark hsize hzero).mp ⟨r', hfill⟩
    exact ⟨hff, hcov, hup⟩
  · rintro ⟨hff, hcov, hup⟩
    obtain ⟨r', hfill⟩ := (Registry.applyFill_close (d := d) hr (Or.inr rfl) hact hu hmark hsize
      hzero).mpr ⟨hff, hprice, rfl, rfl⟩
    -- PnL and funding each fit well below the bound, so their sum does not overflow
    have hsum : InInt256 ((s.registry.positions user market).pnlAt mark+
        (s.registry.positions user market).fundingAt (s.registry.marketIndexFunding market)) :=
      closing_sum_fits hprice.2.2 hff.2
    exact ⟨_, _, _, _, _, r', hfill, _, ⟨hsum, rfl⟩, _, ⟨⟨hcov, hup⟩, rfl⟩, rfl⟩

/-- What closing the whole position leaves: no size, and the balance moved by the settled
amount. -/
theorem closeAndSettle_whole_ok {realised settleUSDC : ℤ} {s' : State}
    (hsize : (s.registry.positions user market).size ≠ 0)
    (h : s.closeAndSettle d user market mark (-(s.registry.positions user market).size) =
      .ok (realised,settleUSDC,s')) :
    s'.vault = s.vault.adjust user (s.closingDelta user market mark) ∧ s'.usdc = s.usdc ∧
      (s'.registry.positions user market).size = 0 := by
  obtain ⟨funding, hset, -⟩ := closeAndSettle_ok h
  obtain ⟨p, hstep, hpos⟩ := hset.fill.position
  have hfunding := hset.fill.funding_eq
  have hvault := hset.vault
  simp only [add_zero] at hvault hfunding
  refine ⟨?_, hset.usdc, ?_⟩
  · -- a fill of the whole size can only be the branch that closes
    have hreal : realised = (s.registry.positions user market).pnlAt mark := by
      cases hstep with
      | close _ => rfl
      | openNew h0 _ => exact absurd h0 hsize
      | add _ h0 _ => exact absurd (add_neg_cancel _) h0
      | flip _ _ h0 _ => exact absurd (add_neg_cancel _) h0
      | reduce _ _ h0 _ => exact absurd (add_neg_cancel _) h0
    rw [hvault, hreal, hfunding]
    rfl
  · rw [hpos]
    simp only [update₂_same, Position.dropEntry_size, hstep.size_eq]
    exact add_neg_cancel _

/-- A seizure needs only that the counter covers the balance and the vault the counter. -/
theorem seizeForLiquidation_of_le {sender : Address} (bonus : ℕ) (hsender : sender ≠ 0)
    (htot : s.vault.balances user ≤ s.vault.totalDeposits)
    (hback : s.vault.totalDeposits ≤ s.usdc d.vault) :
    ∃ x, s.seizeForLiquidation d d.liquidationEngine user sender d.fund bonus = .ok x := by
  simp only [seizeForLiquidation, chain_ok_iff, ensure_eq_ok, and_true, exists_const, subU_eq_ok,
    tx_pure_eq_ok, true_and]
  -- bonus and residual together are the balance, whichever branch is taken
  generalize hsplit : (if bonus ≤ s.vault.balances user then
    (bonus,s.vault.balances user-bonus,0) else
    (s.vault.balances user,0,bonus-s.vault.balances user)) = parts
  have hparts : parts.1+parts.2.1 = s.vault.balances user := by
    subst hsplit
    split_ifs <;> simp only <;> omega
  have hbonus : parts.1 ≤ s.usdc d.vault := by omega
  obtain ⟨u₁, h₁⟩ := payOut_of_le sender hbonus
  have hle := payOut_le h₁
  have hresidual : parts.2.1 ≤ u₁ d.vault := by omega
  obtain ⟨u₂, h₂⟩ := payOut_of_le d.fund hresidual
  exact ⟨_, ⟨hsender, d.fund_ne_zero⟩, _, ⟨htot, rfl⟩, u₁, h₁, u₂, h₂, rfl⟩

end State

/-- In every reachable state, an unhealthy position of an active market is liquidated,
leaving no position, exactly when it is `Liquidatable`. -/
theorem liquidate_unhealthy_iff {d : Deployment} {s : State} (h : Reachable d s)
    {sender user : Address} {market : MarketId} {mark hf : ℕ}
    (hact : s.markets.isMarketActive market = true) (horacle : s.oracle market = some mark)
    (hsize : (s.registry.positions user market).size ≠ 0)
    (hhf : s.healthFactor user market mark = .ok hf) (hlow : hf < E18) (hsender : sender ≠ 0) :
    (∃ receipt s', s.liquidate d sender user market = .ok (receipt,s') ∧
      (s'.registry.positions user market).size = 0) ↔ s.Liquidatable user market mark := by
  have hcons := h.consistent
  obtain ⟨hprice, hmark, hn, mp, hmp⟩ := State.healthFactor_low hsize hhf hlow
  obtain ⟨bonus, hbonus⟩ := State.computeBonusUSDC_ok hmp (hcons.params_valid market mp hmp) hn
  have hu : user ≠ 0 := by
    rintro rfl
    exact hsize (hcons.zero_empty market)
  have hpx : s.priceX18 market = .ok mark := by simp [State.priceX18, horacle]
  have hwhole := State.closeAndSettle_whole (d := d) hcons.tracked hact hu hmark hsize hprice
  constructor
  · rintro ⟨receipt, s', hl, -⟩
    simp only [State.liquidate, hpx, hhf, hbonus, chain_ok_iff, ensure_eq_ok, and_true,
      exists_const, negI_eq_ok, Prod.exists, tx_pure_eq_ok, Prod.mk.injEq, Except.ok.injEq,
      exists_eq_left'] at hl
    obtain ⟨-, -, -, _, ⟨hneg, rfl⟩, realised, settle, s₁, hcs, _, _, _, _, hseize, -⟩ := hl
    obtain ⟨hff, hcov, -⟩ := hwhole.mp ⟨_, hcs⟩
    refine ⟨hcov, ?_, hff, hneg⟩
    -- the settled balance is the one that is seized
    obtain ⟨hvault, -, -⟩ := State.closeAndSettle_whole_ok hsize hcs
    have hcounted := (State.seizeForLiquidation_ok hseize).1.counted
    rw [hvault] at hcounted
    simp only [Vault.adjust, Function.update_self] at hcounted
    omega
  · rintro ⟨hcov, hcount, hff, hneg⟩
    have htot := hcons.total_fits
    -- a balance below the counter cannot overflow
    obtain ⟨⟨realised, settle, s₁⟩, hcs⟩ := hwhole.mpr ⟨hff, hcov, fun _ => by omega⟩
    obtain ⟨hvault, husdc, hclosed⟩ := State.closeAndSettle_whole_ok hsize hcs
    have hbal : s₁.vault.balances user ≤ s₁.vault.totalDeposits := by
      rw [hvault]
      simp only [Vault.adjust, Function.update_self]
      omega
    have hback : s₁.vault.totalDeposits ≤ s₁.usdc d.vault := by
      rw [hvault, husdc]
      exact hcons.backed
    obtain ⟨⟨paid, residual, shortfall, s₂⟩, hseize⟩ :=
      State.seizeForLiquidation_of_le bonus hsender hbal hback
    refine ⟨⟨mark, -(s.registry.positions user market).size, settle, paid, residual, shortfall⟩,
      s₂, ?_, ?_⟩
    · simp only [State.liquidate, hpx, hhf, hbonus, chain_ok_iff, ensure_eq_ok, and_true,
        exists_const, negI_eq_ok, Prod.exists, tx_pure_eq_ok, Prod.mk.injEq, Except.ok.injEq,
        exists_eq_left']
      exact ⟨hact, hlow, hsize, _, ⟨hneg, rfl⟩, realised, settle, s₁, hcs, paid, residual,
        shortfall, s₂, hseize, rfl, rfl⟩
    · rw [(State.seizeForLiquidation_ok hseize).1.registry]
      exact hclosed

/-- A long of one contract, entered at 100 with 10 of collateral, and a new mark. -/
def markedDown (mark : ℕ) : List Call :=
  oneContract (10*10^6) (100*10^6)++[Call.oracleAnswer 1 (some mark)]

/-- At a mark of 92 there are 2 of equity left, less than the maintenance margin. -/
theorem liquidate_small_loss :
    ∃ receipt s', (devnetAfter (markedDown (92*10^18))).liquidate devnet 999 101 1 =
      .ok (receipt,s') ∧ (s'.registry.positions 101 1).size = 0 := by
  have hmark : (devnetAfter (markedDown (92*10^18))).oracle 1 = some (92*10^18) := by
    decide +kernel
  have hhf : (devnetAfter (markedDown (92*10^18))).healthFactor 101 1 (92*10^18) =
      .ok 869565217391304347 := by decide +kernel
  refine (liquidate_unhealthy_iff (reachable_devnetAfter (by decide +kernel))
    (by decide +kernel) hmark (by decide +kernel) hhf (by decide) (by decide)).mpr ?_
  exact ⟨by decide +kernel, by decide +kernel, by decide +kernel, by decide +kernel⟩

/-- At a mark of 50 the loss exceeds the collateral: the health factor is zero and the
liquidation reverts. -/
theorem underwater_liquidation_reverts :
    Reachable devnet (devnetAfter (markedDown (50*10^18))) ∧
    (devnetAfter (markedDown (50*10^18))).markets.isMarketActive 1 = true ∧
    (devnetAfter (markedDown (50*10^18))).oracle 1 = some (50*10^18) ∧
    ((devnetAfter (markedDown (50*10^18))).registry.positions 101 1).size ≠ 0 ∧
    (devnetAfter (markedDown (50*10^18))).healthFactor 101 1 (50*10^18) = .ok 0 ∧
    (devnetAfter (markedDown (50*10^18))).liquidate devnet 999 101 1 =
      .error .insufficientBalance :=
  ⟨reachable_devnetAfter (by decide +kernel), by decide +kernel, by decide +kernel,
    by decide +kernel, by decide +kernel, rfl⟩

end Perplex.Chain
