import Mathlib.Algebra.BigOperators.Group.List.Basic
import Mathlib.Algebra.Order.BigOperators.Group.List
import Perplex.ChainInvariant

/-! The withdrawal gate against the liquidation gate. `isWithdrawSafe` weighs the PnL of all
markets together against the initial margins; `healthFactor` weighs the balance and the PnL
of one market against its maintenance margin. PnL of the other markets counts in the first
and not in the second. -/
namespace Perplex.Chain

namespace State
variable (s : State) (user : Address)

def markOf (market : MarketId) : ℕ := (s.oracle market).getD 0

def upnlX18 (market : MarketId) : ℤ := (s.registry.positions user market).pnlAt (s.markOf market)

def notionalX18 (market : MarketId) : ℕ :=
  (s.registry.positions user market).size.natAbs*s.markOf market/E18

def initialMargin (market : MarketId) : ℕ :=
  s.notionalX18 user market*((s.markets.params market).elim 0 MarketParams.imRatioBps)/BPS

def maintenanceMargin (market : MarketId) : ℕ :=
  s.notionalX18 user market*((s.markets.params market).elim 0 MarketParams.mmRatioBps)/BPS

/-- The collateral that stays once `amount` is withdrawn. -/
def remainingX18 (amount : ℕ) : ℕ := (s.vault.balances user-amount)*USDC_TO_X18

/-- Equity across all markets once `amount` is withdrawn. -/
def postEquityX18 (amount : ℕ) : ℤ :=
  s.remainingX18 user amount+((s.registry.userMarkets user).map (s.upnlX18 user)).sum

/-- The initial margins of all markets, which the gate sets against that equity. -/
def initialMargins : ℕ := ((s.registry.userMarkets user).map (s.initialMargin user)).sum

/-- PnL of the user's other markets. -/
def pnlElsewhere (market : MarketId) : ℤ :=
  (((s.registry.userMarkets user).erase market).map (s.upnlX18 user)).sum

/-- The most that the balance, the counter of deposits and the gate let out. -/
def largestWithdrawal : ℕ :=
  min (min (s.vault.balances user) s.vault.totalDeposits)
    ((s.postEquityX18 user 0-s.initialMargins user)/USDC_TO_X18).toNat

/-- What the gate holds back covers the maintenance margin of this market, and the equity in
36 decimals is a `uint256` from `amount` on. -/
def GateCovers (amount : ℕ) (market : MarketId) : Prop :=
  s.maintenanceMargin user market = 0 ∨
  (s.maintenanceMargin user market:ℤ) ≤
      s.remainingX18 user (s.largestWithdrawal user)+s.upnlX18 user market ∧
    (s.remainingX18 user amount+s.upnlX18 user market)*E18 < 2^256

instance (amount : ℕ) (market : MarketId) : Decidable (s.GateCovers user amount market) := by
  unfold GateCovers
  infer_instance

/-- The gate was able to price the position. -/
structure Priced (market : MarketId) : Prop where
  mark : s.oracle market = some (s.markOf market)
  fits : (s.registry.positions user market).PriceFits (s.markOf market)
  notional_fits : (s.registry.positions user market).size.natAbs*s.markOf market < 2^256
  params : ∃ mp, s.markets.params market = some mp ∧
    s.notionalX18 user market*mp.imRatioBps < 2^256

variable {s user}

theorem priceX18_eq_ok {market : MarketId} {p : ℕ} :
    s.priceX18 market = .ok p ↔ s.oracle market = some p := by
  unfold priceX18
  split <;> simp_all

/-- The loop prices every held market and adds up PnL and initial margins. -/
theorem marginLoop_ok {mids : List MarketId} {a x : ℤ} {b y : ℕ}
    (hheld : ∀ m ∈ mids, (s.registry.positions user m).size ≠ 0)
    (h : s.marginLoop user mids a b = .ok (x,y)) :
    (∀ m ∈ mids, s.Priced user m) ∧ x = a+(mids.map (s.upnlX18 user)).sum ∧
      y = b+(mids.map (s.initialMargin user)).sum := by
  induction mids generalizing a b with
  | nil =>
    cases h
    simp
  | cons m mids ih =>
    have hm := hheld m List.mem_cons_self
    simp only [marginLoop, if_neg hm, chain_ok_iff, getParams_eq_ok, priceX18_eq_ok,
      Position.unrealisedPnl_eq_ok hm, addI_eq_ok, notional, mulU_eq_ok, addU_eq_ok,
      tx_pure_eq_ok] at h
    obtain ⟨mp, hmp, p, hp, _, ⟨hfits, rfl⟩, _, ⟨-, rfl⟩, _, ⟨_, ⟨hn, rfl⟩, rfl⟩, _, ⟨him, rfl⟩,
      _, ⟨-, rfl⟩, h⟩ := h
    -- the loop reads the same price that `markOf` names
    have hmark : s.markOf m = p := by simp [markOf, hp]
    obtain ⟨hpriced, rfl, rfl⟩ := ih (fun k hk => hheld k (List.mem_cons_of_mem _ hk)) h
    subst hmark
    refine ⟨List.forall_mem_cons.mpr ⟨⟨hp, hfits, hn, mp, hmp, him⟩, hpriced⟩, ?_, ?_⟩
    · simp only [List.map_cons, List.sum_cons, upnlX18]
      ring
    · simp only [List.map_cons, List.sum_cons, initialMargin, notionalX18, hmp, Option.elim_some]
      ring

/-- What a passed gate says about a user with positions. -/
theorem isWithdrawSafe_true {amount : ℕ} {market : MarketId} (hr : s.registry.Tracked)
    (hheld : (s.registry.positions user market).size ≠ 0)
    (h : s.isWithdrawSafe user amount = .ok true) :
    (∀ m ∈ s.registry.userMarkets user, s.Priced user m) ∧
      s.remainingX18 user amount < 2^255 ∧
      s.initialMargins user ≤ s.postEquityX18 user amount := by
  have hmem := (hr.mem_iff user market).mpr hheld
  have hlen : ¬ (s.registry.userMarkets user).length = 0 := by
    intro h0
    rw [List.length_eq_zero_iff.mp h0] at hmem
    simp at hmem
  simp only [isWithdrawSafe, if_neg hlen] at h
  split_ifs at h with hlt
  · simp at h
  simp only [chain_ok_iff, Prod.exists, subU_eq_ok, mulU_eq_ok, toInt256_eq_ok, addI_eq_ok,
    tx_pure_eq_ok] at h
  obtain ⟨x, y, hloop, _, ⟨-, rfl⟩, _, ⟨-, rfl⟩, _, ⟨hfit, rfl⟩, _, ⟨-, rfl⟩, _, ⟨-, rfl⟩, hle⟩ := h
  obtain ⟨hpriced, rfl, rfl⟩ := marginLoop_ok (fun m hm => (hr.mem_iff user m).mp hm) hloop
  refine ⟨hpriced, hfit, ?_⟩
  have hle' := of_decide_eq_true hle
  simpa [postEquityX18, initialMargins, remainingX18] using hle'

/-- The gate looks at the amount through the equity alone: a larger amount passes as long as
the equity still covers the initial margins. -/
theorem isWithdrawSafe_mono {amount larger : ℕ} (hr : s.registry.Tracked)
    (h : s.isWithdrawSafe user amount = .ok true) (hle : amount ≤ larger)
    (hbal : larger ≤ s.vault.balances user)
    (hequity : s.initialMargins user ≤ s.postEquityX18 user larger) :
    s.isWithdrawSafe user larger = .ok true := by
  by_cases hlen : (s.registry.userMarkets user).length = 0
  · simp only [isWithdrawSafe, if_pos hlen, pure, Except.pure]
  simp only [isWithdrawSafe, if_neg hlen] at h ⊢
  split_ifs at h with hlt
  · simp at h
  rw [if_neg (not_lt.mpr hbal)]
  simp only [chain_ok_iff, Prod.exists, subU_eq_ok, mulU_eq_ok, toInt256_eq_ok, addI_eq_ok,
    tx_pure_eq_ok] at h ⊢
  obtain ⟨x, y, hloop, _, ⟨-, rfl⟩, _, ⟨hmul, rfl⟩, _, ⟨hfit, rfl⟩, _, ⟨hsum, rfl⟩, _,
    ⟨hmargins, rfl⟩, -⟩ := h
  have hheld : ∀ m ∈ s.registry.userMarkets user, (s.registry.positions user m).size ≠ 0 :=
    fun m hm => (hr.mem_iff user m).mp hm
  obtain ⟨-, hx, hy⟩ := marginLoop_ok hheld hloop
  have hrest : (s.vault.balances user-larger)*USDC_TO_X18 ≤
      (s.vault.balances user-amount)*USDC_TO_X18 :=
    Nat.mul_le_mul_right _ (Nat.sub_le_sub_left hle _)
  have hcover : (y:ℤ) ≤ ((s.vault.balances user-larger)*USDC_TO_X18 : ℕ)+x := by
    simpa [postEquityX18, initialMargins, remainingX18, hx, hy] using hequity
  -- the smaller equity lies between the initial margins and the one that fitted before
  have hint : InInt256 (((s.vault.balances user-larger)*USDC_TO_X18 : ℕ)+x) := by
    unfold InInt256 at hsum ⊢
    omega
  exact ⟨x, y, hloop, _, ⟨hbal, rfl⟩, _, ⟨hrest.trans_lt hmul, rfl⟩, _,
    ⟨hrest.trans_lt hfit, rfl⟩, _, ⟨hint, rfl⟩, _, ⟨hmargins, rfl⟩, decide_eq_true hcover⟩

/-- Health of a priced position: the maintenance margin is zero or covered, and nothing
overflows on the way. -/
theorem healthFactor_high_iff {market : MarketId}
    (hsize : (s.registry.positions user market).size ≠ 0) (hp : s.Priced user market)
    (hvalid : ∀ mp, s.markets.params market = some mp → mp.Valid)
    (hbal : s.vault.balances user*USDC_TO_X18 < 2^255) :
    (∃ hf, s.healthFactor user market (s.markOf market) = .ok hf ∧ E18 ≤ hf) ↔
      s.maintenanceMargin user market = 0 ∨
      (s.maintenanceMargin user market:ℤ) ≤
          (s.vault.balances user*USDC_TO_X18 : ℕ)+s.upnlX18 user market ∧
        ((s.vault.balances user*USDC_TO_X18 : ℕ)+s.upnlX18 user market)*E18 < 2^256 := by
  obtain ⟨mp, hmp, him⟩ := hp.params
  have hmm : s.notionalX18 user market*mp.mmRatioBps < 2^256 := by
    -- the gate has multiplied by the larger ratio already
    have hlt := (hvalid mp hmp).mm_le_im
    exact lt_of_le_of_lt (Nat.mul_le_mul_left _ hlt) him
  have hmargin : (s.registry.positions user market).size.natAbs*s.markOf market/E18*
      mp.mmRatioBps/BPS = s.maintenanceMargin user market := by
    simp [maintenanceMargin, notionalX18, hmp]
  have hE : E18 = 10^18 := rfl
  -- dividing by the margin compares equity and margin, both scaled by `1e18`
  have hcmp (hpos : 0 < s.maintenanceMargin user market) (x : ℕ) :
      E18 ≤ x*E18/s.maintenanceMargin user market ↔ s.maintenanceMargin user market ≤ x := by
    rw [Nat.le_div_iff_mul_le hpos, mul_comm x E18]
    exact Nat.mul_le_mul_left_iff (by decide)
  constructor
  · rintro ⟨hf, hhf, hhigh⟩
    obtain ⟨mp', hmp', -, -, h⟩ := (healthFactor_eq_ok hsize).mp hhf
    obtain rfl : mp = mp' := Option.some.inj (hmp.symm.trans hmp')
    simp only [hmargin] at h
    rcases h with ⟨h0, -⟩ | ⟨h0, -, -, -, ⟨-, rfl⟩ | ⟨hpos, hscaled, rfl⟩⟩
    · exact Or.inl h0
    · exact absurd hhigh (by decide)
    · have hcover := (hcmp (Nat.pos_of_ne_zero h0) _).mp hhigh
      rw [hE] at hscaled ⊢
      unfold upnlX18
      omega
  · intro h
    by_cases h0 : s.maintenanceMargin user market = 0
    · have hview : s.healthFactor user market (s.markOf market) = .ok UINT_MAX :=
        (healthFactor_eq_ok hsize).mpr
          ⟨mp, hmp, hp.notional_fits, hmm, Or.inl ⟨hmargin.trans h0, rfl⟩⟩
      exact ⟨UINT_MAX, hview, by decide⟩
    · obtain ⟨hcover, hscaled⟩ := h.resolve_left h0
      have hfit : InInt256 (((s.vault.balances user*USDC_TO_X18 : ℕ):ℤ)+
          s.upnlX18 user market) := by
        rw [hE] at hscaled
        unfold InInt256
        omega
      have hequity : 0 < ((s.vault.balances user*USDC_TO_X18 : ℕ):ℤ)+s.upnlX18 user market := by
        omega
      have hscaledNat : (((s.vault.balances user*USDC_TO_X18 : ℕ):ℤ)+
          s.upnlX18 user market).toNat*E18 < 2^256 := by
        rw [hE] at hscaled ⊢
        omega
      have hview := (healthFactor_eq_ok hsize).mpr ⟨mp, hmp, hp.notional_fits, hmm,
        Or.inr ⟨hmargin ▸ h0, hbal, hp.fits, hfit, Or.inr ⟨hequity, hscaledNat, rfl⟩⟩⟩
      rw [hmargin] at hview
      refine ⟨_, hview, (hcmp (Nat.pos_of_ne_zero h0) _).mpr ?_⟩
      unfold upnlX18 at hcover
      omega

/-- Equity of one market is the equity of all less the PnL of the others. -/
theorem postEquityX18_sub {amount : ℕ} {market : MarketId}
    (hmem : market ∈ s.registry.userMarkets user) :
    s.postEquityX18 user amount-s.pnlElsewhere user market =
      s.remainingX18 user amount+s.upnlX18 user market := by
  have hsum := List.sum_map_erase (s.upnlX18 user) hmem
  unfold postEquityX18 pnlElsewhere
  linarith

/-- A withdrawn amount costs the equity its value in 18 decimals. -/
theorem postEquityX18_amount {amount : ℕ} (hle : amount ≤ s.vault.balances user) :
    s.postEquityX18 user amount = s.postEquityX18 user 0-amount*USDC_TO_X18 := by
  have hcast : (s.remainingX18 user amount:ℤ) =
      s.vault.balances user*USDC_TO_X18-amount*USDC_TO_X18 := by
    unfold remainingX18
    push_cast [hle]
    ring
  have hzero : (s.remainingX18 user 0:ℤ) = s.vault.balances user*USDC_TO_X18 := by
    simp [remainingX18]
  unfold postEquityX18
  linarith

/-- The gate's inequality as a bound on the amount. -/
theorem initialMargins_le_iff {amount : ℕ} (hle : amount ≤ s.vault.balances user) :
    (s.initialMargins user:ℤ) ≤ s.postEquityX18 user amount ↔
      (amount:ℤ) ≤ (s.postEquityX18 user 0-s.initialMargins user)/USDC_TO_X18 := by
  rw [postEquityX18_amount hle, Int.le_ediv_iff_mul_le (by decide)]
  constructor <;> intro h <;> linarith

/-- What passes the gate and the counter is at most the largest withdrawal. -/
theorem le_largestWithdrawal {amount : ℕ} (hbal : amount ≤ s.vault.balances user)
    (htot : amount ≤ s.vault.totalDeposits)
    (hequity : s.initialMargins user ≤ s.postEquityX18 user amount) :
    amount ≤ s.largestWithdrawal user := by
  have hfloor := (initialMargins_le_iff hbal).mp hequity
  exact le_min (le_min hbal htot) (by omega)

/-- The largest withdrawal keeps the gate's inequality once any amount does. -/
theorem initialMargins_le_largest {amount : ℕ} (hbal : amount ≤ s.vault.balances user)
    (hequity : s.initialMargins user ≤ s.postEquityX18 user amount) :
    s.initialMargins user ≤ s.postEquityX18 user (s.largestWithdrawal user) := by
  have hfloor := (initialMargins_le_iff hbal).mp hequity
  have hmin : s.largestWithdrawal user ≤
    ((s.postEquityX18 user 0-s.initialMargins user)/USDC_TO_X18).toNat := min_le_right _ _
  have hlarge : s.largestWithdrawal user ≤ s.vault.balances user :=
    (min_le_left _ _).trans (min_le_left _ _)
  exact (initialMargins_le_iff hlarge).mpr (by omega)

theorem remainingX18_anti {amount larger : ℕ} (hle : amount ≤ larger) :
    s.remainingX18 user larger ≤ s.remainingX18 user amount :=
  Nat.mul_le_mul_right _ (Nat.sub_le_sub_left hle _)

/-- The gate covers a market when the PnL of the others is no more than what the initial
margins hold above its maintenance margin. -/
theorem gateCovers_of_pnlElsewhere_le {amount : ℕ} {market : MarketId}
    (hmem : market ∈ s.registry.userMarkets user) (hbal : amount ≤ s.vault.balances user)
    (hequity : s.initialMargins user ≤ s.postEquityX18 user amount)
    (hpnl : s.pnlElsewhere user market ≤
      (s.initialMargins user:ℤ)-s.maintenanceMargin user market)
    (hfits : (s.remainingX18 user amount+s.upnlX18 user market)*E18 < 2^256) :
    s.GateCovers user amount market := by
  have hlargest := initialMargins_le_largest hbal hequity
  have hsub : s.postEquityX18 user (s.largestWithdrawal user)-s.pnlElsewhere user market =
      s.remainingX18 user (s.largestWithdrawal user)+s.upnlX18 user market :=
    postEquityX18_sub hmem
  exact Or.inr ⟨by linarith, hfits⟩

/-- With a single market the gate is the stricter one: there is no PnL elsewhere, and the
initial margin is the larger one. -/
theorem gateCovers_of_single {amount : ℕ} {market : MarketId}
    (hone : s.registry.userMarkets user = [market])
    (hparams : ∀ mp, s.markets.params market = some mp → mp.Valid)
    (hbal : amount ≤ s.vault.balances user)
    (hequity : s.initialMargins user ≤ s.postEquityX18 user amount)
    (hfits : (s.remainingX18 user amount+s.upnlX18 user market)*E18 < 2^256) :
    s.GateCovers user amount market := by
  have hle : s.maintenanceMargin user market ≤ s.initialMargin user market := by
    unfold maintenanceMargin initialMargin
    cases hmp : s.markets.params market with
    | none => exact le_rfl
    | some mp =>
      have hlt := (hparams mp hmp).mm_le_im
      exact Nat.div_le_div_right (Nat.mul_le_mul_left _ hlt)
  have hzero : s.pnlElsewhere user market = 0 := by simp [pnlElsewhere, hone]
  have hsum : s.initialMargins user = s.initialMargin user market := by
    simp [initialMargins, hone]
  refine gateCovers_of_pnlElsewhere_le (by simp [hone]) hbal hequity ?_ hfits
  rw [hzero, hsum]
  omega

/-- A health factor of one or more stops the liquidation. -/
theorem liquidate_healthy {d : Deployment} {sender : Address} {market : MarketId} {mark hf : ℕ}
    (hact : s.markets.isMarketActive market = true) (hmark : s.oracle market = some mark)
    (hhf : s.healthFactor user market mark = .ok hf) (hhigh : E18 ≤ hf) :
    s.liquidate d sender user market = .error (.healthy hf) := by
  have hpx : s.priceX18 market = .ok mark := priceX18_eq_ok.mpr hmark
  have hnot : ¬ hf < E18 := not_lt.mpr hhigh
  simp [liquidate, hact, hpx, hhf, ensure, hnot, bind, Except.bind]

end State

/-- Right after a withdrawal a position is healthy at the oracle price, and liquidation
reverts, exactly when what is left covers its maintenance margin. -/
theorem withdraw_healthy_iff {d : Deployment} {s s' : State} (h : Reachable d s)
    {user : Address} {amount : ℕ} (hw : s.withdraw d user amount = .ok s') {m : MarketId}
    (hm : (s.registry.positions user m).size ≠ 0) :
    (∃ mark hf, s'.oracle m = some mark ∧
      s'.healthFactor user m mark = .ok hf ∧ E18 ≤ hf ∧
      (s'.markets.isMarketActive m = true → ∀ sender,
        s'.liquidate d sender user m = .error (.healthy hf))) ↔
    s.maintenanceMargin user m = 0 ∨
      (s.maintenanceMargin user m:ℤ) ≤ s.remainingX18 user amount+s.upnlX18 user m ∧
        (s.remainingX18 user amount+s.upnlX18 user m)*E18 < 2^256 := by
  obtain ⟨hsafe, hout⟩ := State.withdraw_ok hw
  have hcons := h.consistent
  have hbal : s'.vault.balances user = s.vault.balances user-amount := by
    rw [hout.vault]
    simp
  have hmem := (hcons.tracked.mem_iff user m).mpr hm
  obtain ⟨hpriced, hfit, -⟩ := State.isWithdrawSafe_true hcons.tracked hm hsafe
  have hp := hpriced m hmem
  -- the pricing of the position is the same before and after
  have hmark : s'.markOf m = s.markOf m := by simp [State.markOf, hout.oracle]
  have hupnl : s'.upnlX18 user m = s.upnlX18 user m := by
    simp [State.upnlX18, hout.registry, hmark]
  have hnot : s'.notionalX18 user m = s.notionalX18 user m := by
    simp [State.notionalX18, hout.registry, hmark]
  have hmm : s'.maintenanceMargin user m = s.maintenanceMargin user m := by
    simp [State.maintenanceMargin, hnot, hout.markets]
  have hp' : s'.Priced user m := by
    refine ⟨?_, ?_, ?_, ?_⟩
    · rw [hout.oracle, hmark]
      exact hp.mark
    · rw [hout.registry, hmark]
      exact hp.fits
    · rw [hout.registry, hmark]
      exact hp.notional_fits
    · rw [hout.markets, hnot]
      exact hp.params
  have hhigh := State.healthFactor_high_iff (by rw [hout.registry]; exact hm) hp'
    (by rw [hout.markets]; exact hcons.params_valid m) (by rw [hbal]; exact hfit)
  rw [hmm, hupnl, hbal] at hhigh
  refine Iff.trans ?_ hhigh
  constructor
  · rintro ⟨mark, hf, ho, hhf, hge, -⟩
    have heq : mark = s'.markOf m := by simp [State.markOf, ho]
    exact ⟨hf, heq ▸ hhf, hge⟩
  · rintro ⟨hf, hhf, hge⟩
    exact ⟨s'.markOf m, hf, hp'.mark, hhf, hge,
      fun hact sender => State.liquidate_healthy hact hp'.mark hhf hge⟩

/-- When one withdrawal is paid, so is the largest one. -/
theorem withdraw_largest {d : Deployment} {s s₁ : State} (h : Reachable d s) {user : Address}
    {amount : ℕ} (hw : s.withdraw d user amount = .ok s₁) {m : MarketId}
    (hm : (s.registry.positions user m).size ≠ 0) :
    amount ≤ s.largestWithdrawal user ∧
      ∃ s', s.withdraw d user (s.largestWithdrawal user) = .ok s' := by
  obtain ⟨hsafe, hout⟩ := State.withdraw_ok hw
  have htr := h.consistent.tracked
  obtain ⟨-, -, hequity⟩ := State.isWithdrawSafe_true htr hm hsafe
  have hle := State.le_largestWithdrawal hout.covered hout.counted hequity
  have hbal : s.largestWithdrawal user ≤ s.vault.balances user :=
    (min_le_left _ _).trans (min_le_left _ _)
  have htot : s.largestWithdrawal user ≤ s.vault.totalDeposits :=
    (min_le_left _ _).trans (min_le_right _ _)
  have hlargest := State.isWithdrawSafe_mono htr hsafe hle hbal
    (State.initialMargins_le_largest hout.covered hequity)
  have hheld : s.largestWithdrawal user ≤ s.usdc d.vault := htot.trans h.consistent.backed
  have htransfer : transferUsdc s.usdc d.vault user (s.largestWithdrawal user) = .ok _ :=
    transferUsdc_eq_ok.mpr ⟨hheld, rfl⟩
  refine ⟨hle, ?_⟩
  simp only [State.withdraw, chain_ok_iff, ensure_eq_ok, and_true, exists_const, subU_eq_ok,
    tx_pure_eq_ok]
  exact ⟨_, hbal, true, hlargest, rfl, _, ⟨hbal, rfl⟩, _, ⟨htot, rfl⟩, _, htransfer, rfl⟩

/-- Once a withdrawal is paid, this one and every larger one that is paid instead of it leave
every position of the user healthy, so that none can be liquidated, exactly when what the gate
holds back covers the maintenance margin of each market by itself. -/
theorem withdraw_leaves_healthy_iff {d : Deployment} {s s₁ : State} (h : Reachable d s)
    {user : Address} {amount : ℕ} (hw : s.withdraw d user amount = .ok s₁) :
    (∀ larger s', amount ≤ larger → s.withdraw d user larger = .ok s' →
      ∀ m, (s'.registry.positions user m).size ≠ 0 → ∃ mark hf, s'.oracle m = some mark ∧
        s'.healthFactor user m mark = .ok hf ∧ E18 ≤ hf ∧
        (s'.markets.isMarketActive m = true → ∀ sender,
          s'.liquidate d sender user m = .error (.healthy hf))) ↔
    ∀ m, (s.registry.positions user m).size ≠ 0 → s.GateCovers user amount m := by
  constructor
  · intro hall m hm
    obtain ⟨hle, s', hlargest⟩ := withdraw_largest h hw hm
    have hkept {larger : ℕ} {t : State} (ht : s.withdraw d user larger = .ok t) :
        (t.registry.positions user m).size ≠ 0 := by
      rw [(State.withdraw_ok ht).2.registry]
      exact hm
    have hfirst := (withdraw_healthy_iff h hw hm).mp (hall _ _ le_rfl hw m (hkept hw))
    have hlast := (withdraw_healthy_iff h hlargest hm).mp (hall _ _ hle hlargest m (hkept hlargest))
    rcases hlast with h0 | ⟨hcover, -⟩
    · exact Or.inl h0
    · exact hfirst.imp id fun hfits => ⟨hcover, hfits.2⟩
  · intro hgate larger s' hle hs m hm
    obtain ⟨hsafe, hout⟩ := State.withdraw_ok hs
    rw [hout.registry] at hm
    refine (withdraw_healthy_iff h hs hm).mpr ((hgate m hm).imp id ?_)
    rintro ⟨hcover, hfits⟩
    obtain ⟨-, -, hequity⟩ := State.isWithdrawSafe_true h.consistent.tracked hm hsafe
    have hmost := State.le_largestWithdrawal hout.covered hout.counted hequity
    -- less is left after the largest withdrawal, and more after the smallest
    have hmore := @State.remainingX18_anti s user _ _ hmost
    have hless := @State.remainingX18_anti s user _ _ hle
    have hE : E18 = 10^18 := rfl
    rw [hE] at hfits ⊢
    omega

/-- User 101 holds one contract of two markets, entered at 100 with 20 of collateral. -/
def twoMarkets (mark₁ mark₂ : ℕ) : List Call :=
  oneContract (20*10^6) (100*10^6)++
    [Call.listMarket 1 2 btcParams, Call.oracleAnswer 1 (some mark₁),
     Call.oracleAnswer 2 (some mark₂),
     Call.applyBatch [⟨101, 2, 10^18, 100*10^18, 0⟩, ⟨102, 2, -10^18, 100*10^18, 0⟩] 1 0 8 0]

/-- At the entry prices the gate covers both markets. -/
theorem withdraw_leaves_healthy_at_entry :
    ∃ s₁, (devnetAfter (twoMarkets (100*10^18) (100*10^18))).withdraw devnet 101 (10^6) = .ok s₁ ∧
      ∀ larger s', 10^6 ≤ larger →
        (devnetAfter (twoMarkets (100*10^18) (100*10^18))).withdraw devnet 101 larger = .ok s' →
        ∀ m, (s'.registry.positions 101 m).size ≠ 0 → ∃ mark hf, s'.oracle m = some mark ∧
          s'.healthFactor 101 m mark = .ok hf ∧ E18 ≤ hf ∧
          (s'.markets.isMarketActive m = true → ∀ sender,
            s'.liquidate devnet sender 101 m = .error (.healthy hf)) := by
  have hreach : Reachable devnet (devnetAfter (twoMarkets (100*10^18) (100*10^18))) :=
    reachable_devnetAfter (by decide +kernel)
  obtain ⟨s₁, hw⟩ : ∃ s₁, (devnetAfter (twoMarkets (100*10^18) (100*10^18))).withdraw devnet 101
    (10^6) = .ok s₁ := ⟨_, rfl⟩
  refine ⟨s₁, hw, (withdraw_leaves_healthy_iff hreach hw).mpr ?_⟩
  intro m hm
  rw [← hreach.consistent.tracked.mem_iff] at hm
  have hlist : (devnetAfter (twoMarkets (100*10^18) (100*10^18))).registry.userMarkets 101 =
    [1, 2] := by decide +kernel
  rw [hlist] at hm
  rcases List.mem_pair.mp hm with rfl | rfl <;> decide +kernel

/-- One market is 20 down, the other 30 up. The gate lets 10 of the 20 go, and the first
position has no equity left. -/
theorem withdraw_leaves_liquidatable :
    Reachable devnet (devnetAfter (twoMarkets (80*10^18) (130*10^18))) ∧
    btcParams.Valid ∧
    (devnetAfter (twoMarkets (80*10^18) (130*10^18))).isWithdrawSafe 101 (10*10^6) = .ok true ∧
    ∃ s', (devnetAfter (twoMarkets (80*10^18) (130*10^18))).withdraw devnet 101 (10*10^6) =
        .ok s' ∧ (s'.registry.positions 101 1).size = 10^18 ∧
      s'.oracle 1 = some (80*10^18) ∧ s'.healthFactor 101 1 (80*10^18) = .ok 0 :=
  ⟨reachable_devnetAfter (by decide +kernel), by decide, by decide +kernel, _, rfl,
    by decide +kernel, by decide +kernel, by decide +kernel⟩

end Perplex.Chain
