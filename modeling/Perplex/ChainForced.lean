import Perplex.Accounting
import Perplex.ChainLiquidation

/-! The two ways a position is closed without its holder, `liquidate` and `_adlOne`, with
everything they write: sizes, collateral and the USDC that leaves the vault. -/
namespace Perplex.Chain

namespace Registry
variable {r r' : Registry} {ms : Markets} {user : Address} {market : MarketId}
  {sizeDelta realised funding : ℤ} {priceX18 : ℕ}

theorem FillStep.position_of_ne
    (h : r.FillStep ms user market sizeDelta priceX18 realised funding r') {u : Address}
    {m : MarketId} (hne : ¬ (u = user ∧ m = market)) : r'.positions u m = r.positions u m := by
  obtain ⟨p, -, hpos⟩ := h.position
  rw [hpos, update₂_apply, if_neg hne]

/-- A fill moves one size. -/
theorem FillStep.size_eq
    (h : r.FillStep ms user market sizeDelta priceX18 realised funding r') (u : Address)
    (m : MarketId) : (r'.positions u m).size =
      (r.positions u m).size+(if u = user ∧ m = market then sizeDelta else 0) := by
  by_cases hum : u = user ∧ m = market
  · obtain ⟨p, hstep, hpos⟩ := h.position
    obtain ⟨rfl, rfl⟩ := hum
    rw [hpos, update₂_same, Position.dropEntry_size, hstep.size_eq, if_pos ⟨rfl, rfl⟩]
  · rw [h.position_of_ne hum, if_neg hum, add_zero]

end Registry

namespace Position
variable {p p' : Position} {sizeDelta realised : ℤ} {priceX18 : ℕ}

/-- The fill is against the position and not larger than it. -/
def Reduces (p : Position) (sizeDelta : ℤ) : Prop :=
  sizeDelta ≠ 0 ∧ (0 < p.size ∧ -p.size ≤ sizeDelta ∧ sizeDelta < 0 ∨
    p.size < 0 ∧ 0 < sizeDelta ∧ sizeDelta ≤ -p.size)

/-- A fill that reduces a position realises PnL on what it closes and keeps the entry. -/
theorem VwapStep.of_reduces (h : VwapStep p sizeDelta priceX18 realised p')
    (hr : p.Reduces sizeDelta) :
    realised = (-sizeDelta*((priceX18:ℤ)-p.entryPriceX18)).tdiv E18 ∧
      p'.entryPriceX18 = p.entryPriceX18 := by
  obtain ⟨hd, hr⟩ := hr
  cases h with
  | close h =>
    have hsize : p.size = -sizeDelta := by omega
    exact ⟨by rw [pnlAt, hsize], rfl⟩
  | openNew h _ => omega
  | add _ _ hs => omega
  | flip _ _ _ hn => omega
  | reduce _ _ _ _ => exact ⟨rfl, rfl⟩

end Position

/-- `amount` went from the vault to `dst`, and no other balance changed. -/
structure PaidOut (d : Deployment) (usdc : Address → ℕ) (dst : Address) (amount : ℕ)
    (usdc' : Address → ℕ) : Prop where
  sent : usdc' d.vault+amount = usdc d.vault
  received : usdc' dst = usdc dst+amount
  others : ∀ x, x ≠ d.vault → x ≠ dst → usdc' x = usdc x

section Tokens
variable {d : Deployment} {usdc usdc' : Address → ℕ} {dst : Address} {amount : ℕ}

theorem PaidOut.zero (d : Deployment) (usdc : Address → ℕ) (dst : Address) :
    PaidOut d usdc dst 0 usdc := ⟨rfl, rfl, fun _ _ _ => rfl⟩

theorem transferUsdc_paidOut (h : transferUsdc usdc d.vault dst amount = .ok usdc')
    (hne : dst ≠ d.vault) : PaidOut d usdc dst amount usdc' := by
  obtain ⟨hle, rfl⟩ := transferUsdc_eq_ok.mp h
  refine ⟨?_, by simp [Function.update_of_ne hne], ?_⟩
  · rw [Function.update_of_ne hne.symm, Function.update_self]
    omega
  · intro x hx hxd
    rw [Function.update_of_ne hxd, Function.update_of_ne hx]

theorem payOut_paidOut (h : payOut usdc d dst amount = .ok usdc') (hne : dst ≠ d.vault) :
    PaidOut d usdc dst amount usdc' := by
  unfold payOut at h
  split_ifs at h with h0
  · exact transferUsdc_paidOut h hne
  · cases h
    have hz : amount = 0 := by omega
    rw [hz]
    exact PaidOut.zero d usdc dst

end Tokens

namespace State
variable {s s' : State} {d : Deployment} {sender user : Address} {market : MarketId}

theorem closeAndSettle_frame {mark : ℕ} {closeSize realised settled : ℤ}
    (h : s.closeAndSettle d user market mark closeSize = .ok (realised,settled,s')) :
    s' = { s with registry := s'.registry, vault := s'.vault } ∧
      ∃ funding, s.registry.applyFill d s.markets d.liquidationEngine user market closeSize mark =
        .ok (realised,funding,s'.registry) := by
  simp only [closeAndSettle, chain_ok_iff, Prod.exists, tx_pure_eq_ok, Prod.mk.injEq] at h
  obtain ⟨_, funding, _, hfill, _, -, _, -, rfl, -, rfl⟩ := h
  exact ⟨rfl, funding, hfill⟩

/-- A seizure writes the vault and pays the bonus and the residual. -/
theorem seizeForLiquidation_frame {liquidator fund : Address} {bonusAmount bonus residual
    shortfall : ℕ} (h : s.seizeForLiquidation d sender user liquidator fund bonusAmount =
      .ok (bonus,residual,shortfall,s')) :
    s' = { s with usdc := s'.usdc, vault := s'.vault } ∧
      (∃ usdc, payOut s.usdc d liquidator bonus = .ok usdc ∧
        payOut usdc d fund residual = .ok s'.usdc) ∧
      shortfall = bonusAmount-s.vault.balances user := by
  simp only [seizeForLiquidation, chain_ok_iff, ensure_eq_ok, and_true, exists_const, subU_eq_ok,
    tx_pure_eq_ok, Prod.mk.injEq] at h
  obtain ⟨-, -, _, ⟨-, rfl⟩, u₁, h₁, u₂, h₂, rfl, rfl, rfl, rfl⟩ := h
  refine ⟨rfl, ⟨u₁, h₁, h₂⟩, ?_⟩
  split_ifs
  all_goals simp only
  all_goals omega

theorem debitToExternal_frame {recipient : Address} {amount paid : ℕ}
    (h : s.debitToExternal d sender user recipient amount = .ok (paid,s')) :
    s' = { s with usdc := s'.usdc, vault := s'.vault } ∧
      (recipient ≠ d.vault → PaidOut d s.usdc recipient paid s'.usdc) := by
  simp only [debitToExternal, chain_ok_iff, ensure_eq_ok, and_true, exists_const] at h
  obtain ⟨-, -, h⟩ := h
  generalize (if s.vault.balances user < amount then s.vault.balances user else amount) = out at h
  split_ifs at h with h0
  · cases h
    exact ⟨rfl, fun _ => PaidOut.zero d s.usdc recipient⟩
  · simp only [chain_ok_iff, tx_pure_eq_ok, Prod.mk.injEq] at h
    obtain ⟨_, -, usdc, husdc, rfl, rfl⟩ := h
    exact ⟨rfl, transferUsdc_paidOut husdc⟩

/-- A liquidation closes the whole position at the mark, settles it, and hands the balance that
is left to the liquidator and the fund. -/
structure Liquidated (d : Deployment) (s : State) (liquidator user : Address) (market : MarketId)
    (receipt : LiquidationReceipt) (s₁ s' : State) : Prop where
  marked : s.priceX18 market = .ok receipt.markX18
  closed : receipt.closedSize = -(s.registry.positions user market).size
  settled : ∃ realised funding, Settled s ⟨user, market, receipt.closedSize, receipt.markX18, 0⟩
    realised funding s₁ ∧ receipt.settledDelta = (realised+funding).tdiv USDC_TO_X18
  outflow : Outflow d s₁ user (s₁.vault.balances user) s'
  priced : ∃ bonus, s.computeBonusUSDC market receipt.markX18
      (s.registry.positions user market).size = .ok bonus ∧
    receipt.bonusPaid = min bonus (s₁.vault.balances user) ∧
    receipt.shortfall = bonus-s₁.vault.balances user
  split : receipt.bonusPaid+receipt.residualPaid = s₁.vault.balances user
  payouts : ∃ usdc, payOut s.usdc d liquidator receipt.bonusPaid = .ok usdc ∧
    payOut usdc d d.fund receipt.residualPaid = .ok s'.usdc
  frame : s' = { s with registry := s'.registry, vault := s'.vault, usdc := s'.usdc }

theorem liquidate_liquidated {liquidator : Address} {receipt : LiquidationReceipt}
    (h : s.liquidate d liquidator user market = .ok (receipt,s')) :
    ∃ s₁, Liquidated d s liquidator user market receipt s₁ s' := by
  simp only [liquidate, chain_ok_iff, ensure_eq_ok, and_true, exists_const, negI_eq_ok, Prod.exists,
    tx_pure_eq_ok, Prod.mk.injEq] at h
  obtain ⟨-, mark, hmark, hf, -, -, -, bonus, hbonus, _, ⟨-, rfl⟩, realised, settle, s₁, h₁,
    paidBonus, paidResidual, shortfall, s₂, h₂, rfl, rfl⟩ := h
  obtain ⟨funding, hs, hsettle⟩ := closeAndSettle_ok h₁
  obtain ⟨hout, hpaid, hsplit, -⟩ := seizeForLiquidation_ok h₂
  obtain ⟨hframe₂, hpay, hshort⟩ := seizeForLiquidation_frame h₂
  obtain ⟨hframe₁, -⟩ := closeAndSettle_frame h₁
  refine ⟨s₁, hmark, rfl, ⟨realised, funding, hs, hsettle⟩, hout, ⟨bonus, hbonus, hpaid, hshort⟩,
    hsplit, ?_, ?_⟩
  · rw [← hs.usdc]
    exact hpay
  · rw [hframe₂, hframe₁]

/-- A deleveraging closes part of a position at the mark, settles it, and pays what the close
has gained to the fund, as far as the balance goes. -/
structure Deleveraged (d : Deployment) (s : State) (market : MarketId) (mark : ℕ)
    (victim : Address) (closeSize realised funding : ℤ) (paid : ℕ) (s₁ s' : State) : Prop where
  reduces : (s.registry.positions victim market).Reduces closeSize
  fill : s.registry.applyFill d s.markets d.liquidationEngine victim market closeSize mark =
    .ok (realised,funding,s'.registry)
  settled : Settled s ⟨victim, market, closeSize, mark, 0⟩ realised funding s₁
  gain : 0 ≤ realised
  paid_eq : paid = min (realised.tdiv USDC_TO_X18).toNat (s₁.vault.balances victim)
  outflow : Outflow d s₁ victim paid s'
  payout : d.fund ≠ d.vault → PaidOut d s.usdc d.fund paid s'.usdc
  frame : s' = { s with registry := s'.registry, vault := s'.vault, usdc := s'.usdc }

/-- The last step of a deleveraging: a gain below one unit of USDC is not collected. -/
theorem collect_ok {victim : Address} {take paid : ℕ}
    (h : (if take = 0 then pure (0,s)
      else s.debitToExternal d d.liquidationEngine victim d.fund take) = .ok (paid,s')) :
    paid = min take (s.vault.balances victim) ∧ Outflow d s victim paid s' ∧
      (d.fund ≠ d.vault → PaidOut d s.usdc d.fund paid s'.usdc) ∧
      s' = { s with usdc := s'.usdc, vault := s'.vault } := by
  split_ifs at h with h0
  · cases h
    refine ⟨by simp [h0], ⟨Nat.zero_le _, Nat.zero_le _, by simp, by omega, rfl, rfl, rfl⟩, ?_, rfl⟩
    exact fun _ => PaidOut.zero d s.usdc d.fund
  · obtain ⟨hpaid, hout⟩ := debitToExternal_ok h
    obtain ⟨hframe, hpay⟩ := debitToExternal_frame h
    exact ⟨hpaid, hout, hpay, hframe⟩

theorem adlOneEmitting_deleveraged {mark paid : ℕ} {victim : Address} {closeSize : ℤ}
    (h : s.adlOneEmitting d market mark victim closeSize = .ok (paid,s')) :
    ∃ realised funding s₁,
      Deleveraged d s market mark victim closeSize realised funding paid s₁ s' := by
  simp only [adlOneEmitting, chain_ok_iff, ensure_eq_ok, and_true, exists_const, Prod.exists] at h
  obtain ⟨hheld, hside, hsize, hprofit, realised, _, s₁, h₁, h⟩ := h
  obtain ⟨funding, hs, -⟩ := closeAndSettle_ok h₁
  obtain ⟨hframe₁, funding', hfill⟩ := closeAndSettle_frame h₁
  have hfunding : funding' = funding := by
    rw [(Registry.applyFill_ok hfill).funding_eq, hs.fill.funding_eq]
  subst hfunding
  have hreduces : (s.registry.positions victim market).Reduces closeSize := by
    unfold Position.Reduces
    omega
  -- only positions in profit are closed, so what is realised is not a loss
  have hgain : 0 ≤ realised := by
    obtain ⟨p, hstep, -⟩ := hs.fill.position
    have hreal : realised = (-closeSize*((mark:ℤ)-
        (s.registry.positions victim market).entryPriceX18)).tdiv E18 :=
      (hstep.of_reduces hreduces).1
    rw [hreal]
    apply Int.tdiv_nonneg _ (Int.natCast_nonneg _)
    rcases hprofit with ⟨hlong, hmark⟩ | ⟨hshort, hmark⟩
    · exact Int.mul_nonneg (by omega) (by omega)
    · exact Int.mul_nonneg_of_nonpos_of_nonpos (by omega) (by omega)
  have htake : (if 0 < realised then (realised.tdiv USDC_TO_X18).toNat else 0) =
      (realised.tdiv USDC_TO_X18).toNat := by
    split_ifs with hr
    · rfl
    · rw [le_antisymm (not_lt.mp hr) hgain]
      rfl
  rw [htake] at h
  obtain ⟨hpaid, hout, hpay, hframe⟩ := collect_ok h
  refine ⟨realised, funding', s₁, hreduces, ?_, hs, hgain, hpaid, hout, ?_, ?_⟩
  · rw [hout.registry]
    exact hfill
  · rw [← hs.usdc]
    exact hpay
  · rw [hframe, hframe₁]

end State

/-- Fills of the listed positions, one after the other. -/
inductive Registry.Touches : Registry → List (Address × MarketId) → Registry → Prop
  | nil (r : Registry) : Touches r [] r
  | cons {r r₁ r' : Registry} {ms : Markets} {user : Address} {market : MarketId}
    {sizeDelta realised funding : ℤ} {priceX18 : ℕ} {l : List (Address × MarketId)}
    (first : r.FillStep ms user market sizeDelta priceX18 realised funding r₁)
    (rest : Touches r₁ l r') : Touches r ((user,market) :: l) r'

/-- Other positions stay as they are, and no funding index moves. -/
theorem Registry.Touches.frame {r r' : Registry} {l : List (Address × MarketId)}
    (h : r.Touches l r') : r'.marketIndexFunding = r.marketIndexFunding ∧
      ∀ u m, (u,m) ∉ l → r'.positions u m = r.positions u m := by
  induction h with
  | nil r => exact ⟨rfl, fun _ _ _ => rfl⟩
  | cons first _ ih =>
    obtain ⟨hindex, hpos⟩ := ih
    refine ⟨hindex.trans first.index_eq, ?_⟩
    intro u m hum
    rw [List.mem_cons, not_or, Prod.mk.injEq] at hum
    rw [hpos u m hum.2, first.position_of_ne hum.1]

theorem Settles.touches {s s' : State} {fills : List Fill} (h : Settles s fills s') :
    s.registry.Touches (fills.map fun f => (f.user,f.marketId)) s'.registry := by
  induction h with
  | nil s => exact .nil s.registry
  | cons first _ ih => exact .cons first.fill ih

/-- The positions a call fills or closes, when it goes through. -/
def Call.touched : Call → List (Address × MarketId)
  | .applyBatch fills _ _ _ _ => fills.map fun f => (f.user,f.marketId)
  | .liquidate _ user market => [(user,market)]
  | .adl _ market victims _ => victims.map fun victim => (victim,market)
  | _ => []

section Touched
variable {d : Deployment} {s s' : State}

theorem liquidate_touches {liquidator user : Address} {market : MarketId}
    {receipt : LiquidationReceipt} (h : s.liquidate d liquidator user market = .ok (receipt,s')) :
    s.registry.Touches [(user,market)] s'.registry := by
  obtain ⟨s₁, hl⟩ := State.liquidate_liquidated h
  obtain ⟨_, _, hs, -⟩ := hl.settled
  rw [hl.outflow.registry]
  exact .cons hs.fill (.nil _)

theorem adlLoop_touches {market : MarketId} {mark : ℕ} {victims : List (Address × ℤ)}
    (h : State.adlLoop d market mark s victims = .ok s') :
    s.registry.Touches (victims.map fun v => (v.1,market)) s'.registry := by
  induction victims generalizing s with
  | nil =>
    cases h
    exact .nil _
  | cons v victims ih =>
    simp only [State.adlLoop, chain_ok_iff] at h
    obtain ⟨s₁, h₁, h⟩ := h
    obtain ⟨_, _, s₀, _, hset, hout⟩ := State.adlOne_ok h₁
    have hrest := ih h
    rw [hout.registry] at hrest
    exact .cons hset.fill hrest

/-- A call that does not write a funding index fills the positions it touches, and no more. -/
theorem exec_touches {c : Call} (hc : c.Possible d)
    (hidx : ∀ sender market idx, c ≠ .updateFunding sender market idx)
    (htick : ∀ sender market premium now, c ≠ .applyFunding sender market premium now)
    (he : exec d s c = .ok s') : s.registry.Touches c.touched s'.registry := by
  have hkept (h : s'.registry = s.registry) (ht : c.touched = []) :
      s.registry.Touches c.touched s'.registry := by
    rw [h, ht]
    exact .nil _
  cases c with
  | updateFunding sender market idx => exact absurd rfl (hidx sender market idx)
  | applyFunding sender market premium now => exact absurd rfl (htick sender market premium now)
  | applyBatch fills nonce deadline signer now =>
    exact (State.settleFills_settles (State.applyBatch_settleFills he)).touches
  | liquidate sender user market =>
    simp only [exec, chain_ok_iff, Prod.exists, tx_pure_eq_ok] at he
    obtain ⟨receipt, _, he, rfl⟩ := he
    exact liquidate_touches he
  | adl sender market victims closeSizes =>
    simp only [exec, State.adl, chain_ok_iff, ensure_eq_ok, and_true, exists_const] at he
    obtain ⟨-, hlen, -, mark, -, he⟩ := he
    have hzip : (victims.zip closeSizes).map (fun v => (v.1,market)) =
        victims.map fun victim => (victim,market) := by
      have hfst := List.map_fst_zip hlen.le
      nth_rewrite 2 [← hfst]
      rw [List.map_map]
      rfl
    have htouches := adlLoop_touches he
    rw [hzip] at htouches
    exact htouches
  | deposit sender amount => exact hkept (State.deposit_ok hc he).2.2.2.1 rfl
  | withdraw sender amount => exact hkept (State.withdraw_ok he).2.registry rfl
  | _ => exact hkept (exec_admin rfl hc he).1 rfl

end Touched

theorem USDC_TO_X18_pos : 0 < USDC_TO_X18 := by norm_num [USDC_TO_X18]

section Accounts
variable {d : Deployment} {s s' : State} {liquidator user : Address} {market : MarketId}

/-- The balance after a fill has been settled. -/
theorem Settled.balance {f : Fill} {realised funding : ℤ}
    (h : Settled s f realised funding s') : (s'.vault.balances f.user:ℤ) =
      s.vault.balances f.user+(realised+funding+f.fee).tdiv USDC_TO_X18 := by
  rw [h.vault, Vault.adjust]
  simp only [Function.update_self]
  exact Int.toNat_of_nonneg h.covered

theorem Settled.balance_of_ne {f : Fill} {realised funding : ℤ}
    (h : Settled s f realised funding s') {u : Address} (hu : u ≠ f.user) :
    s'.vault.balances u = s.vault.balances u := by
  rw [h.vault, Vault.adjust]
  exact Function.update_of_ne hu _ _

theorem Outflow.balance {amount : ℕ} (h : Outflow d s user amount s') :
    s'.vault.balances user = s.vault.balances user-amount := by
  rw [h.vault]
  exact Function.update_self ..

theorem Outflow.balance_of_ne {amount : ℕ} (h : Outflow d s user amount s') {u : Address}
    (hu : u ≠ user) : s'.vault.balances u = s.vault.balances u := by
  rw [h.vault]
  exact Function.update_of_ne hu _ _

/-- Every successful liquidation accounts for the whole balance of the user: what the close
left of it goes to the liquidator up to the bonus and to the insurance fund above it, and
nothing else changes hands. -/
theorem liquidate_accounts {receipt : LiquidationReceipt} (hfund : d.fund ≠ d.vault)
    (hvault : liquidator ≠ d.vault) (hself : liquidator ≠ d.fund)
    (h : s.liquidate d liquidator user market = .ok (receipt,s')) :
    (s.vault.balances user:ℤ)+receipt.settledDelta = receipt.bonusPaid+receipt.residualPaid ∧
    (∃ bonus, s.computeBonusUSDC market receipt.markX18
        (s.registry.positions user market).size = .ok bonus ∧
      receipt.bonusPaid ≤ bonus ∧ receipt.bonusPaid+receipt.shortfall = bonus) ∧
    (0 < receipt.residualPaid → receipt.shortfall = 0) ∧
    s'.vault.balances user = 0 ∧ (s'.registry.positions user market).size = 0 ∧
    s'.usdc liquidator = s.usdc liquidator+receipt.bonusPaid ∧
    s'.usdc d.fund = s.usdc d.fund+receipt.residualPaid ∧
    (∀ u, u ≠ user → s'.vault.balances u = s.vault.balances u ∧
      s'.registry.positions u = s.registry.positions u) ∧
    ∀ m, m ≠ market → s'.registry.positions user m = s.registry.positions user m := by
  obtain ⟨s₁, hl⟩ := State.liquidate_liquidated h
  obtain ⟨realised, funding, hs, hsettle⟩ := hl.settled
  obtain ⟨bonus, hbonus, hpaid, hshort⟩ := hl.priced
  obtain ⟨usdc, hfirst, hsecond⟩ := hl.payouts
  have hpay₁ := payOut_paidOut hfirst hvault
  have hpay₂ := payOut_paidOut hsecond hfund
  have hsplit := hl.split
  have hbal := hs.balance
  simp only [add_zero] at hbal
  have hreg := hl.outflow.registry
  refine ⟨?_, ⟨bonus, hbonus, by omega, by omega⟩, by omega, ?_, ?_, ?_, ?_, ?_, ?_⟩
  · rw [hsettle]
    omega
  · rw [hl.outflow.balance, Nat.sub_self]
  · rw [hreg, hs.fill.size_eq, if_pos ⟨rfl, rfl⟩, hl.closed, Int.add_right_neg]
  · rw [hpay₂.others _ hvault hself, hpay₁.received]
  · rw [hpay₂.received, hpay₁.others _ hfund hself.symm]
  · intro u hu
    rw [hl.outflow.balance_of_ne hu, hs.balance_of_ne hu, hreg]
    refine ⟨rfl, funext fun m => ?_⟩
    exact hs.fill.position_of_ne fun hum => hu hum.1
  · intro m hm
    rw [hreg]
    exact hs.fill.position_of_ne fun hum => hm hum.2

/-- The liquidation at 92 has 2 left to hand out, of which the bonus takes 0.92. -/
theorem liquidate_accounts_markedDown :
    ∃ s', (devnetAfter (markedDown (92*10^18))).liquidate devnet 999 101 1 =
        .ok (⟨92*10^18, -10^18, -8000000, 920000, 1080000, 0⟩,s') ∧
      s'.vault.balances 101 = 0 ∧
      s'.usdc 999 = (devnetAfter (markedDown (92*10^18))).usdc 999+920000 := by
  obtain ⟨⟨receipt, s'⟩, h⟩ :
      Succeeds ((devnetAfter (markedDown (92*10^18))).liquidate devnet 999 101 1) := by
    decide +kernel
  have hreceipt : ((devnetAfter (markedDown (92*10^18))).liquidate devnet 999 101 1).map
      Prod.fst = .ok ⟨92*10^18, -10^18, -8000000, 920000, 1080000, 0⟩ := by decide +kernel
  rw [h] at hreceipt
  cases hreceipt
  have hacc := liquidate_accounts (by decide) (by decide) (by decide) h
  exact ⟨s', h, hacc.2.2.2.1, hacc.2.2.2.2.2.1⟩

/-- Every successful step of a deleveraging takes the realised gain and nothing else: the size
shrinks by what is closed, the entry stays, the fund receives what the event reports, and the
victim keeps the funding up to two roundings. -/
theorem adlOne_takes_realised_gain {mark : ℕ} {victim : Address} {closeSize : ℤ}
    (hfund : d.fund ≠ d.vault) (h : s.adlOne d market mark victim closeSize = .ok s') :
    ∃ (paid : ℕ) (realised funding : ℤ),
      s.adlOneEmitting d market mark victim closeSize = .ok (paid,s') ∧
      s.registry.applyFill d s.markets d.liquidationEngine victim market closeSize mark =
        .ok (realised,funding,s'.registry) ∧
      let p := s.registry.positions victim market
      let p' := s'.registry.positions victim market
      let change := (s'.vault.balances victim:ℤ)-s.vault.balances victim
      (p'.size.natAbs+closeSize.natAbs = p.size.natAbs ∧ (0 < p.size → 0 ≤ p'.size) ∧
        (p.size < 0 → p'.size ≤ 0)) ∧
      (p'.size ≠ 0 → p'.entryPriceX18 = p.entryPriceX18) ∧
      s'.usdc d.fund = s.usdc d.fund+paid ∧ (paid:ℤ)*USDC_TO_X18 ≤ realised ∧
      funding-USDC_TO_X18 < change*USDC_TO_X18 ∧
      (s'.vault.balances victim ≠ 0 → change*USDC_TO_X18 < funding+2*USDC_TO_X18) := by
  simp only [State.adlOne, chain_ok_iff, Prod.exists, tx_pure_eq_ok] at h
  obtain ⟨paid, _, hemit, rfl⟩ := h
  obtain ⟨realised, funding, s₁, hd⟩ := State.adlOneEmitting_deleveraged hemit
  have hstep := Registry.applyFill_ok hd.fill
  have hsize := hstep.size_eq victim market
  rw [if_pos ⟨rfl, rfl⟩] at hsize
  -- what the settlement credits and what the fund may collect, against the exact amounts
  obtain ⟨hlow, hhigh, -⟩ := tdiv_mul_bounds (realised+funding) USDC_TO_X18_pos
  obtain ⟨htake, -, hgain⟩ := tdiv_mul_bounds realised USDC_TO_X18_pos
  have htakeLe := hgain hd.gain
  have hnonneg : 0 ≤ realised.tdiv USDC_TO_X18 := Int.tdiv_nonneg hd.gain (Int.natCast_nonneg _)
  have hbal := hd.settled.balance
  have hout := hd.outflow.balance
  have hpaid := hd.paid_eq
  have hunit : (USDC_TO_X18:ℤ) = 1000000000000 := by norm_num [USDC_TO_X18]
  simp only [add_zero, hunit] at *
  obtain ⟨hne, hreduces⟩ := hd.reduces
  refine ⟨paid, realised, funding, hemit, hd.fill, ⟨by omega, by omega, by omega⟩, ?_,
    (hd.payout hfund).received, by omega, by omega, by omega⟩
  intro hopen
  obtain ⟨p, hvwap, hpos⟩ := hstep.position
  rw [hpos, update₂_same, Position.dropEntry_size] at hopen
  rw [hpos, update₂_same, Position.dropEntry, if_neg hopen]
  exact (hvwap.of_reduces hd.reduces).2

end Accounts

/-- Half of a long with a profit of 10 is deleveraged at 110: 5 go to the fund. -/
theorem adlOne_takes_realised_gain_half :
    ∃ s', (devnetAfter (markedDown (110*10^18))).adlOne devnet 1 (110*10^18) 101 (-5*10^17) =
        .ok s' ∧ s'.usdc 3 = (devnetAfter (markedDown (110*10^18))).usdc 3+5000000 := by
  obtain ⟨s', h⟩ : Succeeds ((devnetAfter (markedDown (110*10^18))).adlOne devnet 1
      (110*10^18) 101 (-5*10^17)) := by decide +kernel
  obtain ⟨paid, _, _, hemit, -, -, -, hfund, -⟩ := adlOne_takes_realised_gain (by decide) h
  have hpaid : ((devnetAfter (markedDown (110*10^18))).adlOneEmitting devnet 1 (110*10^18) 101
      (-5*10^17)).map Prod.fst = .ok 5000000 := by decide +kernel
  rw [hemit] at hpaid
  cases hpaid
  exact ⟨s', h, hfund⟩

end Perplex.Chain
