import Perplex.ChainTracking

/-! What holds in every reachable state: the lists of held markets are exact, the zero
address holds nothing, listed parameters are valid, and the USDC held by the vault covers
`totalDeposits`. -/
namespace Perplex.Chain

namespace Vault

/-- The balance of one user moved by a signed amount. -/
def adjust (v : Vault) (user : Address) (delta : ℤ) : Vault :=
  { v with balances := Function.update v.balances user ((v.balances user:ℤ)+delta).toNat }

variable {v v' : Vault} {d : Deployment} {sender user : Address} {delta : ℤ}

theorem adjust_zero (v : Vault) (user : Address) : v.adjust user 0 = v := by
  simp [adjust]

/-- A settlement succeeds when the balance stays in range, and moves only this balance. -/
theorem applySettlement_eq_ok
    (hcall : sender = d.settlementEngine ∨ sender = d.liquidationEngine) :
    v.applySettlement d sender user delta = .ok v' ↔
      (0 ≤ (v.balances user:ℤ)+delta ∧ (0 < delta → (v.balances user:ℤ)+delta < 2^256)) ∧
        v.adjust user delta = v' := by
  simp only [applySettlement, chain_ok_iff, ensure_eq_ok, and_true, exists_const, hcall, true_and]
  rcases lt_trichotomy delta 0 with h | rfl | h
  · have h1 : ¬ delta = 0 := by omega
    have h2 : ¬ 0 < delta := by omega
    -- a debit needs cover, a credit needs room
    have hcov : 0 ≤ (v.balances user:ℤ)+delta ↔ delta.natAbs ≤ v.balances user := by omega
    simp only [h1, h2, if_false, chain_ok_iff, ensure_eq_ok, and_true, exists_const, subU_eq_ok,
      tx_pure_eq_ok, hcov, false_implies]
    constructor
    · rintro ⟨hle, _, ⟨-, rfl⟩, rfl⟩
      have heq : ((v.balances user:ℤ)+delta).toNat = v.balances user-delta.natAbs := by omega
      exact ⟨hle, by rw [adjust, heq]⟩
    · rintro ⟨hle, rfl⟩
      have heq : ((v.balances user:ℤ)+delta).toNat = v.balances user-delta.natAbs := by omega
      exact ⟨hle, _, ⟨hle, rfl⟩, by rw [adjust, heq]⟩
  · simp [adjust_zero]
  · have h1 : ¬ delta = 0 := by omega
    have heq : ((v.balances user:ℤ)+delta).toNat = v.balances user+delta.toNat := by omega
    have hlt : (v.balances user:ℤ)+delta < 2^256 ↔ v.balances user+delta.toNat < 2^256 := by
      omega
    simp only [h1, h, if_false, if_true, chain_ok_iff, toUint256_eq_ok, addU_eq_ok, tx_pure_eq_ok,
      forall_const, hlt]
    constructor
    · rintro ⟨_, ⟨-, rfl⟩, _, ⟨hb, rfl⟩, rfl⟩
      exact ⟨⟨by omega, hb⟩, by rw [adjust, heq]⟩
    · rintro ⟨⟨-, hb⟩, rfl⟩
      exact ⟨_, ⟨h.le, rfl⟩, _, ⟨hb, rfl⟩, by rw [adjust, heq]⟩

/-- A zero delta is not sent to the vault, which makes no difference. -/
theorem settle_unless_zero
    (hcall : sender = d.settlementEngine ∨ sender = d.liquidationEngine) :
    (if delta ≠ 0 then v.applySettlement d sender user delta else pure v) = .ok v' ↔
      (0 ≤ (v.balances user:ℤ)+delta ∧ (0 < delta → (v.balances user:ℤ)+delta < 2^256)) ∧
        v.adjust user delta = v' := by
  split_ifs with h
  · exact applySettlement_eq_ok hcall
  · obtain rfl := not_not.mp h
    simp [adjust_zero]

end Vault

/-- The conversion to raw USDC is division truncated toward zero. -/
theorem toRawUsdcDelta_ok {deltaX18 raw : ℤ} (h : toRawUsdcDelta deltaX18 = .ok raw) :
    raw = deltaX18.tdiv USDC_TO_X18 := by
  unfold toRawUsdcDelta at h
  rcases lt_trichotomy deltaX18 0 with hs | rfl | hs
  · -- the contract divides the absolute value and puts the sign back
    obtain ⟨n, rfl⟩ := Int.exists_eq_neg_ofNat hs.le
    have h0 : ¬ (-(n:ℤ)) = 0 := by omega
    have h1 : ¬ 0 < (-(n:ℤ)) := by omega
    simp only [h0, h1, if_false, Int.natAbs_neg, Int.natAbs_natCast] at h
    rw [Int.neg_tdiv, ← Int.ofNat_tdiv]
    split_ifs at h with hz
    · simp only [tx_pure_eq_ok] at h
      rw [hz]
      exact h.symm
    · simp only [chain_ok_iff, toInt256_eq_ok, negI_eq_ok] at h
      obtain ⟨_, ⟨-, rfl⟩, -, rfl⟩ := h
      rfl
  · simp only [if_true, tx_pure_eq_ok] at h
    simpa using h.symm
  · obtain ⟨n, rfl⟩ := Int.eq_ofNat_of_zero_le hs.le
    have h0 : ¬ (n:ℤ) = 0 := by omega
    simp only [h0, hs, if_false, if_true, Int.natAbs_natCast] at h
    rw [← Int.ofNat_tdiv]
    split_ifs at h with hz
    · simp only [tx_pure_eq_ok] at h
      rw [hz]
      exact h.symm
    · simp only [chain_ok_iff, toInt256_eq_ok, tx_pure_eq_ok] at h
      obtain ⟨_, ⟨-, rfl⟩, rfl⟩ := h
      rfl

/-- One fill applied to a position and settled in the vault, by either engine. -/
structure Settled (s : State) (f : Fill) (realised funding : ℤ) (s' : State) : Prop where
  fill : s.registry.FillStep s.markets f.user f.marketId f.sizeDelta f.priceX18 realised
    funding s'.registry
  tracked : s.registry.Tracked → s'.registry.Tracked
  covered : 0 ≤ (s.vault.balances f.user:ℤ)+(realised+funding+f.fee).tdiv USDC_TO_X18
  vault : s'.vault = s.vault.adjust f.user ((realised+funding+f.fee).tdiv USDC_TO_X18)
  markets : s'.markets = s.markets
  oracle : s'.oracle = s.oracle
  usdc : s'.usdc = s.usdc

namespace State
variable {s s' : State} {d : Deployment}

theorem settleFill_ok {f : Fill} (h : s.settleFill d f = .ok s') :
    ∃ realised funding, Settled s f realised funding s' ∧
      s.registry.applyFill d s.markets d.settlementEngine f.user f.marketId f.sizeDelta
        f.priceX18 = .ok (realised,funding,s'.registry) := by
  simp only [settleFill, chain_ok_iff, Prod.exists, addI_eq_ok,
    Vault.settle_unless_zero (d := d) (Or.inl rfl)] at h
  obtain ⟨realised, funding, r', hfill, _, ⟨-, rfl⟩, _, ⟨-, rfl⟩, raw, hraw, v,
    ⟨⟨hcov, -⟩, rfl⟩, c, -, h⟩ := h
  cases h
  have hrawEq : raw = (realised+funding+f.fee).tdiv USDC_TO_X18 := by
    split_ifs at hraw with h0
    · exact toRawUsdcDelta_ok hraw
    · simp only [tx_pure_eq_ok] at hraw
      rw [not_not.mp h0]
      simpa using hraw.symm
  subst hrawEq
  exact ⟨realised, funding, ⟨Registry.applyFill_ok hfill,
    fun ht => Registry.applyFill_tracked ht hfill, hcov, rfl, rfl, rfl, rfl⟩, hfill⟩

theorem closeAndSettle_ok {user : Address} {market : MarketId} {mark : ℕ} {closeSize realised
    settleUSDC : ℤ} (h : s.closeAndSettle d user market mark closeSize =
      .ok (realised,settleUSDC,s')) :
    ∃ funding, Settled s ⟨user, market, closeSize, mark, 0⟩ realised funding s' ∧
      settleUSDC = (realised+funding).tdiv USDC_TO_X18 := by
  simp only [closeAndSettle, chain_ok_iff, Prod.exists, addI_eq_ok,
    Vault.settle_unless_zero (d := d) (Or.inr rfl), tx_pure_eq_ok, Prod.mk.injEq] at h
  obtain ⟨real, funding, r', hfill, _, ⟨-, rfl⟩, v, ⟨⟨hcov, -⟩, rfl⟩, rfl, rfl, rfl⟩ := h
  refine ⟨funding, ⟨Registry.applyFill_ok hfill, fun ht => Registry.applyFill_tracked ht hfill,
    ?_, ?_, rfl, rfl, rfl⟩, rfl⟩
  · simpa using hcov
  · simp

end State

/-- Fills settled one after the other. -/
inductive Settles : State → List Fill → State → Prop
  | nil (s : State) : Settles s [] s
  | cons {s s₁ s' : State} {f : Fill} {fills : List Fill} {realised funding : ℤ}
    (first : Settled s f realised funding s₁) (rest : Settles s₁ fills s') :
    Settles s (f :: fills) s'

theorem State.settleFills_settles {d : Deployment} {s s' : State} {fills : List Fill}
    (h : settleFills d s fills = .ok s') : Settles s fills s' := by
  induction fills generalizing s with
  | nil =>
    cases h
    exact .nil _
  | cons f fills ih =>
    simp only [settleFills, chain_ok_iff] at h
    obtain ⟨s₁, h₁, h⟩ := h
    obtain ⟨realised, funding, hf, -⟩ := settleFill_ok h₁
    exact .cons hf (ih h)

namespace State

/-- The state in which the loop of `applyBatch` starts. -/
def useNonce (s : State) (nonce : ℕ) : State :=
  { s with settlement := { s.settlement with
    usedNonces := Function.update s.settlement.usedNonces nonce true } }

theorem applyBatch_settleFills {d : Deployment} {s s' : State} {fills : List Fill}
    {nonce deadline now : ℕ} {signer : Address}
    (h : s.applyBatch d fills nonce deadline signer now = .ok s') :
    settleFills d (s.useNonce nonce) fills = .ok s' := by
  simp only [applyBatch, chain_ok_iff, ensure_eq_ok, and_true, exists_const] at h
  exact h.2.2.2.2

end State

/-- What every settled fill keeps is kept by a batch. -/
theorem Settles.invariant {s s' : State} {fills : List Fill} (h : Settles s fills s')
    {P : State → Prop}
    (hP : ∀ s f realised funding s', P s → Settled s f realised funding s' → P s')
    (hs : P s) : P s' := by
  induction h with
  | nil s => exact hs
  | cons first _ ih => exact ih (hP _ _ _ _ _ hs first)

section Tokens
variable {usdc usdc' : Address → ℕ} {src dst : Address} {amount : ℕ}

theorem transferUsdc_eq_ok :
    transferUsdc usdc src dst amount = .ok usdc' ↔ amount ≤ usdc src ∧
      (let sent := Function.update usdc src (usdc src-amount)
       Function.update sent dst (sent dst+amount)) = usdc' := by
  simp only [transferUsdc, chain_ok_iff, ensure_eq_ok, and_true, exists_const, tx_pure_eq_ok]

/-- The sender gives up at most the amount, everyone else loses nothing. -/
theorem transferUsdc_le (h : transferUsdc usdc src dst amount = .ok usdc') (x : Address) :
    usdc x ≤ usdc' x+(if x = src then amount else 0) := by
  obtain ⟨hle, rfl⟩ := transferUsdc_eq_ok.mp h
  by_cases hd : x = dst
  · subst hd
    by_cases hs : x = src
    · subst hs
      simp
      omega
    · simp [hs]
  · by_cases hs : x = src
    · subst hs
      simp [hd]
      omega
    · simp [hs, hd]

theorem transferUsdc_received (h : transferUsdc usdc src dst amount = .ok usdc')
    (hne : src ≠ dst) : usdc' dst = usdc dst+amount := by
  obtain ⟨-, rfl⟩ := transferUsdc_eq_ok.mp h
  simp [Function.update_of_ne hne.symm]

theorem payOut_le {d : Deployment} (h : payOut usdc d dst amount = .ok usdc') :
    usdc d.vault ≤ usdc' d.vault+amount := by
  unfold payOut at h
  split_ifs at h with h0
  · simpa using transferUsdc_le h d.vault
  · cases h
    omega

/-- A payout goes through when the vault holds the amount. -/
theorem payOut_of_le {d : Deployment} (dst : Address) (h : amount ≤ usdc d.vault) :
    ∃ usdc', payOut usdc d dst amount = .ok usdc' := by
  unfold payOut
  split_ifs with h0
  · exact ⟨_, transferUsdc_eq_ok.mpr ⟨h, rfl⟩⟩
  · exact ⟨usdc, rfl⟩

end Tokens

/-- Collateral of one user leaves the vault. -/
structure Outflow (d : Deployment) (s : State) (user : Address) (amount : ℕ) (s' : State) :
    Prop where
  covered : amount ≤ s.vault.balances user
  counted : amount ≤ s.vault.totalDeposits
  vault : s'.vault = ⟨Function.update s.vault.balances user (s.vault.balances user-amount),
    s.vault.totalDeposits-amount⟩
  usdc : s.usdc d.vault ≤ s'.usdc d.vault+amount
  registry : s'.registry = s.registry
  markets : s'.markets = s.markets
  oracle : s'.oracle = s.oracle

namespace State
variable {s s' : State} {d : Deployment} {sender user : Address}

theorem withdraw_ok {amount : ℕ} (h : s.withdraw d sender amount = .ok s') :
    s.isWithdrawSafe sender amount = .ok true ∧ Outflow d s sender amount s' := by
  simp only [withdraw, chain_ok_iff, ensure_eq_ok, and_true, exists_const, subU_eq_ok,
    tx_pure_eq_ok] at h
  obtain ⟨hle, safe, hsafe, hb, _, ⟨-, rfl⟩, _, ⟨htot, rfl⟩, usdc, husdc, rfl⟩ := h
  rw [hb] at hsafe
  refine ⟨hsafe, hle, htot, rfl, ?_, rfl, rfl, rfl⟩
  simpa using transferUsdc_le husdc d.vault

theorem deposit_ok {amount : ℕ} (hv : sender ≠ d.vault) (h : s.deposit d sender amount = .ok s') :
    s'.vault = ⟨Function.update s.vault.balances sender (s.vault.balances sender+amount),
      s.vault.totalDeposits+amount⟩ ∧ s.vault.totalDeposits+amount < 2^256 ∧
    s'.usdc d.vault = s.usdc d.vault+amount ∧ s'.registry = s.registry ∧
    s'.markets = s.markets ∧ s'.oracle = s.oracle := by
  simp only [deposit, chain_ok_iff, ensure_eq_ok, and_true, exists_const, addU_eq_ok,
    tx_pure_eq_ok] at h
  obtain ⟨-, usdc, husdc, _, ⟨-, rfl⟩, _, ⟨htot, rfl⟩, rfl⟩ := h
  exact ⟨rfl, htot, transferUsdc_received husdc hv, rfl, rfl, rfl⟩

theorem seizeForLiquidation_ok {liquidator fund : Address} {bonusAmount bonus residual
    shortfall : ℕ} (h : s.seizeForLiquidation d sender user liquidator fund bonusAmount =
      .ok (bonus,residual,shortfall,s')) :
    Outflow d s user (s.vault.balances user) s' ∧
      bonus = min bonusAmount (s.vault.balances user) ∧
      bonus+residual = s.vault.balances user ∧
      bonus+shortfall = max bonusAmount bonus := by
  simp only [seizeForLiquidation, chain_ok_iff, ensure_eq_ok, and_true, exists_const, subU_eq_ok,
    tx_pure_eq_ok, Prod.mk.injEq] at h
  obtain ⟨-, -, _, ⟨htot, rfl⟩, u₁, h₁, u₂, h₂, rfl, rfl, rfl, rfl⟩ := h
  have hp₁ := payOut_le h₁
  have hp₂ := payOut_le h₂
  refine ⟨⟨le_rfl, htot, by simp, ?_, rfl, rfl, rfl⟩, ?_⟩
  · simp only
    split_ifs at hp₁ hp₂ <;> simp only at hp₁ hp₂ <;> omega
  · split_ifs <;> simp only <;> omega

theorem debitToExternal_ok {recipient : Address} {amount paid : ℕ}
    (h : s.debitToExternal d sender user recipient amount = .ok (paid,s')) :
    paid = min amount (s.vault.balances user) ∧ Outflow d s user paid s' := by
  simp only [debitToExternal, chain_ok_iff, ensure_eq_ok, and_true, exists_const] at h
  obtain ⟨-, -, h⟩ := h
  have hmin : (if s.vault.balances user < amount then s.vault.balances user else amount) =
      min amount (s.vault.balances user) := by
    split_ifs <;> omega
  rw [hmin] at h
  split_ifs at h with h0
  · simp only [tx_pure_eq_ok, Prod.mk.injEq] at h
    obtain ⟨rfl, rfl⟩ := h
    exact ⟨h0.symm, Nat.zero_le _, Nat.zero_le _, by simp, by omega, rfl, rfl, rfl⟩
  · simp only [chain_ok_iff, subU_eq_ok, tx_pure_eq_ok, Prod.mk.injEq] at h
    obtain ⟨_, ⟨htot, rfl⟩, usdc, husdc, rfl, rfl⟩ := h
    refine ⟨rfl, min_le_right _ _, htot, rfl, ?_, rfl, rfl, rfl⟩
    simpa using transferUsdc_le husdc d.vault

/-- A funding tick moves one index and nothing else that positions or balances read. -/
theorem applyFunding_ok {market : MarketId} {premium : ℤ} {now : ℕ}
    (h : s.applyFunding d sender market premium now = .ok s') :
    ∃ newIndex, s' = { s with
      registry := { s.registry with
        marketIndexFunding := Function.update s.registry.marketIndexFunding market newIndex }
      funding := s'.funding } := by
  simp only [applyFunding, Registry.updateFunding] at h
  split_ifs at h
  all_goals
    simp only [chain_ok_iff, ensure_eq_ok, and_true, exists_const, tx_pure_eq_ok] at h
  · obtain ⟨-, -, -, _, -, -, _, -, _, ⟨-, rfl⟩, rfl⟩ := h
    exact ⟨_, rfl⟩
  · obtain ⟨-, -, -, _, -, _, ⟨-, rfl⟩, rfl⟩ := h
    exact ⟨_, rfl⟩

/-- A liquidation settles the whole position, then pays out the whole balance. -/
theorem liquidate_ok {market : MarketId} {receipt : LiquidationReceipt}
    (h : s.liquidate d sender user market = .ok (receipt,s')) :
    ∃ realised funding s₁,
      Settled s ⟨user, market, -(s.registry.positions user market).size, receipt.markX18, 0⟩
        realised funding s₁ ∧ Outflow d s₁ user (s₁.vault.balances user) s' := by
  simp only [liquidate, chain_ok_iff, ensure_eq_ok, and_true, exists_const, negI_eq_ok, Prod.exists,
    tx_pure_eq_ok, Prod.mk.injEq] at h
  obtain ⟨-, mark, -, hf, -, -, -, bonus, -, _, ⟨-, rfl⟩, realised, settle, s₁, h₁,
    _, _, _, s₂, h₂, rfl, rfl⟩ := h
  obtain ⟨funding, hs, -⟩ := closeAndSettle_ok h₁
  exact ⟨realised, funding, s₁, hs, (seizeForLiquidation_ok h₂).1⟩

/-- Deleveraging settles the closed part, then pays out the gain. -/
theorem adlOne_ok {market : MarketId} {mark : ℕ} {victim : Address} {closeSize : ℤ}
    (h : s.adlOne d market mark victim closeSize = .ok s') :
    ∃ realised funding s₁ paid, Settled s ⟨victim, market, closeSize, mark, 0⟩ realised funding s₁ ∧
      Outflow d s₁ victim paid s' := by
  simp only [adlOne, adlOneEmitting, chain_ok_iff, ensure_eq_ok, and_true, exists_const,
    Prod.exists, tx_pure_eq_ok] at h
  obtain ⟨paid, s', ⟨-, -, -, -, realised, _, s₁, h₁, h⟩, rfl⟩ := h
  obtain ⟨funding, hs, -⟩ := closeAndSettle_ok h₁
  have hpay : ∃ paid, Outflow d s₁ victim paid s' := by
    generalize (if 0 < realised then (realised.tdiv USDC_TO_X18).toNat else 0) = take at h
    split_ifs at h with h0
    · cases h
      exact ⟨0, Nat.zero_le _, Nat.zero_le _, by simp, by omega, rfl, rfl, rfl⟩
    · exact ⟨paid, (debitToExternal_ok h).2⟩
  obtain ⟨paid, hpay⟩ := hpay
  exact ⟨realised, funding, s₁, paid, hs, hpay⟩

end State

/-- Calls of the owner, the oracle's answers and transfers of USDC outside the vault. -/
def Call.Admin : Call → Bool
  | .deposit .. | .withdraw .. | .applyBatch .. | .updateFunding .. | .applyFunding ..
  | .liquidate .. | .adl .. => false
  | _ => true

def Markets.AllValid (ms : Markets) : Prop := ∀ m p, ms.params m = some p → p.Valid

theorem Markets.AllValid.update {ms : Markets} (h : ms.AllValid) {market : MarketId}
    {p : MarketParams} (hp : p.Valid) :
    Markets.AllValid ⟨Function.update ms.params market (some p)⟩ := by
  intro m q hq
  by_cases hm : m = market
  · subst hm
    simp only [Function.update_self, Option.some.injEq] at hq
    exact hq ▸ hp
  · simp only [Function.update_of_ne hm] at hq
    exact h m q hq

/-- They leave positions and balances alone, and listed parameters valid. -/
theorem exec_admin {d : Deployment} {s s' : State} {c : Call} (hadmin : c.Admin = true)
    (hc : c.Possible d) (he : exec d s c = .ok s') :
    s'.registry = s.registry ∧ s'.vault = s.vault ∧ s.usdc d.vault ≤ s'.usdc d.vault ∧
      (s.markets.AllValid → s'.markets.AllValid) := by
  cases c with
  | deposit | withdraw | applyBatch | updateFunding | applyFunding | liquidate | adl =>
    simp [Call.Admin] at hadmin
  | listMarket sender market params =>
    simp only [exec, Markets.listMarket, chain_ok_iff, ensure_eq_ok, and_true, exists_const,
      tx_pure_eq_ok] at he
    obtain ⟨-, _, ⟨-, hp, rfl⟩, rfl⟩ := he
    exact ⟨rfl, rfl, le_rfl, fun h => h.update hp⟩
  | updateMarket sender market params =>
    simp only [exec, Markets.updateMarket, chain_ok_iff, ensure_eq_ok, and_true, exists_const,
      tx_pure_eq_ok] at he
    obtain ⟨-, _, ⟨-, hp, rfl⟩, rfl⟩ := he
    exact ⟨rfl, rfl, le_rfl, fun h => h.update hp⟩
  | deactivateMarket sender market =>
    simp only [exec, Markets.deactivateMarket, chain_ok_iff, ensure_eq_ok, and_true,
      exists_const, tx_pure_eq_ok] at he
    obtain ⟨-, _, hms, rfl⟩ := he
    split at hms
    · cases hms
    · next p hp =>
      cases hms
      exact ⟨rfl, rfl, le_rfl, fun h => h.update (h market p hp)⟩
  | setOperator sender op =>
    simp only [exec, chain_ok_iff, ensure_eq_ok, and_true, exists_const, tx_pure_eq_ok] at he
    obtain ⟨-, -, rfl⟩ := he
    exact ⟨rfl, rfl, le_rfl, id⟩
  | setFillHook sender enabled =>
    simp only [exec, chain_ok_iff, ensure_eq_ok, and_true, exists_const, tx_pure_eq_ok] at he
    obtain ⟨-, rfl⟩ := he
    exact ⟨rfl, rfl, le_rfl, id⟩
  | setSettlement sender a =>
    simp only [exec, chain_ok_iff, ensure_eq_ok, and_true, exists_const, tx_pure_eq_ok] at he
    obtain ⟨-, -, rfl⟩ := he
    exact ⟨rfl, rfl, le_rfl, id⟩
  | setCap sender market cap =>
    simp only [exec, chain_ok_iff, ensure_eq_ok, and_true, exists_const, tx_pure_eq_ok] at he
    obtain ⟨-, rfl⟩ := he
    exact ⟨rfl, rfl, le_rfl, id⟩
  | setSubmitter sender a =>
    simp only [exec, chain_ok_iff, ensure_eq_ok, and_true, exists_const, tx_pure_eq_ok] at he
    obtain ⟨-, -, rfl⟩ := he
    exact ⟨rfl, rfl, le_rfl, id⟩
  | oracleAnswer market price =>
    cases he
    exact ⟨rfl, rfl, le_rfl, id⟩
  | mintUsdc dst amount =>
    cases he
    refine ⟨rfl, rfl, ?_, id⟩
    by_cases hd : d.vault = dst
    · subst hd
      simp
    · simp [hd]
  | transferUsdc src dst amount =>
    simp only [exec, chain_ok_iff, tx_pure_eq_ok] at he
    obtain ⟨usdc, hu, rfl⟩ := he
    refine ⟨rfl, rfl, ?_, id⟩
    have hle := transferUsdc_le hu d.vault
    -- the vault itself never sends USDC outside of its own functions
    rw [if_neg (fun heq => hc heq.symm)] at hle
    simpa using hle

structure Consistent (d : Deployment) (s : State) : Prop where
  tracked : s.registry.Tracked
  zero_empty : ∀ m, (s.registry.positions 0 m).size = 0
  params_valid : s.markets.AllValid
  backed : s.vault.totalDeposits ≤ s.usdc d.vault
  total_fits : s.vault.totalDeposits < 2^256

namespace Consistent
variable {d : Deployment} {s s' : State}

theorem genesis (d : Deployment) (operator submitter : Address) :
    Consistent d (genesis d operator submitter) where
  tracked := ⟨fun u m k => by simp [Chain.genesis], fun u m => by simp [Chain.genesis]⟩
  zero_empty := fun m => rfl
  params_valid := fun m p h => by simp [Chain.genesis] at h
  backed := le_rfl
  total_fits := by simp [Chain.genesis]

theorem settled (h : Consistent d s) {f : Fill} {realised funding : ℤ}
    (hs : Settled s f realised funding s') : Consistent d s' where
  tracked := hs.tracked h.tracked
  zero_empty := by
    obtain ⟨p, -, hp⟩ := hs.fill.position
    intro m
    rw [hp, update₂_apply, if_neg (fun he => hs.fill.user_ne he.1.symm)]
    exact h.zero_empty m
  params_valid := by
    rw [hs.markets]
    exact h.params_valid
  backed := by
    rw [hs.vault, hs.usdc]
    exact h.backed
  total_fits := by
    rw [hs.vault]
    exact h.total_fits

theorem outflow (h : Consistent d s) {user : Address} {amount : ℕ}
    (ho : Outflow d s user amount s') : Consistent d s' where
  tracked := by
    rw [ho.registry]
    exact h.tracked
  zero_empty := by
    rw [ho.registry]
    exact h.zero_empty
  params_valid := by
    rw [ho.markets]
    exact h.params_valid
  backed := by
    have hb := h.backed
    have hu := ho.usdc
    rw [ho.vault]
    simp only
    omega
  total_fits := by
    have ht := h.total_fits
    rw [ho.vault]
    simp only
    omega

/-- New funding indices and other bookkeeping leave the invariant alone. -/
theorem of_eq (h : Consistent d s) (htr : s'.registry.userMarkets = s.registry.userMarkets)
    (hidx : s'.registry.userMarketIndexPlusOne = s.registry.userMarketIndexPlusOne)
    (hpos : s'.registry.positions = s.registry.positions) (hm : s'.markets = s.markets)
    (hv : s'.vault = s.vault) (hu : s.usdc d.vault ≤ s'.usdc d.vault) : Consistent d s' where
  tracked := ⟨by rw [htr, hidx]; exact h.tracked.inverse, by rw [hpos, hidx]; exact h.tracked.held⟩
  zero_empty := by
    rw [hpos]
    exact h.zero_empty
  params_valid := by
    rw [hm]
    exact h.params_valid
  backed := by
    rw [hv]
    exact h.backed.trans hu
  total_fits := by
    rw [hv]
    exact h.total_fits

theorem adlLoop {market : MarketId} {mark : ℕ} {vs : List (Address × ℤ)} (h : Consistent d s)
    (hs : State.adlLoop d market mark s vs = .ok s') : Consistent d s' := by
  induction vs generalizing s with
  | nil =>
    cases hs
    exact h
  | cons v vs ih =>
    simp only [State.adlLoop, chain_ok_iff] at hs
    obtain ⟨s₁, h₁, hs⟩ := hs
    obtain ⟨_, _, _, _, hset, hout⟩ := State.adlOne_ok h₁
    exact ih ((h.settled hset).outflow hout) hs

theorem exec {c : Call} (h : Consistent d s) (hc : c.Possible d) (he : exec d s c = .ok s') :
    Consistent d s' := by
  cases c with
  | deposit sender amount =>
    obtain ⟨hv, hlt, hu, hr, hm, -⟩ := State.deposit_ok hc he
    have hb := h.backed
    refine ⟨hr ▸ h.tracked, hr ▸ h.zero_empty, hm ▸ h.params_valid, ?_, ?_⟩
    · rw [hv, hu]
      simp only
      omega
    · rw [hv]
      exact hlt
  | withdraw sender amount => exact h.outflow (State.withdraw_ok he).2
  | applyBatch fills nonce deadline signer now =>
    -- by induction over the fills, each a settled position change
    have hfills := State.settleFills_settles (State.applyBatch_settleFills he)
    have h₁ : Consistent d (s.useNonce nonce) := h.of_eq rfl rfl rfl rfl rfl le_rfl
    exact hfills.invariant (fun _ _ _ _ _ hc hs => hc.settled hs) h₁
  | updateFunding sender market idx =>
    simp only [Chain.exec, Registry.updateFunding, chain_ok_iff, ensure_eq_ok, and_true,
      exists_const, tx_pure_eq_ok] at he
    obtain ⟨_, ⟨-, rfl⟩, rfl⟩ := he
    exact h.of_eq rfl rfl rfl rfl rfl le_rfl
  | applyFunding sender market premium now =>
    obtain ⟨newIndex, hs⟩ := State.applyFunding_ok he
    rw [hs]
    exact h.of_eq rfl rfl rfl rfl rfl le_rfl
  | liquidate sender user market =>
    simp only [Chain.exec, chain_ok_iff, Prod.exists, tx_pure_eq_ok] at he
    obtain ⟨receipt, _, he, rfl⟩ := he
    -- a liquidation is one settled close and then an outflow of the vault
    obtain ⟨_, _, _, hset, hout⟩ := State.liquidate_ok he
    exact (h.settled hset).outflow hout
  | adl sender market victims closeSizes =>
    simp only [Chain.exec, State.adl, chain_ok_iff, ensure_eq_ok, and_true, exists_const] at he
    obtain ⟨-, -, -, mark, -, he⟩ := he
    exact h.adlLoop he
  | listMarket | updateMarket | deactivateMarket | setOperator | setFillHook | setSettlement
  | setCap | setSubmitter | oracleAnswer | mintUsdc | transferUsdc =>
    -- the remaining calls leave positions and balances alone
    obtain ⟨hr, hv, hu, hm⟩ := exec_admin rfl hc he
    exact ⟨hr ▸ h.tracked, hr ▸ h.zero_empty, hm h.params_valid,
      by rw [hv]; exact h.backed.trans hu,
      by rw [hv]; exact h.total_fits⟩

end Consistent

theorem Reachable.consistent {d : Deployment} {s : State} (h : Reachable d s) :
    Consistent d s :=
  h.invariant (fun op sub => Consistent.genesis d op sub) (fun _ _ _ hs hc he => hs.exec hc he)

end Perplex.Chain
