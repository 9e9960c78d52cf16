import Perplex.ChainInvariant

/-! What `applyBatch` checks of a trader's means. The operator is trusted with margins: no
oracle price and no margin ratio is read. What is enforced is that no fill overdraws the
vault balance of its user. -/
namespace Perplex.Chain

namespace State

/-- The same books under other oracle prices and market parameters. -/
def reprice (oracle : MarketId → Option ℕ) (markets : Markets) (s : State) : State :=
  { s with oracle, markets }

variable {s : State} {d : Deployment} {oracle : MarketId → Option ℕ} {ms : Markets}

/-- A fill looks at the market registry only to see whether the market is active. -/
theorem applyFill_active_only {r : Registry} {ms ms' : Markets} {sender user : Address}
    {market : MarketId} {sizeDelta : ℤ} {priceX18 : ℕ}
    (h : ms'.isMarketActive market = ms.isMarketActive market) :
    r.applyFill d ms' sender user market sizeDelta priceX18 =
      r.applyFill d ms sender user market sizeDelta priceX18 := by
  simp only [Registry.applyFill, h]

theorem settleFill_reprice {f : Fill}
    (h : ms.isMarketActive f.marketId = s.markets.isMarketActive f.marketId) :
    (s.reprice oracle ms).settleFill d f = (s.settleFill d f).map (reprice oracle ms) := by
  unfold settleFill
  -- everything but the registry's check reads fields that `reprice` leaves alone
  simp only [reprice, applyFill_active_only h, map_chain]
  rfl

theorem settleFills_reprice {fills : List Fill}
    (h : ∀ m, ms.isMarketActive m = s.markets.isMarketActive m) :
    settleFills d (s.reprice oracle ms) fills =
      (settleFills d s fills).map (reprice oracle ms) := by
  induction fills generalizing s with
  | nil => rfl
  | cons f fills ih =>
    simp only [settleFills, map_chain, settleFill_reprice (h f.marketId)]
    cases hf : s.settleFill d f with
    | error e => rfl
    | ok s₁ =>
      -- a fill does not touch the market registry, so the flags still agree
      obtain ⟨_, _, hs, -⟩ := settleFill_ok hf
      exact ih (by rw [hs.markets]; exact h)

variable {fills : List Fill} {nonce deadline now : ℕ} {signer : Address}

/-- Whether a batch is accepted, and what it does, does not depend on prices or ratios. -/
theorem applyBatch_reprice (h : ∀ m, ms.isMarketActive m = s.markets.isMarketActive m) :
    (s.reprice oracle ms).applyBatch d fills nonce deadline signer now =
      (s.applyBatch d fills nonce deadline signer now).map (reprice oracle ms) := by
  have hfills : settleFills d ((s.useNonce nonce).reprice oracle ms) fills =
      (settleFills d (s.useNonce nonce) fills).map (reprice oracle ms) := settleFills_reprice h
  unfold useNonce at hfills
  simp only [applyBatch, map_chain]
  rw [← hfills]
  rfl

theorem settleFills_append {before after : List Fill} {s₁ : State}
    (h : settleFills d s before = .ok s₁) :
    settleFills d s (before++after) = settleFills d s₁ after := by
  induction before generalizing s with
  | nil =>
    cases h
    rfl
  | cons f before ih =>
    simp only [settleFills, chain_ok_iff] at h
    obtain ⟨s₂, h₂, h⟩ := h
    simp only [List.cons_append, settleFills, h₂]
    exact ih h

/-- A fill that its user's balance does not cover reverts the whole batch. -/
theorem applyBatch_overdraft {before after : List Fill} {f : Fill} {s₁ : State} {r : Registry}
    {realised funding : ℤ} (h₁ : settleFills d (s.useNonce nonce) before = .ok s₁)
    (hfill : s₁.registry.applyFill d s₁.markets d.settlementEngine f.user f.marketId f.sizeDelta
      f.priceX18 = .ok (realised,funding,r))
    (hover : (s₁.vault.balances f.user:ℤ)+(realised+funding+f.fee).tdiv USDC_TO_X18 < 0) :
    ∃ e, s.applyBatch d (before++f :: after) nonce deadline signer now = .error e := by
  cases hb : s.applyBatch d (before++f :: after) nonce deadline signer now with
  | error e => exact ⟨e, rfl⟩
  | ok s' =>
    -- were the batch accepted, the fill after `before` would be covered
    have hrest := applyBatch_settleFills hb
    rw [settleFills_append h₁] at hrest
    simp only [settleFills, chain_ok_iff] at hrest
    obtain ⟨s₂, h₂, -⟩ := hrest
    obtain ⟨realised', funding', hs, hfill'⟩ := settleFill_ok h₂
    rw [hfill] at hfill'
    simp only [Except.ok.injEq, Prod.mk.injEq] at hfill'
    obtain ⟨rfl, rfl, -⟩ := hfill'
    exact absurd hs.covered (not_le.mpr hover)

end State

/-- What settlement enforces. Acceptance and effect of a batch do not depend on oracle
prices or margin ratios; an accepted batch settles its fills one by one, each covered by the
balance it is charged to; one uncovered fill reverts the batch. -/
theorem applyBatch_guards_balances_only (d : Deployment) (s : State) (fills : List Fill)
    (nonce deadline : ℕ) (signer : Address) (now : ℕ) :
    (∀ (oracle : MarketId → Option ℕ) (ms : Markets),
      (∀ m, ms.isMarketActive m = s.markets.isMarketActive m) →
      (s.reprice oracle ms).applyBatch d fills nonce deadline signer now =
        (s.applyBatch d fills nonce deadline signer now).map (State.reprice oracle ms)) ∧
    (∀ s', s.applyBatch d fills nonce deadline signer now = .ok s' →
      Settles (s.useNonce nonce) fills s') ∧
    ∀ (before : List Fill) (f : Fill) (after : List Fill) (s₁ : State) (realised funding : ℤ)
      (r : Registry), fills = before++f :: after →
      State.settleFills d (s.useNonce nonce) before = .ok s₁ →
      s₁.registry.applyFill d s₁.markets d.settlementEngine f.user f.marketId f.sizeDelta
        f.priceX18 = .ok (realised,funding,r) →
      (s₁.vault.balances f.user:ℤ)+(realised+funding+f.fee).tdiv USDC_TO_X18 < 0 →
      ∃ e, s.applyBatch d fills nonce deadline signer now = .error e := by
  refine ⟨fun oracle ms h => State.applyBatch_reprice h, ?_, ?_⟩
  · intro s' h
    exact State.settleFills_settles (State.applyBatch_settleFills h)
  · rintro before f after s₁ realised funding r rfl h₁ hfill hover
    exact State.applyBatch_overdraft h₁ hfill hover

/-- With one USDC a user is given a long of 100 whose initial margin is 5. -/
theorem batch_accepted_below_initial_margin :
    Reachable devnet (devnetAfter (funded (10^6) (10^6))) ∧
    ((devnetAfter (funded (10^6) (10^6))).registry.positions 101 1).size = 0 ∧
    ∃ s', (devnetAfter (funded (10^6) (10^6))).applyBatch devnet firstTrade 0 0 8 0 = .ok s' ∧
      (s'.registry.positions 101 1).size = 10^18 ∧ s'.vault.balances 101 = 10^6 ∧
      s'.isWithdrawSafe 101 0 = .ok false :=
  ⟨reachable_devnetAfter (by decide +kernel), by decide +kernel, _, rfl, by decide +kernel,
    by decide +kernel, by decide +kernel⟩

end Perplex.Chain
