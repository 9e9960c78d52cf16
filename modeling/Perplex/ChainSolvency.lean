import Perplex.ChainInvariant

/-! When a withdrawal that passes both of its guards is paid. Profits are credited to
balances without touching `totalDeposits`, so that a balance can exceed it; then the
checked subtraction in `withdraw` reverts. -/
namespace Perplex.Chain
variable {d : Deployment} {s : State} {user : Address} {amount : ℕ}

/-- In every reachable state the only thing that can stop a guarded withdrawal is the
counter `totalDeposits`: the tokens are there whenever the counter covers the amount. -/
theorem withdraw_paid_iff (h : Reachable d s) (hb : amount ≤ s.vault.balances user)
    (hsafe : s.isWithdrawSafe user amount = .ok true) :
    (∃ s', s.withdraw d user amount = .ok s') ↔ amount ≤ s.vault.totalDeposits := by
  constructor
  · rintro ⟨s', hs⟩
    exact (State.withdraw_ok hs).2.counted
  · intro htot
    have hheld : amount ≤ s.usdc d.vault := htot.trans h.consistent.backed
    have htransfer : transferUsdc s.usdc d.vault user amount = .ok _ :=
      transferUsdc_eq_ok.mpr ⟨hheld, rfl⟩
    simp only [State.withdraw, chain_ok_iff, ensure_eq_ok, and_true, exists_const, subU_eq_ok,
      tx_pure_eq_ok]
    exact ⟨_, hb, true, hsafe, rfl, _, ⟨hb, rfl⟩, _, ⟨htot, rfl⟩, _, htransfer, rfl⟩

/-- The withdrawal of part of a deposit is paid. -/
theorem withdraw_paid_part_of_deposit :
    ∃ s', (devnetAfter (oneContract (100*10^6) (10^6))).withdraw devnet 101 (40*10^6) = .ok s' :=
  (withdraw_paid_iff (reachable_devnetAfter (by decide +kernel)) (by decide +kernel)
    (by decide +kernel)).mpr (by decide +kernel)

/-- User 101 sells on at 200 to 103 and has made 100, as much as its deposit. -/
def soldAtProfit : List Call :=
  oneContract (100*10^6) (10^6)++
    [Call.applyBatch [⟨101, 1, -10^18, 200*10^18, 0⟩, ⟨103, 1, 10^18, 200*10^18, 0⟩] 1 0 8 0]

/-- Both guards pass and the withdrawal of the profit reverts on `totalDeposits`. -/
theorem profit_withdrawal_reverts :
    (∀ c ∈ soldAtProfit, c.Balanced) ∧ Reachable devnet (devnetAfter soldAtProfit) ∧
    200*10^6 ≤ (devnetAfter soldAtProfit).vault.balances 101 ∧
    (devnetAfter soldAtProfit).isWithdrawSafe 101 (200*10^6) = .ok true ∧
    (devnetAfter soldAtProfit).vault.totalDeposits = 102*10^6 ∧
    (devnetAfter soldAtProfit).withdraw devnet 101 (200*10^6) = .error .panic := by
  refine ⟨?_, reachable_devnetAfter (by decide +kernel), by decide +kernel, by decide +kernel,
    by decide +kernel, rfl⟩
  simp [soldAtProfit, oneContract, funded, firstTrade, Call.Balanced, paired_pair]

end Perplex.Chain
