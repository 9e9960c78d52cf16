import Perplex.EdgeEquity

/-! The fee ledger of the edge. The record of a fill and the vault balance are written by
different functions, each with its own truncation and sign; they agree as long as no charge
runs into the clamp at zero. -/
namespace Perplex.Edge

/-- Fees of recorded fills, in raw USDC units; a rebate is a negative fee. -/
def feeSum (l : List FillInfo) : ℤ := (l.map FillInfo.feeUsdc).sum

/-- Whatever fills were recorded between two states, their fees were taken from the balance
of the account. -/
def FeesBooked (s s' : AppState) : Prop :=
  ∀ a, ∃ new, s'.fills a = s.fills a++new ∧ s'.vaultBalances a = s.vaultBalances a-feeSum new

theorem FeesBooked.refl (s : AppState) : FeesBooked s s :=
  fun _ => ⟨[], by simp, by simp [feeSum]⟩

theorem FeesBooked.of_eq {s s' : AppState} (hf : s'.fills = s.fills)
    (hv : s'.vaultBalances = s.vaultBalances) : FeesBooked s s' := by
  intro a
  rw [hf, hv]
  exact FeesBooked.refl s a

theorem FeesBooked.trans {s₁ s₂ s₃ : AppState} (h : FeesBooked s₁ s₂) (h' : FeesBooked s₂ s₃) :
    FeesBooked s₁ s₃ := by
  intro a
  obtain ⟨new, hf, hv⟩ := h a
  obtain ⟨new', hf', hv'⟩ := h' a
  refine ⟨new++new', ?_, ?_⟩
  · rw [hf', hf, List.append_assoc]
  · rw [hv', hv]
    simp only [feeSum, List.map_append, List.sum_append, Int.cast_add]
    ring

/-- The adjustment of a balance by a delta in dollars runs into the clamp at zero. -/
def Clamped (balance deltaDollars : ℚ) : Prop :=
  deltaDollars ≠ 0 ∧ balance+trunc (deltaDollars*10^6) < 0

/-- What is not clamped is booked to the unit. -/
theorem adjusted_of_not_clamped {balance charge : ℚ} (h : ¬ Clamped balance (-charge)) :
    adjusted balance (-charge) = balance-trunc (charge*10^6) := by
  have htrunc : (trunc (-charge*10^6):ℚ) = -trunc (charge*10^6) := by
    rw [neg_mul, trunc_neg, Int.cast_neg]
  unfold adjusted
  by_cases h0 : charge = 0
  · simp [h0, trunc]
  · have hnot : ¬ balance+trunc (-charge*10^6) < 0 := fun hlt => h ⟨neg_ne_zero.mpr h0, hlt⟩
    rw [if_neg (neg_ne_zero.mpr h0), if_neg hnot, htrunc]
    ring

namespace AppState

/-- No adjustment of the fill is clamped: neither the fee of its taker nor the rebate of its
maker. -/
def Affords (user : Address) (takerFeeBps : ℕ) (makerRebateBps : ℤ) (s : AppState)
    (m : MatchedFill) : Prop :=
  ∀ role : Role, ¬ Clamped (s.vaultBalances (role.party user m))
    (-role.charge takerFeeBps makerRebateBps m)

theorem settleMatch_other (now orderId : ℕ) {user : Address} (t : Taker) (takerFeeBps : ℕ)
    (makerRebateBps : ℤ) (s : AppState) (m : MatchedFill) {a : Address}
    (ha : ∀ role : Role, a ≠ role.party user m) :
    let s' := settleMatch now orderId user t takerFeeBps makerRebateBps s m
    s'.fills a = s.fills a ∧ s'.vaultBalances a = s.vaultBalances a := by
  have hu : a ≠ user := ha .taker
  have hm : a ≠ m.makerAddress := ha .maker
  simp [settleMatch, upsertPosition, recordTrade, recordFill, adjustVault_vaultBalances, hu, hm]

theorem settleMatch_feesBooked (now orderId : ℕ) {user : Address} (t : Taker) (takerFeeBps : ℕ)
    (makerRebateBps : ℤ) (s : AppState) {m : MatchedFill} (hne : m.makerAddress ≠ user)
    (h : s.Affords user takerFeeBps makerRebateBps m) :
    FeesBooked s (settleMatch now orderId user t takerFeeBps makerRebateBps s m) := by
  intro a
  by_cases hparty : ∃ role : Role, a = role.party user m
  · obtain ⟨role, rfl⟩ := hparty
    obtain ⟨⟨f, hf, -, -, -, -, hfee⟩, hv, -⟩ :=
      settleMatch_party now orderId t takerFeeBps makerRebateBps s hne role
    refine ⟨[f], hf, ?_⟩
    rw [hv, adjusted_of_not_clamped (h role), ← hfee]
    simp [feeSum]
  · obtain ⟨hf, hv⟩ := settleMatch_other now orderId t takerFeeBps makerRebateBps s m
      (fun role he => hparty ⟨role, he⟩)
    exact ⟨[], by rw [hf, List.append_nil], by rw [hv]; simp [feeSum]⟩

/-- Each fill of the order is afforded by the balances it meets. -/
def AffordsOrder (s : AppState) (env : Env) (user : Address) (t : Taker) : Prop :=
  ∀ (pre : List MatchedFill) (m : MatchedFill) (post : List MatchedFill),
    (s.matched env user t).1 = pre++m :: post →
      (pre.foldl (s.settling env user t) (s.matched env user t).2).Affords user
        (s.feeBps t.marketId).1 (s.feeBps t.marketId).2 m

theorem settled_feesBooked {s : AppState} {env : Env} {user : Address} {t : Taker}
    (h : s.AffordsOrder env user t) : FeesBooked s (s.settled env user t) := by
  have hpre : ∀ pre, pre <+: (s.matched env user t).1 →
      FeesBooked s (pre.foldl (s.settling env user t) (s.matched env user t).2) := by
    intro pre
    induction pre using List.reverseRecOn with
    | nil => exact fun _ => FeesBooked.of_eq rfl rfl
    | append_singleton pre m ih =>
      intro hp
      obtain ⟨post, hsplit⟩ := hp
      rw [List.append_assoc] at hsplit
      have hne : m.makerAddress ≠ user :=
        matched_others s env user t m (by rw [← hsplit]; simp)
      rw [List.foldl_append]
      refine (ih ⟨[m]++post, hsplit⟩).trans ?_
      exact settleMatch_feesBooked _ _ _ _ _ _ hne (h pre m post hsplit.symm)
  exact hpre _ (List.prefix_refl _)

end AppState

open AppState

/-- No fee or rebate of the command is clamped. -/
def Cmd.Unclamped (s : AppState) : Cmd → Prop
  | .placeOrder env user req => ∀ t, s.Accepts env user req t → s.AffordsOrder env user t
  | _ => True

/-- Orders, cancels and prices, but no deposit. -/
def Cmd.KeepsDeposits : Cmd → Prop
  | .setVaultBalance _ _ => False
  | _ => True

theorem exec_feesBooked {s s' : AppState} {c : Cmd} (hc : c.KeepsDeposits)
    (hu : c.Unclamped s) (hok : exec s c = .ok s') : FeesBooked s s' := by
  cases c with
  | placeOrder env user req =>
    obtain ⟨t, ht, rfl⟩ := exec_placeOrder_eq_ok.mp hok
    refine (settled_feesBooked (hu t ht)).trans ?_
    rw [execute_frame]
    exact FeesBooked.of_eq rfl rfl
  | cancelOrder env user orderId =>
    obtain rfl := Except.ok.inj hok
    rw [cancelOrder_frame]
    exact FeesBooked.of_eq rfl rfl
  | setVaultBalance address amount => exact absurd hc id
  | setOraclePrice marketId price =>
    obtain rfl := Except.ok.inj hok
    exact FeesBooked.of_eq rfl rfl

end Perplex.Edge
