import Perplex.ChainFacts
import Perplex.EdgePositions

/-! Maker rebates. The market registry writes a rebate that is paid to the maker as a negative
number, and the markets of the edge carry the same numbers; the fill loop adds the number to the
balance of the maker as it is, so a rebate is charged. -/
namespace Perplex.Edge

/-- The rebate of a fill by the registry's convention: `|makerRebateBps|/10000` of the notional,
in USDC units. -/
def rebateOwed (makerRebateBps : ℤ) (notional : ℚ) : ℤ :=
  trunc (notional*|(makerRebateBps:ℚ)|/10000*10^6)

/-- The fee field of the settlement fill that pays the rebate. -/
def rebateFeeX18 (makerRebateBps : ℤ) (notional : ℚ) : ℤ :=
  ⌊notional*|(makerRebateBps:ℚ)|/10000*10^18⌋

/-- The settlement engine credits that fee as the rebate. -/
theorem toRawUsdcDelta_rebateFeeX18 (makerRebateBps : ℤ) {notional : ℚ} (h : 0 ≤ notional)
    (hfits : rebateFeeX18 makerRebateBps notional < 2^255) :
    Chain.toRawUsdcDelta (rebateFeeX18 makerRebateBps notional) =
      .ok (rebateOwed makerRebateBps notional) := by
  set x := notional*|(makerRebateBps:ℚ)|/10000*10^6 with hx
  have hx0 : 0 ≤ x := by positivity
  have hfee : rebateFeeX18 makerRebateBps notional = ⌊x*10^12⌋ := by
    rw [rebateFeeX18, hx]
    congr 1
    ring
  obtain ⟨n, hn⟩ := Int.eq_ofNat_of_zero_le (Int.floor_nonneg.mpr
    (mul_nonneg hx0 (by norm_num : (0:ℚ) ≤ 10^12)))
  have howed : rebateOwed makerRebateBps notional = ((n/10^12 : ℕ):ℤ) := by
    have hfloor := Int.mul_natCast_floor_div_cancel (n := 10^12) (by norm_num) x
    rw [Nat.cast_pow, Nat.cast_ofNat, hn] at hfloor
    rw [rebateOwed, ← hx, trunc_eq_floor hx0, ← hfloor]
    norm_num
  rw [hfee, hn] at hfits
  rw [howed, hfee, hn]
  unfold Chain.toRawUsdcDelta
  dsimp only
  by_cases h0 : (n:ℤ) = 0
  · obtain rfl : n = 0 := by exact_mod_cast h0
    rfl
  rw [if_neg h0]
  by_cases hdust : (n:ℤ).natAbs/Chain.USDC_TO_X18 = 0
  · have hzero : n/10^12 = 0 := hdust
    rw [if_pos hdust, hzero]
    rfl
  have hraw : n/10^12 < 2^255 := by omega
  have hpos : (0:ℤ) < n := by omega
  rw [if_neg hdust]
  exact chain_ok_iff.mpr ⟨_, Chain.toInt256_eq_ok.mpr ⟨hraw, rfl⟩, if_pos hpos⟩

/-- The balance of a maker across a fill honours the rebate: it grows by it, and does not fall
where the settlement would credit the maker. -/
structure HonoursRebate (makerRebateBps : ℤ) (notional balance balance' : ℚ) : Prop where
  credited : makerRebateBps < 0 → balance' = balance+rebateOwed makerRebateBps notional
  not_debited : makerRebateBps < 0 → 0 < rebateOwed makerRebateBps notional → balance ≤ balance'

/-- The edge charges the rebate, so it is honoured where there is none to pay, or where the
clamp at zero lifts a balance that is negative by just the rebate. -/
def NoRebateToPay (makerRebateBps : ℤ) (notional balance : ℚ) : Prop :=
  makerRebateBps < 0 → notional = 0 ∨
    (rebateOwed makerRebateBps notional = 0 ∧ 0 ≤ balance) ∨
    (0 < rebateOwed makerRebateBps notional ∧ balance = -rebateOwed makerRebateBps notional)

/-- What the edge makes of a negative rebate. -/
theorem adjusted_rebate {makerRebateBps : ℤ} (hb : makerRebateBps < 0) {notional : ℚ}
    (hn : notional ≠ 0) (balance : ℚ) :
    adjusted balance (notional*makerRebateBps/10000) =
      if balance < rebateOwed makerRebateBps notional then 0
      else balance-rebateOwed makerRebateBps notional := by
  have hbq : (makerRebateBps:ℚ) < 0 := by exact_mod_cast hb
  have hne : notional*makerRebateBps/10000 ≠ 0 := by
    simp [hn, hb.ne]
  have htrunc : trunc (notional*makerRebateBps/10000*10^6) =
      -rebateOwed makerRebateBps notional := by
    rw [rebateOwed, ← trunc_neg, abs_of_neg hbq]
    congr 1
    ring
  rw [adjusted, if_neg hne, htrunc, Int.cast_neg, ← sub_eq_add_neg]
  simp only [sub_neg]

theorem honoursRebate_iff {makerRebateBps : ℤ} {notional balance : ℚ} :
    HonoursRebate makerRebateBps notional balance
        (adjusted balance (notional*makerRebateBps/10000)) ↔
      NoRebateToPay makerRebateBps notional balance := by
  by_cases hb : makerRebateBps < 0
  swap
  · exact ⟨fun _ h => absurd h hb, fun _ => ⟨fun h => absurd h hb, fun h => absurd h hb⟩⟩
  by_cases hn : notional = 0
  · subst hn
    have hzero : rebateOwed makerRebateBps 0 = 0 := by simp [rebateOwed, trunc]
    refine ⟨fun _ _ => Or.inl rfl, fun _ => ⟨?_, ?_⟩⟩
    · intro _
      simp [adjusted, hzero]
    · intro _ h
      exact absurd h hzero.not_gt
  -- the rebate is taken from the balance, which does not fall below zero
  rw [adjusted_rebate hb hn]
  set owed := rebateOwed makerRebateBps notional with howed
  constructor
  · intro h _
    have hcred := h.credited hb
    rw [← howed] at hcred
    split_ifs at hcred with hlt
    · have hbal : balance = -(owed:ℚ) := by linarith
      have hpos : (0:ℚ) < owed := by linarith
      exact Or.inr (Or.inr ⟨by exact_mod_cast hpos, hbal⟩)
    · have h0 : (owed:ℚ) = 0 := by linarith
      rw [h0, not_lt] at hlt
      exact Or.inr (Or.inl ⟨by exact_mod_cast h0, hlt⟩)
  · intro h
    rcases h hb with h0 | ⟨h0, hbal⟩ | ⟨hpos, hbal⟩
    · exact absurd h0 hn
    · have howed0 : (owed:ℚ) = 0 := by exact_mod_cast h0
      rw [howed0, if_neg hbal.not_gt, sub_zero]
      exact ⟨fun _ => by rw [← howed, howed0, add_zero], fun _ _ => le_rfl⟩
    · have hpos' : (0:ℚ) < owed := by exact_mod_cast hpos
      rw [if_pos (by linarith)]
      exact ⟨fun _ => by linarith, fun _ _ => by linarith⟩

/-- A sale so small that its rebate is less than a unit. -/
def dustTrade : List Cmd :=
  [.setVaultBalance 1 (10^12), .setVaultBalance 2 (10^12),
    .placeOrder (twoAccounts 0) 2 (btcOrder "sell" "limit" (some 100000) (1/10^12))]

end Perplex.Edge
