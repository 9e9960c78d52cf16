import Perplex.Accounting
import Perplex.ChainInvariant
import Perplex.EdgeScan

/-! Accounts with several positions. The documentation compares the account's equity with the
sum of its maintenance margins; the contracts and the edge compare the collateral with what
each position asks for, one at a time. The two disagree on the collateral between the largest
of these amounts and their sum. -/
namespace Perplex

namespace Chain.State
variable (s : State) (user : Address) (market : MarketId) (priceX18 : ℕ)

/-- The collateral of a user at 18 decimals. -/
def collateralX18 : ℕ := s.vault.balances user*USDC_TO_X18

def unrealisedPnlX18 : ℤ := (s.registry.positions user market).pnlAt priceX18

def maintenanceMarginX18 : ℕ :=
  match s.markets.params market with
  | some mp => (s.registry.positions user market).size.natAbs*priceX18/E18*mp.mmRatioBps/BPS
  | none => 0

/-- The collateral that a position asks for to be healthy by itself. -/
def requirementX18 : ℤ :=
  s.maintenanceMarginX18 user market priceX18-s.unrealisedPnlX18 user market priceX18

/-- No step of `healthFactor` leaves its type. -/
def HealthFits : Prop :=
  let p := s.registry.positions user market
  let equity := (s.collateralX18 user:ℤ)+s.unrealisedPnlX18 user market priceX18
  (∀ mp, s.markets.params market = some mp → p.size.natAbs*priceX18 < 2^256 ∧
    p.size.natAbs*priceX18/E18*mp.mmRatioBps < 2^256) ∧
  s.collateralX18 user < 2^255 ∧ p.PriceFits priceX18 ∧ InInt256 equity ∧
  equity.toNat*E18 < 2^256

variable {s user market priceX18}

/-- Equity over margin, scaled and floored, is below one exactly when equity is below
margin. -/
theorem scaled_ratio_lt {equity mm : ℕ} (hmm : mm ≠ 0) : equity*E18/mm < E18 ↔ equity < mm := by
  have hE : 0 < E18 := by decide
  rw [Nat.div_lt_iff_lt_mul (Nat.pos_of_ne_zero hmm), mul_comm E18 mm]
  exact Nat.mul_lt_mul_right hE

/-- A held position is liquidatable when it has a margin and asks for more than there is. -/
theorem healthFactor_lt_one (hsize : (s.registry.positions user market).size ≠ 0) :
    (∃ hf, s.healthFactor user market priceX18 = .ok hf ∧ hf < E18) ↔
      s.HealthFits user market priceX18 ∧ s.maintenanceMarginX18 user market priceX18 ≠ 0 ∧
      (s.collateralX18 user:ℤ) < s.requirementX18 user market priceX18 := by
  have hmax : ¬ UINT_MAX < E18 := by decide
  have hzero : 0 < E18 := by decide
  unfold HealthFits requirementX18 maintenanceMarginX18 collateralX18 unrealisedPnlX18
  cases hmp : s.markets.params market with
  | none =>
    -- `getParams` reverts
    simp only [healthFactor_eq_ok hsize, hmp, ne_eq, not_true_eq_false, false_and, and_false,
      reduceCtorEq, exists_false]
  | some mp =>
    simp only [healthFactor_eq_ok hsize, hmp, Option.some.injEq, exists_eq_left', forall_eq']
    -- what follows depends on margin and PnL only as numbers
    generalize (s.registry.positions user market).size.natAbs*priceX18/E18*mp.mmRatioBps/BPS = mm
    generalize (s.registry.positions user market).pnlAt priceX18 = pnl
    constructor
    · rintro ⟨hf, ⟨hn, hm, h⟩, hlt⟩
      rcases h with ⟨-, rfl⟩ | ⟨hmm, hbal, hfits, heq, h⟩
      · -- a margin of zero makes the health factor the largest number there is
        exact absurd hlt hmax
      · rcases h with ⟨hneg, -⟩ | ⟨hpos, hE, rfl⟩
        · refine ⟨⟨⟨hn, hm⟩, hbal, hfits, heq, ?_⟩, hmm, by omega⟩
          rw [Int.toNat_of_nonpos hneg, zero_mul]
          positivity
        · have hless := (scaled_ratio_lt hmm).mp hlt
          exact ⟨⟨⟨hn, hm⟩, hbal, hfits, heq, hE⟩, hmm, by omega⟩
    · rintro ⟨⟨⟨hn, hm⟩, hbal, hfits, heq, hE⟩, hmm, hlt⟩
      rcases le_or_gt ((s.vault.balances user*USDC_TO_X18 : ℕ)+pnl) 0 with hneg | hpos
      · -- without equity the factor is zero, whatever the margin
        exact ⟨0, ⟨hn, hm, Or.inr ⟨hmm, hbal, hfits, heq, Or.inl ⟨hneg, rfl⟩⟩⟩, hzero⟩
      · refine ⟨_, ⟨hn, hm, Or.inr ⟨hmm, hbal, hfits, heq, Or.inr ⟨hpos, hE, rfl⟩⟩⟩, ?_⟩
        rw [scaled_ratio_lt hmm]
        omega

/-- The collateral lies between the largest requirement of a position that can be judged and
the sum of all requirements. -/
def InGap (s : State) (user : Address) (price : MarketId → ℕ) : Prop :=
  (s.collateralX18 user:ℤ) < ∑ m, s.requirementX18 user m (price m) ∧
    ∀ m, (s.registry.positions user m).size ≠ 0 → s.HealthFits user m (price m) →
      s.maintenanceMarginX18 user m (price m) ≠ 0 →
      s.requirementX18 user m (price m) ≤ s.collateralX18 user

theorem below_margin_iff (s : State) (user : Address) (price : MarketId → ℕ) :
    ((s.collateralX18 user:ℤ)+∑ m, s.unrealisedPnlX18 user m (price m) <
        ∑ m, (s.maintenanceMarginX18 user m (price m):ℤ) →
      ∃ m, (s.registry.positions user m).size ≠ 0 ∧
        ∃ hf, s.healthFactor user m (price m) = .ok hf ∧ hf < E18) ↔ ¬ s.InGap user price := by
  have hsum : (s.collateralX18 user:ℤ)+∑ m, s.unrealisedPnlX18 user m (price m) <
      ∑ m, (s.maintenanceMarginX18 user m (price m):ℤ) ↔
        (s.collateralX18 user:ℤ) < ∑ m, s.requirementX18 user m (price m) := by
    unfold requirementX18
    rw [Finset.sum_sub_distrib, lt_sub_iff_add_lt]
  have hone : (∃ m, (s.registry.positions user m).size ≠ 0 ∧
      ∃ hf, s.healthFactor user m (price m) = .ok hf ∧ hf < E18) ↔
        ∃ m, (s.registry.positions user m).size ≠ 0 ∧ s.HealthFits user m (price m) ∧
          s.maintenanceMarginX18 user m (price m) ≠ 0 ∧
          (s.collateralX18 user:ℤ) < s.requirementX18 user m (price m) :=
    exists_congr fun m => and_congr_right fun hm => healthFactor_lt_one hm
  rw [hsum, hone, InGap]
  push Not
  rfl

end Chain.State

namespace Edge.AppState

/-- The collateral lies between the largest requirement of a position and the sum of all
requirements. -/
def InGap (s : AppState) (address : Address) : Prop :=
  s.vaultBalances address/10^6 < ((s.priced address).map LiqInputs.requirement).sum ∧
    ∀ i ∈ s.priced address,
      (0 < i.maintenanceMargin → i.requirement ≤ s.vaultBalances address/10^6) ∧
      (i.maintenanceMargin < 0 → s.vaultBalances address/10^6 ≤ i.requirement)

theorem sum_requirement (l : List LiqInputs) : (l.map LiqInputs.requirement).sum =
    (l.map LiqInputs.maintenanceMargin).sum-(l.map LiqInputs.unrealisedPnl).sum := by
  have hparts : l.map LiqInputs.maintenanceMargin =
      l.map fun i => i.requirement+i.unrealisedPnl := by
    apply List.map_congr_left
    intro i _
    exact (sub_add_cancel _ _).symm
  rw [hparts, List.sum_map_add, add_sub_cancel_right]

theorem below_margin_iff (s : AppState) (address : Address) {keys : List Address}
    (hkeys : ∀ a, s.positions a ≠ [] → a ∈ keys) :
    (s.vaultBalances address/10^6+((s.priced address).map LiqInputs.unrealisedPnl).sum <
        ((s.priced address).map LiqInputs.maintenanceMargin).sum →
      ∃ l ∈ s.scanLiquidatable keys, l.address = address) ↔ ¬ s.InGap address := by
  -- the scan visits the account, since it has positions
  have hkey : (∃ p ∈ s.positions address, ∃ h, s.positionHealth address p = some h ∧ h < 1) →
      address ∈ keys := by
    intro h
    obtain ⟨p, hp, -⟩ := h
    exact hkeys address (List.ne_nil_of_mem hp)
  rw [mem_scanLiquidatable, and_iff_right_of_imp hkey, exists_unhealthy_iff, InGap,
    sum_requirement, lt_sub_iff_add_lt]
  simp only [or_iff_not_imp_left]
  push Not
  rfl

end Edge.AppState

namespace Chain

/-- User 101 deposits ten dollars and buys a contract at 100 in each of two markets. -/
def twoLongs : List Call :=
  funded (10*10^6) (1000*10^6)++[Call.listMarket 1 2 btcParams,
    Call.oracleAnswer 2 (some (100*10^18)),
    Call.applyBatch firstTrade 0 0 8 0,
    Call.applyBatch [⟨101, 2, 10^18, 100*10^18, 0⟩, ⟨102, 2, -10^18, 100*10^18, 0⟩] 1 0 8 0]

/-- Both markets at 93. -/
def dropped : MarketId → ℕ := fun _ => 93*10^18

/-- Three dollars of equity against a margin of 2.325, in either market. -/
theorem twoLongs_healthFactor :
    (devnetAfter twoLongs).healthFactor 101 1 (dropped 1) = .ok 1290322580645161290 ∧
      (devnetAfter twoLongs).healthFactor 101 2 (dropped 2) = .ok 1290322580645161290 := by
  decide +kernel

/-- The user holds nothing in any other market. -/
theorem twoLongs_held {m : MarketId} (h : m ≠ 1 ∧ m ≠ 2) :
    ((devnetAfter twoLongs).registry.positions 101 m).size = 0 := by
  have hposs : ∀ c ∈ twoLongs, c.Possible devnet := by decide +kernel
  have htracked := (reachable_devnetAfter hposs).consistent.tracked
  have hlist : (devnetAfter twoLongs).registry.userMarkets 101 = [1, 2] := by decide +kernel
  by_contra hsize
  have hmem := (htracked.mem_iff 101 m).mpr hsize
  rw [hlist] at hmem
  simp [h.1, h.2] at hmem

end Chain

namespace Edge

/-- Ten dollars, long in bitcoin from 100000 and in ether from 3500, both below that now. -/
def twoLongs : AppState :=
  { AppState.new with
    vaultBalances := fun _ => 10*10^6
    positions := Function.update (fun _ => []) 1
      [⟨"btc-usd", 1/1000, .long, 100000*10^18, 0, 0, 0, 0, 1, 0, 0, 0⟩,
        ⟨"eth-usd", 2/100, .long, 3500*10^18, 0, 0, 0, 0, 1, 0, 0, 0⟩]
    oraclePrices := fun id => if id = "btc-usd" then some (93000*10^18)
      else if id = "eth-usd" then some (3185*10^18) else none }

theorem twoLongs_keys (a : Address) (h : twoLongs.positions a ≠ []) :
    a ∈ (twoAccounts 0).keys := by
  by_contra hne
  have ha : a ≠ 1 := fun he => hne (he ▸ List.mem_cons_self)
  apply h
  unfold twoLongs
  simp [Function.update_of_ne ha]

end Edge

end Perplex
