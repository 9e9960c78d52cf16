import Perplex.ChainConservation

/-! Funding nets to dust. Every user settles lazily and truncated; against the exact amounts
the error is below one unit for each settlement. The exact amounts cancel, because a market's
sizes add up to zero whenever its index moves. -/
namespace Perplex.Chain

/-- Two fills of opposite sizes in one market, or a funding update. -/
inductive PairedCall where
  | pairedFill (markets : Markets) (sender : Address) (market : MarketId) (a b : Address)
    (size : ℤ) (priceA priceB : ℕ)
  | updateFunding (sender : Address) (market : MarketId) (newCumulativeIndex : ℤ)

/-- Per market, the sum of the funding cash flows returned and the number of fills. -/
structure FundingLedger where
  paid : MarketId → ℤ
  fills : MarketId → ℕ

namespace FundingLedger

def new : FundingLedger := ⟨fun _ => 0, fun _ => 0⟩

def record (l : FundingLedger) (market : MarketId) (fundingDelta : ℤ) : FundingLedger where
  paid := Function.update l.paid market (l.paid market+fundingDelta)
  fills := Function.update l.fills market (l.fills market+1)

end FundingLedger

namespace Registry

/-- Both fills of a pair, or neither, with their cash flows entered in the ledger. -/
def execPaired (d : Deployment) (x : Registry × FundingLedger) :
    PairedCall → Tx (Registry × FundingLedger)
  | .pairedFill markets sender market a b size priceA priceB => do
    let (_,fundingA,r) ← x.1.applyFill d markets sender a market size priceA
    let (_,fundingB,r) ← r.applyFill d markets sender b market (-size) priceB
    return (r,(x.2.record market fundingA).record market fundingB)
  | .updateFunding sender market newCumulativeIndex => do
    let r ← x.1.updateFunding d sender market newCumulativeIndex
    return (r,x.2)

/-- The exact funding that a position is still to be paid. -/
def owed (r : Registry) (market : MarketId) (u : Address) : ℚ :=
  -((r.marketIndexFunding market:ℚ)-(r.positions u market).cumulativeFunding)*
    (r.positions u market).size/E18

/-- The truncated payment is within one unit of what is owed. -/
theorem abs_fundingAt_sub_owed (r : Registry) (market : MarketId) (u : Address) :
    |((r.positions u market).fundingAt (r.marketIndexFunding market):ℚ)-r.owed market u| ≤ 1 := by
  have herr := (r.positions u market).fundingAt_error (r.marketIndexFunding market)
  have heq : r.owed market u = -(((r.marketIndexFunding market:ℚ)-
      (r.positions u market).cumulativeFunding)*(r.positions u market).size/E18) := by
    unfold owed
    ring
  rw [heq, sub_neg_eq_add]
  exact herr

theorem owed_of_size_zero {r : Registry} {market : MarketId} {u : Address}
    (h : (r.positions u market).size = 0) :
    r.owed market u = 0 ∧ (r.positions u market).fundingAt (r.marketIndexFunding market) = 0 := by
  simp [owed, Position.fundingAt, h]

/-- What was paid and what is exactly owed cancel, up to one unit for each fill. -/
def PaidUp (x : Registry × FundingLedger) (market : MarketId) : Prop :=
  |(x.2.paid market:ℚ)+∑ u, x.1.owed market u| ≤ x.2.fills market

variable {d : Deployment} {r r' : Registry} {ms : Markets} {sender user : Address}
  {market : MarketId} {sizeDelta realised funding : ℤ} {priceX18 : ℕ} {l : FundingLedger}

/-- A fill settles what its user is owed in its market and nothing else. -/
theorem FillStep.owed_eq
    (h : r.FillStep ms user market sizeDelta priceX18 realised funding r') (m : MarketId)
    (u : Address) : r'.owed m u = if u = user ∧ m = market then 0 else r.owed m u := by
  obtain ⟨p, hstep, hpos⟩ := h.position
  unfold owed
  rw [hpos, h.index_eq, update₂_apply]
  split_ifs with hum
  · -- the fill sets the snapshot of its position to the current index
    obtain ⟨rfl, rfl⟩ := hum
    have hidx : p.dropEntry.cumulativeFunding = r.marketIndexFunding m := by
      unfold Position.dropEntry
      split_ifs
      · exact hstep.funding_eq
      · exact hstep.funding_eq
    rw [hidx, sub_self]
    simp
  · rfl

theorem FillStep.paidUp
    (h : r.FillStep ms user market sizeDelta priceX18 realised funding r')
    (hx : ∀ m, PaidUp (r,l) m) (m : MarketId) : PaidUp (r',l.record market funding) m := by
  have hm := hx m
  unfold PaidUp FundingLedger.record at *
  by_cases hmk : m = market
  · subst hmk
    -- one summand goes from what was owed to zero, and the payment is within a unit of it
    have hsum := sum_sub_sum_of_eq_off (fun u => r'.owed m u) (fun u => r.owed m u) user
      (fun u hu => by rw [h.owed_eq, if_neg (fun he => hu he.1)])
    simp only [h.owed_eq m user, and_self, if_true] at hsum
    have herr := r.abs_fundingAt_sub_owed m user
    rw [← h.funding_eq] at herr
    simp only [Function.update_self]
    push_cast
    rw [abs_le] at *
    constructor <;> linarith
  · have hsame : ∀ u, r'.owed m u = r.owed m u := by
      intro u
      rw [h.owed_eq, if_neg (fun he => hmk he.2)]
    simp only [Function.update_of_ne hmk, hsame]
    exact hm

/-- Moving an index shifts what is owed within its market, as long as sizes cancel. -/
theorem owed_updateIndex (hnet : ∑ u, (r.positions u market).size = 0) (newIndex : ℤ)
    (m : MarketId) :
    ∑ u, Registry.owed { r with
      marketIndexFunding := Function.update r.marketIndexFunding market newIndex } m u =
      ∑ u, r.owed m u := by
  by_cases hm : m = market
  · subst hm
    -- every user is shifted by the same amount for each unit of size
    have hterm : ∀ u, Registry.owed { r with
        marketIndexFunding := Function.update r.marketIndexFunding m newIndex } m u-r.owed m u =
        ((r.positions u m).size:ℚ)*(((r.marketIndexFunding m:ℚ)-newIndex)/E18) := by
      intro u
      simp only [owed, Function.update_self]
      ring
    have hcast : ∑ u, ((r.positions u m).size:ℚ) = 0 := by exact_mod_cast hnet
    rw [← sub_eq_zero, ← Finset.sum_sub_distrib, Finset.sum_congr rfl (fun u _ => hterm u),
      ← Finset.sum_mul, hcast, zero_mul]
  · simp only [owed, Function.update_of_ne hm]

/-- What a paired run keeps in every market. -/
structure Netted (x : Registry × FundingLedger) : Prop where
  sizes : ∀ market, ∑ u, (x.1.positions u market).size = 0
  paid : ∀ market, PaidUp x market

theorem execPaired_netted {x x' : Registry × FundingLedger} {c : PairedCall} (h : Netted x)
    (he : execPaired d x c = .ok x') : Netted x' := by
  cases c with
  | pairedFill ms sender market a b size priceA priceB =>
    simp only [execPaired, chain_ok_iff, Prod.exists, tx_pure_eq_ok] at he
    obtain ⟨_, fundingA, r₁, h₁, _, fundingB, r₂, h₂, rfl⟩ := he
    have hfirst := applyFill_ok h₁
    have hsecond := applyFill_ok h₂
    refine ⟨?_, hsecond.paidUp (hfirst.paidUp h.paid)⟩
    intro m
    -- the two sizes of a pair cancel
    rw [hsecond.sum_size m, hfirst.sum_size m, h.sizes m]
    split_ifs
    · ring
    · ring
  | updateFunding sender market newIndex =>
    simp only [execPaired, chain_ok_iff, updateFunding_eq_ok, tx_pure_eq_ok] at he
    obtain ⟨_, ⟨-, rfl⟩, rfl⟩ := he
    refine ⟨h.sizes, ?_⟩
    intro m
    unfold PaidUp
    rw [owed_updateIndex (h.sizes market) newIndex m]
    exact h.paid m

theorem run_netted (d : Deployment) (calls : List PairedCall) :
    Netted (runAll (execPaired d) (new,FundingLedger.new) calls) := by
  have hall : ∀ c ∈ calls, True := fun _ _ => trivial
  refine runAll_invariant (fun _ _ _ hx _ he => execPaired_netted hx he) ?_ hall
  exact ⟨fun market => by simp [new], fun market => by
    simp [PaidUp, new, FundingLedger.new, owed]⟩

/-- The users with an open position in the market. -/
def openPositions (r : Registry) (market : MarketId) : Finset Address :=
  Finset.univ.filter fun u => (r.positions u market).size ≠ 0

end Registry

/-- In every market and after every paired run, the funding cash flows paid so far and the
truncated ones that the open positions would be paid now add up to at most one unit for each
fill of the market and each of its open positions. -/
theorem funding_nets_to_dust (d : Deployment) (calls : List PairedCall) (market : MarketId) :
    let x := runAll (Registry.execPaired d) (Registry.new,FundingLedger.new) calls
    |x.2.paid market+∑ u ∈ x.1.openPositions market,
        -(((x.1.marketIndexFunding market-(x.1.positions u market).cumulativeFunding)*
          (x.1.positions u market).size).tdiv E18)| ≤
      x.2.fills market+(x.1.openPositions market).card := by
  intro x
  have hpaid : Registry.PaidUp x market := (Registry.run_netted d calls).paid market
  clear_value x
  have hzero : ∀ u, u ∉ x.1.openPositions market → (x.1.positions u market).size = 0 := by
    intro u hu
    simpa [Registry.openPositions] using hu
  -- users without a position are paid nothing, so the sum may run over all users
  have hopen : ∑ u ∈ x.1.openPositions market,
      -(((x.1.marketIndexFunding market-(x.1.positions u market).cumulativeFunding)*
        (x.1.positions u market).size).tdiv E18) =
      ∑ u, (x.1.positions u market).fundingAt (x.1.marketIndexFunding market) := by
    apply Finset.sum_subset (Finset.subset_univ _)
    intro u _ hu
    exact (Registry.owed_of_size_zero (hzero u hu)).2
  have hcard := abs_sum_sub_sum_le_card
    (f := fun u => ((x.1.positions u market).fundingAt (x.1.marketIndexFunding market):ℚ))
    (g := fun u => x.1.owed market u) (s := x.1.openPositions market)
    (fun u hu => by
      obtain ⟨ho, hf⟩ := Registry.owed_of_size_zero (hzero u hu)
      rw [ho, hf, Int.cast_zero])
    (fun u _ => x.1.abs_fundingAt_sub_owed market u)
  rw [hopen]
  -- the two errors add up: one unit a fill so far, one a position to come
  have hq : |(x.2.paid market:ℚ)+∑ u, ((x.1.positions u market).fundingAt
      (x.1.marketIndexFunding market):ℚ)| ≤
      x.2.fills market+((x.1.openPositions market).card:ℚ) := by
    unfold Registry.PaidUp at hpaid
    rw [abs_le] at *
    constructor <;> linarith
  exact_mod_cast hq

end Perplex.Chain
