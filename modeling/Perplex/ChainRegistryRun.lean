import Perplex.Accounting
import Perplex.ChainTracking

/-! Runs of the position registry on its own: fills by either engine for any users and
markets, and funding updates, while the market registry changes as it likes. -/
namespace Perplex.Chain

/-- A call to the registry; `markets` is the market registry at the time of the fill. -/
inductive RegistryCall where
  | applyFill (markets : Markets) (sender user : Address) (market : MarketId)
    (sizeDelta : ℤ) (priceX18 : ℕ)
  | updateFunding (sender : Address) (market : MarketId) (newCumulativeIndex : ℤ)

namespace Registry

/-- The registry right after deployment. -/
def new : Registry := ⟨fun _ _ => ⟨0, 0, 0⟩, fun _ => [], fun _ _ => 0, fun _ => 0⟩

def exec (d : Deployment) (r : Registry) : RegistryCall → Tx Registry
  | .applyFill markets sender user market sizeDelta priceX18 => do
    let (_,_,r) ← r.applyFill d markets sender user market sizeDelta priceX18
    return r
  | .updateFunding sender market newCumulativeIndex =>
    r.updateFunding d sender market newCumulativeIndex

variable {r r' : Registry} {d : Deployment}

theorem exec_applyFill_eq_ok {ms : Markets} {sender user : Address} {market : MarketId}
    {sizeDelta : ℤ} {priceX18 : ℕ} :
    r.exec d (.applyFill ms sender user market sizeDelta priceX18) = .ok r' ↔
      ∃ realised funding, r.applyFill d ms sender user market sizeDelta priceX18 =
        .ok (realised,funding,r') := by
  simp only [exec, chain_ok_iff, Prod.exists, tx_pure_eq_ok]
  constructor
  · rintro ⟨realised, funding, _, h, rfl⟩
    exact ⟨realised, funding, h⟩
  · rintro ⟨realised, funding, h⟩
    exact ⟨realised, funding, r', h, rfl⟩

theorem updateFunding_eq_ok {sender : Address} {market : MarketId} {newIndex : ℤ} :
    r.updateFunding d sender market newIndex = .ok r' ↔
      (sender = d.fundingEngine ∨ sender = d.owner) ∧ { r with
        marketIndexFunding := Function.update r.marketIndexFunding market newIndex } = r' := by
  simp only [updateFunding, chain_ok_iff, ensure_eq_ok, and_true, exists_const, tx_pure_eq_ok]

/-- A fill moves the sum of the sizes of its market by what it adds to one of them. -/
theorem FillStep.sum_size {ms : Markets} {user : Address} {market : MarketId} {priceX18 : ℕ}
    {sizeDelta realised funding : ℤ}
    (h : r.FillStep ms user market sizeDelta priceX18 realised funding r') (m : MarketId) :
    ∑ u, (r'.positions u m).size =
      ∑ u, (r.positions u m).size+(if market = m then sizeDelta else 0) := by
  obtain ⟨p, hstep, hpos⟩ := h.position
  rw [hpos]
  split_ifs with hm
  · subst hm
    have hsum := sum_sub_sum_of_eq_off
      (fun u => (update₂ r.positions user market p.dropEntry u market).size)
      (fun u => (r.positions u market).size) user
      (fun u hu => by rw [update₂_apply, if_neg (fun he => hu he.1)])
    rw [update₂_same, Position.dropEntry_size, hstep.size_eq] at hsum
    linarith
  · rw [add_zero]
    apply Finset.sum_congr rfl
    intro u _
    rw [update₂_apply, if_neg (fun he => hm he.2.symm)]

/-- A position has an entry price exactly when it has a size. -/
def EntriesKept (r : Registry) : Prop :=
  ∀ u m, (r.positions u m).entryPriceX18 ≠ 0 ↔ (r.positions u m).size ≠ 0

/-- The average of two positive prices does not round to zero. -/
theorem average_pos {size sizeDelta : ℤ} {entry price : ℕ} (h0 : size+sizeDelta ≠ 0)
    (hentry : 0 < entry) (hprice : 0 < price) :
    0 < (size.natAbs*entry+sizeDelta.natAbs*price)/(size+sizeDelta).natAbs := by
  have hpos : 0 < (size+sizeDelta).natAbs := Int.natAbs_pos.mpr h0
  apply Nat.div_pos _ hpos
  calc (size+sizeDelta).natAbs ≤ size.natAbs+sizeDelta.natAbs := Int.natAbs_add_le _ _
    _ ≤ size.natAbs*entry+sizeDelta.natAbs*price :=
      Nat.add_le_add (Nat.le_mul_of_pos_right _ hentry) (Nat.le_mul_of_pos_right _ hprice)

/-- A fill at a positive price gives an open position a positive entry. -/
theorem vwapStep_entry_pos {p p' : Position} {sizeDelta realised : ℤ} {priceX18 : ℕ}
    (h : Position.VwapStep p sizeDelta priceX18 realised p') (hprice : 0 < priceX18)
    (hentry : p.size ≠ 0 → 0 < p.entryPriceX18) (hsize : p'.size ≠ 0) :
    0 < p'.entryPriceX18 := by
  cases h with
  | close _ => exact absurd rfl hsize
  | openNew _ _ => exact hprice
  | add hold h0 _ => exact average_pos h0 (hentry hold) hprice
  | flip _ _ _ _ => exact hprice
  | reduce hold _ _ _ => exact hentry hold

theorem applyFill_entriesKept {ms : Markets} {sender user : Address} {market : MarketId}
    {sizeDelta realised funding : ℤ} {priceX18 : ℕ} (hr : r.EntriesKept)
    (h : r.applyFill d ms sender user market sizeDelta priceX18 = .ok (realised,funding,r')) :
    r'.EntriesKept := by
  have hstep := applyFill_ok h
  obtain ⟨p, hvwap, hpos⟩ := hstep.position
  intro u m
  rw [hpos, update₂_apply]
  split_ifs with hum
  · obtain ⟨rfl, rfl⟩ := hum
    by_cases hz : p.size = 0
    · -- a position that closes drops its entry price with its size
      simp [Position.dropEntry, hz]
    · have hentry : 0 < p.entryPriceX18 := by
        apply vwapStep_entry_pos hvwap hstep.price_pos _ hz
        exact fun hs => Nat.pos_of_ne_zero ((hr u m).mpr hs)
      simp only [Position.dropEntry, hz, if_false]
      exact ⟨fun _ => hz, fun _ => hentry.ne'⟩
  · exact hr u m

/-- What every state of the registry keeps. -/
structure Wellformed (r : Registry) : Prop where
  tracked : r.Tracked
  entries : r.EntriesKept

theorem new_wellformed : new.Wellformed where
  tracked := ⟨fun u a k => by simp [new], fun u m => by simp [new]⟩
  entries := fun u m => by simp [new]

theorem exec_wellformed {c : RegistryCall} (hr : r.Wellformed) (h : r.exec d c = .ok r') :
    r'.Wellformed := by
  cases c with
  | applyFill ms sender user market sizeDelta priceX18 =>
    obtain ⟨realised, funding, h⟩ := exec_applyFill_eq_ok.mp h
    exact ⟨applyFill_tracked hr.tracked h, applyFill_entriesKept hr.entries h⟩
  | updateFunding sender market newIndex =>
    obtain ⟨-, rfl⟩ := updateFunding_eq_ok.mp h
    exact ⟨⟨hr.tracked.inverse, hr.tracked.held⟩, hr.entries⟩

theorem run_wellformed (d : Deployment) (calls : List RegistryCall) :
    (runAll (exec d) new calls).Wellformed := by
  have hall : ∀ c ∈ calls, True := fun _ _ => trivial
  exact runAll_invariant (fun _ _ _ hr _ h => exec_wellformed hr h) new_wellformed hall

end Registry

/-- In every state the registry can reach, each user's list holds the markets with a
position, each once, the index table gives their 1-based places, and exactly the open
positions have an entry price. -/
theorem registry_lists_and_entries (d : Deployment) (calls : List RegistryCall)
    (user : Address) :
    let r := runAll (Registry.exec d) Registry.new calls
    (r.userMarkets user).Nodup ∧
      (∀ m, m ∈ r.userMarkets user ↔ (r.positions user m).size ≠ 0) ∧
      (∀ m, r.userMarketIndexPlusOne user m = 0 ↔ m ∉ r.userMarkets user) ∧
      (∀ m i, r.userMarketIndexPlusOne user m = i+1 ↔ (r.userMarkets user)[i]? = some m) ∧
      ∀ m, (r.positions user m).entryPriceX18 ≠ 0 ↔ (r.positions user m).size ≠ 0 := by
  intro r
  have h : r.Wellformed := Registry.run_wellformed d calls
  refine ⟨(h.tracked.inverse user).nodup, h.tracked.mem_iff user, ?_,
    h.tracked.inverse user, h.entries user⟩
  intro m
  rw [(h.tracked.inverse user).mem_iff m, not_not]

end Perplex.Chain
