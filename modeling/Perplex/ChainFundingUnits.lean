import Mathlib.Algebra.Order.Field.Rat
import Mathlib.Algebra.Order.Field.Basic
import Mathlib.Tactic.FieldSimp
import Mathlib.Tactic.LinearCombination
import Perplex.ChainForced
import Perplex.ChainWithdrawGate

/-! What a funding tick charges. The documentation adds the rate times the mark price to the
index; `applyFunding` adds the rate alone, and the registry multiplies the index by the size.
The price of the asset enters nowhere. -/
namespace Perplex.Chain

/-- The call neither fills nor closes the position, nor sets the index of its market. -/
def Call.Leaves (user : Address) (market : MarketId) (c : Call) : Prop :=
  (user,market) ∉ c.touched ∧ ∀ sender idx, c ≠ .updateFunding sender market idx

/-- The premium of a tick with the oracle price it finds. -/
def Call.tick (s : State) (market : MarketId) : Call → List (ℤ × ℕ)
  | .applyFunding _ mk premium _ => if mk = market then [(premium,s.markOf market)] else []
  | _ => []

/-- The funding ticks of a market that go through in a run. -/
def fundingTicks (d : Deployment) (market : MarketId) : State → List Call → List (ℤ × ℕ)
  | _, [] => []
  | s, c :: calls =>
    match exec d s c with
    | .ok s' => c.tick s market++fundingTicks d market s' calls
    | .error _ => fundingTicks d market s calls

section Ticks
variable {d : Deployment} {s s' : State} {user : Address} {market : MarketId}

/-- A tick adds the premium to the index. -/
theorem applyFunding_index {sender : Address} {mk : MarketId} {premium : ℤ} {now : ℕ}
    (h : s.applyFunding d sender mk premium now = .ok s') :
    s'.registry.positions = s.registry.positions ∧ s'.registry.marketIndexFunding =
      Function.update s.registry.marketIndexFunding mk
        (s.registry.marketIndexFunding mk+premium) := by
  simp only [State.applyFunding, Registry.updateFunding] at h
  split_ifs at h
  all_goals
    simp only [chain_ok_iff, ensure_eq_ok, and_true, exists_const, tx_pure_eq_ok, addI_eq_ok] at h
  · obtain ⟨-, -, -, _, -, -, _, ⟨-, rfl⟩, _, ⟨-, rfl⟩, rfl⟩ := h
    exact ⟨rfl, rfl⟩
  · obtain ⟨-, -, -, _, ⟨-, rfl⟩, _, ⟨-, rfl⟩, rfl⟩ := h
    exact ⟨rfl, rfl⟩

/-- One call that leaves the position alone moves the index by its tick. -/
theorem exec_leaves {c : Call} (hc : c.Possible d) (hl : c.Leaves user market)
    (he : exec d s c = .ok s') :
    s'.registry.positions user market = s.registry.positions user market ∧
    s'.registry.marketIndexFunding market =
      s.registry.marketIndexFunding market+((c.tick s market).map Prod.fst).sum := by
  have hfilled (hidx : ∀ sender mk idx, c ≠ .updateFunding sender mk idx)
      (htick : ∀ sender mk premium now, c ≠ .applyFunding sender mk premium now)
      (hnone : c.tick s market = []) :
      s'.registry.positions user market = s.registry.positions user market ∧
      s'.registry.marketIndexFunding market =
        s.registry.marketIndexFunding market+((c.tick s market).map Prod.fst).sum := by
    obtain ⟨hindex, hpos⟩ := (exec_touches hc hidx htick he).frame
    exact ⟨hpos user market hl.1, by simp [hindex, hnone]⟩
  cases c with
  | applyFunding sender mk premium now =>
    -- a tick of another market counts nothing here and moves another index
    obtain ⟨hpos, hindex⟩ := applyFunding_index he
    refine ⟨by rw [hpos], ?_⟩
    rw [hindex]
    by_cases hm : mk = market
    · subst hm
      simp [Call.tick]
    · simp [Call.tick, hm, Function.update_of_ne (Ne.symm hm)]
  | updateFunding sender mk idx =>
    -- an update of another market
    have hne : market ≠ mk := fun hm => hl.2 sender idx (by rw [hm])
    simp only [exec, Registry.updateFunding, chain_ok_iff, tx_pure_eq_ok] at he
    obtain ⟨_, ⟨-, -, rfl⟩, rfl⟩ := he
    exact ⟨rfl, by simp [Call.tick, Function.update_of_ne hne]⟩
  | _ => exact hfilled (by simp) (by simp) rfl

/-- A run that leaves the position alone moves the index by the sum of its premiums. -/
theorem run_leaves {calls : List Call} (hcalls : ∀ c ∈ calls, c.Possible d ∧ c.Leaves user market) :
    (runAll (exec d) s calls).registry.positions user market = s.registry.positions user market ∧
    (runAll (exec d) s calls).registry.marketIndexFunding market =
      s.registry.marketIndexFunding market+((fundingTicks d market s calls).map Prod.fst).sum := by
  induction calls generalizing s with
  | nil => simp [runAll, fundingTicks]
  | cons c calls ih =>
    obtain ⟨hc, hl⟩ := hcalls c List.mem_cons_self
    have hrest (s : State) := ih (s := s) fun c' hc' => hcalls c' (List.mem_cons_of_mem _ hc')
    change (runAll (exec d) (attempt (exec d) s c) calls).registry.positions user market = _ ∧
      (runAll (exec d) (attempt (exec d) s c) calls).registry.marketIndexFunding market = _
    cases he : exec d s c with
    | error e =>
      simp only [attempt, fundingTicks, he]
      exact hrest s
    | ok s' =>
      obtain ⟨hpos, hindex⟩ := exec_leaves hc hl he
      obtain ⟨hpos', hindex'⟩ := hrest s'
      simp only [attempt, fundingTicks, he, List.map_append, List.sum_append]
      rw [hpos', hpos, hindex', hindex, add_assoc]
      exact ⟨rfl, rfl⟩

end Ticks

/-- How far the charge is from premium times notional, in units of `1e-36`: the size times the
premiums times what each price differs from one, and what the division cuts off. -/
def chargeError (size : ℤ) (ticks : List (ℤ × ℕ)) : ℤ :=
  size*(ticks.map fun t => t.1*((t.2:ℤ)-10^18)).sum+
    10^18*((ticks.map Prod.fst).sum*size).tmod (10^18)

theorem sum_price_excess (ticks : List (ℤ × ℕ)) :
    (ticks.map fun t => t.1*((t.2:ℤ)-10^18)).sum =
      (ticks.map fun t => t.1*(t.2:ℤ)).sum-10^18*(ticks.map Prod.fst).sum := by
  induction ticks with
  | nil => simp
  | cons t ticks ih =>
    simp only [List.map_cons, List.sum_cons, ih]
    ring

theorem charge_sub_notional (size : ℤ) (ticks : List (ℤ × ℕ)) :
    ((-(((ticks.map Prod.fst).sum*size).tdiv E18) : ℤ):ℚ)-
      -(((ticks.map fun t => t.1*(t.2:ℤ)).sum*size : ℤ):ℚ)/10^36 =
        (chargeError size ticks:ℚ)/10^36 := by
  unfold chargeError
  rw [sum_price_excess]
  generalize (ticks.map Prod.fst).sum = premium
  generalize (ticks.map fun t => t.1*(t.2:ℤ)).sum = priced
  have hE : (E18:ℤ) = 10^18 := by norm_num [E18]
  rw [hE]
  have heq := Int.mul_tdiv_add_tmod (premium*size) (10^18)
  generalize (premium*size).tdiv (10^18) = charge at *
  generalize (premium*size).tmod (10^18) = rest at *
  have hcast : (premium:ℚ)*size = 10^18*charge+rest := by exact_mod_cast heq.symm
  push_cast
  field_simp
  linear_combination 10^18*hcast

/-- For every run of funding ticks and other calls that leaves a position alone since its last
touch, the cash flow of the next fill is minus premium times notional, up to one unit and one
more per tick, exactly when the premiums, the prices and the size keep the error in that
bound; the prices have no part in what is charged. -/
theorem funding_charges_notional_iff {d : Deployment} {s : State} {user : Address}
    {market : MarketId} {calls : List Call}
    (hcalls : ∀ c ∈ calls, c.Possible d ∧ c.Leaves user market)
    (hcurrent : (s.registry.positions user market).cumulativeFunding =
      s.registry.marketIndexFunding market)
    {ms : Markets} {sender : Address} {sizeDelta realised fundingDelta : ℤ} {priceX18 : ℕ}
    {r : Registry} (h : (runAll (exec d) s calls).registry.applyFill d ms sender user market
      sizeDelta priceX18 = .ok (realised,fundingDelta,r)) :
    let size := (s.registry.positions user market).size
    let ticks := fundingTicks d market s calls
    |(fundingDelta:ℚ)-(-(((ticks.map fun t => t.1*(t.2:ℤ)).sum*size : ℤ):ℚ)/10^36)| ≤
        (1:ℚ)+ticks.length ↔
      |chargeError size ticks| ≤ (1+ticks.length)*10^36 := by
  intro size ticks
  obtain ⟨hpos, hindex⟩ := run_leaves (s := s) hcalls
  have hfunding : fundingDelta = -(((ticks.map Prod.fst).sum*size).tdiv E18) := by
    rw [(Registry.applyFill_ok h).funding_eq, hpos, Position.fundingAt, hindex, hcurrent,
      add_sub_cancel_left]
  subst hfunding
  rw [charge_sub_notional, abs_div, div_le_iff₀ (by norm_num),
    abs_of_pos (by norm_num : (0:ℚ) < 10^36)]
  exact_mod_cast Iff.rfl

/-- The oracle answers and the first tick of the market applies a premium of one percent. -/
def tickAt (mark : ℕ) : List Call :=
  [.oracleAnswer 1 (some mark), .applyFunding 9 1 (10^16) 1]

/-- User 101 is long one contract when the tick comes. -/
def longBeforeTick : State := devnetAfter (oneContract (10*10^6) (100*10^6))

def longAfterTick (mark : ℕ) : State := runAll (exec devnet) longBeforeTick (tickAt mark)

theorem tickAt_leaves (mark : ℕ) : ∀ c ∈ tickAt mark, c.Possible devnet ∧ c.Leaves 101 1 := by
  simp [tickAt, Call.Possible, Call.Leaves, Call.touched]

/-- At a mark of one the charge is the documented one. -/
theorem funding_charges_notional_at_one :
    ∃ realised r, (longAfterTick (10^18)).registry.applyFill devnet
        (longAfterTick (10^18)).markets 4 101 1 (10^18) (100*10^18) = .ok (realised,-10^16,r) ∧
      |((-10^16 : ℤ):ℚ)-(-((((fundingTicks devnet 1 longBeforeTick (tickAt (10^18))).map
        fun t => t.1*(t.2:ℤ)).sum*(longBeforeTick.registry.positions 101 1).size : ℤ):ℚ)/10^36)| ≤
          (1:ℚ)+(fundingTicks devnet 1 longBeforeTick (tickAt (10^18))).length := by
  obtain ⟨⟨realised, fundingDelta, r⟩, h⟩ :
      Succeeds ((longAfterTick (10^18)).registry.applyFill devnet
        (longAfterTick (10^18)).markets 4 101 1 (10^18) (100*10^18)) := by decide +kernel
  have hdelta : ((longAfterTick (10^18)).registry.applyFill devnet (longAfterTick (10^18)).markets
      4 101 1 (10^18) (100*10^18)).map (fun x => x.2.1) = .ok (-10^16) := by decide +kernel
  rw [h] at hdelta
  cases hdelta
  exact ⟨realised, r, h, (funding_charges_notional_iff (tickAt_leaves (10^18)) (by decide +kernel)
    h).mpr (by decide +kernel)⟩

/-- At a mark of 100 a premium of one percent on one contract charges 0.01 instead of 1. -/
theorem tick_charges_no_price :
    (∀ c ∈ tickAt (100*10^18), c.Possible devnet ∧ c.Leaves 101 1) ∧
    (longBeforeTick.registry.positions 101 1).size = 10^18 ∧
    fundingTicks devnet 1 longBeforeTick (tickAt (100*10^18)) = [(10^16,100*10^18)] ∧
    ((longAfterTick (100*10^18)).registry.applyFill devnet (longAfterTick (100*10^18)).markets
      4 101 1 (10^18) (100*10^18)).map (fun x => x.2.1) = .ok (-10^16) ∧
    ¬ |((-10^16 : ℤ):ℚ)-(-(10^16*(100*10^18)*10^18)/10^36)| ≤ 1+1 :=
  ⟨tickAt_leaves _, by decide +kernel, by decide +kernel, by decide +kernel, by norm_num⟩

end Perplex.Chain
