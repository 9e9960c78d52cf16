import Perplex.ChainConservation

/-! The sum of all sizes of a market. Balanced batches leave it at zero; a liquidation and a
deleveraging close one side of a trade at the oracle price, without a counterparty, and move
it by the size they close. -/
namespace Perplex.Chain

/-- The sizes of each batch add up to zero in every market. -/
def Call.BalancedPerMarket : Call → Prop
  | .applyBatch fills _ _ _ _ =>
    ∀ market, (fills.map fun f => if f.marketId = market then f.sizeDelta else 0).sum = 0
  | _ => True

/-- The signed size that a forced close adds to a market, when it goes through. -/
def Call.forcedClose (s : State) (market : MarketId) : Call → ℤ
  | .liquidate _ user mk =>
    if mk = market then -(s.registry.positions user mk).size else 0
  | .adl _ mk _ closeSizes => if mk = market then closeSizes.sum else 0
  | _ => 0

/-- What the liquidations and deleveragings of a run that went through have closed. -/
def forcedCloses (d : Deployment) (market : MarketId) : State → List Call → ℤ
  | _, [] => 0
  | s, c :: calls =>
    match exec d s c with
    | .ok s' => c.forcedClose s market+forcedCloses d market s' calls
    | .error _ => forcedCloses d market s calls

/-- The sum of all sizes of a market. -/
def State.openInterest (s : State) (market : MarketId) : ℤ :=
  ∑ u, (s.registry.positions u market).size

section Step
variable {d : Deployment} {s s' : State} {market : MarketId}

theorem openInterest_of_registry (h : s'.registry = s.registry) :
    s'.openInterest market = s.openInterest market := by
  unfold State.openInterest
  rw [h]

theorem openInterest_unforced {c : Call} (h : s'.openInterest market = s.openInterest market)
    (hc : c.forcedClose s market = 0) :
    s'.openInterest market = s.openInterest market+c.forcedClose s market := by
  rw [h, hc, add_zero]

theorem Settled.openInterest {f : Fill} {realised funding : ℤ}
    (h : Settled s f realised funding s') : s'.openInterest market =
      s.openInterest market+(if f.marketId = market then f.sizeDelta else 0) :=
  h.fill.sum_size market

theorem Outflow.openInterest {user : Address} {amount : ℕ} (h : Outflow d s user amount s') :
    s'.openInterest market = s.openInterest market :=
  openInterest_of_registry h.registry

theorem Settles.openInterest {fills : List Fill} (h : Settles s fills s') :
    s'.openInterest market = s.openInterest market+
      (fills.map fun f => if f.marketId = market then f.sizeDelta else 0).sum := by
  induction h with
  | nil s => simp
  | cons first _ ih =>
    rw [ih, first.openInterest, List.map_cons, List.sum_cons, add_assoc]

theorem adlLoop_openInterest {mk : MarketId} {mark : ℕ} {vs : List (Address × ℤ)}
    (h : State.adlLoop d mk mark s vs = .ok s') : s'.openInterest market =
      s.openInterest market+(if mk = market then (vs.map Prod.snd).sum else 0) := by
  induction vs generalizing s with
  | nil =>
    cases h
    simp
  | cons v vs ih =>
    simp only [State.adlLoop, chain_ok_iff] at h
    obtain ⟨s₁, h₁, h⟩ := h
    -- each victim is one fill, and the seizure behind it moves no position
    obtain ⟨_, _, _, _, hset, hout⟩ := State.adlOne_ok h₁
    rw [ih h, hout.openInterest, hset.openInterest]
    split_ifs
    · rw [List.map_cons, List.sum_cons, add_assoc]
    · ring

/-- One call moves the sum by what it forces to close. -/
theorem exec_openInterest {c : Call} (hc : c.Possible d) (hb : c.BalancedPerMarket)
    (he : exec d s c = .ok s') :
    s'.openInterest market = s.openInterest market+c.forcedClose s market := by
  cases c with
  | deposit sender amount =>
    obtain ⟨-, -, -, hr, -⟩ := State.deposit_ok hc he
    exact openInterest_unforced (openInterest_of_registry hr) rfl
  | withdraw sender amount =>
    exact openInterest_unforced (State.withdraw_ok he).2.openInterest rfl
  | applyBatch fills nonce deadline signer now =>
    have hfills := State.settleFills_settles (State.applyBatch_settleFills he)
    have hstart : (s.useNonce nonce).openInterest market = s.openInterest market := rfl
    -- a balanced batch adds nothing in any market
    rw [hfills.openInterest, hb market, hstart]
    rfl
  | updateFunding sender mk idx =>
    simp only [exec, Registry.updateFunding_eq_ok, chain_ok_iff, tx_pure_eq_ok] at he
    obtain ⟨_, ⟨-, rfl⟩, rfl⟩ := he
    exact openInterest_unforced rfl rfl
  | applyFunding sender mk premium now =>
    obtain ⟨newIndex, hs⟩ := State.applyFunding_ok he
    have hsame : s'.openInterest market = s.openInterest market := by
      unfold State.openInterest
      rw [hs]
    exact openInterest_unforced hsame rfl
  | liquidate sender user mk =>
    simp only [exec, chain_ok_iff, Prod.exists, tx_pure_eq_ok] at he
    obtain ⟨receipt, _, he, rfl⟩ := he
    -- the whole position is closed without a counterparty
    obtain ⟨_, _, _, hset, hout⟩ := State.liquidate_ok he
    rw [hout.openInterest, hset.openInterest]
    rfl
  | adl sender mk victims closeSizes =>
    simp only [exec, State.adl, chain_ok_iff, ensure_eq_ok, and_true, exists_const] at he
    obtain ⟨-, hlen, -, mark, -, he⟩ := he
    rw [adlLoop_openInterest he, List.map_snd_zip hlen.ge]
    rfl
  | listMarket | updateMarket | deactivateMarket | setOperator | setFillHook | setSettlement
  | setCap | setSubmitter | oracleAnswer | mintUsdc | transferUsdc =>
    obtain ⟨hr, -⟩ := exec_admin rfl hc he
    exact openInterest_unforced (openInterest_of_registry hr) rfl

theorem run_openInterest {calls : List Call}
    (hcalls : ∀ c ∈ calls, c.Possible d ∧ c.BalancedPerMarket) (market : MarketId) :
    (runAll (exec d) s calls).openInterest market =
      s.openInterest market+forcedCloses d market s calls := by
  induction calls generalizing s with
  | nil => simp [runAll, forcedCloses]
  | cons c calls ih =>
    obtain ⟨hc, hb⟩ := hcalls c List.mem_cons_self
    have hrest : ∀ c ∈ calls, c.Possible d ∧ c.BalancedPerMarket :=
      fun c' hc' => hcalls c' (List.mem_cons_of_mem _ hc')
    change (runAll (exec d) (attempt (exec d) s c) calls).openInterest market = _
    rw [ih hrest, forcedCloses, attempt]
    -- a call that reverts leaves the state and closes nothing
    cases he : exec d s c with
    | ok s' =>
      change s'.openInterest market+forcedCloses d market s' calls = _
      rw [exec_openInterest hc hb he, add_assoc]
    | error e => rfl

end Step

/-- For every run of batches balanced per market, liquidations, deleveragings and other
calls, the sizes of a market add up to what the forced closes of the run have added. -/
theorem openInterest_eq_forcedCloses (d : Deployment) (operator submitter : Address)
    {calls : List Call} (hcalls : ∀ c ∈ calls, c.Possible d ∧ c.BalancedPerMarket)
    (market : MarketId) :
    ∑ u, ((runAll (exec d) (genesis d operator submitter) calls).registry.positions u
      market).size = forcedCloses d market (genesis d operator submitter) calls := by
  have h := run_openInterest hcalls market (s := genesis d operator submitter)
  have hzero : (genesis d operator submitter).openInterest market = 0 := by
    simp [State.openInterest, genesis]
  rw [hzero, zero_add] at h
  exact h

/-- A long of one contract with 10 of collateral is liquidated at 92. -/
def liquidatedLong : List Call :=
  oneContract (10*10^6) (100*10^6)++
    [Call.oracleAnswer 1 (some (92*10^18)), Call.liquidate 999 101 1]

theorem liquidatedLong_balanced :
    ∀ c ∈ liquidatedLong, c.Possible devnet ∧ c.BalancedPerMarket := by
  have hposs : ∀ c ∈ liquidatedLong, c.Possible devnet := by decide +kernel
  have hbal : ∀ c ∈ liquidatedLong, c.BalancedPerMarket := by
    have htrade : ∀ market : MarketId, (if 1 = market then (10:ℤ)^18 else 0)+
        (if 1 = market then -(10:ℤ)^18 else 0) = 0 := by
      intro market
      split_ifs
      · exact add_neg_cancel _
      · exact add_zero 0
    simp [liquidatedLong, oneContract, funded, firstTrade, Call.BalancedPerMarket]
    exact htrade
  exact fun c hc => ⟨hposs c hc, hbal c hc⟩

theorem openInterest_eq_forcedCloses_liquidatedLong :
    ∑ u, ((runAll (exec devnet) (genesis devnet 8 9) liquidatedLong).registry.positions u
      1).size = forcedCloses devnet 1 (genesis devnet 8 9) liquidatedLong ∧
    forcedCloses devnet 1 (genesis devnet 8 9) liquidatedLong = -10^18 :=
  ⟨openInterest_eq_forcedCloses devnet 8 9 liquidatedLong_balanced 1, by decide +kernel⟩

/-- The short of the trade is left without a counterparty. -/
theorem liquidation_unbalances_market :
    (∀ c ∈ liquidatedLong, c.Possible devnet ∧ c.BalancedPerMarket) ∧
    ∑ u, ((runAll (exec devnet) (genesis devnet 8 9) liquidatedLong).registry.positions u
      1).size ≠ 0 := by
  refine ⟨liquidatedLong_balanced, ?_⟩
  have h := run_openInterest liquidatedLong_balanced 1 (s := genesis devnet 8 9)
  have hzero : (genesis devnet 8 9).openInterest 1 = 0 := by
    simp [State.openInterest, genesis]
  have hforced : forcedCloses devnet 1 (genesis devnet 8 9) liquidatedLong = -10^18 := by
    decide +kernel
  rw [hzero, hforced] at h
  unfold State.openInterest at h
  rw [h]
  decide

end Perplex.Chain
