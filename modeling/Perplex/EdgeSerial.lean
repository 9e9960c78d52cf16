import Mathlib.Data.List.Permutation
import Mathlib.Tactic.FinCases
import Perplex.EdgeSections

/-! Fees, fills and forced closes side by side. `adjust_vault` reads a balance and writes it
later, and `liquidate_position` reads positions and balance long before it writes both. As long
as no call writes what another one has read and has still to write, the calls leave the balances
and positions that they leave one after the other, in the order in which they commit. -/
namespace Perplex.Edge
open Shared

/-- A balance with a delta in dollars, not below zero. -/
def nextBalance (balance deltaDollars : ℚ) : ℚ :=
  let next := balance+trunc (deltaDollars*10^6)
  if next < 0 then 0 else next

def DurableState.adjustVault (d : DurableState) (address : Address) (deltaDollars : ℚ) :
    DurableState :=
  if deltaDollars = 0 then d
  else d.setVaultBalance address (nextBalance (d.state.vaultBalances address) deltaDollars)

theorem adjustVault_state (d : DurableState) (address : Address) (deltaDollars : ℚ) :
    (d.adjustVault address deltaDollars).state = d.state.adjustVault address deltaDollars := by
  unfold DurableState.adjustVault AppState.adjustVault
  split_ifs
  · rfl
  · rfl

/-- A call on its own. -/
def runCall (devSeed : Bool) (d : DurableState) : Section → DurableState
  | .adjustVault address deltaDollars => d.adjustVault address deltaDollars
  | .call m => mutate devSeed d m
  | _ => d

/-- The calls that settle trades and close positions. -/
def Section.isSettlement : Section → Bool
  | .adjustVault _ _ => true
  | .call (.upsertPosition _ _ _ _ _ _) => true
  | .call (.liquidatePosition _ _ _ _ _) => true
  | _ => false

/-- The calls, one after the other. -/
def serial {ι : Type} (devSeed : Bool) (c₀ : Pool ι Section (Shared ι)) (order : List ι) :
    DurableState :=
  order.foldl (fun d i => (c₀.pending i).foldl (runCall devSeed) d) c₀.shared.toDurableState

theorem serial_append {ι : Type} {devSeed : Bool} {c₀ : Pool ι Section (Shared ι)}
    (order : List ι) {i : ι} {w : Section} (h : c₀.pending i = [w]) :
    serial devSeed c₀ (order++[i]) = runCall devSeed (serial devSeed c₀ order) w := by
  simp [serial, h]

/-- The sections of a settlement, run without a break, do what the call does. -/
theorem runCall_finishes {ι : Type} {devSeed : Bool} {i : ι} (s : Shared ι)
    (hr : s.readers = 0) {w : Section} (h : w.isSettlement = true) :
    ∃ matched, Pool.Finishes (perform devSeed) i s [w]
      { s with toDurableState := runCall devSeed s.toDurableState w, matched } := by
  cases w with
  | adjustVault address deltaDollars =>
    refine ⟨s.matched, ?_⟩
    unfold runCall DurableState.adjustVault
    by_cases hd : deltaDollars = 0
    · simp only [if_pos hd]
      exact .cons (if_pos hd) (.nil s)
    · simp only [if_neg hd]
      exact .cons (if_neg hd) (finishes_setVault s address _)
  | call m => exact mutate_finishes s hr m
  | _ => simp [Section.isSettlement] at h

/-- Balances, positions and prices are as they were. -/
structure SameAccounts (d d' : DurableState) : Prop where
  vaultBalances : d'.state.vaultBalances = d.state.vaultBalances
  hasVault : d'.hasVault = d.hasVault
  positions : d'.state.positions = d.state.positions
  markets : d'.state.markets = d.state.markets
  oraclePrices : d'.state.oraclePrices = d.state.oraclePrices

theorem SameAccounts.refl (d : DurableState) : SameAccounts d d := ⟨rfl, rfl, rfl, rfl, rfl⟩

section Liquidatable
variable {s s' : AppState} {a : Address}

theorem positionHealth_congr (hm : s'.markets = s.markets)
    (ho : s'.oraclePrices = s.oraclePrices) (hv : s'.vaultBalances a = s.vaultBalances a)
    (pos : PositionInfo) : s'.positionHealth a pos = s.positionHealth a pos ∧
      s'.liqInputs pos = s.liqInputs pos := by
  have hmarket : s'.market pos.marketId = s.market pos.marketId := by
    unfold AppState.market
    rw [hm, ho]
  have hinputs : s'.liqInputs pos = s.liqInputs pos := by
    unfold AppState.liqInputs
    rw [hmarket]
  refine ⟨?_, hinputs⟩
  unfold AppState.positionHealth
  rw [hinputs, hv]

theorem liquidatable_congr (hm : s'.markets = s.markets)
    (ho : s'.oraclePrices = s.oraclePrices) (hv : s'.vaultBalances a = s.vaultBalances a)
    {marketId : String} (hp : (s'.positions a).find? (fun p => p.marketId = marketId) =
      (s.positions a).find? fun p => p.marketId = marketId) :
    s'.liquidatable a marketId = s.liquidatable a marketId := by
  unfold AppState.liquidatable
  rw [hp]
  congr 1
  funext pos
  obtain ⟨hh, hl⟩ := positionHealth_congr hm ho hv pos
  rw [hh, hl]

/-- Closing one position makes no other one liquidatable that was not. -/
theorem liquidatable_filter (hm : s'.markets = s.markets)
    (ho : s'.oraclePrices = s.oraclePrices) (hv : s'.vaultBalances a = s.vaultBalances a)
    {closed : String} (hp : s'.positions a = (s.positions a).filter fun p => p.marketId ≠ closed)
    {marketId : String} (h : s.liquidatable a marketId = none) :
    s'.liquidatable a marketId = none := by
  by_cases hc : marketId = closed
  · subst hc
    have hnone : (s'.positions a).find? (fun p => p.marketId = marketId) = none := by
      rw [hp, List.find?_eq_none]
      intro p hmem
      simpa using (List.mem_filter.mp hmem).2
    unfold AppState.liquidatable
    rw [hnone]
    rfl
  · have hsame : (s'.positions a).find? (fun p => p.marketId = marketId) =
        (s.positions a).find? (fun p => p.marketId = marketId) := by
      rw [hp, List.find?_filter]
      congr 1
      funext p
      by_cases hpm : p.marketId = marketId
      · simp [hpm, hc]
      · simp [hpm]
    rw [liquidatable_congr hm ho hv hsame, h]

end Liquidatable

/-- The call that a forced close began with. -/
def Close.call (k : Close) : Section :=
  .call (.liquidatePosition k.now k.fillId k.tradeId k.address k.marketId)

/-- What a call has still to do before it commits. The values that it carries are those that it
would read now. -/
inductive Stage (s : AppState) : Section → List Section → Prop where
  | start (w : Section) : Stage s w [w]
  | send (address : Address) (deltaDollars : ℚ) (hd : deltaDollars ≠ 0) :
    Stage s (.adjustVault address deltaDollars)
      [.call (.setVaultBalance address (nextBalance (s.vaultBalances address) deltaDollars))]
  | write (address : Address) (deltaDollars : ℚ) (hd : deltaDollars ≠ 0) :
    Stage s (.adjustVault address deltaDollars)
      [.writeVault address (nextBalance (s.vaultBalances address) deltaDollars)]
  | check (k : Close) (pos : PositionInfo)
      (hfind : (s.positions k.address).find? (fun p => p.marketId = k.marketId) = some pos) :
    Stage s k.call [.checkHealth k pos (s.positions k.address)]
  | take (k : Close) (pos : PositionInfo) (health mark : ℚ)
      (hliq : s.liquidatable k.address k.marketId = some (pos,health,mark)) :
    Stage s k.call [.takeCollateral k pos (s.positions k.address) mark]
  | closeSend (k : Close) (pos : PositionInfo) (health mark : ℚ)
      (hliq : s.liquidatable k.address k.marketId = some (pos,health,mark)) :
    Stage s k.call (closing k pos (s.positions k.address) mark (s.vaultBalances k.address))
  | closeWrite (k : Close) (pos : PositionInfo) (health mark : ℚ)
      (hliq : s.liquidatable k.address k.marketId = some (pos,health,mark)) :
    Stage s k.call (.writeVault k.address (pos.closeOut mark (s.vaultBalances k.address)) ::
      (closing k pos (s.positions k.address) mark (s.vaultBalances k.address)).tail)

/-- Sections of calls that have read a balance and have still to write it. -/
def Section.opensVault (a : Address) : Section → Prop
  | .takeCollateral k _ _ _ => k.address = a
  | .call (.setVaultBalance b _) => b = a
  | .writeVault b _ => b = a
  | _ => False

/-- Sections of calls that have read the positions of an account and have still to write them. -/
def Section.opensPositions (a : Address) : Section → Prop
  | .checkHealth k _ _ => k.address = a
  | .takeCollateral k _ _ _ => k.address = a
  | .call (.setPositions b _) => b = a
  | .writePositions b _ => b = a
  | _ => False

theorem Stage.ne_nil {s : AppState} {w : Section} {ws : List Section} (h : Stage s w ws) :
    ws ≠ [] := by
  cases h <;> simp [closing]

/-- A call stays where it is as long as nobody writes what it has read. -/
theorem Stage.keep {s s' : AppState} {w : Section} {ws : List Section} (h : Stage s w ws)
    (hm : s'.markets = s.markets) (ho : s'.oraclePrices = s.oraclePrices)
    (hv : ∀ a, (∃ x ∈ ws, x.opensVault a) → s'.vaultBalances a = s.vaultBalances a)
    (hp : ∀ a, (∃ x ∈ ws, x.opensPositions a) → s'.positions a = s.positions a) :
    Stage s' w ws := by
  have hliquidatable {k : Close} {r : PositionInfo × ℚ × ℚ}
      (hvault : s'.vaultBalances k.address = s.vaultBalances k.address)
      (hpos : s'.positions k.address = s.positions k.address)
      (hliq : s.liquidatable k.address k.marketId = some r) :
      s'.liquidatable k.address k.marketId = some r := by
    rw [← hliq]
    exact liquidatable_congr hm ho hvault (by rw [hpos])
  cases h with
  | start w => exact .start w
  | send address deltaDollars hd =>
    rw [← hv address ⟨_, List.mem_cons_self, rfl⟩]
    exact .send address deltaDollars hd
  | write address deltaDollars hd =>
    rw [← hv address ⟨_, List.mem_cons_self, rfl⟩]
    exact .write address deltaDollars hd
  | check k pos hfind =>
    have hpos := hp k.address ⟨_, List.mem_cons_self, rfl⟩
    rw [← hpos]
    exact .check k pos (by rw [hpos]; exact hfind)
  | take k pos health mark hliq =>
    have hvault := hv k.address ⟨_, List.mem_cons_self, rfl⟩
    have hpos := hp k.address ⟨_, List.mem_cons_self, rfl⟩
    rw [← hpos]
    exact .take k pos health mark (hliquidatable hvault hpos hliq)
  | closeSend k pos health mark hliq =>
    have hvault := hv k.address ⟨_, List.mem_cons_self, rfl⟩
    have hpos := hp k.address ⟨_, List.mem_cons_of_mem _ List.mem_cons_self, rfl⟩
    rw [← hpos, ← hvault]
    exact .closeSend k pos health mark (hliquidatable hvault hpos hliq)
  | closeWrite k pos health mark hliq =>
    have hvault := hv k.address ⟨_, List.mem_cons_self, rfl⟩
    have hpos := hp k.address ⟨_, List.mem_cons_of_mem _ List.mem_cons_self, rfl⟩
    rw [← hpos, ← hvault]
    exact .closeWrite k pos health mark (hliquidatable hvault hpos hliq)

/-- Sections that leave balances and positions alone, and lead only to such. -/
def Section.isRecord : Section → Bool
  | .call (.recordFill _ _) => true
  | .call (.recordTrade _ _) => true
  | .pushFill _ _ => true
  | .pushTrade _ _ => true
  | .copyPositions _ => true
  | .queuePositions _ _ => true
  | _ => false

/-- What a call has still to do after it has committed. -/
inductive Rest : List Section → Prop where
  | records {ws : List Section} (h : ∀ x ∈ ws, x.isRecord = true) : Rest ws
  | send {ws : List Section} (address : Address) (positions : List PositionInfo)
      (h : ∀ x ∈ ws, x.isRecord = true) : Rest (.call (.setPositions address positions) :: ws)
  | write {ws : List Section} (address : Address) (positions : List PositionInfo)
      (h : ∀ x ∈ ws, x.isRecord = true) : Rest (.writePositions address positions :: ws)

/-- The positions that a forced close has still to write once it has written the balance. -/
def halfOf : List Section → Option (Address × List PositionInfo)
  | .call (.setPositions address positions) :: _ => some (address,positions)
  | .writePositions address positions :: _ => some (address,positions)
  | _ => none

theorem halfOf_records {ws : List Section} (h : ∀ x ∈ ws, x.isRecord = true) :
    halfOf ws = none := by
  cases ws with
  | nil => rfl
  | cons x ws =>
    have hx := h x List.mem_cons_self
    unfold halfOf
    split
    · next heq =>
      obtain ⟨rfl, -⟩ := List.cons.inj heq
      simp [Section.isRecord] at hx
    · next heq =>
      obtain ⟨rfl, -⟩ := List.cons.inj heq
      simp [Section.isRecord] at hx
    · rfl

theorem Stage.halfOf {s : AppState} {w : Section} {ws : List Section} (h : Stage s w ws)
    (hw : w.isSettlement = true) : halfOf ws = none := by
  cases h with
  | start w =>
    unfold Perplex.Edge.halfOf
    split
    · next heq =>
      obtain ⟨rfl, -⟩ := List.cons.inj heq
      simp [Section.isSettlement] at hw
    · next heq =>
      obtain ⟨rfl, -⟩ := List.cons.inj heq
      simp [Section.isSettlement] at hw
    · rfl
  | _ => rfl

/-- A half-written account is open. -/
theorem opensPositions_of_halfOf {ws : List Section} {a : Address} {l : List PositionInfo}
    (h : halfOf ws = some (a,l)) : ∃ x ∈ ws, x.opensPositions a := by
  unfold halfOf at h
  split at h
  · obtain ⟨rfl, rfl⟩ := Prod.mk.inj (Option.some.inj h)
    exact ⟨_, List.mem_cons_self, rfl⟩
  · obtain ⟨rfl, rfl⟩ := Prod.mk.inj (Option.some.inj h)
    exact ⟨_, List.mem_cons_self, rfl⟩
  · simp at h

section Inversion
variable {ι : Type} {devSeed : Bool} {i : ι} {s s' : Shared ι} {w : Section}
  {ws new : List Section}

/-- Every way in which a call that has not committed can move: it goes on, returns without having
done anything, or commits. -/
inductive CallStep (s : Shared ι) : Section → List Section → Shared ι → List Section → Prop where
  | goOn {w₀ : Section} {ws ws' : List Section} {s' : Shared ι}
      (hsame : SameAccounts s.toDurableState s'.toDurableState) (h : Stage s'.state w₀ ws') :
    CallStep s w₀ ws s' ws'
  | skip {ws : List Section} (address : Address) : CallStep s (.adjustVault address 0) ws s []
  | refuse {ws : List Section} (k : Close)
      (h : s.state.liquidatable k.address k.marketId = none) : CallStep s k.call ws s []
  | adjust (address : Address) (deltaDollars : ℚ) (hd : deltaDollars ≠ 0) :
    CallStep s (.adjustVault address deltaDollars)
      [.writeVault address (nextBalance (s.state.vaultBalances address) deltaDollars)]
      (s.setVault address (nextBalance (s.state.vaultBalances address) deltaDollars)) []
  | upsert (now : ℕ) (address : Address) (marketId : String) (orderSide : Side) (qty price : ℚ) :
    CallStep s (.call (.upsertPosition now address marketId orderSide qty price))
      [.call (.upsertPosition now address marketId orderSide qty price)]
      { s with state := s.state.upsertPosition now address marketId orderSide qty price }
      [.copyPositions address]
  | close (k : Close) (pos : PositionInfo) (health mark : ℚ)
      (hliq : s.state.liquidatable k.address k.marketId = some (pos,health,mark)) :
    CallStep s k.call
      (.writeVault k.address (pos.closeOut mark (s.state.vaultBalances k.address)) ::
        (closing k pos (s.state.positions k.address) mark
          (s.state.vaultBalances k.address)).tail)
      (s.setVault k.address (pos.closeOut mark (s.state.vaultBalances k.address)))
      (closing k pos (s.state.positions k.address) mark (s.state.vaultBalances k.address)).tail

/-- The first section of a settlement. -/
theorem callStep_start (hw : w.isSettlement = true)
    (hs : perform devSeed i w s = some (s',new)) : CallStep s w [w] s' new := by
  cases w with
  | adjustVault address deltaDollars =>
    by_cases hd : deltaDollars = 0
    · simp only [perform, if_pos hd] at hs
      obtain ⟨rfl, rfl⟩ := Prod.mk.inj (Option.some.inj hs)
      subst hd
      exact .skip address
    · simp only [perform, if_neg hd] at hs
      obtain ⟨rfl, rfl⟩ := Prod.mk.inj (Option.some.inj hs)
      exact .goOn (.refl _) (.send address deltaDollars hd)
  | call m =>
    cases m with
    | upsertPosition now address marketId orderSide qty price =>
      obtain ⟨rfl, rfl⟩ := Prod.mk.inj (Option.some.inj hs)
      exact .upsert now address marketId orderSide qty price
    | liquidatePosition now fillId tradeId address marketId =>
      simp only [perform, enter] at hs
      cases hfind : (s.state.positions address).find? (fun p => p.marketId = marketId) with
      | none =>
        simp only [hfind] at hs
        obtain ⟨rfl, rfl⟩ := Prod.mk.inj (Option.some.inj hs)
        refine .refuse ⟨now, fillId, tradeId, address, marketId⟩ ?_
        unfold AppState.liquidatable
        rw [hfind]
        rfl
      | some pos =>
        simp only [hfind] at hs
        obtain ⟨rfl, rfl⟩ := Prod.mk.inj (Option.some.inj hs)
        exact .goOn (.refl _) (.check ⟨now, fillId, tradeId, address, marketId⟩ pos hfind)
    | _ => simp [Section.isSettlement] at hw
  | _ => simp [Section.isSettlement] at hw

/-- The health of a position that was found decides whether the call goes on. -/
theorem callStep_check {k : Close} {pos : PositionInfo}
    (hfind : (s.state.positions k.address).find? (fun p => p.marketId = k.marketId) = some pos)
    (hs : perform devSeed i (.checkHealth k pos (s.state.positions k.address)) s =
      some (s',new)) :
    CallStep s k.call [.checkHealth k pos (s.state.positions k.address)] s' new := by
  simp only [perform] at hs
  have hliq : s.state.liquidatable k.address k.marketId =
      (s.state.positionHealth k.address pos).bind fun health =>
        if 1 ≤ health then none
        else (s.state.liqInputs pos).map fun i => (pos,health,i.mark) := by
    unfold AppState.liquidatable
    rw [hfind, Option.bind_some]
  cases hh : s.state.positionHealth k.address pos with
  | none =>
    simp only [hh] at hs
    obtain ⟨rfl, rfl⟩ := Prod.mk.inj (Option.some.inj hs)
    exact .refuse k (by rw [hliq, hh, Option.bind_none])
  | some health =>
    simp only [hh] at hs
    rw [hh, Option.bind_some] at hliq
    by_cases hsafe : 1 ≤ health
    · rw [if_pos hsafe] at hs hliq
      obtain ⟨rfl, rfl⟩ := Prod.mk.inj (Option.some.inj hs)
      exact .refuse k hliq
    · rw [if_neg hsafe] at hs hliq
      cases hl : s.state.liqInputs pos with
      | none =>
        simp only [hl] at hs
        obtain ⟨rfl, rfl⟩ := Prod.mk.inj (Option.some.inj hs)
        exact .refuse k (by rw [hliq, hl, Option.map_none])
      | some inputs =>
        simp only [hl] at hs
        obtain ⟨rfl, rfl⟩ := Prod.mk.inj (Option.some.inj hs)
        rw [hl, Option.map_some] at hliq
        exact .goOn (.refl _) (.take k pos health inputs.mark hliq)

theorem Stage.step {w₀ : Section} (h : Stage s.state w₀ (w :: ws))
    (hw₀ : w₀.isSettlement = true) (hs : perform devSeed i w s = some (s',new)) :
    CallStep s w₀ (w :: ws) s' (new++ws) := by
  generalize hl : w :: ws = l at h
  cases h with
  | start =>
    obtain ⟨rfl, rfl⟩ := List.cons.inj hl
    rw [List.append_nil]
    exact callStep_start hw₀ hs
  | send address deltaDollars hd =>
    obtain ⟨rfl, rfl⟩ := List.cons.inj hl
    obtain ⟨rfl, rfl⟩ := Prod.mk.inj (Option.some.inj hs)
    exact .goOn ⟨rfl, rfl, rfl, rfl, rfl⟩ (.write address deltaDollars hd)
  | write address deltaDollars hd =>
    obtain ⟨rfl, rfl⟩ := List.cons.inj hl
    obtain ⟨rfl, rfl⟩ := Prod.mk.inj (Option.some.inj hs)
    exact .adjust address deltaDollars hd
  | check k pos hfind =>
    obtain ⟨rfl, rfl⟩ := List.cons.inj hl
    rw [List.append_nil]
    exact callStep_check hfind hs
  | take k pos health mark hliq =>
    obtain ⟨rfl, rfl⟩ := List.cons.inj hl
    obtain ⟨rfl, rfl⟩ := Prod.mk.inj (Option.some.inj hs)
    exact .goOn (.refl _) (.closeSend k pos health mark hliq)
  | closeSend k pos health mark hliq =>
    obtain ⟨rfl, rfl⟩ := List.cons.inj hl
    obtain ⟨rfl, rfl⟩ := Prod.mk.inj (Option.some.inj hs)
    exact .goOn ⟨rfl, rfl, rfl, rfl, rfl⟩ (.closeWrite k pos health mark hliq)
  | closeWrite k pos health mark hliq =>
    obtain ⟨rfl, rfl⟩ := List.cons.inj hl
    obtain ⟨rfl, rfl⟩ := Prod.mk.inj (Option.some.inj hs)
    exact .close k pos health mark hliq

theorem record_step (hw : w.isRecord = true) (hs : perform devSeed i w s = some (s',new)) :
    SameAccounts s.toDurableState s'.toDurableState ∧ ∀ x ∈ new, x.isRecord = true := by
  cases w with
  | call m =>
    cases m with
    | recordFill address fill =>
      obtain ⟨rfl, rfl⟩ := Prod.mk.inj (Option.some.inj hs)
      exact ⟨⟨rfl, rfl, rfl, rfl, rfl⟩, by simp [Section.isRecord]⟩
    | recordTrade marketId trade =>
      obtain ⟨rfl, rfl⟩ := Prod.mk.inj (Option.some.inj hs)
      exact ⟨⟨rfl, rfl, rfl, rfl, rfl⟩, by simp [Section.isRecord]⟩
    | _ => simp [Section.isRecord] at hw
  | pushFill address fill =>
    obtain ⟨rfl, rfl⟩ := Prod.mk.inj (Option.some.inj hs)
    exact ⟨⟨rfl, rfl, rfl, rfl, rfl⟩, by simp⟩
  | pushTrade marketId trade =>
    obtain ⟨rfl, rfl⟩ := Prod.mk.inj (Option.some.inj hs)
    exact ⟨⟨rfl, rfl, rfl, rfl, rfl⟩, by simp⟩
  | copyPositions address =>
    obtain ⟨rfl, rfl⟩ := Prod.mk.inj (Option.some.inj hs)
    exact ⟨⟨rfl, rfl, rfl, rfl, rfl⟩, by simp [Section.isRecord]⟩
  | queuePositions address positions =>
    obtain ⟨rfl, rfl⟩ := Prod.mk.inj (Option.some.inj hs)
    exact ⟨⟨rfl, rfl, rfl, rfl, rfl⟩, by simp⟩
  | _ => simp [Section.isRecord] at hw

/-- After the commit a call writes the positions that it owes, and nothing else. -/
theorem Rest.step (h : Rest (w :: ws)) (hs : perform devSeed i w s = some (s',new)) :
    Rest (new++ws) ∧
      (SameAccounts s.toDurableState s'.toDurableState ∧ halfOf (new++ws) = halfOf (w :: ws) ∨
        ∃ a l, w = .writePositions a l ∧
          s' = { s with state := s.state.setPositions a l } ∧ halfOf (new++ws) = none) := by
  cases h with
  | records h =>
    obtain ⟨hsame, hnew⟩ := record_step (h w List.mem_cons_self) hs
    have hall : ∀ x ∈ new++ws, x.isRecord = true := by
      intro x hx
      rcases List.mem_append.mp hx with hx | hx
      · exact hnew x hx
      · exact h x (List.mem_cons_of_mem _ hx)
    refine ⟨.records hall, Or.inl ⟨hsame, ?_⟩⟩
    rw [halfOf_records hall, halfOf_records h]
  | send address positions h =>
    obtain ⟨rfl, rfl⟩ := Prod.mk.inj (Option.some.inj hs)
    exact ⟨.write address positions h, Or.inl ⟨⟨rfl, rfl, rfl, rfl, rfl⟩, rfl⟩⟩
  | write address positions h =>
    obtain ⟨rfl, rfl⟩ := Prod.mk.inj (Option.some.inj hs)
    exact ⟨.records h, Or.inr ⟨address, positions, rfl, rfl, halfOf_records h⟩⟩

end Inversion

section Serial
variable {ι : Type}

/-- The section does not write what another call has read and has still to write. A forced close
that writes the balance goes on to write the positions, so it must have both to itself. -/
def Section.alone (c : Pool ι Section (Shared ι)) (i : ι) (ws : List Section) : Section → Prop
  | .writeVault a _ => ¬ c.AwaitsBeside i (Section.opensVault a) ∧
    ((∃ x ∈ ws, x.opensPositions a) → ¬ c.AwaitsBeside i (Section.opensPositions a))
  | .call (.upsertPosition _ a _ _ _ _) => ¬ c.AwaitsBeside i (Section.opensPositions a)
  | .writePositions a _ => ¬ c.AwaitsBeside i (Section.opensPositions a)
  | _ => True

/-- The next section of a call writes alone. -/
def WritesAlone (c : Pool ι Section (Shared ι)) (i : ι) : Prop :=
  ∀ w ws, c.pending i = w :: ws → w.alone c i ws

theorem writesAlone_of_eq {c : Pool ι Section (Shared ι)} {i : ι} {w : Section}
    {ws : List Section} (hp : c.pending i = w :: ws) (h : w.alone c i ws) : WritesAlone c i := by
  intro w' ws' hp'
  obtain ⟨rfl, rfl⟩ := List.cons.inj (hp.symm.trans hp')
  exact h

/-- The calls that have committed, one after the other in this order, leave what is in memory,
but for positions that a forced close has still to write. -/
structure Serialises (devSeed : Bool) (c₀ c : Pool ι Section (Shared ι)) (order : List ι) :
    Prop where
  nodup : order.Nodup
  waiting : ∀ i, i ∉ order → c₀.pending i = [] ∧ c.pending i = [] ∨
    ∃ w, w.isSettlement = true ∧ c₀.pending i = [w] ∧ Stage c.shared.state w (c.pending i)
  settled : ∀ i ∈ order, c₀.pending i ≠ [] ∧ Rest (c.pending i)
  vaultBalances : (serial devSeed c₀ order).state.vaultBalances = c.shared.state.vaultBalances
  hasVault : (serial devSeed c₀ order).hasVault = c.shared.hasVault
  markets : (serial devSeed c₀ order).state.markets = c.shared.state.markets
  oraclePrices : (serial devSeed c₀ order).state.oraclePrices = c.shared.state.oraclePrices
  half : ∀ i a l, halfOf (c.pending i) = some (a,l) →
    (serial devSeed c₀ order).state.positions a = l ∧
      ∃ marketId, l = (c.shared.state.positions a).filter fun p => p.marketId ≠ marketId
  whole : ∀ a, (∀ i l, halfOf (c.pending i) ≠ some (a,l)) →
    (serial devSeed c₀ order).state.positions a = c.shared.state.positions a

section Step
variable {devSeed : Bool} {c₀ c : Pool ι Section (Shared ι)} {order : List ι} {i : ι}
  {w w₀ : Section} {ws l : List Section} {s : Shared ι}

theorem not_mem_of_not_awaitsBeside {S : Section → Prop} (h : ¬ c.AwaitsBeside i S) {j : ι}
    (hj : j ≠ i) : ¬ ∃ x ∈ c.pending j, S x :=
  fun hx => h ⟨j, hj, hx⟩

/-- No other call is half way through the account. -/
theorem not_half {a : Address} (h : ¬ c.AwaitsBeside i (Section.opensPositions a))
    (hi : halfOf (c.pending i) = none) (j : ι) (l : List PositionInfo) :
    halfOf (c.pending j) ≠ some (a,l) := by
  intro hhalf
  by_cases hj : j = i
  · subst hj
    simp [hi] at hhalf
  · exact not_mem_of_not_awaitsBeside h hj (opensPositions_of_halfOf hhalf)

theorem Serialises.halfOf_waiting (h : Serialises devSeed c₀ c order) (hi : i ∉ order) :
    halfOf (c.pending i) = none := by
  rcases h.waiting i hi with ⟨-, hp⟩ | ⟨w, hw, -, hstage⟩
  · rw [hp]
    rfl
  · exact hstage.halfOf hw

/-- A close that is refused in memory is refused in the serial run. -/
theorem Serialises.liquidatable_eq_none (h : Serialises devSeed c₀ c order) {a : Address}
    {marketId : String} (hliq : c.shared.state.liquidatable a marketId = none) :
    (serial devSeed c₀ order).state.liquidatable a marketId = none := by
  have hvault := congrFun h.vaultBalances a
  by_cases hhalf : ∃ j l, halfOf (c.pending j) = some (a,l)
  · obtain ⟨j, l, hj⟩ := hhalf
    obtain ⟨hpos, closed, hl⟩ := h.half j a l hj
    exact liquidatable_filter h.markets h.oraclePrices hvault (hpos.trans hl) hliq
  · have hpos := h.whole a fun j l hj => hhalf ⟨j, l, hj⟩
    rw [liquidatable_congr h.markets h.oraclePrices hvault (by rw [hpos]), hliq]

theorem Serialises.liquidatable_eq (h : Serialises devSeed c₀ c order) {a : Address}
    (hpos : (serial devSeed c₀ order).state.positions a = c.shared.state.positions a)
    (marketId : String) : (serial devSeed c₀ order).state.liquidatable a marketId =
      c.shared.state.liquidatable a marketId :=
  liquidatable_congr h.markets h.oraclePrices (congrFun h.vaultBalances a) (by rw [hpos])

variable [DecidableEq ι]

theorem halfOf_update (hl : halfOf l = halfOf (c.pending i)) (j : ι) :
    halfOf (Function.update c.pending i l j) = halfOf (c.pending j) := by
  by_cases hj : j = i
  · subst hj
    rw [Function.update_self, hl]
  · rw [Function.update_of_ne hj]

/-- A call moves on, and nobody sees a difference. -/
theorem Serialises.goOn (h : Serialises devSeed c₀ c order)
    (hsame : SameAccounts c.shared.toDurableState s.toDurableState)
    (hwaiting : i ∉ order →
      ∃ w, w.isSettlement = true ∧ c₀.pending i = [w] ∧ Stage s.state w l)
    (hsettled : i ∈ order → Rest l) (hhalf : halfOf l = halfOf (c.pending i)) :
    Serialises devSeed c₀ ⟨s, Function.update c.pending i l⟩ order where
  nodup := h.nodup
  waiting := by
    intro j hj
    by_cases hji : j = i
    · subst hji
      simp only [Function.update_self]
      exact Or.inr (hwaiting hj)
    · simp only [Function.update_of_ne hji]
      rcases h.waiting j hj with hnone | ⟨w, hw, hp, hstage⟩
      · exact Or.inl hnone
      · refine Or.inr ⟨w, hw, hp, hstage.keep hsame.markets hsame.oraclePrices ?_ ?_⟩
        · exact fun a _ => congrFun hsame.vaultBalances a
        · exact fun a _ => congrFun hsame.positions a
  settled := by
    intro j hj
    refine ⟨(h.settled j hj).1, ?_⟩
    by_cases hji : j = i
    · subst hji
      simp only [Function.update_self]
      exact hsettled hj
    · simp only [Function.update_of_ne hji]
      exact (h.settled j hj).2
  vaultBalances := h.vaultBalances.trans hsame.vaultBalances.symm
  hasVault := h.hasVault.trans hsame.hasVault.symm
  markets := h.markets.trans hsame.markets.symm
  oraclePrices := h.oraclePrices.trans hsame.oraclePrices.symm
  half := by
    intro j a l' hj
    rw [halfOf_update hhalf] at hj
    dsimp only
    rw [hsame.positions]
    exact h.half j a l' hj
  whole := by
    intro a ha
    dsimp only
    rw [hsame.positions]
    refine h.whole a fun j l' hj => ha j l' ?_
    rw [halfOf_update hhalf]
    exact hj

/-- A call commits: it comes last in the serial run. -/
theorem Serialises.commit (h : Serialises devSeed c₀ c order) (hi : i ∉ order)
    (hp₀ : c₀.pending i = [w₀]) (hrest : Rest l)
    (hothers : ∀ j, j ≠ i → ∀ w, Stage c.shared.state w (c.pending j) →
      Stage s.state w (c.pending j))
    (hvault : (runCall devSeed (serial devSeed c₀ order) w₀).state.vaultBalances =
      s.state.vaultBalances)
    (hhas : (runCall devSeed (serial devSeed c₀ order) w₀).hasVault = s.hasVault)
    (hmarkets : (runCall devSeed (serial devSeed c₀ order) w₀).state.markets = s.state.markets)
    (horacle : (runCall devSeed (serial devSeed c₀ order) w₀).state.oraclePrices =
      s.state.oraclePrices)
    (hhalf : ∀ j a l', halfOf (Function.update c.pending i l j) = some (a,l') →
      (runCall devSeed (serial devSeed c₀ order) w₀).state.positions a = l' ∧
        ∃ marketId, l' = (s.state.positions a).filter fun p => p.marketId ≠ marketId)
    (hwhole : ∀ a, (∀ j l', halfOf (Function.update c.pending i l j) ≠ some (a,l')) →
      (runCall devSeed (serial devSeed c₀ order) w₀).state.positions a = s.state.positions a) :
    Serialises devSeed c₀ ⟨s, Function.update c.pending i l⟩ (order++[i]) := by
  rw [← serial_append order hp₀] at hvault hhas hmarkets horacle hhalf hwhole
  refine ⟨?_, ?_, ?_, hvault, hhas, hmarkets, horacle, hhalf, hwhole⟩
  · exact List.nodup_append.mpr ⟨h.nodup, by simp, by
      intro j hj k hk he
      rw [List.mem_singleton] at hk
      exact hi (hk ▸ he ▸ hj)⟩
  · intro j hj
    rw [List.mem_append, List.mem_singleton, not_or] at hj
    simp only [Function.update_of_ne hj.2]
    rcases h.waiting j hj.1 with hnone | ⟨w, hw, hp, hstage⟩
    · exact Or.inl hnone
    · exact Or.inr ⟨w, hw, hp, hothers j hj.2 w hstage⟩
  · intro j hj
    by_cases hji : j = i
    · subst hji
      simp only [Function.update_self]
      exact ⟨by simp [hp₀], hrest⟩
    · simp only [Function.update_of_ne hji]
      rcases List.mem_append.mp hj with hj | hj
      · exact h.settled j hj
      · exact absurd (List.mem_singleton.mp hj) hji

/-- A call returns without having done anything. -/
theorem Serialises.giveUp (h : Serialises devSeed c₀ c order) (hi : i ∉ order)
    (hp₀ : c₀.pending i = [w₀])
    (hnone : runCall devSeed (serial devSeed c₀ order) w₀ = serial devSeed c₀ order) :
    Serialises devSeed c₀ ⟨c.shared, Function.update c.pending i []⟩ (order++[i]) := by
  have hhalf : halfOf [] = halfOf (c.pending i) := (h.halfOf_waiting hi).symm
  refine h.commit hi hp₀ (.records (by simp)) (fun j _ w hstage => hstage) ?_ ?_ ?_ ?_ ?_ ?_
  · rw [hnone]
    exact h.vaultBalances
  · rw [hnone]
    exact h.hasVault
  · rw [hnone]
    exact h.markets
  · rw [hnone]
    exact h.oraclePrices
  · intro j a l hj
    rw [halfOf_update hhalf] at hj
    rw [hnone]
    exact h.half j a l hj
  · intro a ha
    rw [hnone]
    refine h.whole a fun j l hj => ha j l ?_
    rw [halfOf_update hhalf]
    exact hj

omit [DecidableEq ι] in
/-- Nobody else has read the balance that is written. -/
theorem stage_setVault {a : Address} {v : ℚ} (hopen : ¬ c.AwaitsBeside i (Section.opensVault a))
    (j : ι) (hj : j ≠ i) (w : Section) (h : Stage c.shared.state w (c.pending j)) :
    Stage (c.shared.setVault a v).state w (c.pending j) := by
  refine h.keep rfl rfl ?_ (fun _ _ => rfl)
  intro b hb
  refine Function.update_of_ne ?_ _ _
  rintro rfl
  exact not_mem_of_not_awaitsBeside hopen hj hb

theorem Serialises.adjust (h : Serialises devSeed c₀ c order) (hi : i ∉ order) {a : Address}
    {deltaDollars : ℚ} (hd : deltaDollars ≠ 0)
    (hp₀ : c₀.pending i = [.adjustVault a deltaDollars])
    (hopen : ¬ c.AwaitsBeside i (Section.opensVault a)) :
    Serialises devSeed c₀ ⟨c.shared.setVault a
      (nextBalance (c.shared.state.vaultBalances a) deltaDollars),
        Function.update c.pending i []⟩ (order++[i]) := by
  have hrun : runCall devSeed (serial devSeed c₀ order) (.adjustVault a deltaDollars) =
      (serial devSeed c₀ order).setVaultBalance a
        (nextBalance (c.shared.state.vaultBalances a) deltaDollars) := by
    change DurableState.adjustVault _ a deltaDollars = _
    unfold DurableState.adjustVault
    rw [if_neg hd, h.vaultBalances]
  have hhalf : halfOf [] = halfOf (c.pending i) := (h.halfOf_waiting hi).symm
  refine h.commit hi hp₀ (.records (by simp)) (stage_setVault hopen) ?_ ?_ ?_ ?_ ?_ ?_
  · rw [hrun]
    simp only [DurableState.setVaultBalance, Shared.setVault, h.vaultBalances]
  · rw [hrun]
    simp only [DurableState.setVaultBalance, Shared.setVault, h.hasVault]
  · rw [hrun]
    exact h.markets
  · rw [hrun]
    exact h.oraclePrices
  · intro j b l hj
    rw [halfOf_update hhalf] at hj
    rw [hrun]
    exact h.half j b l hj
  · intro b hb
    rw [hrun]
    refine h.whole b fun j l hj => hb j l ?_
    rw [halfOf_update hhalf]
    exact hj

theorem Serialises.upsert (h : Serialises devSeed c₀ c order) (hi : i ∉ order) {now : ℕ}
    {a : Address} {marketId : String} {orderSide : Side} {qty price : ℚ}
    (hp₀ : c₀.pending i = [.call (.upsertPosition now a marketId orderSide qty price)])
    (hopen : ¬ c.AwaitsBeside i (Section.opensPositions a)) :
    Serialises devSeed c₀ ⟨{ c.shared with
        state := c.shared.state.upsertPosition now a marketId orderSide qty price },
      Function.update c.pending i [.copyPositions a]⟩ (order++[i]) := by
  have hnone := h.halfOf_waiting hi
  have hhalf : halfOf [Section.copyPositions a] = halfOf (c.pending i) := hnone.symm
  have hpos : (serial devSeed c₀ order).state.positions a = c.shared.state.positions a :=
    h.whole a (not_half hopen hnone)
  refine h.commit hi hp₀ (.records (by simp [Section.isRecord])) ?_ h.vaultBalances h.hasVault
    h.markets h.oraclePrices ?_ ?_
  · intro j hj w hstage
    refine hstage.keep rfl rfl (fun _ _ => rfl) ?_
    intro b hb
    refine Function.update_of_ne ?_ _ _
    rintro rfl
    exact not_mem_of_not_awaitsBeside hopen hj hb
  · intro j b l hj
    rw [halfOf_update hhalf] at hj
    have hb : b ≠ a := by
      rintro rfl
      exact not_half hopen hnone j l hj
    obtain ⟨hl, closed, he⟩ := h.half j b l hj
    refine ⟨(upsertPosition_positions_of_ne _ hb ..).trans hl, closed, ?_⟩
    dsimp only
    rw [upsertPosition_positions_of_ne _ hb]
    exact he
  · intro b hb
    by_cases hba : b = a
    · subst hba
      change Function.update _ b _ b = Function.update _ b _ b
      rw [Function.update_self, Function.update_self, hpos]
    · refine (upsertPosition_positions_of_ne _ hba ..).trans ?_
      dsimp only
      rw [upsertPosition_positions_of_ne _ hba]
      refine h.whole b fun j l hj => hb j l ?_
      rw [halfOf_update hhalf]
      exact hj

omit [DecidableEq ι] in
theorem liquidatePosition_of_some (devSeed : Bool) {d : DurableState} {k : Close}
    {pos : PositionInfo} {health mark : ℚ}
    (h : d.state.liquidatable k.address k.marketId = some (pos,health,mark)) :
    ∃ fills trades sent, runCall devSeed d k.call =
      { d with
        state := { d.state with
          vaultBalances := Function.update d.state.vaultBalances k.address
            (pos.closeOut mark (d.state.vaultBalances k.address))
          positions := Function.update d.state.positions k.address
            ((d.state.positions k.address).filter fun p => p.marketId ≠ k.marketId)
          fills := fills
          publicTrades := trades }
        hasVault := Function.update d.hasVault k.address true
        sent := sent } := by
  change ∃ fills trades sent, (d.liquidatePosition k.now k.fillId k.tradeId k.address
    k.marketId).2 = _
  unfold DurableState.liquidatePosition
  rw [h]
  exact ⟨_, _, _, rfl⟩

/-- A forced close writes the balance, and owes the positions. -/
theorem Serialises.close (h : Serialises devSeed c₀ c order) (hi : i ∉ order) {k : Close}
    {pos : PositionInfo} {health mark : ℚ}
    (hliq : c.shared.state.liquidatable k.address k.marketId = some (pos,health,mark))
    (hp₀ : c₀.pending i = [k.call])
    (hopen : ¬ c.AwaitsBeside i (Section.opensVault k.address))
    (hopen' : ¬ c.AwaitsBeside i (Section.opensPositions k.address)) :
    Serialises devSeed c₀ ⟨c.shared.setVault k.address
        (pos.closeOut mark (c.shared.state.vaultBalances k.address)),
      Function.update c.pending i (closing k pos (c.shared.state.positions k.address) mark
        (c.shared.state.vaultBalances k.address)).tail⟩ (order++[i]) := by
  have hnone := not_half hopen' (h.halfOf_waiting hi)
  have hpos := h.whole k.address hnone
  obtain ⟨fills, trades, sent, hrun⟩ := liquidatePosition_of_some devSeed
    ((h.liquidatable_eq hpos k.marketId).trans hliq)
  -- the only account that is half way is now that of the close
  have hsplit {j : ι} {b : Address} {l' : List PositionInfo}
      (hj : halfOf (Function.update c.pending i (closing k pos (c.shared.state.positions k.address)
        mark (c.shared.state.vaultBalances k.address)).tail j) = some (b,l')) :
      (b = k.address ∧ l' = (c.shared.state.positions k.address).filter fun p =>
        p.marketId ≠ k.marketId) ∨ b ≠ k.address ∧ halfOf (c.pending j) = some (b,l') := by
    by_cases hji : j = i
    · subst hji
      rw [Function.update_self] at hj
      obtain ⟨rfl, rfl⟩ := Prod.mk.inj (Option.some.inj hj)
      exact Or.inl ⟨rfl, rfl⟩
    · rw [Function.update_of_ne hji] at hj
      refine Or.inr ⟨?_, hj⟩
      rintro rfl
      exact hnone j l' hj
  refine h.commit hi hp₀ (.send _ _ (by simp [Section.isRecord])) (stage_setVault hopen)
    ?_ ?_ ?_ ?_ ?_ ?_
  · rw [hrun]
    simp only [Shared.setVault, h.vaultBalances]
  · rw [hrun]
    simp only [Shared.setVault, h.hasVault]
  · rw [hrun]
    exact h.markets
  · rw [hrun]
    exact h.oraclePrices
  · intro j b l' hj
    rw [hrun]
    rcases hsplit hj with ⟨rfl, rfl⟩ | ⟨hb, hj⟩
    · refine ⟨?_, k.marketId, rfl⟩
      dsimp only
      rw [Function.update_self, hpos]
    · dsimp only
      rw [Function.update_of_ne hb]
      exact h.half j b l' hj
  · intro b hb
    rw [hrun]
    have hba : b ≠ k.address := by
      rintro rfl
      refine hb i ((c.shared.state.positions k.address).filter fun p =>
        p.marketId ≠ k.marketId) ?_
      rw [Function.update_self]
      rfl
    dsimp only
    rw [Function.update_of_ne hba]
    refine h.whole b fun j l' hj => hb j l' ?_
    have hji : j ≠ i := by
      rintro rfl
      rw [h.halfOf_waiting hi] at hj
      simp at hj
    rw [Function.update_of_ne hji]
    exact hj

/-- A forced close writes the positions that it owes. -/
theorem Serialises.writePositions (h : Serialises devSeed c₀ c order) (hi : i ∈ order)
    {a : Address} {ps : List PositionInfo} (hhalf : halfOf (c.pending i) = some (a,ps))
    (hopen : ¬ c.AwaitsBeside i (Section.opensPositions a)) (hrest : Rest l)
    (hl : halfOf l = none) :
    Serialises devSeed c₀ ⟨{ c.shared with state := c.shared.state.setPositions a ps },
      Function.update c.pending i l⟩ order := by
  have hother {b : Address} (hb : b ≠ a) :
      (c.shared.state.setPositions a ps).positions b = c.shared.state.positions b :=
    Function.update_of_ne hb _ _
  refine ⟨h.nodup, ?_, ?_, h.vaultBalances, h.hasVault, h.markets, h.oraclePrices, ?_, ?_⟩
  · intro j hj
    have hji : j ≠ i := fun he => hj (he ▸ hi)
    simp only [Function.update_of_ne hji]
    rcases h.waiting j hj with hnone | ⟨w, hw, hp, hstage⟩
    · exact Or.inl hnone
    · refine Or.inr ⟨w, hw, hp, hstage.keep rfl rfl (fun _ _ => rfl) ?_⟩
      intro b hb
      apply hother
      rintro rfl
      exact not_mem_of_not_awaitsBeside hopen hji hb
  · intro j hj
    refine ⟨(h.settled j hj).1, ?_⟩
    by_cases hji : j = i
    · subst hji
      simp only [Function.update_self]
      exact hrest
    · simp only [Function.update_of_ne hji]
      exact (h.settled j hj).2
  · intro j b l' hj
    by_cases hji : j = i
    · subst hji
      simp only [Function.update_self, hl] at hj
      simp at hj
    · simp only [Function.update_of_ne hji] at hj
      have hb : b ≠ a := by
        rintro rfl
        exact not_mem_of_not_awaitsBeside hopen hji (opensPositions_of_halfOf hj)
      dsimp only
      rw [hother hb]
      exact h.half j b l' hj
  · intro b hb
    by_cases hba : b = a
    · subst hba
      rw [(h.half i b ps hhalf).1]
      simp [AppState.setPositions]
    · dsimp only
      rw [hother hba]
      refine h.whole b fun j l' hj => ?_
      by_cases hji : j = i
      · subst hji
        rw [hhalf] at hj
        exact hba (Prod.mk.inj (Option.some.inj hj)).1.symm
      · refine hb j l' ?_
        simp only [Function.update_of_ne hji]
        exact hj

/-- One section, provided that it writes alone. -/
theorem Serialises.step (h : Serialises devSeed c₀ c order) {new : List Section}
    (halone : WritesAlone c i) (hp : c.pending i = w :: ws)
    (hs : perform devSeed i w c.shared = some (s,new)) :
    ∃ order, Serialises devSeed c₀ ⟨s, Function.update c.pending i (new++ws)⟩ order := by
  have hw := halone w ws hp
  by_cases hi : i ∈ order
  · have hrest := (h.settled i hi).2
    rw [hp] at hrest
    obtain ⟨hrest', ⟨hsame, hhalf⟩ | ⟨a, ps, rfl, rfl, hhalf⟩⟩ := hrest.step hs
    · exact ⟨order, h.goOn hsame (fun hn => absurd hi hn) (fun _ => hrest')
        (by rw [hhalf, hp])⟩
    · exact ⟨order, h.writePositions hi (by rw [hp]; rfl) hw hrest' hhalf⟩
  · rcases h.waiting i hi with ⟨-, hnone⟩ | ⟨w₀, hw₀, hp₀, hstage⟩
    · simp [hnone] at hp
    rw [hp] at hstage
    have hstep := hstage.step hw₀ hs
    generalize hl : new++ws = l at hstep
    generalize hold : w :: ws = old at hstep
    cases hstep with
    | goOn hsame hnext =>
      refine ⟨order, h.goOn hsame (fun _ => ⟨w₀, hw₀, hp₀, hnext⟩) (fun hn => absurd hn hi) ?_⟩
      rw [hnext.halfOf hw₀, h.halfOf_waiting hi]
    | skip address =>
      refine ⟨_, h.giveUp hi hp₀ ?_⟩
      change DurableState.adjustVault _ address 0 = _
      exact if_pos rfl
    | refuse k hliq =>
      refine ⟨_, h.giveUp hi hp₀ ?_⟩
      change (DurableState.liquidatePosition _ k.now k.fillId k.tradeId k.address k.marketId).2 = _
      unfold DurableState.liquidatePosition
      rw [h.liquidatable_eq_none hliq]
    | adjust address deltaDollars hd =>
      obtain ⟨rfl, rfl⟩ := List.cons.inj hold
      exact ⟨_, h.adjust hi hd hp₀ hw.1⟩
    | upsert now address marketId orderSide qty price =>
      obtain ⟨rfl, rfl⟩ := List.cons.inj hold
      exact ⟨_, h.upsert hi hp₀ hw⟩
    | close k pos health mark hliq =>
      obtain ⟨rfl, rfl⟩ := List.cons.inj hold
      have hopens : ∃ x ∈ (closing k pos (c.shared.state.positions k.address) mark
          (c.shared.state.vaultBalances k.address)).tail, x.opensPositions k.address :=
        ⟨_, List.mem_cons_self, rfl⟩
      exact ⟨_, h.close hi hliq hp₀ hw.1 (hw.2 hopens)⟩

end Step

section Main
variable {c₀ : Pool ι Section (Shared ι)}

theorem serialises_start (devSeed : Bool) (h : ∀ i, c₀.pending i = [] ∨
    ∃ w, w.isSettlement = true ∧ c₀.pending i = [w]) : Serialises devSeed c₀ c₀ [] := by
  have hnone (i : ι) : halfOf (c₀.pending i) = none := by
    rcases h i with hp | ⟨w, hw, hp⟩
    · rw [hp]
      rfl
    · rw [hp]
      exact (Stage.start (s := c₀.shared.state) w).halfOf hw
  refine ⟨List.nodup_nil, ?_, by simp, rfl, rfl, rfl, rfl, ?_, fun _ _ => rfl⟩
  · intro i _
    rcases h i with hp | ⟨w, hw, hp⟩
    · exact Or.inl ⟨hp, hp⟩
    · refine Or.inr ⟨w, hw, hp, ?_⟩
      rw [hp]
      exact .start w
  · intro i a l hi
    rw [hnone i] at hi
    simp at hi

/-- In every interleaving in which no call writes what another one has read and has still to
write: when all calls have returned, balances and positions are those that the calls leave one
after the other in some order. -/
theorem run_serialises [DecidableEq ι] (devSeed : Bool) (h : ∀ i, c₀.pending i = [] ∨
      ∃ w, w.isSettlement = true ∧ c₀.pending i = [w]) (is : List ι)
    (halone : ∀ pre i, pre++[i] <+: is → WritesAlone (c₀.run (perform devSeed) pre) i)
    (hdone : (c₀.run (perform devSeed) is).Returned) :
    ∃ order : List ι, order.Nodup ∧ (∀ i, i ∈ order ↔ c₀.pending i ≠ []) ∧
      (serial devSeed c₀ order).vault = (c₀.run (perform devSeed) is).shared.vault ∧
      (serial devSeed c₀ order).state.positions =
        (c₀.run (perform devSeed) is).shared.state.positions := by
  have hrun : ∃ order, Serialises devSeed c₀ (c₀.run (perform devSeed) is) order := by
    refine Pool.run_invariant (P := fun c => ∃ order, Serialises devSeed c₀ c order)
      (R := WritesAlone) ?_ ⟨[], serialises_start devSeed h⟩ halone
    rintro c i w ws s new ⟨order, hc⟩ hR hp hs
    exact hc.step hR hp hs
  obtain ⟨order, hser⟩ := hrun
  refine ⟨order, hser.nodup, ?_, ?_, ?_⟩
  · intro i
    refine ⟨fun hi => (hser.settled i hi).1, fun hi => ?_⟩
    by_contra hn
    rcases hser.waiting i hn with ⟨hp, -⟩ | ⟨w, -, -, hstage⟩
    · exact hi hp
    · exact hstage.ne_nil (hdone i)
  · funext a
    simp only [DurableState.vault, hser.vaultBalances, hser.hasVault]
  · funext a
    refine hser.whole a fun i l hi => ?_
    rw [hdone i] at hi
    simp [halfOf] at hi

end Main

end Serial

/-- Two credits to account 1, and a fill of it, on an empty edge. -/
def twoCredits : Pool (Fin 3) Section (Shared (Fin 3)) where
  shared :=
    { state := AppState.new
      hasVault := fun _ => false
      sent := []
      readers := 0
      matched := [] }
  pending := fun i => match i with
    | 0 => [.adjustVault 1 1]
    | 1 => [.adjustVault 1 2]
    | 2 => [.call (.upsertPosition 0 1 "btc-usd" .buy 1 100)]

theorem twoCredits_calls (i : Fin 3) : twoCredits.pending i = [] ∨
    ∃ w, w.isSettlement = true ∧ twoCredits.pending i = [w] := by
  right
  fin_cases i
  · exact ⟨_, rfl, rfl⟩
  · exact ⟨_, rfl, rfl⟩
  · exact ⟨_, rfl, rfl⟩

/-- The fill comes between the halves of a credit, but no credit between those of the other. -/
theorem run_serialises_twoCredits : let is : List (Fin 3) := [0, 2, 0, 0, 1, 1, 1, 2, 2]
    (twoCredits.run (perform false) is).Returned ∧
      (twoCredits.run (perform false) is).shared.vault 1 = some 3000000 ∧
      ∃ order : List (Fin 3), order.Nodup ∧ (∀ i, i ∈ order ↔ twoCredits.pending i ≠ []) ∧
        (serial false twoCredits order).vault =
          (twoCredits.run (perform false) is).shared.vault ∧
        (serial false twoCredits order).state.positions =
          (twoCredits.run (perform false) is).shared.state.positions := by
  intro is
  have hdone : (twoCredits.run (perform false) is).Returned := by
    intro i
    fin_cases i <;> rfl
  -- the other calls have one section left each
  have hone {S : Section → Prop} {x y : Section} (hx : x ∈ [y]) (hS : S x) : S y :=
    List.mem_singleton.mp hx ▸ hS
  refine ⟨hdone, by decide +kernel, ?_⟩
  refine run_serialises false twoCredits_calls is ?_ hdone
  refine forall_request_cons (P := fun pre => WritesAlone (twoCredits.run (perform false) pre))
    (writesAlone_of_eq rfl trivial) ?_
  refine forall_request_cons (writesAlone_of_eq rfl ?_) ?_
  · rintro ⟨j, hj, x, hx, hopen⟩
    fin_cases j
    · exact hone hx hopen
    · exact hone hx hopen
    · exact hj rfl
  refine forall_request_cons (writesAlone_of_eq rfl trivial) ?_
  refine forall_request_cons (writesAlone_of_eq rfl ⟨?_, by simp⟩) ?_
  · rintro ⟨j, hj, x, hx, hopen⟩
    fin_cases j
    · exact hj rfl
    · exact hone hx hopen
    · exact hone hx hopen
  refine forall_request_cons (writesAlone_of_eq rfl trivial) ?_
  refine forall_request_cons (writesAlone_of_eq rfl trivial) ?_
  refine forall_request_cons (writesAlone_of_eq rfl ⟨?_, by simp⟩) ?_
  · rintro ⟨j, hj, x, hx, hopen⟩
    fin_cases j
    · exact absurd hx List.not_mem_nil
    · exact hj rfl
    · exact hone hx hopen
  refine forall_request_cons (writesAlone_of_eq rfl trivial) ?_
  exact forall_request_cons (writesAlone_of_eq rfl trivial) forall_request_nil

/-- Both credits read the empty balance, and the second overwrites the first. -/
theorem credit_lost : let is : List (Fin 3) := [0, 1, 0, 0, 1, 1, 2, 2, 2]
    (∀ i, twoCredits.pending i = [] ∨
        ∃ w, w.isSettlement = true ∧ twoCredits.pending i = [w]) ∧
      (twoCredits.run (perform false) is).Returned ∧
      (twoCredits.run (perform false) is).shared.vault 1 = some 2000000 ∧
      ¬ ∃ order : List (Fin 3), order.Nodup ∧ (∀ i, i ∈ order ↔ twoCredits.pending i ≠ []) ∧
        (serial false twoCredits order).vault =
          (twoCredits.run (perform false) is).shared.vault ∧
        (serial false twoCredits order).state.positions =
          (twoCredits.run (perform false) is).shared.state.positions := by
  intro is
  have hdone : (twoCredits.run (perform false) is).Returned := by
    intro i
    fin_cases i <;> rfl
  have hmem : (twoCredits.run (perform false) is).shared.vault 1 = some 2000000 := by
    decide +kernel
  refine ⟨twoCredits_calls, hdone, hmem, ?_⟩
  rintro ⟨order, hnd, hall, hvault, -⟩
  -- whatever the order, both credits are there
  have hperm : order.Perm [0, 1, 2] := by
    refine (List.perm_ext_iff_of_nodup hnd (by decide)).mpr ?_
    intro i
    rw [hall]
    fin_cases i <;> simp [twoCredits]
  have hserial : ∀ o ∈ List.permutations' ([0, 1, 2] : List (Fin 3)),
      (serial false twoCredits o).vault 1 = some 3000000 := by decide +kernel
  have h1 := hserial order (List.mem_permutations'.mpr hperm)
  rw [congrFun hvault 1, hmem] at h1
  exact absurd h1 (by decide)

end Perplex.Edge
