import Perplex.Interleaving
import Perplex.PersistModel

/-! The mutators of the edge as they run side by side. A section is what a call does under one
lock, or one send on the channel to the writer; between two sections of a call others may run
theirs. Only `match_taker` sends under a lock: it reads the open orders while it queues the
books of its makers, and nobody writes them meanwhile. -/
namespace Perplex.Edge

namespace AppState

/-- The levels of both sides of a market, as `rebuild_orderbook` adds them up. -/
def levels (s : AppState) (env : Env) (marketId : String) : List (ℚ × ℚ) × List (ℚ × ℚ) :=
  (((s.restingOrders env marketId .buy).foldl addLevel SortedMap.empty).entries.reverse,
    ((s.restingOrders env marketId .sell).foldl addLevel SortedMap.empty).entries)

/-- What `rebuild_orderbook` stores. -/
def storeBook (s : AppState) (marketId : String) (levels : List (ℚ × ℚ) × List (ℚ × ℚ)) :
    AppState :=
  let sequence := min ((s.orderbooks marketId).sequence+1) (2^64-1)
  { s with orderbooks :=
      Function.update s.orderbooks marketId ⟨sequence, levels.1, levels.2⟩ }

theorem rebuildOrderbook_eq (s : AppState) (env : Env) (marketId : String) :
    s.rebuildOrderbook env marketId = s.storeBook marketId (s.levels env marketId) := rfl

/-- Phase 2 of `match_taker`: the fills, and the books with spent orders reaped. -/
def fillSection (s : AppState) (env : Env) (marketId : String) (takerQty : ℚ)
    (candidates : List Candidate) : List MatchedFill × AppState :=
  let (filled,orders) := matchLoop env.now s.openOrders takerQty candidates
  let reaped := fun addr => (orders addr).filter fun o =>
    o.marketId ≠ marketId ∨ o.remaining ≠ 0
  (filled,{ s with openOrders := reaped })

end AppState

/-- What `liquidate_position` is called with, and the clock and ids that it draws. -/
structure Close where
  now : ℕ
  fillId : ℕ
  tradeId : ℕ
  address : Address
  marketId : String

inductive Section where
  /-- A mutator is entered, up to its first lock or send. -/
  | call (m : Mutator)
  /-- `adjust_vault` is entered. -/
  | adjustVault (address : Address) (deltaDollars : ℚ)
  | writeVault (address : Address) (amount : ℚ)
  | queueVault (address : Address) (amount : ℚ)
  | writePositions (address : Address) (positions : List PositionInfo)
  | copyPositions (address : Address)
  | queuePositions (address : Address) (positions : List PositionInfo)
  | pushFill (address : Address) (fill : FillInfo)
  | pushTrade (marketId : String) (trade : PublicTrade)
  | pushOrder (env : Env) (address : Address) (order : OpenOrder)
  | queueDelete (id : ℕ)
  /-- Phase 2 of `match_taker`, with what phase 1 has collected. -/
  | fill (env : Env) (marketId : String) (takerQty : ℚ) (candidates : List Candidate)
  /-- Phase 4 of `match_taker` takes its lock. -/
  | share (filled : List MatchedFill)
  | queueOrders (address : Address)
  | unlock
  | readBook (env : Env) (marketId : String)
  | storeBook (marketId : String) (levels : List (ℚ × ℚ) × List (ℚ × ℚ))
  /-- `liquidate_position` asks for the health of the position that it has found. -/
  | checkHealth (close : Close) (pos : PositionInfo) (positions : List PositionInfo)
  | takeCollateral (close : Close) (pos : PositionInfo) (positions : List PositionInfo)
      (mark : ℚ)

/-- The stores and the channel, the number of calls that hold the read lock of the open
orders, and the fills that each call of `match_taker` has made. -/
structure Shared (ι : Type) extends DurableState where
  readers : ℕ
  matched : List (ι × MatchedFill)

namespace Shared
variable {ι : Type}

def send (s : Shared ι) (e : PersistEvent) : Shared ι := { s with sent := s.sent++[e] }

def setOrders (s : Shared ι) (address : Address) (orders : List OpenOrder) : Shared ι :=
  { s with state := { s.state with
      openOrders := Function.update s.state.openOrders address orders } }

def setVault (s : Shared ι) (address : Address) (amount : ℚ) : Shared ι :=
  { s with
    state := { s.state with
      vaultBalances := Function.update s.state.vaultBalances address amount }
    hasVault := Function.update s.hasVault address true }

/-- The first section of a mutator. -/
def enter (devSeed : Bool) (s : Shared ι) : Mutator → Option (Shared ι × List Section)
  | .addOpenOrder env address order =>
    some (s.send (.upsertOrder address order),[.pushOrder env address order])
  | .cancelOrder env address orderId =>
    if s.readers = 0 then
      let kept := (s.state.openOrders address).filter fun o => o.id ≠ orderId
      match (s.state.openOrders address).find? (fun o => o.id = orderId) with
      | none => some (s.setOrders address kept,[])
      | some o =>
        some (s.setOrders address kept,[.queueDelete orderId, .readBook env o.marketId])
    else none
  | .matchTaker env marketId takerSide takerPrice takerQty taker =>
    some (s,[.fill env marketId takerQty
      (s.state.candidates env marketId takerSide takerPrice taker)])
  | .upsertPosition now address marketId orderSide qty price =>
    some ({ s with state := s.state.upsertPosition now address marketId orderSide qty price },
      [.copyPositions address])
  | .setPositions address positions =>
    some (s.send (.syncPositions address positions),[.writePositions address positions])
  | .recordFill address fill => some (s.send (.insertFill address fill),[.pushFill address fill])
  | .recordTrade marketId trade => some (s.send (.insertTrade trade),[.pushTrade marketId trade])
  | .setVaultBalance address amount =>
    some (s.send (.upsertVault address amount),[.writeVault address amount])
  | .seedDevVault address =>
    if devSeed = false ∨ s.hasVault address = true then some (s,[])
    else some (s.setVault address devSeedUsdcRaw,[.queueVault address devSeedUsdcRaw])
  | .liquidatePosition now fillId tradeId address marketId =>
    match (s.state.positions address).find? (fun p => p.marketId = marketId) with
    | none => some (s,[])
    | some pos => some (s,[.checkHealth ⟨now, fillId, tradeId, address, marketId⟩ pos
        (s.state.positions address)])

/-- What `liquidate_position` does once it has the collateral. -/
def closing (close : Close) (pos : PositionInfo) (positions : List PositionInfo)
    (mark balance : ℚ) : List Section :=
  let side := pos.side.closing
  [.call (.setVaultBalance close.address (pos.closeOut mark balance)),
    .call (.setPositions close.address
      (positions.filter fun p => p.marketId ≠ close.marketId)),
    .call (.recordFill close.address ⟨close.fillId, none, close.marketId, side, mark, pos.size, 0,
      .liquidation, close.now, ""⟩),
    .call (.recordTrade close.marketId ⟨close.tradeId, close.marketId, mark, pos.size, side,
      close.now⟩)]

end Shared

open Shared

/-- One section of call `i`: the state after it, and the sections that follow it. A section
that writes the open orders waits for those that read them. -/
def perform {ι : Type} (devSeed : Bool) (i : ι) (w : Section) (s : Shared ι) :
    Option (Shared ι × List Section) :=
  match w with
  | .call m => s.enter devSeed m
  | .adjustVault address deltaDollars =>
    if deltaDollars = 0 then some (s,[])
    else
      let next := s.state.vaultBalances address+trunc (deltaDollars*10^6)
      some (s,[.call (.setVaultBalance address (if next < 0 then 0 else next))])
  | .writeVault address amount => some (s.setVault address amount,[])
  | .queueVault address amount => some (s.send (.upsertVault address amount),[])
  | .writePositions address positions =>
    some ({ s with state := s.state.setPositions address positions },[])
  | .copyPositions address => some (s,[.queuePositions address (s.state.positions address)])
  | .queuePositions address positions => some (s.send (.syncPositions address positions),[])
  | .pushFill address fill => some ({ s with state := s.state.recordFill address fill },[])
  | .pushTrade marketId trade =>
    some ({ s with state := s.state.recordTrade marketId trade },[])
  | .pushOrder env address order =>
    if s.readers = 0 then
      some (s.setOrders address (s.state.openOrders address++[order]),
        [.readBook env order.marketId])
    else none
  | .queueDelete id => some (s.send (.deleteOrder id),[])
  | .fill env marketId takerQty candidates =>
    if s.readers = 0 then
      let (filled,next) := s.state.fillSection env marketId takerQty candidates
      some ({ s with state := next, matched := s.matched++filled.map fun m => (i,m) },
        [.readBook env marketId, .share filled])
    else none
  | .share filled =>
    if filled = [] then some (s,[])
    else some ({ s with readers := s.readers+1 },
      (seen filled).map Section.queueOrders++[.unlock])
  | .queueOrders address =>
    some (s.send (.syncOrders address (s.state.openOrders address)),[])
  | .unlock => some ({ s with readers := s.readers-1 },[])
  | .readBook env marketId => some (s,[.storeBook marketId (s.state.levels env marketId)])
  | .storeBook marketId levels =>
    some ({ s with state := s.state.storeBook marketId levels },[])
  | .checkHealth close pos positions =>
    match s.state.positionHealth close.address pos with
    | none => some (s,[])
    | some health =>
      if 1 ≤ health then some (s,[])
      else
        match s.state.liqInputs pos with
        | none => some (s,[])
        | some i => some (s,[.takeCollateral close pos positions i.mark])
  | .takeCollateral close pos positions mark =>
    some (s,closing close pos positions mark (s.state.vaultBalances close.address))

section Alone
variable {ι : Type} {devSeed : Bool} {i : ι}

theorem finishes_readBook (s : Shared ι) (env : Env) (marketId : String) :
    Pool.Finishes (perform devSeed) i s [.readBook env marketId]
      { s with state := s.state.rebuildOrderbook env marketId } :=
  .cons rfl (.cons rfl (.nil _))

theorem finishes_queueOrders (s : Shared ι) (as : List Address) :
    Pool.Finishes (perform devSeed) i s (as.map Section.queueOrders)
      { s with sent := s.sent++as.map fun a => .syncOrders a (s.state.openOrders a) } := by
  induction as generalizing s with
  | nil =>
    simp only [List.map_nil, List.append_nil]
    exact .nil s
  | cons a as ih =>
    refine .cons rfl ?_
    have hrest := ih (s.send (.syncOrders a (s.state.openOrders a)))
    simpa only [Shared.send, List.append_assoc, List.map_cons, List.cons_append,
      List.nil_append] using hrest

theorem finishes_share (s : Shared ι) (filled : List MatchedFill) :
    Pool.Finishes (perform devSeed) i s [.share filled]
      { s with sent := s.sent++(seen filled).map fun a =>
          .syncOrders a (s.state.openOrders a) } := by
  by_cases hf : filled = []
  · subst hf
    have hnone : perform devSeed i (.share []) s = some (s,[]) := by simp [perform]
    refine .cons hnone ?_
    simp only [seen, List.foldl_nil, List.map_nil, List.append_nil]
    exact .nil s
  · refine .cons (if_neg hf) ?_
    rw [List.append_nil]
    refine (finishes_queueOrders _ _).append (.cons rfl ?_)
    exact .nil _

/-- `set_vault_balance` and `set_positions` are two sections each, wherever they are called. -/
theorem finishes_setVault (s : Shared ι) (address : Address) (amount : ℚ) :
    Pool.Finishes (perform devSeed) i s [.call (.setVaultBalance address amount)]
      { s with toDurableState := s.toDurableState.setVaultBalance address amount } :=
  .cons rfl (.cons rfl (.nil _))

theorem finishes_setPositions (s : Shared ι) (address : Address)
    (positions : List PositionInfo) :
    Pool.Finishes (perform devSeed) i s [.call (.setPositions address positions)]
      { s with toDurableState := s.toDurableState.setPositions address positions } :=
  .cons rfl (.cons rfl (.nil _))

theorem finishes_recordFill (s : Shared ι) (address : Address) (fill : FillInfo) :
    Pool.Finishes (perform devSeed) i s [.call (.recordFill address fill)]
      { s with toDurableState := s.toDurableState.recordFill address fill } :=
  .cons rfl (.cons rfl (.nil _))

theorem finishes_recordTrade (s : Shared ι) (marketId : String) (trade : PublicTrade) :
    Pool.Finishes (perform devSeed) i s [.call (.recordTrade marketId trade)]
      { s with toDurableState := s.toDurableState.recordTrade marketId trade } :=
  .cons rfl (.cons rfl (.nil _))

theorem finishes_liquidatePosition (s : Shared ι) (now fillId tradeId : ℕ) (address : Address)
    (marketId : String) :
    Pool.Finishes (perform devSeed) i s
      [.call (.liquidatePosition now fillId tradeId address marketId)]
      { s with toDurableState := (s.toDurableState.liquidatePosition now fillId tradeId address
        marketId).2 } := by
  unfold DurableState.liquidatePosition AppState.liquidatable
  cases hfind : (s.state.positions address).find? (fun p => p.marketId = marketId) with
  | none =>
    refine .cons (by simp only [perform, enter, hfind]; rfl) ?_
    exact .nil s
  | some pos =>
    refine .cons (by simp only [perform, enter, hfind]; rfl) ?_
    cases hh : s.state.positionHealth address pos with
    | none =>
      refine .cons (by simp only [perform, hh]; rfl) ?_
      simp only [hh, Option.bind_some, Option.bind_none]
      exact .nil s
    | some health =>
      by_cases hsafe : 1 ≤ health
      · refine .cons (by simp only [perform, hh, if_pos hsafe]; rfl) ?_
        simp only [hh, Option.bind_some, if_pos hsafe]
        exact .nil s
      · cases hl : s.state.liqInputs pos with
        | none =>
          -- a position with a health factor has a price
          unfold AppState.positionHealth at hh
          rw [hl] at hh
          simp at hh
        | some inputs =>
          refine .cons (by simp only [perform, hh, if_neg hsafe, hl]; rfl) ?_
          simp only [hh, hl, Option.bind_some, if_neg hsafe, Option.map_some]
          refine .cons rfl ?_
          exact (finishes_setVault _ _ _).append ((finishes_setPositions _ _ _).append
            ((finishes_recordFill _ _ _).append (finishes_recordTrade _ _ _)))

/-- Nobody reads the open orders, so nothing is waited for. -/
theorem mutate_finishes (s : Shared ι) (hr : s.readers = 0) (m : Mutator) :
    ∃ matched, Pool.Finishes (perform devSeed) i s [.call m]
      { s with toDurableState := mutate devSeed s.toDurableState m, matched } := by
  cases m with
  | addOpenOrder env address order =>
    refine ⟨s.matched, .cons rfl (.cons (if_pos hr) ?_)⟩
    exact finishes_readBook _ env order.marketId
  | cancelOrder env address orderId =>
    refine ⟨s.matched, ?_⟩
    unfold mutate DurableState.cancelOrder AppState.cancelOrder
    cases hfind : (s.state.openOrders address).find? (fun o => o.id = orderId) with
    | none =>
      have hnone : (s.state.openOrders address).any (fun o => o.id = orderId) = false := by
        rw [List.find?_eq_none] at hfind
        simpa using hfind
      refine .cons (by simp only [perform, enter, if_pos hr, hfind]; rfl) ?_
      simp only [hfind, hnone, Bool.false_eq_true, if_false, List.append_nil]
      exact .nil _
    | some o =>
      have hid : o.id = orderId := by simpa using List.find?_some hfind
      have hsome : (s.state.openOrders address).any (fun o => o.id = orderId) = true :=
        List.any_eq_true.mpr ⟨o, List.mem_of_find?_eq_some hfind, by simpa using hid⟩
      refine .cons (by simp only [perform, enter, if_pos hr, hfind]; rfl) (.cons rfl ?_)
      simp only [hfind, hsome, if_true]
      exact finishes_readBook _ env o.marketId
  | matchTaker env marketId takerSide takerPrice takerQty taker =>
    refine ⟨s.matched++(s.state.matchTaker env marketId takerSide takerPrice takerQty taker).1.map
      fun m => (i,m), .cons rfl (.cons (if_pos hr) ?_)⟩
    exact (finishes_readBook _ env marketId).append (finishes_share _ _)
  | upsertPosition now address marketId orderSide qty price =>
    exact ⟨s.matched, .cons rfl (.cons rfl (.cons rfl (.nil _)))⟩
  | setPositions address positions => exact ⟨s.matched, finishes_setPositions s _ _⟩
  | recordFill address fill => exact ⟨s.matched, finishes_recordFill s _ _⟩
  | recordTrade marketId trade => exact ⟨s.matched, finishes_recordTrade s _ _⟩
  | setVaultBalance address amount => exact ⟨s.matched, finishes_setVault s _ _⟩
  | seedDevVault address =>
    refine ⟨s.matched, ?_⟩
    unfold mutate DurableState.seedDevVault
    by_cases hseed : devSeed = false ∨ s.hasVault address = true
    · refine .cons (if_pos hseed) ?_
      simp only [if_pos hseed]
      exact .nil s
    · refine .cons (if_neg hseed) (.cons rfl ?_)
      simp only [if_neg hseed]
      exact .nil _
  | liquidatePosition now fillId tradeId address marketId =>
    exact ⟨s.matched, finishes_liquidatePosition s now fillId tradeId address marketId⟩

end Alone

/-- Events on the table of the open orders. -/
def PersistEvent.isOrder : PersistEvent → Bool
  | .upsertOrder _ _ => true
  | .deleteOrder _ => true
  | .syncOrders _ _ => true
  | _ => false

/-- Sections that have to do with the open orders or the public books. -/
def Section.isOrder : Section → Bool
  | .call (.addOpenOrder _ _ _) => true
  | .call (.cancelOrder _ _ _) => true
  | .call (.matchTaker _ _ _ _ _ _) => true
  | .pushOrder _ _ _ => true
  | .queueDelete _ => true
  | .fill _ _ _ _ => true
  | .share _ => true
  | .queueOrders _ => true
  | .readBook _ _ => true
  | .storeBook _ _ => true
  | _ => false

/-- All that a section can do to the open orders, the public books and the fills. -/
inductive OrderStep {ι : Type} (i : ι) (s : Shared ι) :
    Section → Shared ι → List Section → Prop where
  | announce (env : Env) (address : Address) (order : OpenOrder) :
    OrderStep i s (.call (.addOpenOrder env address order))
      (s.send (.upsertOrder address order)) [.pushOrder env address order]
  | push (env : Env) (address : Address) (order : OpenOrder) :
    OrderStep i s (.pushOrder env address order)
      (s.setOrders address (s.state.openOrders address++[order]))
      [.readBook env order.marketId]
  | remove (env : Env) (address : Address) (orderId : ℕ) (o : OpenOrder)
      (h : (s.state.openOrders address).find? (fun o => o.id = orderId) = some o) :
    OrderStep i s (.call (.cancelOrder env address orderId))
      (s.setOrders address ((s.state.openOrders address).filter fun o => o.id ≠ orderId))
      [.queueDelete orderId, .readBook env o.marketId]
  | absent (env : Env) (address : Address) (orderId : ℕ)
      (h : (s.state.openOrders address).find? (fun o => o.id = orderId) = none) :
    OrderStep i s (.call (.cancelOrder env address orderId))
      (s.setOrders address ((s.state.openOrders address).filter fun o => o.id ≠ orderId)) []
  | queueDelete (id : ℕ) : OrderStep i s (.queueDelete id) (s.send (.deleteOrder id)) []
  | collect (env : Env) (marketId : String) (takerSide : Side) (takerPrice : Option ℚ)
      (takerQty : ℚ) (taker : Address) :
    OrderStep i s (.call (.matchTaker env marketId takerSide takerPrice takerQty taker)) s
      [.fill env marketId takerQty (s.state.candidates env marketId takerSide takerPrice taker)]
  | fill (env : Env) (marketId : String) (takerQty : ℚ) (candidates : List Candidate) :
    OrderStep i s (.fill env marketId takerQty candidates)
      { s with
        state := (s.state.fillSection env marketId takerQty candidates).2
        matched := s.matched++(s.state.fillSection env marketId takerQty candidates).1.map
          fun m => (i,m) }
      [.readBook env marketId, .share (s.state.fillSection env marketId takerQty candidates).1]
  | share (filled : List MatchedFill) (readers : ℕ) (tail : List Section)
      (htail : tail = [] ∨ tail = [.unlock]) :
    OrderStep i s (.share filled) { s with readers }
      ((seen filled).map Section.queueOrders++tail)
  | queueOrders (address : Address) : OrderStep i s (.queueOrders address)
      (s.send (.syncOrders address (s.state.openOrders address))) []
  | readBook (env : Env) (marketId : String) : OrderStep i s (.readBook env marketId) s
      [.storeBook marketId (s.state.levels env marketId)]
  | storeBook (marketId : String) (levels : List (ℚ × ℚ) × List (ℚ × ℚ)) :
    OrderStep i s (.storeBook marketId levels)
      { s with state := s.state.storeBook marketId levels } []
  | other {w : Section} {s' : Shared ι} {new : List Section} (hw : w.isOrder = false)
      (horders : s'.state.openOrders = s.state.openOrders)
      (hbooks : s'.state.orderbooks = s.state.orderbooks) (hmatched : s'.matched = s.matched)
      (hsent : s'.sent = s.sent ∨ ∃ e, PersistEvent.isOrder e = false ∧ s'.sent = s.sent++[e])
      (hnew : ∀ x ∈ new, x.isOrder = false) : OrderStep i s w s' new

section Inversion
variable {ι : Type} {devSeed : Bool} {i : ι} {s s' : Shared ι} {new : List Section}

theorem enter_orderStep {m : Mutator} (h : s.enter devSeed m = some (s',new)) :
    OrderStep i s (.call m) s' new := by
  cases m with
  | addOpenOrder env address order =>
    obtain ⟨rfl, rfl⟩ := Prod.mk.inj (Option.some.inj h)
    exact .announce env address order
  | cancelOrder env address orderId =>
    simp only [enter] at h
    split_ifs at h with hr
    cases hfind : (s.state.openOrders address).find? (fun o => o.id = orderId) with
    | none =>
      simp only [hfind] at h
      obtain ⟨rfl, rfl⟩ := Prod.mk.inj (Option.some.inj h)
      exact .absent env address orderId hfind
    | some o =>
      simp only [hfind] at h
      obtain ⟨rfl, rfl⟩ := Prod.mk.inj (Option.some.inj h)
      exact .remove env address orderId o hfind
  | matchTaker env marketId takerSide takerPrice takerQty taker =>
    obtain ⟨rfl, rfl⟩ := Prod.mk.inj (Option.some.inj h)
    exact .collect env marketId takerSide takerPrice takerQty taker
  | upsertPosition now address marketId orderSide qty price =>
    obtain ⟨rfl, rfl⟩ := Prod.mk.inj (Option.some.inj h)
    exact .other rfl rfl rfl rfl (Or.inl rfl) (by simp [Section.isOrder])
  | setPositions address positions =>
    obtain ⟨rfl, rfl⟩ := Prod.mk.inj (Option.some.inj h)
    exact .other rfl rfl rfl rfl (Or.inr ⟨_, rfl, rfl⟩) (by simp [Section.isOrder])
  | recordFill address fill =>
    obtain ⟨rfl, rfl⟩ := Prod.mk.inj (Option.some.inj h)
    exact .other rfl rfl rfl rfl (Or.inr ⟨_, rfl, rfl⟩) (by simp [Section.isOrder])
  | recordTrade marketId trade =>
    obtain ⟨rfl, rfl⟩ := Prod.mk.inj (Option.some.inj h)
    exact .other rfl rfl rfl rfl (Or.inr ⟨_, rfl, rfl⟩) (by simp [Section.isOrder])
  | setVaultBalance address amount =>
    obtain ⟨rfl, rfl⟩ := Prod.mk.inj (Option.some.inj h)
    exact .other rfl rfl rfl rfl (Or.inr ⟨_, rfl, rfl⟩) (by simp [Section.isOrder])
  | seedDevVault address =>
    simp only [enter] at h
    split_ifs at h with hseed
    · obtain ⟨rfl, rfl⟩ := Prod.mk.inj (Option.some.inj h)
      exact .other rfl rfl rfl rfl (Or.inl rfl) (by simp)
    · obtain ⟨rfl, rfl⟩ := Prod.mk.inj (Option.some.inj h)
      exact .other rfl rfl rfl rfl (Or.inl rfl) (by simp [Section.isOrder])
  | liquidatePosition now fillId tradeId address marketId =>
    simp only [enter] at h
    split at h
    · obtain ⟨rfl, rfl⟩ := Prod.mk.inj (Option.some.inj h)
      exact .other rfl rfl rfl rfl (Or.inl rfl) (by simp)
    · obtain ⟨rfl, rfl⟩ := Prod.mk.inj (Option.some.inj h)
      exact .other rfl rfl rfl rfl (Or.inl rfl) (by simp [Section.isOrder])

theorem perform_orderStep {w : Section} (h : perform devSeed i w s = some (s',new)) :
    OrderStep i s w s' new := by
  -- a section may find nothing to do
  have hquiet {x : Section} (hx : x.isOrder = false) (hs : s' = s) (hn : new = []) :
      OrderStep i s x s' new :=
    .other hx (hs ▸ rfl) (hs ▸ rfl) (hs ▸ rfl) (Or.inl (hs ▸ rfl)) (by simp [hn])
  cases w with
  | call m => exact enter_orderStep h
  | adjustVault address deltaDollars =>
    by_cases hd : deltaDollars = 0
    · simp only [perform, if_pos hd] at h
      obtain ⟨rfl, rfl⟩ := Prod.mk.inj (Option.some.inj h)
      exact hquiet rfl rfl rfl
    · simp only [perform, if_neg hd] at h
      obtain ⟨rfl, rfl⟩ := Prod.mk.inj (Option.some.inj h)
      exact .other rfl rfl rfl rfl (Or.inl rfl) (by simp [Section.isOrder])
  | writeVault address amount =>
    obtain ⟨rfl, rfl⟩ := Prod.mk.inj (Option.some.inj h)
    exact .other rfl rfl rfl rfl (Or.inl rfl) (by simp)
  | queueVault address amount =>
    obtain ⟨rfl, rfl⟩ := Prod.mk.inj (Option.some.inj h)
    exact .other rfl rfl rfl rfl (Or.inr ⟨_, rfl, rfl⟩) (by simp)
  | writePositions address positions =>
    obtain ⟨rfl, rfl⟩ := Prod.mk.inj (Option.some.inj h)
    exact .other rfl rfl rfl rfl (Or.inl rfl) (by simp)
  | copyPositions address =>
    obtain ⟨rfl, rfl⟩ := Prod.mk.inj (Option.some.inj h)
    exact .other rfl rfl rfl rfl (Or.inl rfl) (by simp [Section.isOrder])
  | queuePositions address positions =>
    obtain ⟨rfl, rfl⟩ := Prod.mk.inj (Option.some.inj h)
    exact .other rfl rfl rfl rfl (Or.inr ⟨_, rfl, rfl⟩) (by simp)
  | pushFill address fill =>
    obtain ⟨rfl, rfl⟩ := Prod.mk.inj (Option.some.inj h)
    exact .other rfl rfl rfl rfl (Or.inl rfl) (by simp)
  | pushTrade marketId trade =>
    obtain ⟨rfl, rfl⟩ := Prod.mk.inj (Option.some.inj h)
    exact .other rfl rfl rfl rfl (Or.inl rfl) (by simp)
  | pushOrder env address order =>
    simp only [perform] at h
    split_ifs at h with hr
    obtain ⟨rfl, rfl⟩ := Prod.mk.inj (Option.some.inj h)
    exact .push env address order
  | queueDelete id =>
    obtain ⟨rfl, rfl⟩ := Prod.mk.inj (Option.some.inj h)
    exact .queueDelete id
  | fill env marketId takerQty candidates =>
    simp only [perform] at h
    split_ifs at h with hr
    obtain ⟨rfl, rfl⟩ := Prod.mk.inj (Option.some.inj h)
    exact .fill env marketId takerQty candidates
  | share filled =>
    simp only [perform] at h
    split_ifs at h with hf
    · obtain ⟨rfl, rfl⟩ := Prod.mk.inj (Option.some.inj h)
      subst hf
      exact .share [] s.readers [] (Or.inl rfl)
    · obtain ⟨rfl, rfl⟩ := Prod.mk.inj (Option.some.inj h)
      exact .share filled (s.readers+1) [.unlock] (Or.inr rfl)
  | queueOrders address =>
    obtain ⟨rfl, rfl⟩ := Prod.mk.inj (Option.some.inj h)
    exact .queueOrders address
  | unlock =>
    obtain ⟨rfl, rfl⟩ := Prod.mk.inj (Option.some.inj h)
    exact .other rfl rfl rfl rfl (Or.inl rfl) (by simp)
  | readBook env marketId =>
    obtain ⟨rfl, rfl⟩ := Prod.mk.inj (Option.some.inj h)
    exact .readBook env marketId
  | storeBook marketId levels =>
    obtain ⟨rfl, rfl⟩ := Prod.mk.inj (Option.some.inj h)
    exact .storeBook marketId levels
  | checkHealth close pos positions =>
    simp only [perform] at h
    split at h
    · obtain ⟨rfl, rfl⟩ := Prod.mk.inj (Option.some.inj h)
      exact hquiet rfl rfl rfl
    · split_ifs at h with hsafe
      · obtain ⟨rfl, rfl⟩ := Prod.mk.inj (Option.some.inj h)
        exact hquiet rfl rfl rfl
      · split at h
        · obtain ⟨rfl, rfl⟩ := Prod.mk.inj (Option.some.inj h)
          exact hquiet rfl rfl rfl
        · obtain ⟨rfl, rfl⟩ := Prod.mk.inj (Option.some.inj h)
          exact .other rfl rfl rfl rfl (Or.inl rfl) (by simp [Section.isOrder])
  | takeCollateral close pos positions mark =>
    obtain ⟨rfl, rfl⟩ := Prod.mk.inj (Option.some.inj h)
    exact .other rfl rfl rfl rfl (Or.inl rfl) (by simp [closing, Section.isOrder])

end Inversion

/-- Events that change a balance or a list of positions. -/
def PersistEvent.isAccount : PersistEvent → Bool
  | .upsertVault _ _ => true
  | .syncPositions _ _ => true
  | _ => false

/-- The second halves of the setters: what is left to do once memory or the channel is ahead. -/
def Section.isHalf : Section → Bool
  | .writeVault _ _ => true
  | .queueVault _ _ => true
  | .writePositions _ _ => true
  | .copyPositions _ => true
  | .queuePositions _ _ => true
  | _ => false

/-- Every way in which a section can touch a balance, a list of positions or their events. -/
inductive AccountStep {ι : Type} (s : Shared ι) :
    Section → Shared ι → List Section → Prop where
  | sendVault (address : Address) (amount : ℚ) :
    AccountStep s (.call (.setVaultBalance address amount))
      (s.send (.upsertVault address amount)) [.writeVault address amount]
  | seed (address : Address) : AccountStep s (.call (.seedDevVault address))
      (s.setVault address devSeedUsdcRaw) [.queueVault address devSeedUsdcRaw]
  | writeVault (address : Address) (amount : ℚ) :
    AccountStep s (.writeVault address amount) (s.setVault address amount) []
  | queueVault (address : Address) (amount : ℚ) :
    AccountStep s (.queueVault address amount) (s.send (.upsertVault address amount)) []
  | sendPositions (address : Address) (positions : List PositionInfo) :
    AccountStep s (.call (.setPositions address positions))
      (s.send (.syncPositions address positions)) [.writePositions address positions]
  | upsert (now : ℕ) (address : Address) (marketId : String) (orderSide : Side) (qty price : ℚ) :
    AccountStep s (.call (.upsertPosition now address marketId orderSide qty price))
      { s with state := s.state.upsertPosition now address marketId orderSide qty price }
      [.copyPositions address]
  | writePositions (address : Address) (positions : List PositionInfo) :
    AccountStep s (.writePositions address positions)
      { s with state := s.state.setPositions address positions } []
  | copyPositions (address : Address) : AccountStep s (.copyPositions address) s
      [.queuePositions address (s.state.positions address)]
  | queuePositions (address : Address) (positions : List PositionInfo) :
    AccountStep s (.queuePositions address positions)
      (s.send (.syncPositions address positions)) []
  | other {w : Section} {s' : Shared ι} {new : List Section} (hw : w.isHalf = false)
      (hvault : s'.vault = s.vault) (hpositions : s'.state.positions = s.state.positions)
      (hsent : s'.sent = s.sent ∨
        ∃ e, PersistEvent.isAccount e = false ∧ s'.sent = s.sent++[e]) :
    AccountStep s w s' new

theorem upsertPosition_positions_of_ne (s : AppState) {a b : Address} (hb : b ≠ a) (now : ℕ)
    (marketId : String) (orderSide : Side) (qty price : ℚ) :
    (s.upsertPosition now a marketId orderSide qty price).positions b = s.positions b :=
  Function.update_of_ne hb _ _

section AccountInversion
variable {ι : Type} {devSeed : Bool} {i : ι} {s s' : Shared ι} {new : List Section}

theorem enter_accountStep {m : Mutator} (h : s.enter devSeed m = some (s',new)) :
    AccountStep s (.call m) s' new := by
  cases m with
  | addOpenOrder env address order =>
    obtain ⟨rfl, rfl⟩ := Prod.mk.inj (Option.some.inj h)
    exact .other rfl rfl rfl (Or.inr ⟨_, rfl, rfl⟩)
  | cancelOrder env address orderId =>
    simp only [enter] at h
    split_ifs at h with hr
    split at h
    · obtain ⟨rfl, rfl⟩ := Prod.mk.inj (Option.some.inj h)
      exact .other rfl rfl rfl (Or.inl rfl)
    · obtain ⟨rfl, rfl⟩ := Prod.mk.inj (Option.some.inj h)
      exact .other rfl rfl rfl (Or.inl rfl)
  | matchTaker env marketId takerSide takerPrice takerQty taker =>
    obtain ⟨rfl, rfl⟩ := Prod.mk.inj (Option.some.inj h)
    exact .other rfl rfl rfl (Or.inl rfl)
  | upsertPosition now address marketId orderSide qty price =>
    obtain ⟨rfl, rfl⟩ := Prod.mk.inj (Option.some.inj h)
    exact .upsert now address marketId orderSide qty price
  | setPositions address positions =>
    obtain ⟨rfl, rfl⟩ := Prod.mk.inj (Option.some.inj h)
    exact .sendPositions address positions
  | recordFill address fill =>
    obtain ⟨rfl, rfl⟩ := Prod.mk.inj (Option.some.inj h)
    exact .other rfl rfl rfl (Or.inr ⟨_, rfl, rfl⟩)
  | recordTrade marketId trade =>
    obtain ⟨rfl, rfl⟩ := Prod.mk.inj (Option.some.inj h)
    exact .other rfl rfl rfl (Or.inr ⟨_, rfl, rfl⟩)
  | setVaultBalance address amount =>
    obtain ⟨rfl, rfl⟩ := Prod.mk.inj (Option.some.inj h)
    exact .sendVault address amount
  | seedDevVault address =>
    simp only [enter] at h
    split_ifs at h with hseed
    · obtain ⟨rfl, rfl⟩ := Prod.mk.inj (Option.some.inj h)
      exact .other rfl rfl rfl (Or.inl rfl)
    · obtain ⟨rfl, rfl⟩ := Prod.mk.inj (Option.some.inj h)
      exact .seed address
  | liquidatePosition now fillId tradeId address marketId =>
    simp only [enter] at h
    split at h
    · obtain ⟨rfl, rfl⟩ := Prod.mk.inj (Option.some.inj h)
      exact .other rfl rfl rfl (Or.inl rfl)
    · obtain ⟨rfl, rfl⟩ := Prod.mk.inj (Option.some.inj h)
      exact .other rfl rfl rfl (Or.inl rfl)

theorem perform_accountStep {w : Section} (h : perform devSeed i w s = some (s',new)) :
    AccountStep s w s' new := by
  cases w with
  | call m => exact enter_accountStep h
  | adjustVault address deltaDollars =>
    by_cases hd : deltaDollars = 0
    · simp only [perform, if_pos hd] at h
      obtain ⟨rfl, rfl⟩ := Prod.mk.inj (Option.some.inj h)
      exact .other rfl rfl rfl (Or.inl rfl)
    · simp only [perform, if_neg hd] at h
      obtain ⟨rfl, rfl⟩ := Prod.mk.inj (Option.some.inj h)
      exact .other rfl rfl rfl (Or.inl rfl)
  | writeVault address amount =>
    obtain ⟨rfl, rfl⟩ := Prod.mk.inj (Option.some.inj h)
    exact .writeVault address amount
  | queueVault address amount =>
    obtain ⟨rfl, rfl⟩ := Prod.mk.inj (Option.some.inj h)
    exact .queueVault address amount
  | writePositions address positions =>
    obtain ⟨rfl, rfl⟩ := Prod.mk.inj (Option.some.inj h)
    exact .writePositions address positions
  | copyPositions address =>
    obtain ⟨rfl, rfl⟩ := Prod.mk.inj (Option.some.inj h)
    exact .copyPositions address
  | queuePositions address positions =>
    obtain ⟨rfl, rfl⟩ := Prod.mk.inj (Option.some.inj h)
    exact .queuePositions address positions
  | pushOrder env address order =>
    simp only [perform] at h
    split_ifs at h with hr
    obtain ⟨rfl, rfl⟩ := Prod.mk.inj (Option.some.inj h)
    exact .other rfl rfl rfl (Or.inl rfl)
  | queueDelete id =>
    obtain ⟨rfl, rfl⟩ := Prod.mk.inj (Option.some.inj h)
    exact .other rfl rfl rfl (Or.inr ⟨_, rfl, rfl⟩)
  | fill env marketId takerQty candidates =>
    simp only [perform] at h
    split_ifs at h with hr
    obtain ⟨rfl, rfl⟩ := Prod.mk.inj (Option.some.inj h)
    exact .other rfl rfl rfl (Or.inl rfl)
  | share filled =>
    simp only [perform] at h
    split_ifs at h with hf
    · obtain ⟨rfl, rfl⟩ := Prod.mk.inj (Option.some.inj h)
      exact .other rfl rfl rfl (Or.inl rfl)
    · obtain ⟨rfl, rfl⟩ := Prod.mk.inj (Option.some.inj h)
      exact .other rfl rfl rfl (Or.inl rfl)
  | queueOrders address =>
    obtain ⟨rfl, rfl⟩ := Prod.mk.inj (Option.some.inj h)
    exact .other rfl rfl rfl (Or.inr ⟨_, rfl, rfl⟩)
  | checkHealth close pos positions =>
    simp only [perform] at h
    split at h
    · obtain ⟨rfl, rfl⟩ := Prod.mk.inj (Option.some.inj h)
      exact .other rfl rfl rfl (Or.inl rfl)
    · split_ifs at h with hsafe
      · obtain ⟨rfl, rfl⟩ := Prod.mk.inj (Option.some.inj h)
        exact .other rfl rfl rfl (Or.inl rfl)
      · split at h
        · obtain ⟨rfl, rfl⟩ := Prod.mk.inj (Option.some.inj h)
          exact .other rfl rfl rfl (Or.inl rfl)
        · obtain ⟨rfl, rfl⟩ := Prod.mk.inj (Option.some.inj h)
          exact .other rfl rfl rfl (Or.inl rfl)
  | _ =>
    -- fills, trades, the public book and the read lock are kept apart from the accounts
    obtain ⟨rfl, rfl⟩ := Prod.mk.inj (Option.some.inj h)
    exact .other rfl rfl rfl (Or.inl rfl)

end AccountInversion

end Perplex.Edge
