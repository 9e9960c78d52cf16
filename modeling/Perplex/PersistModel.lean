import Perplex.EdgeLiquidation
import Perplex.EdgeReduceOnly
import Perplex.Tables

/-! Durability of the edge (`db.rs` and the mutators of `state.rs`). Each mutator changes the
stores in memory and sends events; a writer applies the events to the tables, and a restart
loads the tables. Texts are copied between records and rows as they are, so a column has the
type of the field it holds. Funding history is left out. -/
namespace Perplex.Edge

structure OrderRow where
  id : ℕ
  address : Address
  marketId : String
  side : Side
  orderType : OrderType
  price : ℚ
  qty : ℚ
  remaining : ℚ
  tsNs : ℕ
  clientOrderId : Option String
deriving DecidableEq, Repr

structure PositionRow where
  address : Address
  marketId : String
  size : ℚ
  side : PositionSide
  entryPriceX18 : ℤ
  markPriceX18 : ℤ
  notionalUsdc : ℤ
  unrealisedPnlUsdc : ℤ
  realisedPnlUsdc : ℤ
  leverage : ℚ
  liquidationPriceX18 : ℤ
  fundingPaidUsdc : ℤ
  lastUpdatedTsNs : ℕ
deriving DecidableEq, Repr

structure FillRow where
  id : ℕ
  address : Address
  orderId : Option ℕ
  marketId : String
  side : Side
  price : ℚ
  qty : ℚ
  feeUsdc : ℤ
  role : FillRole
  tsNs : ℕ
  txHash : String
  seq : ℕ
deriving DecidableEq, Repr

structure VaultRow where
  address : Address
  amount : ℚ
deriving DecidableEq, Repr

structure TradeRow where
  id : ℕ
  marketId : String
  price : ℚ
  qty : ℚ
  side : Side
  tsNs : ℕ
  seq : ℕ
deriving DecidableEq, Repr

def OpenOrder.row (address : Address) (o : OpenOrder) : OrderRow :=
  ⟨o.id, address, o.marketId, o.side, o.orderType, o.price, o.qty, o.remaining, o.tsNs,
    o.clientOrderId⟩

def OrderRow.order (r : OrderRow) : OpenOrder :=
  ⟨r.id, r.marketId, r.side, r.orderType, r.price, r.qty, r.remaining, r.tsNs, r.clientOrderId⟩

def PositionInfo.row (address : Address) (p : PositionInfo) : PositionRow :=
  ⟨address, p.marketId, p.size, p.side, p.entryPriceX18, p.markPriceX18, p.notionalUsdc,
    p.unrealisedPnlUsdc, p.realisedPnlUsdc, p.leverage, p.liquidationPriceX18,
    p.fundingPaidUsdc, p.lastUpdatedTsNs⟩

def PositionRow.position (r : PositionRow) : PositionInfo :=
  ⟨r.marketId, r.size, r.side, r.entryPriceX18, r.markPriceX18, r.notionalUsdc,
    r.unrealisedPnlUsdc, r.realisedPnlUsdc, r.leverage, r.liquidationPriceX18,
    r.fundingPaidUsdc, r.lastUpdatedTsNs⟩

/-- Primary key of the positions. -/
def PositionRow.key (r : PositionRow) : Address × String := (r.address,r.marketId)

def FillInfo.row (address : Address) (seq : ℕ) (f : FillInfo) : FillRow :=
  ⟨f.id, address, f.orderId, f.marketId, f.side, f.price, f.qty, f.feeUsdc, f.role, f.tsNs,
    f.txHash, seq⟩

def FillRow.fill (r : FillRow) : FillInfo :=
  ⟨r.id, r.orderId, r.marketId, r.side, r.price, r.qty, r.feeUsdc, r.role, r.tsNs, r.txHash⟩

def PublicTrade.row (seq : ℕ) (x : PublicTrade) : TradeRow :=
  ⟨x.id, x.marketId, x.price, x.qty, x.side, x.tsNs, seq⟩

def TradeRow.trade (r : TradeRow) : PublicTrade :=
  ⟨r.id, r.marketId, r.price, r.qty, r.side, r.tsNs⟩

/-- The tables, with the counters behind their `BIGSERIAL` columns. -/
structure Db where
  openOrders : List OrderRow
  positions : List PositionRow
  fills : List FillRow
  vaultBalances : List VaultRow
  publicTrades : List TradeRow
  fillSeq : ℕ
  tradeSeq : ℕ
deriving DecidableEq, Repr

def Db.empty : Db := ⟨[], [], [], [], [], 0, 0⟩

inductive PersistEvent where
  | upsertOrder (address : Address) (order : OpenOrder)
  | deleteOrder (id : ℕ)
  | syncOrders (address : Address) (orders : List OpenOrder)
  | insertFill (address : Address) (fill : FillInfo)
  | syncPositions (address : Address) (positions : List PositionInfo)
  | upsertVault (address : Address) (amount : ℚ)
  | insertTrade (trade : PublicTrade)
deriving DecidableEq, Repr

/-- `apply`; nothing comes back when a statement violates a primary key. -/
def Db.apply (db : Db) : PersistEvent → Option Db
  | .upsertOrder address order =>
    some { db with
      openOrders := insertOrUpdate OrderRow.id (fun r => { r with remaining := order.remaining })
        db.openOrders (order.row address) }
  | .deleteOrder id => some { db with openOrders := db.openOrders.filter fun r => r.id ≠ id }
  | .syncOrders address orders =>
    -- delete, then insert without a conflict clause
    (insertRows OrderRow.id (db.openOrders.filter fun r => r.address ≠ address)
      (orders.map (OpenOrder.row address))).map fun t => { db with openOrders := t }
  | .insertFill address fill =>
    some { db with
      fills := insertOrIgnore FillRow.id db.fills (fill.row address db.fillSeq)
      fillSeq := db.fillSeq+1 }
  | .syncPositions address positions =>
    (insertRows PositionRow.key (db.positions.filter fun r => r.address ≠ address)
      (positions.map (PositionInfo.row address))).map fun t => { db with positions := t }
  | .upsertVault address amount =>
    some { db with
      vaultBalances := insertOrUpdate VaultRow.address (fun r => { r with amount })
        db.vaultBalances ⟨address, amount⟩ }
  | .insertTrade trade =>
    some { db with
      publicTrades := insertOrIgnore TradeRow.id db.publicTrades (trade.row db.tradeSeq)
      tradeSeq := db.tradeSeq+1 }

/-- The writer applies the events of the channel in order. -/
def Db.applyAll : Db → List PersistEvent → Option Db
  | db, [] => some db
  | db, e :: es => (db.apply e).bind fun db => db.applyAll es

/-- The rows that the queries of `load_snapshot` return. -/
structure Fetched where
  openOrders : List OrderRow
  positions : List PositionRow
  fills : List FillRow
  vaultBalances : List VaultRow
  publicTrades : List TradeRow

/-- A query without `ORDER BY` returns its rows in any order. -/
structure Db.Returns (db : Db) (f : Fetched) : Prop where
  openOrders : f.openOrders.Perm db.openOrders
  positions : f.positions.Perm db.positions
  fills : f.fills.Perm db.fills
  fills_ordered : f.fills.Pairwise fun a b => a.seq ≤ b.seq
  vaultBalances : f.vaultBalances.Perm db.vaultBalances
  publicTrades : f.publicTrades.Perm db.publicTrades
  publicTrades_ordered : f.publicTrades.Pairwise fun a b => a.seq ≤ b.seq

structure DbSnapshot where
  openOrders : Address → List OpenOrder
  positions : Address → List PositionInfo
  fills : Address → List FillInfo
  vaultBalances : Address → Option ℚ
  publicTrades : String → List PublicTrade

/-- `load_snapshot`. -/
def loadSnapshot (f : Fetched) : DbSnapshot where
  openOrders := pushAll OrderRow.address OrderRow.order f.openOrders
  positions := pushAll PositionRow.address PositionRow.position f.positions
  fills := pushAll FillRow.address FillRow.fill f.fills
  vaultBalances := putAll VaultRow.address VaultRow.amount f.vaultBalances
  publicTrades := pushAll TradeRow.marketId TradeRow.trade f.publicTrades

/-- Result of a forced close. -/
structure LiquidationOutcome where
  address : Address
  marketId : String
  side : PositionSide
  size : ℚ
  markPrice : ℚ
  realisedPnlUsdc : ℤ
  healthFactor : ℚ
deriving DecidableEq, Repr

/-- What is left of a balance when a position is closed at the mark; bad debt is dropped. -/
def PositionInfo.closeOut (p : PositionInfo) (mark balance : ℚ) : ℤ :=
  let raw := balance/10^6+p.pnl mark
  scaleUsdc6 (if raw < 0 then 0 else raw)

/-- The side of the fill that closes a position. -/
def PositionSide.closing : PositionSide → Side
  | .long => .sell
  | .short => .buy

/-- Position, health and mark of a close that `liquidate_position` goes through with. -/
def AppState.liquidatable (s : AppState) (address : Address) (marketId : String) :
    Option (PositionInfo × ℚ × ℚ) :=
  ((s.positions address).find? fun p => p.marketId = marketId).bind fun pos =>
    (s.positionHealth address pos).bind fun health =>
      if 1 ≤ health then none else (s.liqInputs pos).map fun i => (pos,health,i.mark)

/-- The stores with what they have sent. A vault balance of zero is an entry like any other,
so which accounts have one is kept aside. -/
structure DurableState where
  state : AppState
  hasVault : Address → Bool
  sent : List PersistEvent

/-- The makers of some fills, each once. -/
def seen (filled : List MatchedFill) : List Address :=
  filled.foldl (fun seen f => if f.makerAddress ∈ seen then seen else seen++[f.makerAddress]) []

/-- What `seed_dev_vault` hands out. -/
def devSeedUsdcRaw : ℚ := 100000000000

namespace DurableState

/-- `new_persisted` on an empty snapshot. -/
def new : DurableState := ⟨AppState.new, fun _ => false, []⟩

/-- The vault balances as a map. -/
def vault (d : DurableState) (a : Address) : Option ℚ :=
  if d.hasVault a then some (d.state.vaultBalances a) else none

def addOpenOrder (d : DurableState) (env : Env) (address : Address) (order : OpenOrder) :
    DurableState :=
  { d with
    state := d.state.addOpenOrder env address order
    sent := d.sent++[.upsertOrder address order] }

def cancelOrder (d : DurableState) (env : Env) (address : Address) (orderId : ℕ) :
    DurableState :=
  { d with
    state := d.state.cancelOrder env address orderId
    sent := d.sent++if (d.state.openOrders address).any (fun o => o.id = orderId)
      then [.deleteOrder orderId] else [] }

def matchTaker (d : DurableState) (env : Env) (marketId : String) (takerSide : Side)
    (takerPrice : Option ℚ) (takerQty : ℚ) (taker : Address) : DurableState :=
  let (filled,s) := d.state.matchTaker env marketId takerSide takerPrice takerQty taker
  -- only the makers that were filled are sent again
  { d with
    state := s
    sent := d.sent++(seen filled).map fun a => .syncOrders a (s.openOrders a) }

def upsertPosition (d : DurableState) (now : ℕ) (address : Address) (marketId : String)
    (orderSide : Side) (qty price : ℚ) : DurableState :=
  let s := d.state.upsertPosition now address marketId orderSide qty price
  { d with state := s, sent := d.sent++[.syncPositions address (s.positions address)] }

def setPositions (d : DurableState) (address : Address) (positions : List PositionInfo) :
    DurableState :=
  { d with
    state := d.state.setPositions address positions
    sent := d.sent++[.syncPositions address positions] }

def recordFill (d : DurableState) (address : Address) (fill : FillInfo) : DurableState :=
  { d with state := d.state.recordFill address fill, sent := d.sent++[.insertFill address fill] }

def recordTrade (d : DurableState) (marketId : String) (trade : PublicTrade) : DurableState :=
  { d with state := d.state.recordTrade marketId trade, sent := d.sent++[.insertTrade trade] }

def setVaultBalance (d : DurableState) (address : Address) (amount : ℚ) : DurableState where
  state := { d.state with
    vaultBalances := Function.update d.state.vaultBalances address amount }
  hasVault := Function.update d.hasVault address true
  sent := d.sent++[.upsertVault address amount]

def seedDevVault (devSeed : Bool) (d : DurableState) (address : Address) : DurableState :=
  if devSeed = false ∨ d.hasVault address = true then d
  else d.setVaultBalance address devSeedUsdcRaw

/-- `liquidate_position`, with the ids that it draws. -/
def liquidatePosition (d : DurableState) (now fillId tradeId : ℕ) (address : Address)
    (marketId : String) : Option LiquidationOutcome × DurableState :=
  match d.state.liquidatable address marketId with
  | none => (none,d)
  | some (pos,health,mark) =>
    let side := pos.side.closing
    let balance := pos.closeOut mark (d.state.vaultBalances address)
    let remaining := (d.state.positions address).filter fun p => p.marketId ≠ marketId
    let d := d.setVaultBalance address balance
    let d := d.setPositions address remaining
    let d := d.recordFill address
      ⟨fillId, none, marketId, side, mark, pos.size, 0, .liquidation, now, ""⟩
    let d := d.recordTrade marketId ⟨tradeId, marketId, mark, pos.size, side, now⟩
    (some ⟨address, marketId, pos.side, pos.size, mark, scaleUsdc6 (pos.pnl mark), health⟩,d)

end DurableState

/-- A call of one of the mutators. -/
inductive Mutator where
  | addOpenOrder (env : Env) (address : Address) (order : OpenOrder)
  | cancelOrder (env : Env) (address : Address) (orderId : ℕ)
  | matchTaker (env : Env) (marketId : String) (takerSide : Side) (takerPrice : Option ℚ)
      (takerQty : ℚ) (taker : Address)
  | upsertPosition (now : ℕ) (address : Address) (marketId : String) (orderSide : Side)
      (qty price : ℚ)
  | setPositions (address : Address) (positions : List PositionInfo)
  | recordFill (address : Address) (fill : FillInfo)
  | recordTrade (marketId : String) (trade : PublicTrade)
  | setVaultBalance (address : Address) (amount : ℚ)
  | seedDevVault (address : Address)
  | liquidatePosition (now fillId tradeId : ℕ) (address : Address) (marketId : String)

def mutate (devSeed : Bool) (d : DurableState) : Mutator → DurableState
  | .addOpenOrder env address order => d.addOpenOrder env address order
  | .cancelOrder env address orderId => d.cancelOrder env address orderId
  | .matchTaker env marketId takerSide takerPrice takerQty taker =>
    d.matchTaker env marketId takerSide takerPrice takerQty taker
  | .upsertPosition now address marketId orderSide qty price =>
    d.upsertPosition now address marketId orderSide qty price
  | .setPositions address positions => d.setPositions address positions
  | .recordFill address fill => d.recordFill address fill
  | .recordTrade marketId trade => d.recordTrade marketId trade
  | .setVaultBalance address amount => d.setVaultBalance address amount
  | .seedDevVault address => d.seedDevVault devSeed address
  | .liquidatePosition now fillId tradeId address marketId =>
    (d.liquidatePosition now fillId tradeId address marketId).2

end Perplex.Edge
