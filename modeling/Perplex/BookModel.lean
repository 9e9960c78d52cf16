import Mathlib.Algebra.Order.Ring.Rat
import Mathlib.Order.OrderDual
import Mathlib.Tactic.Linarith
import Mathlib.Tactic.Ring
import Mathlib.Logic.Function.Basic
import Perplex.SortedMap
import Perplex.Types

/-! The matching engine's order book (`perplex-matching`, files `book.rs`, `order.rs`,
`fill.rs`, `error.rs` and `position_tracker.rs`). `Decimal` is read as `ℚ`; a call that
returns an error still returns the book it left behind. -/
namespace Perplex.Book

abbrev OrderId := ℕ

inductive Side where
  | buy
  | sell
deriving DecidableEq, Repr

def Side.opposite : Side → Side
  | .buy => .sell
  | .sell => .buy

/-- Self-trade prevention mode. -/
inductive SelfTradeMode where
  | cancelNewest
  | cancelBoth
  | allow
deriving DecidableEq, Repr

inductive OrderType where
  | market
  | limit
deriving DecidableEq, Repr

inductive TimeInForce where
  | gtc
  | ioc
  | fok
deriving DecidableEq, Repr

structure Order where
  id : OrderId
  owner : Address
  market : MarketId
  side : Side
  orderType : OrderType
  price : ℚ
  qty : ℚ
  remaining : ℚ
  timeInForce : TimeInForce
  postOnly : Bool
  reduceOnly : Bool
  tsNs : ℕ
deriving DecidableEq, Repr

/-- True if the taker would cross a maker resting at `makerPrice`. -/
def Order.crosses (o : Order) (makerPrice : ℚ) : Bool :=
  match o.side, o.orderType with
  | .buy, .market => true
  | .sell, .market => true
  | .buy, .limit => makerPrice ≤ o.price
  | .sell, .limit => o.price ≤ makerPrice

structure Fill where
  id : ℕ
  market : MarketId
  makerOrderId : OrderId
  takerOrderId : OrderId
  makerUser : Address
  takerUser : Address
  price : ℚ
  qty : ℚ
  takerSide : Side
  tsNs : ℕ
deriving DecidableEq, Repr

inductive SubmitError where
  | postOnlyWouldCross
  | fokUnfillable
  | reduceOnlyWouldIncrease
  | selfTradeRejected
  | zeroQty
  | zeroPrice
  | marketNoLiquidity
deriving DecidableEq, Repr

/-- Net position per (user, market); an absent entry reads as zero. -/
structure PositionTracker where
  positions : Address × MarketId → Option ℚ

namespace PositionTracker

def new : PositionTracker := ⟨fun _ => none⟩

def get (t : PositionTracker) (user : Address) (market : MarketId) : ℚ :=
  (t.positions (user,market)).getD 0

def set (t : PositionTracker) (user : Address) (market : MarketId) (size : ℚ) :
    PositionTracker :=
  ⟨Function.update t.positions (user,market) (if size = 0 then none else some size)⟩

def applyFill (t : PositionTracker) (user : Address) (market : MarketId) (side : Side)
    (qty : ℚ) : PositionTracker :=
  let delta := match side with
    | .buy => qty
    | .sell => -qty
  t.set user market (t.get user market+delta)

def wouldReduce (t : PositionTracker) (user : Address) (market : MarketId) (side : Side)
    (qty : ℚ) : Bool :=
  let cur := t.get user market
  if cur = 0 then false
  else match decide (0 < cur), side with
    | true, .sell => qty ≤ cur
    | false, .buy => qty ≤ -cur
    | _, _ => false

end PositionTracker

/-- The queue of one price level, oldest order first. -/
abbrev Queue := List Order

/-- Bids iterate from the highest price, asks from the lowest. -/
structure Orderbook where
  market : MarketId
  bids : SortedMap ℚᵒᵈ Queue
  asks : SortedMap ℚ Queue
  byId : OrderId → Option Side
  nextFillId : ℕ
  selfTrade : SelfTradeMode

structure SubmitOutcome where
  fills : List Fill
  resting : Option OrderId
  remaining : ℚ
deriving DecidableEq, Repr

/-- What the self-trade check decides about one maker. -/
inductive StpAction where
  | proceed
  | rejectTaker
  | dropMaker
deriving DecidableEq, Repr

def SelfTradeMode.action (mode : SelfTradeMode) (maker taker : Order) : StpAction :=
  if maker.owner = taker.owner then
    match mode with
    | .allow => .proceed
    | .cancelNewest => .rejectTaker
    | .cancelBoth => .dropMaker
  else .proceed

/-- The mutable variables of the loop in `cross_one_level`: `visited` is the part of the
queue before `iter_idx`, as edited in place, and `consumed` is `consumed_indices`. -/
structure LevelPass where
  taker : Order
  fills : List Fill
  byId : OrderId → Option Side
  nextFillId : ℕ
  visited : List Order
  consumed : List ℕ

/-- A self-traded maker under `CancelBoth`: marked for removal without a fill. -/
def LevelPass.drop (st : LevelPass) (maker : Order) : LevelPass :=
  { st with
    byId := Function.update st.byId maker.id none
    visited := st.visited++[maker]
    consumed := st.consumed++[st.visited.length] }

/-- One fill; the maker is edited in place and stays at its index. -/
def LevelPass.trade (market : MarketId) (price : ℚ) (st : LevelPass) (maker : Order) : LevelPass :=
  let traded := min st.taker.remaining maker.remaining
  { st with
    taker := { st.taker with remaining := st.taker.remaining-traded }
    fills := st.fills++[
      { id := st.nextFillId+1
        market := market
        makerOrderId := maker.id
        takerOrderId := st.taker.id
        makerUser := maker.owner
        takerUser := st.taker.owner
        price := price
        qty := traded
        takerSide := st.taker.side
        tsNs := st.taker.tsNs }]
    nextFillId := st.nextFillId+1
    visited := st.visited++[{ maker with remaining := maker.remaining-traded }] }

/-- A maker whose remaining quantity reached zero leaves the id map and is marked. -/
def LevelPass.consume (st : LevelPass) (maker : Order) (index : ℕ) : LevelPass :=
  { st with
    byId := Function.update st.byId maker.id none
    consumed := st.consumed++[index] }

/-- The `while` loop of `cross_one_level` over the part of the queue from `iter_idx` on. -/
def crossQueue (mode : SelfTradeMode) (market : MarketId) (price : ℚ) :
    LevelPass → Queue → LevelPass × Queue × Option SubmitError
  | st, [] => (st,[],none)
  | st, maker :: rest =>
    if 0 < st.taker.remaining then
      match mode.action maker st.taker with
      -- the early `return Err`: the rest of the queue is never looked at
      | .rejectTaker => (st,maker :: rest,some .selfTradeRejected)
      | .dropMaker => crossQueue mode market price (st.drop maker) rest
      | .proceed =>
        -- a maker that keeps some quantity has used up the taker, and the loop breaks
        if maker.remaining-min st.taker.remaining maker.remaining = 0 then
          crossQueue mode market price
            ((st.trade market price maker).consume maker st.visited.length) rest
        else (st.trade market price maker,rest,none)
    else (st,maker :: rest,none)

/-- Remove the marked indices from the back, so that earlier ones do not drift. -/
def compact (queue : Queue) (consumed : List ℕ) : Queue :=
  consumed.reverse.foldl (fun q i => q.eraseIdx i) queue

/-- One side of the book together with what crossing it edits. -/
structure Crossing (K : Type) [LinearOrder K] where
  levels : SortedMap K Queue
  byId : OrderId → Option Side
  nextFillId : ℕ
  taker : Order
  fills : List Fill

section Crossing
variable {K : Type} [LinearOrder K]

/-- `cross_one_level`: the early error return leaves the marked makers in the queue. -/
def crossOneLevel (priceOf : K → ℚ) (mode : SelfTradeMode) (market : MarketId) (key : K)
    (c : Crossing K) : Crossing K × Option SubmitError :=
  -- the caller passes a key it has just read from the map
  let queue := (c.levels.get? key).getD []
  let start : LevelPass := ⟨c.taker, c.fills, c.byId, c.nextFillId, [], []⟩
  match crossQueue mode market (priceOf key) start queue with
  | (st,rest,err) =>
    let queue := st.visited++rest
    -- the early return skips the removal of `consumed_indices`
    let queue := if err.isSome then queue else compact queue st.consumed
    (⟨c.levels.adjust key (fun _ => queue), st.byId, st.nextFillId, st.taker, st.fills⟩, err)

def dropEmptyLevel (key : K) (c : Crossing K) : Crossing K :=
  if ((c.levels.get? key).map List.isEmpty).getD false then
    { c with levels := c.levels.erase key }
  else c

/-- The loop shared by `cross_buy` and `cross_sell`, cut off after `fuel` rounds. -/
def crossLoop (priceOf : K → ℚ) (mode : SelfTradeMode) (market : MarketId) :
    ℕ → Crossing K → Crossing K × Option SubmitError
  | 0, c => (c,none)
  | fuel+1, c =>
    if c.taker.remaining ≤ 0 then (c,none)
    else match c.levels.entries.head? with
      | none => (c,none)
      | some (key,_) =>
        -- levels are ordered, so the first one that does not cross ends the loop
        if !c.taker.crosses (priceOf key) then (c,none)
        else match crossOneLevel priceOf mode market key c with
          | (c',some e) => (c',some e)
          | (c',none) => crossLoop priceOf mode market fuel (dropEmptyLevel key c')

end Crossing

namespace Orderbook

def new (market : MarketId) : Orderbook :=
  { market := market
    bids := .empty
    asks := .empty
    byId := fun _ => none
    nextFillId := 0
    selfTrade := .cancelNewest }

def withSelfTrade (b : Orderbook) (mode : SelfTradeMode) : Orderbook :=
  { b with selfTrade := mode }

def bestBid (b : Orderbook) : Option ℚ :=
  b.bids.entries.head?.map (fun e => OrderDual.ofDual e.1)

def bestAsk (b : Orderbook) : Option ℚ :=
  b.asks.entries.head?.map Prod.fst

/-- Sum of the remaining quantity resting at `price` on `side`. -/
def levelQty (b : Orderbook) (side : Side) (price : ℚ) : ℚ :=
  let queue := match side with
    | .buy => b.bids.get? (OrderDual.toDual price)
    | .sell => b.asks.get? price
  ((queue.getD []).map Order.remaining).sum

/-- The levels resting on a side, best price first. -/
def levelsOf (b : Orderbook) : Side → List (ℚ × Queue)
  | .buy => b.bids.entries.map (fun e => (OrderDual.ofDual e.1,e.2))
  | .sell => b.asks.entries

/-- Total quantity resting on the book that the taker would cross. -/
def crossableQty (b : Orderbook) (taker : Order) : ℚ :=
  (((b.levelsOf taker.side.opposite).takeWhile (fun l => taker.crosses l.1)).map
    (fun l => (l.2.map Order.remaining).sum)).sum

/-- One round more than there are levels: every round but the last removes a level. -/
def crossBuy (b : Orderbook) (taker : Order) :
    Option SubmitError × Order × List Fill × Orderbook :=
  match crossLoop id b.selfTrade b.market (b.asks.entries.length+1)
      ⟨b.asks, b.byId, b.nextFillId, taker, []⟩ with
  | (c,err) => (err,c.taker,c.fills,
      { b with asks := c.levels, byId := c.byId, nextFillId := c.nextFillId })

def crossSell (b : Orderbook) (taker : Order) :
    Option SubmitError × Order × List Fill × Orderbook :=
  match crossLoop OrderDual.ofDual b.selfTrade b.market (b.bids.entries.length+1)
      ⟨b.bids, b.byId, b.nextFillId, taker, []⟩ with
  | (c,err) => (err,c.taker,c.fills,
      { b with bids := c.levels, byId := c.byId, nextFillId := c.nextFillId })

def rest (b : Orderbook) (order : Order) : Orderbook :=
  -- the side is remembered under the id, also when the id was in use
  let b := { b with byId := Function.update b.byId order.id (some order.side) }
  match order.side with
  | .buy => { b with bids := b.bids.upsert (OrderDual.toDual order.price) [] (·++[order]) }
  | .sell => { b with asks := b.asks.upsert order.price [] (·++[order]) }

/-- `remove_from_side` and `remove_from_side_asc`: the first queue that holds `id` loses
its first order with that id, and the level goes when this empties it. -/
def removeFromSide {K : Type} [LinearOrder K] (map : SortedMap K Queue) (id : OrderId) :
    SortedMap K Queue :=
  match map.entries.find? (fun e => e.2.any (fun o => o.id = id)) with
  | none => map
  | some (key,q) =>
    let q := q.eraseP (fun o => o.id = id)
    if q.isEmpty then map.erase key else map.adjust key (fun _ => q)

/-- Cancel an order by id. Returns true if the id was known. -/
def cancel (b : Orderbook) (id : OrderId) : Bool × Orderbook :=
  match b.byId id with
  | none => (false,b)
  | some side =>
    -- the id is forgotten before the queue is searched
    let b := { b with byId := Function.update b.byId id none }
    match side with
    | .buy => (true,{ b with bids := removeFromSide b.bids id })
    | .sell => (true,{ b with asks := removeFromSide b.asks id })

def wouldCross (b : Orderbook) (order : Order) : Bool :=
  match order.side with
  | .buy => (b.bestAsk.map (fun a => decide (a ≤ order.price))).getD false
  | .sell => (b.bestBid.map (fun x => decide (order.price ≤ x))).getD false

/-- The checks `submit` makes before it touches the book. -/
def admission (b : Orderbook) (order : Order) (tracker : PositionTracker) :
    Option SubmitError :=
  if order.qty ≤ 0 then some .zeroQty
  else if order.orderType = .limit ∧ order.price ≤ 0 then some .zeroPrice
  else if order.postOnly ∧ b.wouldCross order then some .postOnlyWouldCross
  else if order.reduceOnly ∧
      !tracker.wouldReduce order.owner order.market order.side order.qty then
    some .reduceOnlyWouldIncrease
  -- the dry run counts own makers too
  else if order.timeInForce = .fok ∧ b.crossableQty order < order.qty then some .fokUnfillable
  else none

def cross (b : Orderbook) (taker : Order) :
    Option SubmitError × Order × List Fill × Orderbook :=
  match taker.side with
  | .buy => b.crossBuy taker
  | .sell => b.crossSell taker

/-- Submit a taker order. The second component is the book after the call, also when the
first is an error. -/
def submit (b : Orderbook) (order : Order) (tracker : PositionTracker) :
    Except SubmitError SubmitOutcome × Orderbook :=
  match b.admission order tracker with
  | some e => (.error e,b)
  | none =>
    match b.cross { order with remaining := order.qty } with
    | (some e,_,_,b') => (.error e,b')
    | (none,taker,fills,b') =>
      -- the fills are made by now; the error does not undo them
      if taker.orderType = .market ∧ 0 < taker.remaining then (.error .marketNoLiquidity,b')
      else if 0 < taker.remaining ∧ taker.orderType = .limit ∧ taker.timeInForce = .gtc then
        (.ok ⟨fills, some taker.id, taker.remaining⟩,b'.rest taker)
      else (.ok ⟨fills, none, taker.remaining⟩,b')

end Orderbook

inductive Cmd where
  | submit (order : Order) (tracker : PositionTracker)
  | cancel (id : OrderId)

def step (b : Orderbook) : Cmd → Orderbook
  | .submit order tracker => (b.submit order tracker).2
  | .cancel id => (b.cancel id).2

/-- The book after a sequence of `submit` and `cancel` calls. -/
def run (b : Orderbook) (cmds : List Cmd) : Orderbook := cmds.foldl step b

/-- A fresh book in the given self-trade mode. -/
def start (market : MarketId) (mode : SelfTradeMode) : Orderbook :=
  (Orderbook.new market).withSelfTrade mode

end Perplex.Book
