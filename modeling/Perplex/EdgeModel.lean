import Mathlib.Data.List.Sort
import Mathlib.Data.Rat.Floor
import Perplex.SortedMap
import Perplex.Types
import Perplex.Checked
import Perplex.MarginMath

/-! The in-memory state of `perplex-edge` (`state.rs`) and the order handlers (`handlers.rs`).
`Decimal` is read as `ℚ`, and a numeric string by the number it parses to. The order in which
a `HashMap` is iterated is an argument of the functions that iterate one. Records keep the
fields that some modelled function reads or that the API returns as data. -/
namespace Perplex.Edge

inductive Side where
  | buy
  | sell
deriving DecidableEq, Repr

def Side.opposite : Side → Side
  | .buy => .sell
  | .sell => .buy

inductive OrderType where
  | limit
  | market
deriving DecidableEq, Repr

inductive PositionSide where
  | long
  | short
deriving DecidableEq, Repr

/-- The side of a position a fill opens. -/
def Side.position : Side → PositionSide
  | .buy => .long
  | .sell => .short

/-- The parties of a matched fill. -/
inductive Role where
  | taker
  | maker
deriving DecidableEq, Repr

/-- `role` of a recorded fill; forced closes have one of their own. -/
inductive FillRole where
  | taker
  | maker
  | liquidation
deriving DecidableEq, Repr

structure MarketInfo where
  id : String
  active : Bool
  maxLeverage : ℕ
  imRatioBps : ℕ
  mmRatioBps : ℕ
  takerFeeBps : ℕ
  makerRebateBps : ℤ
  indexPriceX18 : ℚ
deriving DecidableEq, Repr

structure OpenOrder where
  id : ℕ
  marketId : String
  side : Side
  orderType : OrderType
  price : ℚ
  qty : ℚ
  remaining : ℚ
  tsNs : ℕ
  clientOrderId : Option String
deriving DecidableEq, Repr

structure PositionInfo where
  marketId : String
  size : ℚ
  side : PositionSide
  entryPriceX18 : ℤ
  markPriceX18 : ℤ
  notionalUsdc : ℤ
  unrealisedPnlUsdc : ℤ
  realisedPnlUsdc : ℤ
  leverage : ℚ
  liquidationPriceX18 : ℤ
  fundingPaidUsdc : ℤ
  lastUpdatedTsNs : ℕ
deriving DecidableEq, Repr

/-- A recorded fill; a forced close has no order. -/
structure FillInfo where
  id : ℕ
  orderId : Option ℕ
  marketId : String
  side : Side
  price : ℚ
  qty : ℚ
  feeUsdc : ℤ
  role : FillRole
  tsNs : ℕ
  txHash : String
deriving DecidableEq, Repr

structure PublicTrade where
  id : ℕ
  marketId : String
  price : ℚ
  qty : ℚ
  side : Side
  tsNs : ℕ
deriving DecidableEq, Repr

/-- Levels of the public book, best price first. -/
structure BookSnapshot where
  sequence : ℕ
  bids : List (ℚ × ℚ)
  asks : List (ℚ × ℚ)
deriving DecidableEq, Repr

/-- Result of crossing a taker order with one resting order. -/
structure MatchedFill where
  makerAddress : Address
  makerOrderId : ℕ
  price : ℚ
  qty : ℚ
  tsNs : ℕ
deriving DecidableEq, Repr

/-- `AppState`; a missing entry of a map is its default. Fresh ids are drawn from a
counter. -/
structure AppState where
  markets : String → Option MarketInfo
  orderbooks : String → BookSnapshot
  publicTrades : String → List PublicTrade
  openOrders : Address → List OpenOrder
  positions : Address → List PositionInfo
  fills : Address → List FillInfo
  vaultBalances : Address → ℚ
  oraclePrices : String → Option ℚ
  nextUlid : ℕ

/-- What a request finds around it: the clock and the iteration order of the accounts. -/
structure Env where
  now : ℕ
  keys : List Address
  nodup : keys.Nodup

/-- `Decimal::trunc`. -/
def trunc (q : ℚ) : ℤ := q.num.tdiv q.den

def scaleX18 (d : ℚ) : ℤ := trunc (d*10^18)
def scaleUsdc6 (d : ℚ) : ℤ := trunc (d*10^6)
def unscaleX18 (x : ℤ) : ℚ := x/10^18

/-- Insert a resting order into the level map of its side. -/
def addLevel (levels : SortedMap ℚ ℚ) (o : OpenOrder) : SortedMap ℚ ℚ :=
  levels.upsert o.price 0 (· +o.remaining)

namespace AppState

/-- Resting limit orders of a market with a price and a quantity, over all accounts. -/
def restingOrders (s : AppState) (env : Env) (marketId : String) (side : Side) :
    List OpenOrder :=
  (env.keys.flatMap s.openOrders).filter fun o =>
    o.marketId = marketId ∧ o.orderType = .limit ∧ o.price ≠ 0 ∧ o.remaining ≠ 0 ∧ o.side = side

/-- `rebuild_orderbook`. -/
def rebuildOrderbook (s : AppState) (env : Env) (marketId : String) : AppState :=
  let bids := (s.restingOrders env marketId .buy).foldl addLevel SortedMap.empty
  let asks := (s.restingOrders env marketId .sell).foldl addLevel SortedMap.empty
  let sequence := min ((s.orderbooks marketId).sequence+1) (2^64-1)
  let entry : BookSnapshot := ⟨sequence, bids.entries.reverse, asks.entries⟩
  { s with orderbooks := Function.update s.orderbooks marketId entry }

/-- `market`: the static entry with the live index price. -/
def market (s : AppState) (marketId : String) : Option MarketInfo :=
  (s.markets marketId).map fun m =>
    { m with indexPriceX18 := (s.oraclePrices m.id).getD m.indexPriceX18 }

def addOpenOrder (s : AppState) (env : Env) (address : Address) (order : OpenOrder) :
    AppState :=
  let orders := s.openOrders address++[order]
  { s with openOrders := Function.update s.openOrders address orders }.rebuildOrderbook env
    order.marketId

def cancelOrder (s : AppState) (env : Env) (address : Address) (orderId : ℕ) : AppState :=
  let kept := (s.openOrders address).filter fun o => o.id ≠ orderId
  let next := { s with openOrders := Function.update s.openOrders address kept }
  match (s.openOrders address).find? (fun o => o.id = orderId) with
  | none => next
  | some o => next.rebuildOrderbook env o.marketId

end AppState

/-- A maker order collected by `match_taker`. -/
structure Candidate where
  address : Address
  id : ℕ
  price : ℚ
  rem : ℚ
  tsNs : ℕ
deriving DecidableEq, Repr

/-- The limit of the taker, when it has one, admits the price. -/
def crosses (takerSide : Side) (takerPrice : Option ℚ) (price : ℚ) : Bool :=
  match takerPrice with
  | none => true
  | some tp =>
    match takerSide with
    | .buy => ¬ tp < price
    | .sell => ¬ price < tp

/-- The order is a maker for such a taker. -/
def OpenOrder.isMaker (o : OpenOrder) (marketId : String) (takerSide : Side)
    (takerPrice : Option ℚ) : Bool :=
  o.marketId = marketId ∧ o.side = takerSide.opposite ∧ o.orderType = .limit ∧
    o.price ≠ 0 ∧ o.remaining ≠ 0 ∧ crosses takerSide takerPrice o.price

/-- Best price first, oldest first within a price. -/
def Candidate.before (takerSide : Side) (a b : Candidate) : Prop :=
  match takerSide with
  | .buy => a.price < b.price ∨ a.price = b.price ∧ a.tsNs ≤ b.tsNs
  | .sell => b.price < a.price ∨ a.price = b.price ∧ a.tsNs ≤ b.tsNs

instance (takerSide : Side) : DecidableRel (Candidate.before takerSide) := fun a b => by
  unfold Candidate.before
  cases takerSide <;> infer_instance

/-- Rewrite the remaining quantity of the first order with this id. -/
def setRemaining (id : ℕ) (remaining : ℚ) : List OpenOrder → List OpenOrder
  | [] => []
  | o :: rest => if o.id = id then { o with remaining } :: rest
    else o :: setRemaining id remaining rest

/-- Phase 2 of `match_taker`: fill the candidates in order. The source reads the clock for each
fill; here one reading stamps those of a call. -/
def matchLoop (now : ℕ) : (Address → List OpenOrder) → ℚ → List Candidate →
    List MatchedFill × (Address → List OpenOrder)
  | orders, _, [] => ([],orders)
  | orders, remaining, c :: rest =>
    if remaining = 0 then ([],orders)
    -- a candidate that is gone or used up is skipped
    else
      match (orders c.address).find? (fun o => o.id = c.id) with
      | none => matchLoop now orders remaining rest
      | some o =>
        if o.remaining = 0 then matchLoop now orders remaining rest
        else
          let fillQty := min remaining o.remaining
          let list := setRemaining c.id (o.remaining-fillQty) (orders c.address)
          let (filled,orders) := matchLoop now (Function.update orders c.address list)
            (remaining-fillQty) rest
          (⟨c.address, c.id, c.price, fillQty, now⟩ :: filled,orders)

namespace AppState

/-- Phase 1 of `match_taker`: the makers of others in price-time priority. The sort is
stable, so ties keep the iteration order. -/
def candidates (s : AppState) (env : Env) (marketId : String) (takerSide : Side)
    (takerPrice : Option ℚ) (taker : Address) : List Candidate :=
  let makers := (env.keys.filter (· ≠ taker)).flatMap fun addr =>
    ((s.openOrders addr).filter fun o => o.isMaker marketId takerSide takerPrice).map
      fun o => ⟨addr, o.id, o.price, o.remaining, o.tsNs⟩
  makers.insertionSort (Candidate.before takerSide)

/-- `match_taker_probe`: the quantity that would match. -/
def matchTakerProbe (s : AppState) (env : Env) (marketId : String) (takerSide : Side)
    (takerPrice : Option ℚ) (takerQty : ℚ) (taker : Address) : ℚ :=
  let makers := (env.keys.filter (· ≠ taker)).flatMap fun addr =>
    (s.openOrders addr).filter fun o => o.isMaker marketId takerSide takerPrice
  (makers.foldl (fun (acc : ℚ × ℚ) o =>
    if acc.1 = 0 then acc
    else (acc.1-min acc.1 o.remaining,acc.2+min acc.1 o.remaining)) (takerQty,0)).2

/-- `match_taker`: the fills, and the state with the makers decremented and fully filled
orders of the market removed. -/
def matchTaker (s : AppState) (env : Env) (marketId : String) (takerSide : Side)
    (takerPrice : Option ℚ) (takerQty : ℚ) (taker : Address) : List MatchedFill × AppState :=
  let (filled,orders) := matchLoop env.now s.openOrders takerQty
    (s.candidates env marketId takerSide takerPrice taker)
  let reaped := fun addr => (orders addr).filter fun o =>
    o.marketId ≠ marketId ∨ o.remaining ≠ 0
  (filled,{ s with openOrders := reaped }.rebuildOrderbook env marketId)

end AppState

/-- The book of one account after `apply_position_fill`. -/
def applyPositionFill (now : ℕ) (marketId : String) (orderSide : Side) (qty price : ℚ) :
    List PositionInfo → List PositionInfo
  | [] => [{ marketId
             size := qty
             side := orderSide.position
             entryPriceX18 := scaleX18 price
             markPriceX18 := scaleX18 price
             notionalUsdc := scaleUsdc6 (qty*price)
             unrealisedPnlUsdc := 0
             realisedPnlUsdc := 0
             leverage := 1
             liquidationPriceX18 := 0
             fundingPaidUsdc := 0
             lastUpdatedTsNs := now }]
  | p :: rest =>
    if p.marketId ≠ marketId then p :: applyPositionFill now marketId orderSide qty price rest
    else
      let oldSize := p.size
      let oldEntry := unscaleX18 p.entryPriceX18
      -- same-side add: volume-weighted entry
      if p.side = orderSide.position then
        let newSize := oldSize+qty
        let newEntry := if newSize ≠ 0 then (oldSize*oldEntry+qty*price)/newSize else price
        { p with
          size := newSize
          entryPriceX18 := scaleX18 newEntry
          markPriceX18 := scaleX18 newEntry
          notionalUsdc := scaleUsdc6 (newSize*newEntry)
          lastUpdatedTsNs := now } :: rest
      -- opposite side: reduce, close or flip
      else if qty < oldSize then
        let newSize := oldSize-qty
        { p with
          size := newSize
          notionalUsdc := scaleUsdc6 (newSize*oldEntry)
          lastUpdatedTsNs := now } :: rest
      else if qty = oldSize then rest
      else
        let overflow := qty-oldSize
        { p with
          side := orderSide.position
          size := overflow
          entryPriceX18 := scaleX18 price
          markPriceX18 := scaleX18 price
          notionalUsdc := scaleUsdc6 (overflow*price)
          lastUpdatedTsNs := now } :: rest

/-- `upsert_position`. -/
def AppState.upsertPosition (s : AppState) (now : ℕ) (address : Address) (marketId : String)
    (orderSide : Side) (qty price : ℚ) : AppState :=
  let list := applyPositionFill now marketId orderSide qty price (s.positions address)
  { s with positions := Function.update s.positions address list }

namespace PositionInfo

/-- PnL of a stored position at a mark. -/
def pnl (p : PositionInfo) (mark : ℚ) : ℚ :=
  let entry := unscaleX18 p.entryPriceX18
  match p.side with
  | .long => p.size*(mark-entry)
  | .short => p.size*(entry-mark)

/-- The position as the shared margin math takes it. -/
def core (p : PositionInfo) : Margin.Position :=
  ⟨match p.side with
    | .long => p.size
    | .short => -p.size, unscaleX18 p.entryPriceX18⟩

end PositionInfo

structure PositionsResponse where
  collateralUsdc : ℚ
  freeCollateralUsdc : ℤ
  totalUnrealisedPnlUsdc : ℤ
  totalNotionalUsdc : ℤ
  positions : List PositionInfo

/-- The running sums of `account_summary`: notional, PnL and used margin. -/
structure Totals where
  notional : ℚ
  pnl : ℚ
  usedMargin : ℚ

namespace AppState

/-- Mark, notional, PnL, initial margin and the refreshed record of one position. -/
def pricePosition (s : AppState) (collateral : ℚ) (t : Totals) (p : PositionInfo) :
    Totals × PositionInfo :=
  if p.size = 0 then (t,p)
  else
    let market := s.market p.marketId
    -- without a market the position is marked at its entry
    let mark := match market with
      | some m => m.indexPriceX18/10^18
      | none => unscaleX18 p.entryPriceX18
    let imRatio : ℚ := (match market with
      | some m => (m.imRatioBps:ℚ)
      | none => 500)/10000
    let notional := p.size*mark
    let pnl := p.pnl mark
    let liq := market.bind fun m =>
      Margin.liquidationPrice p.core collateral ⟨m.imRatioBps, m.mmRatioBps⟩
    let liquidationPriceX18 := match liq with
      | some l => scaleX18 (if l < 0 then 0 else l)
      | none => p.liquidationPriceX18
    (⟨t.notional+notional, t.pnl+pnl, t.usedMargin+notional*imRatio⟩,{ p with
      liquidationPriceX18
      markPriceX18 := scaleX18 mark
      unrealisedPnlUsdc := scaleUsdc6 pnl
      notionalUsdc := scaleUsdc6 notional })

def priceAll (s : AppState) (collateral : ℚ) : Totals → List PositionInfo →
    Totals × List PositionInfo
  | t, [] => (t,[])
  | t, p :: rest =>
    let (t,p) := s.pricePosition collateral t p
    let (t,rest) := s.priceAll collateral t rest
    (t,p :: rest)

/-- `account_summary`. -/
def accountSummary (s : AppState) (address : Address) : PositionsResponse :=
  let collateral := s.vaultBalances address/10^6
  let (t,positions) := s.priceAll collateral ⟨0, 0, 0⟩ (s.positions address)
  let raw := collateral+t.pnl-t.usedMargin
  let free := if raw < 0 then 0 else raw
  { collateralUsdc := s.vaultBalances address
    freeCollateralUsdc := scaleUsdc6 free
    totalUnrealisedPnlUsdc := scaleUsdc6 t.pnl
    totalNotionalUsdc := scaleUsdc6 t.notional
    positions }

/-- `adjust_vault`: clamps at zero. -/
def adjustVault (s : AppState) (address : Address) (deltaDollars : ℚ) : AppState :=
  if deltaDollars = 0 then s
  else
    let next := s.vaultBalances address+trunc (deltaDollars*10^6)
    -- a debit beyond the balance is forgiven
    let next := if next < 0 then 0 else next
    { s with vaultBalances := Function.update s.vaultBalances address next }

def recordFill (s : AppState) (address : Address) (fill : FillInfo) : AppState :=
  { s with fills := Function.update s.fills address (s.fills address++[fill]) }

def recordTrade (s : AppState) (marketId : String) (trade : PublicTrade) : AppState :=
  { s with publicTrades :=
      Function.update s.publicTrades marketId (s.publicTrades marketId++[trade]) }

end AppState

/-- `POST /v1/orders`, with `qty` and `price` by the number they parse to. -/
structure PlaceOrderRequest where
  marketId : String
  side : String
  orderType : String
  price : Option (Option ℚ)
  qty : Option ℚ
  timeInForce : String
  reduceOnly : Bool
  postOnly : Bool
  clientOrderId : Option String
  signature : String

inductive ApiError where
  | marketInactive
  | badRequest (message : String)
  | invalidSignature
  | insufficientMargin (free required : ℤ)
  | exceedsLeverage (notional : ℚ) (maxLeverage : ℕ) (collateral : ℚ)
deriving DecidableEq, Repr

inductive Status where
  | filled
  | partially
  | accepted
deriving DecidableEq, Repr

structure PlaceOrderResponse where
  orderId : ℕ
  status : Status
  tsNs : ℕ
deriving DecidableEq, Repr

/-- A validated request. -/
structure Taker where
  marketId : String
  side : Side
  orderType : OrderType
  price : Option ℚ
  qty : ℚ
  reduceOnly : Bool
  postOnly : Bool
  clientOrderId : Option String
deriving DecidableEq, Repr

namespace AppState

/-- The field checks at the top of `place_order`. -/
def validate (s : AppState) (req : PlaceOrderRequest) : Except ApiError Taker := do
  ensure (s.market req.marketId).isSome .marketInactive ()
  ensure (req.side = "buy" ∨ req.side = "sell") (.badRequest "side must be buy or sell") ()
  ensure (req.orderType = "limit" ∨ req.orderType = "market")
    (.badRequest "type must be limit or market") ()
  ensure (req.timeInForce = "gtc" ∨ req.timeInForce = "ioc" ∨ req.timeInForce = "fok")
    (.badRequest "invalid timeInForce") ()
  -- the signature is looked at by its shape only
  ensure ("0x".isPrefixOf req.signature ∧ 132 ≤ req.signature.utf8ByteSize) .invalidSignature ()
  ensure (req.orderType = "limit" → req.price.isSome) (.badRequest "limit requires price") ()
  ensure req.qty.isSome (.badRequest "invalid qty") ()
  let qty := req.qty.getD 0
  -- the source asks `is_zero`, whatever its message says
  ensure (qty ≠ 0) (.badRequest "qty must be > 0") ()
  ensure (req.orderType = "limit" → (req.price.getD none).isSome)
    (.badRequest "invalid price") ()
  return { marketId := req.marketId
           side := if req.side = "buy" then .buy else .sell
           orderType := if req.orderType = "limit" then .limit else .market
           price := if req.orderType = "limit" then req.price.getD none else none
           qty
           reduceOnly := req.reduceOnly
           postOnly := req.postOnly
           clientOrderId := req.clientOrderId }

/-- The risk gate; `reduce_only` orders bypass it. -/
def riskGate (s : AppState) (user : Address) (t : Taker) : Except ApiError Unit :=
  if t.reduceOnly then .ok ()
  else
    match s.market t.marketId with
    | none => .error .marketInactive
    | some m => do
      -- the limit price, or the index for a market order
      let refPrice := t.price.getD (m.indexPriceX18/10^18)
      let notional := t.qty*refPrice
      let requiredIm := notional*((m.imRatioBps:ℚ)/10000)
      let summary := s.accountSummary user
      let free := (summary.freeCollateralUsdc:ℚ)/10^6
      ensure (¬ free < requiredIm)
        (.insufficientMargin (trunc (free*10^6)) (trunc (requiredIm*10^6))) ()
      let collateral := summary.collateralUsdc/10^6
      ensure (¬ m.maxLeverage*collateral < notional)
        (.exceedsLeverage notional m.maxLeverage collateral) ()

/-- `post_only` orders that would cross are rejected. -/
def postOnlyGuard (s : AppState) (env : Env) (user : Address) (t : Taker) :
    Except ApiError Unit :=
  ensure (t.postOnly → ¬ 0 < s.matchTakerProbe env t.marketId t.side t.price t.qty user)
    (.badRequest "post_only order would cross resting liquidity") ()

/-- One pass of the fill loop: both records, fee and rebate, the tape, both positions. -/
def settleMatch (now orderId : ℕ) (user : Address) (t : Taker) (takerFeeBps : ℕ)
    (makerRebateBps : ℤ) (s : AppState) (m : MatchedFill) : AppState :=
  let notional := m.qty*m.price
  let takerFee := notional*takerFeeBps/10000
  let makerRebate := notional*makerRebateBps/10000
  let n := s.nextUlid
  let s := s.recordFill user
    ⟨n, some orderId, t.marketId, t.side, m.price, m.qty, trunc (takerFee*10^6), .taker, m.tsNs, ""⟩
  let s := s.recordFill m.makerAddress
    ⟨n+1, some m.makerOrderId, t.marketId, t.side.opposite, m.price, m.qty,
      trunc (-makerRebate*10^6), .maker, m.tsNs, ""⟩
  -- the fees move here; PnL that the fill realises does not
  let s := s.adjustVault user (-takerFee)
  let s := s.adjustVault m.makerAddress makerRebate
  let s := s.recordTrade t.marketId ⟨n+2, t.marketId, m.price, m.qty, t.side, m.tsNs⟩
  let s := s.upsertPosition now user t.marketId t.side m.qty m.price
  let s := s.upsertPosition now m.makerAddress t.marketId t.side.opposite m.qty m.price
  { s with nextUlid := n+3 }

/-- The order after it has passed every check: match, settle, rest the remainder. -/
def execute (s : AppState) (env : Env) (user : Address) (t : Taker) :
    PlaceOrderResponse × AppState :=
  let orderId := s.nextUlid
  let s := { s with nextUlid := orderId+1 }
  let (filled,s) := s.matchTaker env t.marketId t.side t.price t.qty user
  let remaining := t.qty-(filled.map MatchedFill.qty).sum
  let (takerFeeBps,makerRebateBps) := match s.market t.marketId with
    | some m => (m.takerFeeBps,m.makerRebateBps)
    | none => (0,0)
  let s := filled.foldl (settleMatch env.now orderId user t takerFeeBps makerRebateBps) s
  -- a market order drops what is left
  let s := if remaining ≠ 0 ∧ t.orderType = OrderType.limit then
      s.addOpenOrder env user ⟨orderId, t.marketId, t.side, t.orderType, t.price.getD 0, t.qty,
        remaining, env.now, t.clientOrderId⟩
    else s
  let status : Status := if filled ≠ [] ∧ remaining = 0 then .filled
    else if filled ≠ [] then .partially else .accepted
  (⟨orderId, status, env.now⟩,s)

/-- `place_order`. -/
def placeOrder (s : AppState) (env : Env) (user : Address) (req : PlaceOrderRequest) :
    Except ApiError (PlaceOrderResponse × AppState) := do
  let t ← s.validate req
  s.riskGate user t
  s.postOnlyGuard env user t
  return s.execute env user t

end AppState

/-- Order requests, and what else moves the numbers they look at: deposits and the oracle. -/
inductive Cmd where
  | placeOrder (env : Env) (user : Address) (req : PlaceOrderRequest)
  | cancelOrder (env : Env) (user : Address) (orderId : ℕ)
  | setVaultBalance (address : Address) (amount : ℚ)
  | setOraclePrice (marketId : String) (priceX18 : ℚ)

def exec (s : AppState) : Cmd → Except ApiError AppState
  | .placeOrder env user req => do
    let (_,s) ← s.placeOrder env user req
    return s
  | .cancelOrder env user orderId => return s.cancelOrder env user orderId
  | .setVaultBalance address amount =>
    return { s with vaultBalances := Function.update s.vaultBalances address amount }
  | .setOraclePrice marketId priceX18 =>
    return { s with oraclePrices := Function.update s.oraclePrices marketId (some priceX18) }

/-- `default_markets`. -/
def defaultMarkets (marketId : String) : Option MarketInfo :=
  if marketId = "btc-usd" then some ⟨"btc-usd", true, 20, 500, 250, 5, -2, 100000*10^18⟩
  else if marketId = "eth-usd" then some ⟨"eth-usd", true, 20, 500, 250, 5, -2, 3500*10^18⟩
  else if marketId = "sol-usd" then some ⟨"sol-usd", true, 10, 1000, 500, 5, -2, 200*10^18⟩
  else none

/-- `AppState::new`. -/
def AppState.new : AppState where
  markets := defaultMarkets
  orderbooks := fun _ => ⟨0, [], []⟩
  publicTrades := fun _ => []
  openOrders := fun _ => []
  positions := fun _ => []
  fills := fun _ => []
  vaultBalances := fun _ => 0
  oraclePrices := fun _ => none
  nextUlid := 0

end Perplex.Edge
