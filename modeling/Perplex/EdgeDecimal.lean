import Perplex.EdgeStep

/-! The order handlers in bounded arithmetic. A `Decimal` has a mantissa of 96 bits and a scale
of at most 28: `*`, `+` and `-` panic when the integer part of the result does not fit and
otherwise round it, while `/` always rounds. `round` is any rounding. A panic ends the request
and keeps what it has written, since the locks do not poison; an error carries what is left. -/
namespace Perplex.Edge.Decimal

/-- The integer part fits in the mantissa. -/
def Fits (x : ℚ) : Prop := |x| < 2^96

instance (x : ℚ) : Decidable (Fits x) := inferInstanceAs (Decidable (|x| < 2^96))

variable {σ : Type} (round : ℚ → ℚ)

/-- The result `x` of `*`, `+` or `-`. -/
def result (left : σ) (x : ℚ) : Except σ ℚ := ensure (Fits x) left (round x)

/-- The result of `/`. -/
def quotient (x y : ℚ) : ℚ := round (x/y)

/-- A fixed-point rendering with `k` digits. -/
def scale (k : ℕ) (left : σ) (d : ℚ) : Except σ ℤ := do
  let x ← result round left (d*10^k)
  return trunc x

abbrev scaleX18 (left : σ) (d : ℚ) : Except σ ℤ := scale round 18 left d

/-- Also `to_usdc6`. -/
abbrev scaleUsdc6 (left : σ) (d : ℚ) : Except σ ℤ := scale round 6 left d

def unscaleX18 (x : ℚ) : ℚ := quotient round x (10^18)

/-- `Sum` of decimals. -/
def sum (left : σ) (xs : List ℚ) : Except σ ℚ :=
  xs.foldlM (fun acc x => result round left (acc+x)) 0

/-- The first order of a price opens its level, a later one adds to it. -/
def addLevel (left : σ) (levels : SortedMap ℚ ℚ) (o : OpenOrder) :
    Except σ (SortedMap ℚ ℚ) :=
  match levels.get? o.price with
  | none => return levels.upsert o.price 0 fun _ => o.remaining
  | some v => do
    let v ← result round left (v+o.remaining)
    return levels.upsert o.price 0 fun _ => v

/-- `rebuild_orderbook`: the snapshot is stored after both sides are added up. -/
def rebuildOrderbook (s : AppState) (env : Env) (marketId : String) :
    Except AppState AppState := do
  let bids ← (s.restingOrders env marketId .buy).foldlM (addLevel round s) SortedMap.empty
  let asks ← (s.restingOrders env marketId .sell).foldlM (addLevel round s) SortedMap.empty
  let sequence := min ((s.orderbooks marketId).sequence+1) (2^64-1)
  let entry : BookSnapshot := ⟨sequence, bids.entries.reverse, asks.entries⟩
  return { s with orderbooks := Function.update s.orderbooks marketId entry }

def addOpenOrder (s : AppState) (env : Env) (address : Address) (order : OpenOrder) :
    Except AppState AppState :=
  let orders := s.openOrders address++[order]
  rebuildOrderbook round { s with openOrders := Function.update s.openOrders address orders } env
    order.marketId

def cancelOrder (s : AppState) (env : Env) (address : Address) (orderId : ℕ) :
    Except AppState AppState :=
  let kept := (s.openOrders address).filter fun o => o.id ≠ orderId
  let next := { s with openOrders := Function.update s.openOrders address kept }
  match (s.openOrders address).find? (fun o => o.id = orderId) with
  | none => return next
  | some o => rebuildOrderbook round next env o.marketId

/-- The running total of `|a*b|`. -/
def turnover (left : σ) (terms : List (ℚ × ℚ)) : Except σ ℚ :=
  terms.foldlM (fun total t => do
    let x ← result round left (t.1*t.2)
    result round left (total+|x|)) 0

/-- `volume_24h_usdc`. -/
def volume24hUsdc (s : AppState) (marketId : String) : Except AppState ℤ := do
  let total ← turnover round s ((s.publicTrades marketId).map fun t => (t.qty,t.price))
  scaleUsdc6 round s total

/-- The index price: the oracle's, or the static one. -/
def indexPrice (s : AppState) (marketId : String) : ℚ :=
  match s.oraclePrices marketId with
  | some px => unscaleX18 round px
  | none =>
    match s.markets marketId with
    | some m => unscaleX18 round m.indexPriceX18
    | none => 0

/-- `open_interest_usdc`. -/
def openInterestUsdc (s : AppState) (env : Env) (marketId : String) : Except AppState ℤ :=
  let mark := indexPrice round s marketId
  if mark = 0 then return 0
  else do
    let positions := (env.keys.flatMap s.positions).filter fun p => p.marketId = marketId
    let total ← turnover round s (positions.map fun p => (p.size,mark))
    scaleUsdc6 round s total

/-- `funding_rate_bps` up to its last line, which rounds and clamps. -/
def fundingDrift (s : AppState) (marketId : String) : Except AppState ℚ :=
  let index := indexPrice round s marketId
  if (s.markets marketId).isNone ∨ index = 0 then return 0
  else
    match (s.orderbooks marketId).bids.head?, (s.orderbooks marketId).asks.head? with
    | some bid, some ask => do
      let total ← result round s (bid.1+ask.1)
      let gap ← result round s (quotient round total 2-index)
      result round s (quotient round gap index*10000)
    | _, _ => return 0

/-- `market`, with the statistics that `decorate_market` works out. -/
def market (s : AppState) (env : Env) (marketId : String) :
    Except AppState (Option MarketInfo) :=
  match s.markets marketId with
  | none => return none
  | some m => do
    let _ ← volume24hUsdc round s m.id
    let _ ← openInterestUsdc round s env m.id
    let _ ← fundingDrift round s m.id
    return some { m with indexPriceX18 := (s.oraclePrices m.id).getD m.indexPriceX18 }

/-- Orders, and how many makers were written. -/
abbrev Progress := ℕ × (Address → List OpenOrder)

/-- One maker is drawn on. It is written before the taker's remainder is worked out. -/
def drawOn (orders : Address → List OpenOrder) (remaining : ℚ) (c : Candidate)
    (o : OpenOrder) : Except Progress (ℚ × (Address → List OpenOrder)) := do
  let fillQty := min remaining o.remaining
  let newRem ← result round (0,orders) (o.remaining-fillQty)
  let list := setRemaining c.id newRem (orders c.address)
  let orders := Function.update orders c.address list
  let remaining ← result round (1,orders) (remaining-fillQty)
  return (remaining,orders)

/-- The fill of a maker goes in front of the later ones. -/
def pushFill (m : MatchedFill) :
    Except Progress (List MatchedFill × (Address → List OpenOrder)) →
      Except Progress (List MatchedFill × (Address → List OpenOrder))
  | .ok (filled,orders) => .ok (m :: filled,orders)
  | .error (n,orders) => .error (n+1,orders)

/-- Phase 2 of `match_taker`. A panic leaves the orders as they are then. -/
def matchLoop (now : ℕ) : (Address → List OpenOrder) → ℚ → List Candidate →
    Except Progress (List MatchedFill × (Address → List OpenOrder))
  | orders, _, [] => .ok ([],orders)
  | orders, remaining, c :: rest =>
    if remaining = 0 then .ok ([],orders)
    else
      match (orders c.address).find? (fun o => o.id = c.id) with
      | none => matchLoop now orders remaining rest
      | some o =>
        if o.remaining = 0 then matchLoop now orders remaining rest
        else do
          let next ← drawOn round orders remaining c o
          pushFill ⟨c.address, c.id, c.price, min remaining o.remaining, now⟩
            (matchLoop now next.2 next.1 rest)

/-- Phases 1 and 2 of `match_taker`. -/
def decrementMakers (s : AppState) (env : Env) (user : Address) (t : Taker) :
    Except (ℕ × AppState) (List MatchedFill × AppState) :=
  match matchLoop round env.now s.openOrders t.qty
      (s.candidates env t.marketId t.side t.price user) with
  | .error (n,orders) => .error (n,{ s with openOrders := orders })
  | .ok (filled,orders) =>
    let reaped := fun addr => (orders addr).filter fun o =>
      o.marketId ≠ t.marketId ∨ o.remaining ≠ 0
    .ok (filled,{ s with openOrders := reaped })

/-- The other records stay in front of what the rest of the list becomes. -/
def keepFirst {α : Type} (p : α) : Except (List α) (List α) → Except (List α) (List α)
  | .ok l => .ok (p :: l)
  | .error l => .error (p :: l)

/-- The entry price of a position that is added to. -/
def weightedEntry (left : σ) (oldSize oldEntry qty price newSize : ℚ) : Except σ ℚ :=
  if newSize ≠ 0 then do
    let held ← result round left (oldSize*oldEntry)
    let added ← result round left (qty*price)
    let cost ← result round left (held+added)
    return quotient round cost newSize
  else return price

/-- `apply_position_fill`. The fields are assigned one by one, so a panic leaves those before
it. -/
def applyPositionFill (now : ℕ) (marketId : String) (orderSide : Side) (qty price : ℚ) :
    List PositionInfo → Except (List PositionInfo) (List PositionInfo)
  | [] => do
    let priceX18 ← scaleX18 round [] price
    let notional ← result round [] (qty*price)
    let notionalUsdc ← scaleUsdc6 round [] notional
    return [{ marketId
              size := qty
              side := orderSide.position
              entryPriceX18 := priceX18
              markPriceX18 := priceX18
              notionalUsdc
              unrealisedPnlUsdc := 0
              realisedPnlUsdc := 0
              leverage := 1
              liquidationPriceX18 := 0
              fundingPaidUsdc := 0
              lastUpdatedTsNs := now }]
  | p :: rest =>
    if p.marketId ≠ marketId then
      keepFirst p (applyPositionFill now marketId orderSide qty price rest)
    else
      let oldSize := p.size
      let oldEntry := unscaleX18 round p.entryPriceX18
      -- same-side add: volume-weighted entry
      if p.side = orderSide.position then do
        let newSize ← result round (p :: rest) (oldSize+qty)
        let newEntry ← weightedEntry round (p :: rest) oldSize oldEntry qty price newSize
        let p := { p with size := newSize }
        let entryPriceX18 ← scaleX18 round (p :: rest) newEntry
        let p := { p with entryPriceX18, markPriceX18 := entryPriceX18 }
        let notional ← result round (p :: rest) (newSize*newEntry)
        let notionalUsdc ← scaleUsdc6 round (p :: rest) notional
        return { p with notionalUsdc, lastUpdatedTsNs := now } :: rest
      -- opposite side: reduce, close or flip
      else if qty < oldSize then do
        let newSize ← result round (p :: rest) (oldSize-qty)
        let p := { p with size := newSize }
        let notional ← result round (p :: rest) (newSize*oldEntry)
        let notionalUsdc ← scaleUsdc6 round (p :: rest) notional
        return { p with notionalUsdc, lastUpdatedTsNs := now } :: rest
      else if qty = oldSize then return rest
      else do
        let overflow ← result round (p :: rest) (qty-oldSize)
        let p := { p with side := orderSide.position, size := overflow }
        let entryPriceX18 ← scaleX18 round (p :: rest) price
        let p := { p with entryPriceX18, markPriceX18 := entryPriceX18 }
        let notional ← result round (p :: rest) (overflow*price)
        let notionalUsdc ← scaleUsdc6 round (p :: rest) notional
        return { p with notionalUsdc, lastUpdatedTsNs := now } :: rest

def upsertPosition (s : AppState) (now : ℕ) (address : Address) (marketId : String)
    (orderSide : Side) (qty price : ℚ) : Except AppState AppState :=
  match applyPositionFill round now marketId orderSide qty price (s.positions address) with
  | .error l => .error { s with positions := Function.update s.positions address l }
  | .ok l => .ok { s with positions := Function.update s.positions address l }

/-- `adjust_vault`: clamps at zero. -/
def adjustVault (s : AppState) (address : Address) (deltaDollars : ℚ) :
    Except AppState AppState :=
  if deltaDollars = 0 then return s
  else do
    let deltaRaw ← scaleUsdc6 round s deltaDollars
    let next ← result round s (s.vaultBalances address+deltaRaw)
    let next := if next < 0 then 0 else next
    return { s with vaultBalances := Function.update s.vaultBalances address next }

/-- One pass of the fill loop. -/
def settleMatch (now orderId : ℕ) (user : Address) (t : Taker) (takerFeeBps : ℕ)
    (makerRebateBps : ℤ) (s : AppState) (m : MatchedFill) : Except AppState AppState := do
  let notional ← result round s (m.qty*m.price)
  let takerFeeTotal ← result round s (notional*takerFeeBps)
  let takerFee := quotient round takerFeeTotal 10000
  let makerRebateTotal ← result round s (notional*makerRebateBps)
  let makerRebate := quotient round makerRebateTotal 10000
  let n := s.nextUlid
  let s := { s with nextUlid := n+3 }
  let takerFeeUsdc ← scaleUsdc6 round s takerFee
  let s := s.recordFill user
    ⟨n, some orderId, t.marketId, t.side, m.price, m.qty, takerFeeUsdc, .taker, m.tsNs, ""⟩
  let makerFeeUsdc ← scaleUsdc6 round s (-makerRebate)
  let s := s.recordFill m.makerAddress
    ⟨n+1, some m.makerOrderId, t.marketId, t.side.opposite, m.price, m.qty, makerFeeUsdc, .maker,
      m.tsNs, ""⟩
  let s ← adjustVault round s user (-takerFee)
  let s ← adjustVault round s m.makerAddress makerRebate
  let s := s.recordTrade t.marketId ⟨n+2, t.marketId, m.price, m.qty, t.side, m.tsNs⟩
  let s ← upsertPosition round s now user t.marketId t.side m.qty m.price
  upsertPosition round s now m.makerAddress t.marketId t.side.opposite m.qty m.price

/-- Fee and rebate in basis points. -/
def feeSchedule (m : Option MarketInfo) : ℕ × ℤ :=
  match m with
  | some m => (m.takerFeeBps,m.makerRebateBps)
  | none => (0,0)

/-- Rest what is left of a limit order. -/
def restRemainder (env : Env) (orderId : ℕ) (user : Address) (t : Taker) (remaining : ℚ)
    (s : AppState) : Except AppState AppState :=
  if remaining ≠ 0 ∧ t.orderType = OrderType.limit then
    addOpenOrder round s env user ⟨orderId, t.marketId, t.side, t.orderType, t.price.getD 0,
      t.qty, remaining, env.now, t.clientOrderId⟩
  else return s

/-- Everything after the makers are decremented. -/
def finish (env : Env) (orderId : ℕ) (user : Address) (t : Taker)
    (filled : List MatchedFill) (s : AppState) :
    Except AppState (PlaceOrderResponse × AppState) := do
  let s ← rebuildOrderbook round s env t.marketId
  let filledQty ← sum round s (filled.map MatchedFill.qty)
  let remaining ← result round s (t.qty-filledQty)
  let m ← market round s env t.marketId
  let fees := feeSchedule m
  let s ← filled.foldlM (settleMatch round env.now orderId user t fees.1 fees.2) s
  let s ← restRemainder round env orderId user t remaining s
  let status : Status := if filled ≠ [] ∧ remaining = 0 then .filled
    else if filled ≠ [] then .partially else .accepted
  return (⟨orderId, status, env.now⟩,s)

/-- The order after it has passed every check. -/
def execute (s : AppState) (env : Env) (user : Address) (t : Taker) :
    Except AppState (PlaceOrderResponse × AppState) :=
  match decrementMakers round s.drawn env user t with
  | .error (_,left) => .error left
  | .ok (filled,s') => finish round env s.nextUlid user t filled s'

/-- The checks of `place_order`, which write nothing. -/
def accept (s : AppState) (env : Env) (user : Address) (req : PlaceOrderRequest) :
    Except ApiError Taker := do
  let t ← s.validate req
  s.riskGate user t
  s.postOnlyGuard env user t
  return t

/-- The state after a request that returned or panicked. -/
def final {α : Type} (state : α → AppState) : Except AppState α → AppState
  | .ok a => state a
  | .error left => left

def step (s : AppState) : Cmd → AppState
  | .placeOrder env user req =>
    match accept s env user req with
    | .ok t => final Prod.snd (execute round s env user t)
    | .error _ => s
  | .cancelOrder env user orderId => final id (cancelOrder round s env user orderId)
  | .setVaultBalance address amount =>
    { s with vaultBalances := Function.update s.vaultBalances address amount }
  | .setOraclePrice marketId priceX18 =>
    { s with oraclePrices := Function.update s.oraclePrices marketId (some priceX18) }

/-- A run of the server. -/
def run (cmds : List Cmd) : AppState := cmds.foldl (step round) AppState.new

section Operations
variable {round} {left : σ}

theorem result_eq_ok {x y : ℚ} : result round left x = .ok y ↔ Fits x ∧ round x = y :=
  ensure_eq_ok

theorem result_of_fits {x : ℚ} (h : Fits x) (left : σ) : result round left x = .ok (round x) :=
  ensure_of h _ _

theorem result_of_not_fits {x : ℚ} (h : ¬ Fits x) (left : σ) : result round left x = .error left :=
  if_neg h

@[simp]
theorem succeeds_result {x : ℚ} : Succeeds (result round left x) ↔ Fits x := by
  simp [Succeeds, result_eq_ok]

@[simp]
theorem succeeds_result_chain {α : Type} {x : ℚ} {next : ℚ → Except σ α} :
    Succeeds (result round left x >>= next) ↔ Fits x ∧ Succeeds (next (round x)) :=
  succeeds_chain_of fun _ => result_eq_ok

theorem scale_eq_ok {k : ℕ} {d : ℚ} {z : ℤ} :
    scale round k left d = .ok z ↔ Fits (d*10^k) ∧ trunc (round (d*10^k)) = z := by
  simp only [scale, chain_ok_iff, result_eq_ok, and_assoc, exists_and_left, exists_eq_left']
  exact and_congr_right fun _ => ⟨Except.ok.inj, congrArg Except.ok⟩

@[simp]
theorem succeeds_scale {k : ℕ} {d : ℚ} : Succeeds (scale round k left d) ↔ Fits (d*10^k) := by
  simp [Succeeds, scale_eq_ok]

@[simp]
theorem succeeds_scale_chain {α : Type} {k : ℕ} {d : ℚ} {next : ℤ → Except σ α} :
    Succeeds (scale round k left d >>= next) ↔
      Fits (d*10^k) ∧ Succeeds (next (trunc (round (d*10^k)))) :=
  succeeds_chain_of fun _ => scale_eq_ok

/-- The statistics do not change which market it is. -/
theorem market_eq {s : AppState} {env : Env} {marketId : String} {m : Option MarketInfo}
    (h : market round s env marketId = .ok m) : m = s.market marketId := by
  unfold market at h
  unfold AppState.market
  cases hm : s.markets marketId with
  | none =>
    rw [hm] at h
    exact (Except.ok.inj h).symm
  | some x =>
    simp only [hm, chain_ok_iff] at h
    obtain ⟨-, -, -, -, -, -, he⟩ := h
    exact (Except.ok.inj he).symm

end Operations

section Exact
variable {left : σ} {s s' : AppState} {env : Env} {marketId : String}

theorem result_exact {x y : ℚ} (h : result id left x = .ok y) : y = x :=
  (result_eq_ok.mp h).2.symm

theorem sum_exact {xs : List ℚ} {total : ℚ} (h : sum id left xs = .ok total) :
    total = xs.sum := by
  rw [List.sum_eq_foldl]
  exact foldlM_eq_foldl (fun _ _ _ => result_exact) h

theorem addLevel_exact {levels levels' : SortedMap ℚ ℚ} {o : OpenOrder}
    (h : addLevel id left levels o = .ok levels') : levels' = Edge.addLevel levels o := by
  unfold addLevel at h
  unfold Edge.addLevel
  cases hv : levels.get? o.price with
  | none =>
    rw [hv] at h
    rw [← Except.ok.inj h]
    apply SortedMap.upsert_congr
    simp [hv]
  | some v =>
    simp only [hv, chain_ok_iff] at h
    obtain ⟨w, hw, he⟩ := h
    obtain rfl := result_exact hw
    rw [← Except.ok.inj he]
    apply SortedMap.upsert_congr
    simp [hv]

theorem rebuildOrderbook_exact (h : rebuildOrderbook id s env marketId = .ok s') :
    s' = s.rebuildOrderbook env marketId := by
  unfold rebuildOrderbook at h
  simp only [chain_ok_iff] at h
  obtain ⟨bids, hb, asks, ha, he⟩ := h
  obtain rfl := foldlM_eq_foldl (fun _ _ _ => addLevel_exact) hb
  obtain rfl := foldlM_eq_foldl (fun _ _ _ => addLevel_exact) ha
  exact (Except.ok.inj he).symm

theorem addOpenOrder_exact {address : Address} {order : OpenOrder}
    (h : addOpenOrder id s env address order = .ok s') :
    s' = s.addOpenOrder env address order := rebuildOrderbook_exact h

theorem drawOn_exact {orders : Address → List OpenOrder} {remaining : ℚ} {c : Candidate}
    {o : OpenOrder} {next : ℚ × (Address → List OpenOrder)}
    (h : drawOn id orders remaining c o = .ok next) :
    next = (remaining-min remaining o.remaining,Function.update orders c.address
      (setRemaining c.id (o.remaining-min remaining o.remaining) (orders c.address))) := by
  unfold drawOn at h
  simp only [chain_ok_iff] at h
  obtain ⟨newRem, h1, remaining', h2, he⟩ := h
  obtain rfl := result_exact h1
  obtain rfl := result_exact h2
  exact (Except.ok.inj he).symm

theorem matchLoop_exact {now : ℕ} {cs : List Candidate} {orders : Address → List OpenOrder}
    {remaining : ℚ} {r : List MatchedFill × (Address → List OpenOrder)}
    (h : matchLoop id now orders remaining cs = .ok r) :
    r = Edge.matchLoop now orders remaining cs := by
  induction cs generalizing orders remaining r with
  | nil => exact (Except.ok.inj h).symm
  | cons c rest ih =>
    unfold matchLoop at h
    unfold Edge.matchLoop
    by_cases hz : remaining = 0
    · rw [if_pos hz] at h ⊢
      exact (Except.ok.inj h).symm
    rw [if_neg hz] at h ⊢
    cases ho : (orders c.address).find? (fun o => o.id = c.id) with
    | none =>
      rw [ho] at h
      exact ih h
    | some o =>
      simp only [ho] at h ⊢
      by_cases hr : o.remaining = 0
      · rw [if_pos hr] at h ⊢
        exact ih h
      rw [if_neg hr] at h ⊢
      obtain ⟨next, hnext, h⟩ := chain_ok_iff.mp h
      obtain rfl := drawOn_exact hnext
      -- a panic further on is one of this loop too
      cases hloop : matchLoop id now (Function.update orders c.address
          (setRemaining c.id (o.remaining-min remaining o.remaining) (orders c.address)))
          (remaining-min remaining o.remaining) rest with
      | error e => simp [hloop, pushFill] at h
      | ok r' =>
        rw [hloop] at h
        rw [← ih hloop]
        exact (Except.ok.inj h).symm

theorem keepFirst_eq_ok {α : Type} {p : α} {x : Except (List α) (List α)} {l : List α} :
    keepFirst p x = .ok l ↔ ∃ l', x = .ok l' ∧ p :: l' = l := by
  cases x <;> simp [keepFirst]

theorem weightedEntry_exact {oldSize oldEntry qty price newSize entry : ℚ}
    (h : weightedEntry id left oldSize oldEntry qty price newSize = .ok entry) :
    entry = if newSize ≠ 0 then (oldSize*oldEntry+qty*price)/newSize else price := by
  unfold weightedEntry at h
  by_cases hz : newSize ≠ 0
  · simp only [if_pos hz, chain_ok_iff, result_eq_ok] at h
    obtain ⟨-, ⟨-, rfl⟩, -, ⟨-, rfl⟩, -, ⟨-, rfl⟩, he⟩ := h
    rw [if_pos hz]
    exact (Except.ok.inj he).symm
  · rw [if_neg hz] at h ⊢
    exact (Except.ok.inj h).symm

theorem applyPositionFill_exact {now : ℕ} {orderSide : Side} {qty price : ℚ}
    {l l' : List PositionInfo}
    (h : applyPositionFill id now marketId orderSide qty price l = .ok l') :
    l' = Edge.applyPositionFill now marketId orderSide qty price l := by
  induction l generalizing l' with
  | nil =>
    unfold applyPositionFill at h
    simp only [chain_ok_iff, result_eq_ok, scale_eq_ok] at h
    obtain ⟨-, ⟨-, rfl⟩, -, ⟨-, rfl⟩, -, ⟨-, rfl⟩, he⟩ := h
    exact (Except.ok.inj he).symm
  | cons p rest ih =>
    unfold applyPositionFill at h
    unfold Edge.applyPositionFill
    by_cases hm : p.marketId ≠ marketId
    · rw [if_pos hm] at h ⊢
      obtain ⟨l'', hl'', rfl⟩ := keepFirst_eq_ok.mp h
      rw [ih hl'']
    simp only [if_neg hm] at h ⊢
    -- the branches of the source: added to, reduced, closed, flipped
    by_cases hside : p.side = orderSide.position
    · simp only [if_pos hside, chain_ok_iff, result_eq_ok, scale_eq_ok] at h ⊢
      obtain ⟨-, ⟨-, rfl⟩, newEntry, hentry, -, ⟨-, rfl⟩, -, ⟨-, rfl⟩, -, ⟨-, rfl⟩, he⟩ := h
      obtain rfl := weightedEntry_exact hentry
      exact (Except.ok.inj he).symm
    simp only [if_neg hside] at h ⊢
    by_cases hlt : qty < p.size
    · simp only [if_pos hlt, chain_ok_iff, result_eq_ok, scale_eq_ok] at h ⊢
      obtain ⟨-, ⟨-, rfl⟩, -, ⟨-, rfl⟩, -, ⟨-, rfl⟩, he⟩ := h
      exact (Except.ok.inj he).symm
    simp only [if_neg hlt] at h ⊢
    by_cases heq : qty = p.size
    · rw [if_pos heq] at h ⊢
      exact (Except.ok.inj h).symm
    simp only [if_neg heq, chain_ok_iff, result_eq_ok, scale_eq_ok] at h ⊢
    obtain ⟨-, ⟨-, rfl⟩, -, ⟨-, rfl⟩, -, ⟨-, rfl⟩, -, ⟨-, rfl⟩, he⟩ := h
    exact (Except.ok.inj he).symm

theorem upsertPosition_exact {now : ℕ} {address : Address} {orderSide : Side} {qty price : ℚ}
    (h : upsertPosition id s now address marketId orderSide qty price = .ok s') :
    s' = s.upsertPosition now address marketId orderSide qty price := by
  unfold upsertPosition at h
  cases hl : applyPositionFill id now marketId orderSide qty price (s.positions address) with
  | error l => simp [hl] at h
  | ok l =>
    rw [hl, applyPositionFill_exact hl] at h
    exact (Except.ok.inj h).symm

theorem adjustVault_exact {address : Address} {deltaDollars : ℚ}
    (h : adjustVault id s address deltaDollars = .ok s') :
    s' = s.adjustVault address deltaDollars := by
  unfold adjustVault at h
  unfold AppState.adjustVault
  by_cases hd : deltaDollars = 0
  · rw [if_pos hd] at h ⊢
    exact (Except.ok.inj h).symm
  · rw [if_neg hd] at h ⊢
    simp only [chain_ok_iff, result_eq_ok, scale_eq_ok] at h
    obtain ⟨-, ⟨-, rfl⟩, -, ⟨-, rfl⟩, he⟩ := h
    exact (Except.ok.inj he).symm

theorem settleMatch_exact {now orderId : ℕ} {user : Address} {t : Taker} {takerFeeBps : ℕ}
    {makerRebateBps : ℤ} {m : MatchedFill}
    (h : settleMatch id now orderId user t takerFeeBps makerRebateBps s m = .ok s') :
    s' = s.settleMatch now orderId user t takerFeeBps makerRebateBps m := by
  unfold settleMatch at h
  simp only [chain_ok_iff, result_eq_ok, scale_eq_ok] at h
  obtain ⟨-, ⟨-, rfl⟩, -, ⟨-, rfl⟩, -, ⟨-, rfl⟩, -, ⟨-, rfl⟩, -, ⟨-, rfl⟩, s₁, h₁, s₂, h₂, s₃, h₃,
    h₄⟩ := h
  obtain rfl := adjustVault_exact h₁
  obtain rfl := adjustVault_exact h₂
  obtain rfl := upsertPosition_exact h₃
  rw [upsertPosition_exact h₄]
  have hvault (s : AppState) (a : Address) (d : ℚ) : s.adjustVault a d = { s with
      vaultBalances := if d = 0 then s.vaultBalances else Function.update s.vaultBalances a
        (if s.vaultBalances a+trunc (d*10^6) < 0 then 0
          else s.vaultBalances a+trunc (d*10^6)) } := by
    by_cases hd : d = 0 <;> simp [AppState.adjustVault, hd]
  -- the ids are drawn first here and last there
  simp only [AppState.settleMatch, hvault]
  rfl

theorem restRemainder_exact {orderId : ℕ} {user : Address} {t : Taker} {remaining : ℚ}
    (h : restRemainder id env orderId user t remaining s = .ok s') :
    s' = if remaining ≠ 0 ∧ t.orderType = .limit then
      s.addOpenOrder env user ⟨orderId, t.marketId, t.side, t.orderType, t.price.getD 0, t.qty,
        remaining, env.now, t.clientOrderId⟩ else s := by
  unfold restRemainder at h
  by_cases hl : remaining ≠ 0 ∧ t.orderType = .limit
  · rw [if_pos hl] at h ⊢
    exact addOpenOrder_exact h
  · rw [if_neg hl] at h ⊢
    exact (Except.ok.inj h).symm

theorem finish_exact {user : Address} {t : Taker} {filled : List MatchedFill}
    {r : PlaceOrderResponse × AppState}
    (h : finish id env s.nextUlid user t filled s' = .ok r)
    (hm : s.matched env user t = (filled,s'.rebuildOrderbook env t.marketId))
    (hmarket : s'.market t.marketId = s.market t.marketId) : r = s.execute env user t := by
  unfold finish at h
  simp only [chain_ok_iff, result_eq_ok] at h
  obtain ⟨s₁, hs₁, filledQty, hsum, -, ⟨-, rfl⟩, m, hm', s₂, hs₂, s₃, hs₃, he⟩ := h
  obtain rfl := rebuildOrderbook_exact hs₁
  obtain rfl := sum_exact hsum
  obtain rfl := market_eq hm'
  obtain rfl := foldlM_eq_foldl (fun _ _ _ => settleMatch_exact) hs₂
  obtain rfl := restRemainder_exact hs₃
  rw [← Except.ok.inj he]
  have hfilled : (s.matched env user t).1 = filled := by rw [hm]
  have hstate : (s.matched env user t).2 = s'.rebuildOrderbook env t.marketId := by rw [hm]
  apply Prod.ext
  · change _ = PlaceOrderResponse.mk s.nextUlid (if (s.matched env user t).1 ≠ [] ∧
      s.unfilled env user t = 0 then .filled else if (s.matched env user t).1 ≠ [] then .partially
      else .accepted) env.now
    rw [AppState.unfilled, hfilled]
    rfl
  · rw [AppState.execute_eq, AppState.settled, AppState.remainder, AppState.unfilled, hfilled,
      hstate]
    have hfees : feeSchedule ((s'.rebuildOrderbook env t.marketId).market t.marketId) =
        s.feeBps t.marketId := congrArg feeSchedule hmarket
    rw [hfees]
    rfl

/-- Without rounding, an order that returns is executed as it is on rationals. -/
theorem execute_exact {user : Address} {t : Taker} {r : PlaceOrderResponse × AppState}
    (h : execute id s env user t = .ok r) : r = s.execute env user t := by
  unfold execute decrementMakers at h
  cases hloop : matchLoop id env.now s.drawn.openOrders t.qty
      (s.drawn.candidates env t.marketId t.side t.price user) with
  | error e => simp [hloop] at h
  | ok x =>
    rw [hloop] at h
    refine finish_exact h ?_ rfl
    unfold AppState.matched AppState.matchTaker
    rw [← matchLoop_exact hloop]

end Exact

end Perplex.Edge.Decimal
