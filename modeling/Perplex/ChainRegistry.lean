import Perplex.ChainModel

/-! `PositionRegistry`: the write path `applyFill` with its lazy funding and average-entry
arithmetic, and the views that price a position. Divisions of signed numbers truncate
toward zero. -/
namespace Perplex.Chain

/-- Assignment to a nested mapping. -/
def update₂ {α β γ : Type} [DecidableEq α] [DecidableEq β]
    (f : α → β → γ) (a : α) (b : β) (c : γ) : α → β → γ :=
  Function.update f a (Function.update (f a) b c)

theorem update₂_apply {α β γ : Type} [DecidableEq α] [DecidableEq β]
    (f : α → β → γ) (a x : α) (b y : β) (c : γ) :
    update₂ f a b c x y = if x = a ∧ y = b then c else f x y := by
  unfold update₂
  by_cases hx : x = a
  · subst hx
    by_cases hy : y = b
    · subst hy
      simp
    · simp [hy]
  · simp [hx]

@[simp]
theorem update₂_same {α β γ : Type} [DecidableEq α] [DecidableEq β]
    (f : α → β → γ) (a : α) (b : β) (c : γ) : update₂ f a b c a b = c := by
  simp [update₂]

/-- `toInt256(priceX18)-toInt256(entryPriceX18)`. -/
def priceDelta (priceX18 entryPriceX18 : ℕ) : Tx ℤ := do
  let price ← toInt256 priceX18
  let entry ← toInt256 entryPriceX18
  subI price entry

namespace Position

/-- `_unrealisedPnl`. -/
def unrealisedPnl (p : Position) (markX18 : ℕ) : Tx ℤ :=
  if p.size = 0 then return 0
  else do
    let delta ← priceDelta markX18 p.entryPriceX18
    let product ← mulI p.size delta
    return product.tdiv E18

/-- `_settleFunding`: the cash flow of the user and the position moved to the index. -/
def settleFunding (p : Position) (idx : ℤ) : Tx (ℤ × Position) :=
  if p.size = 0 ∨ p.cumulativeFunding = idx then return (0,{ p with cumulativeFunding := idx })
  else do
    let indexDelta ← subI idx p.cumulativeFunding
    let product ← mulI indexDelta p.size
    let cashflow ← negI (product.tdiv E18)
    return (cashflow,{ p with cumulativeFunding := idx })

/-- `_applyVwap`: the realised PnL and the position after the fill. -/
def applyVwap (p : Position) (sizeDelta : ℤ) (priceX18 : ℕ) : Tx (ℤ × Position) := do
  let newSize ← addI p.size sizeDelta
  if newSize = 0 then
    let delta ← priceDelta priceX18 p.entryPriceX18
    let product ← mulI p.size delta
    return (product.tdiv E18,{ p with size := 0 })
  else if p.size = 0 then
    return (0,{ p with size := newSize, entryPriceX18 := priceX18 })
  else if (0 < p.size ↔ 0 < sizeDelta) then
    let oldNotional ← mulU p.size.natAbs p.entryPriceX18
    let addNotional ← mulU sizeDelta.natAbs priceX18
    let notional ← addU oldNotional addNotional
    return (0,{ p with size := newSize, entryPriceX18 := notional/newSize.natAbs })
  else if ¬ (0 < p.size ↔ 0 < newSize) then
    -- the fill is larger than the position: close it and open the rest at the fill price
    let delta ← priceDelta priceX18 p.entryPriceX18
    let product ← mulI p.size delta
    return (product.tdiv E18,{ p with size := newSize, entryPriceX18 := priceX18 })
  else
    let closedQty := sizeDelta.natAbs
    let delta ← priceDelta priceX18 p.entryPriceX18
    let sign : ℤ := if 0 < p.size then 1 else -1
    let closed ← toInt256 closedQty
    let signed ← mulI sign closed
    let product ← mulI signed delta
    return (product.tdiv E18,{ p with size := newSize })

end Position

/-- `_notional`. -/
def notional (size : ℤ) (markX18 : ℕ) : Tx ℕ := do
  let product ← mulU size.natAbs markX18
  return product/E18

namespace Registry

/-- `_trackUserMarket`. -/
def trackUserMarket (r : Registry) (user : Address) (market : MarketId) : Registry :=
  if r.userMarketIndexPlusOne user market ≠ 0 then r
  else
    let mkts := r.userMarkets user++[market]
    { r with
      userMarkets := Function.update r.userMarkets user mkts
      userMarketIndexPlusOne := update₂ r.userMarketIndexPlusOne user market mkts.length }

/-- `_untrackUserMarket`: the last market takes the freed slot. Reading, writing or popping
past the end of the array panics. -/
def untrackUserMarket (r : Registry) (user : Address) (market : MarketId) : Tx Registry :=
  let idx1 := r.userMarketIndexPlusOne user market
  let mkts := r.userMarkets user
  if idx1 = 0 then return r
  else if idx1 ≠ mkts.length then
    match mkts[mkts.length-1]? with
    | none => .error .panic
    | some lastMid => do
      ensure (idx1-1 < mkts.length) .panic ()
      let index := update₂ r.userMarketIndexPlusOne user lastMid idx1
      return { r with
        userMarkets := Function.update r.userMarkets user (mkts.set (idx1-1) lastMid).dropLast
        userMarketIndexPlusOne := update₂ index user market 0 }
  else
    return { r with
      userMarkets := Function.update r.userMarkets user mkts.dropLast
      userMarketIndexPlusOne := update₂ r.userMarketIndexPlusOne user market 0 }

def setPosition (r : Registry) (user : Address) (market : MarketId) (p : Position) : Registry :=
  { r with positions := update₂ r.positions user market p }

/-- `applyFill`: realised PnL, funding cash flow and the new registry. -/
def applyFill (r : Registry) (d : Deployment) (ms : Markets) (sender user : Address)
    (market : MarketId) (sizeDelta : ℤ) (priceX18 : ℕ) : Tx (ℤ × ℤ × Registry) := do
  ensure (sender = d.settlementEngine ∨ sender = d.liquidationEngine) .notSettlement ()
  ensure (ms.isMarketActive market) (.marketInactive market) ()
  ensure (user ≠ 0) .userZero ()
  ensure (sizeDelta ≠ 0) .deltaZero ()
  ensure (0 < priceX18) .priceZero ()
  let (fundingDelta,p) ← (r.positions user market).settleFunding (r.marketIndexFunding market)
  let (realisedPnl,p) ← p.applyVwap sizeDelta priceX18
  let r := (r.setPosition user market p).trackUserMarket user market
  if p.size = 0 then
    let r ← r.untrackUserMarket user market
    return (realisedPnl,fundingDelta,r.setPosition user market { p with entryPriceX18 := 0 })
  else
    return (realisedPnl,fundingDelta,r)

/-- `updateFunding`. -/
def updateFunding (r : Registry) (d : Deployment) (sender : Address) (market : MarketId)
    (newCumulativeIndex : ℤ) : Tx Registry := do
  ensure (sender = d.fundingEngine ∨ sender = d.owner) .notFundingAuthority ()
  return { r with
    marketIndexFunding := Function.update r.marketIndexFunding market newCumulativeIndex }

end Registry

def UINT_MAX : ℕ := 2^256-1

namespace State

/-- `healthFactor`. -/
def healthFactor (s : State) (user : Address) (market : MarketId) (priceX18 : ℕ) : Tx ℕ :=
  let p := s.registry.positions user market
  if p.size = 0 then return UINT_MAX
  else do
    let mp ← s.markets.getParams market
    let value ← notional p.size priceX18
    let scaled ← mulU value mp.mmRatioBps
    let mmX18 := scaled/BPS
    if mmX18 = 0 then return UINT_MAX
    else
      let balX18 ← mulU (s.vault.balances user) USDC_TO_X18
      let collateral ← toInt256 balX18
      let upnl ← p.unrealisedPnl priceX18
      let equityX18 ← addI collateral upnl
      if equityX18 ≤ 0 then return 0
      else
        let equity ← toUint256 equityX18
        let scaledEquity ← mulU equity E18
        return scaledEquity/mmX18

/-- The loop of `isWithdrawSafe` with its two sums. -/
def marginLoop (s : State) (user : Address) : List MarketId → ℤ → ℕ → Tx (ℤ × ℕ)
  | [], sumUPnLX18, sumImX18 => return (sumUPnLX18,sumImX18)
  | mid :: mids, sumUPnLX18, sumImX18 =>
    let p := s.registry.positions user mid
    if p.size = 0 then marginLoop s user mids sumUPnLX18 sumImX18
    else do
      let mp ← s.markets.getParams mid
      let priceX18 ← s.priceX18 mid
      let upnl ← p.unrealisedPnl priceX18
      let sumUPnLX18 ← addI sumUPnLX18 upnl
      let value ← notional p.size priceX18
      let scaled ← mulU value mp.imRatioBps
      let sumImX18 ← addU sumImX18 (scaled/BPS)
      marginLoop s user mids sumUPnLX18 sumImX18

/-- `isWithdrawSafe`. -/
def isWithdrawSafe (s : State) (user : Address) (amount : ℕ) : Tx Bool :=
  let userMkts := s.registry.userMarkets user
  if userMkts.length = 0 then return true
  else if s.vault.balances user < amount then return false
  else do
    let (sumUPnLX18,sumImX18) ← s.marginLoop user userMkts 0 0
    let rest ← subU (s.vault.balances user) amount
    let restX18 ← mulU rest USDC_TO_X18
    let collateral ← toInt256 restX18
    let postEquityX18 ← addI collateral sumUPnLX18
    let required ← toInt256 sumImX18
    return decide (required ≤ postEquityX18)

end State

end Perplex.Chain
