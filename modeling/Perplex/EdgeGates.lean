import Perplex.EdgeDecimal

/-! The checks of `place_order` in bounded arithmetic: the margin of the account, the leverage cap
and the dry run of a post-only order. They write nothing, so a panic in them leaves the state as
it was. -/
namespace Perplex.Edge.Decimal

section Model
variable {σ : Type} (round : ℚ → ℚ)

/-- `liquidation_price`. -/
def liquidationPrice (left : σ) (p : Margin.Position) (collateral : ℚ)
    (params : Margin.MarketParams) : Except σ (Option ℚ) :=
  if p.size = 0 then return none
  else do
    let mmRatio := quotient round params.mmRatioBps 10000
    let sizeAbs := |p.size|
    let cost ← result round left (sizeAbs*p.entryPrice)
    let num ← result round left (if 0 < p.size then cost-collateral else cost+collateral)
    let part ← result round left (if 0 < p.size then 1-mmRatio else 1+mmRatio)
    let den ← result round left (sizeAbs*part)
    return if den = 0 then none else some (quotient round num den)

/-- PnL of a stored position at a mark. -/
def pnl (left : σ) (p : PositionInfo) (mark : ℚ) : Except σ ℚ := do
  let entry := unscaleX18 round p.entryPriceX18
  let gap ← result round left (match p.side with
    | .long => mark-entry
    | .short => entry-mark)
  result round left (p.size*gap)

/-- The position as the shared margin math takes it. -/
def core (p : PositionInfo) : Margin.Position :=
  ⟨match p.side with
    | .long => p.size
    | .short => -p.size, unscaleX18 round p.entryPriceX18⟩

/-- A balance in dollars. -/
def dollars (x : ℚ) : ℚ := quotient round x (10^6)

def ratio (bps : ℕ) : ℚ := quotient round bps 10000

def markOf (m : Option MarketInfo) (p : PositionInfo) : ℚ :=
  match m with
  | some m => unscaleX18 round m.indexPriceX18
  | none => unscaleX18 round p.entryPriceX18

def liquidationPriceX18 (left : σ) (m : Option MarketInfo) (p : PositionInfo) (collateral : ℚ) :
    Except σ ℤ :=
  match m with
  | none => return p.liquidationPriceX18
  | some m => do
    let liq ← liquidationPrice round left (core round p) collateral ⟨m.imRatioBps, m.mmRatioBps⟩
    match liq with
    | none => return p.liquidationPriceX18
    | some l => scaleX18 round left (if l < 0 then 0 else l)

def pricePosition (s : AppState) (env : Env) (collateral : ℚ) (t : Totals) (p : PositionInfo) :
    Except AppState (Totals × PositionInfo) :=
  if p.size = 0 then return (t,p)
  else do
    let m ← market round s env p.marketId
    let mark := markOf round m p
    let imRatio := ratio round (match m with
      | some m => m.imRatioBps
      | none => 500)
    let notional ← result round s (p.size*mark)
    let pnl ← pnl round s p mark
    let im ← result round s (notional*imRatio)
    let liquidationPriceX18 ← liquidationPriceX18 round s m p collateral
    let markPriceX18 ← scaleX18 round s mark
    let unrealisedPnlUsdc ← scaleUsdc6 round s pnl
    let notionalUsdc ← scaleUsdc6 round s notional
    let totalNotional ← result round s (t.notional+notional)
    let totalPnl ← result round s (t.pnl+pnl)
    let usedMargin ← result round s (t.usedMargin+im)
    return (⟨totalNotional, totalPnl, usedMargin⟩,
      { p with liquidationPriceX18, markPriceX18, unrealisedPnlUsdc, notionalUsdc })

def priceAll (s : AppState) (env : Env) (collateral : ℚ) : Totals → List PositionInfo →
    Except AppState (Totals × List PositionInfo)
  | t, [] => return (t,[])
  | t, p :: rest => do
    let priced ← pricePosition round s env collateral t p
    let others ← priceAll s env collateral priced.1 rest
    return (others.1,priced.2 :: others.2)

/-- `account_summary`. -/
def accountSummary (s : AppState) (env : Env) (address : Address) :
    Except AppState PositionsResponse := do
  let collateral := dollars round (s.vaultBalances address)
  let priced ← priceAll round s env collateral ⟨0, 0, 0⟩ (s.positions address)
  let equity ← result round s (collateral+priced.1.pnl)
  let raw ← result round s (equity-priced.1.usedMargin)
  let freeCollateralUsdc ← scaleUsdc6 round s (if raw < 0 then 0 else raw)
  let totalUnrealisedPnlUsdc ← scaleUsdc6 round s priced.1.pnl
  let totalNotionalUsdc ← scaleUsdc6 round s priced.1.notional
  return { collateralUsdc := s.vaultBalances address
           freeCollateralUsdc
           totalUnrealisedPnlUsdc
           totalNotionalUsdc
           positions := priced.2 }

/-- The margin check of an order of this notional, with the texts of its refusal. -/
def marginGate (left : σ) (m : MarketInfo) (notional : ℚ) (summary : PositionsResponse) :
    Except σ (Except ApiError Unit) := do
  let requiredIm ← result round left (notional*ratio round m.imRatioBps)
  let free := dollars round summary.freeCollateralUsdc
  if free < requiredIm then do
    let freeRaw ← result round left (free*10^6)
    let requiredRaw ← result round left (requiredIm*10^6)
    return .error (.insufficientMargin (trunc freeRaw) (trunc requiredRaw))
  else do
    let collateral := dollars round summary.collateralUsdc
    let maxNotional ← result round left (m.maxLeverage*collateral)
    return ensure (¬ maxNotional < notional)
      (.exceedsLeverage notional m.maxLeverage collateral) ()

/-- The risk gate; `reduce_only` orders bypass it. -/
def riskGate (s : AppState) (env : Env) (user : Address) (t : Taker) :
    Except AppState (Except ApiError Unit) :=
  if t.reduceOnly then return .ok ()
  else do
    let m ← market round s env t.marketId
    match m with
    | none => return .error .marketInactive
    | some m => do
      let refPrice := t.price.getD (unscaleX18 round m.indexPriceX18)
      let notional ← result round s (t.qty*refPrice)
      let summary ← accountSummary round s env user
      marginGate round s m notional summary

/-- One order met by `match_taker_probe`. -/
def probeOrder (left : σ) (acc : ℚ × ℚ) (o : OpenOrder) : Except σ (ℚ × ℚ) :=
  if acc.1 = 0 then return acc
  else do
    let filled ← result round left (acc.2+min acc.1 o.remaining)
    let remaining ← result round left (acc.1-min acc.1 o.remaining)
    return (remaining,filled)

/-- `match_taker_probe`. -/
def matchTakerProbe (left : σ) (s : AppState) (env : Env) (marketId : String) (takerSide : Side)
    (takerPrice : Option ℚ) (takerQty : ℚ) (taker : Address) : Except σ ℚ := do
  let makers := (env.keys.filter (· ≠ taker)).flatMap fun addr =>
    (s.openOrders addr).filter fun o => o.isMaker marketId takerSide takerPrice
  let acc ← makers.foldlM (probeOrder round left) (takerQty,0)
  return acc.2

/-- `post_only` orders that would cross are rejected. -/
def postOnlyGuard (s : AppState) (env : Env) (user : Address) (t : Taker) :
    Except AppState (Except ApiError Unit) :=
  if t.postOnly then do
    let probe ← matchTakerProbe round s s env t.marketId t.side t.price t.qty user
    return ensure (¬ 0 < probe) (.badRequest "post_only order would cross resting liquidity") ()
  else return .ok ()

/-- `place_order`: a panic carries the state it leaves. The market is looked up before anything
else. -/
def placeOrder (s : AppState) (env : Env) (user : Address) (req : PlaceOrderRequest) :
    Except AppState (Except ApiError (PlaceOrderResponse × AppState)) := do
  let _ ← market round s env req.marketId
  match s.validate req with
  | .error e => return .error e
  | .ok t =>
    let risk ← riskGate round s env user t
    match risk with
    | .error e => return .error e
    | .ok () =>
      let guard ← postOnlyGuard round s env user t
      match guard with
      | .error e => return .error e
      | .ok () =>
        let r ← execute round s env user t
        return .ok r

/-- The state after a request that returns, or the one that its panic leaves. -/
def serve (s : AppState) : Cmd → Except AppState AppState
  | .placeOrder env user req => do
    let answer ← placeOrder round s env user req
    match answer with
    | .error _ => return s
    | .ok r => return r.2
  | .cancelOrder env user orderId => cancelOrder round s env user orderId
  | .setVaultBalance address amount =>
    return { s with vaultBalances := Function.update s.vaultBalances address amount }
  | .setOraclePrice marketId priceX18 =>
    return { s with oraclePrices := Function.update s.oraclePrices marketId (some priceX18) }

/-- The state after some requests, which may return or panic. -/
def serveAll (s : AppState) (cmds : List Cmd) : AppState :=
  cmds.foldl (fun s c => final id (serve round s c)) s

end Model

theorem toOption_eq_some {ε α : Type} {x : Except ε α} {a : α} :
    x.toOption = some a ↔ x = .ok a := by
  cases x <;> simp [Except.toOption]

section Exact
variable {σ : Type} {left : σ} {s : AppState} {env : Env}

theorem liquidationPrice_unrounded {p : Margin.Position} {collateral : ℚ}
    {params : Margin.MarketParams} {liq : Option ℚ}
    (h : liquidationPrice id left p collateral params = .ok liq) :
    liq = Margin.liquidationPrice p collateral params := by
  unfold liquidationPrice at h
  unfold Margin.liquidationPrice
  by_cases hz : p.size = 0
  · rw [if_pos hz] at h ⊢
    exact (Except.ok.inj h).symm
  · simp only [if_neg hz, chain_ok_iff, result_eq_ok] at h ⊢
    obtain ⟨-, ⟨-, rfl⟩, -, ⟨-, rfl⟩, -, ⟨-, rfl⟩, -, ⟨-, rfl⟩, he⟩ := h
    rw [← Except.ok.inj he]
    by_cases hpos : 0 < p.size <;> simp [hpos, quotient]

theorem pnl_exact {p : PositionInfo} {mark x : ℚ} (h : pnl id left p mark = .ok x) :
    x = p.pnl mark := by
  unfold pnl at h
  simp only [chain_ok_iff, result_eq_ok] at h
  obtain ⟨-, ⟨-, rfl⟩, -, rfl⟩ := h
  unfold PositionInfo.pnl
  cases p.side <;> rfl

theorem liquidationPriceX18_exact {m : Option MarketInfo} {p : PositionInfo} {collateral : ℚ}
    {x : ℤ} (h : liquidationPriceX18 id left m p collateral = .ok x) :
    x = match m.bind fun m =>
        Margin.liquidationPrice p.core collateral ⟨m.imRatioBps, m.mmRatioBps⟩ with
      | some l => Edge.scaleX18 (if l < 0 then 0 else l)
      | none => p.liquidationPriceX18 := by
  unfold liquidationPriceX18 at h
  cases m with
  | none => exact (Except.ok.inj h).symm
  | some m =>
    simp only [chain_ok_iff] at h
    obtain ⟨liq, hliq, h⟩ := h
    have hcore : core id p = p.core := rfl
    rw [hcore] at hliq
    rw [Option.bind_some, ← liquidationPrice_unrounded hliq]
    cases liq with
    | none => exact (Except.ok.inj h).symm
    | some l => exact (scale_eq_ok.mp h).2.symm

theorem pricePosition_exact {collateral : ℚ} {t : Totals} {p : PositionInfo}
    {r : Totals × PositionInfo} (h : pricePosition id s env collateral t p = .ok r) :
    r = s.pricePosition collateral t p := by
  unfold pricePosition at h
  unfold AppState.pricePosition
  by_cases hz : p.size = 0
  · rw [if_pos hz] at h ⊢
    exact (Except.ok.inj h).symm
  · simp only [if_neg hz, chain_ok_iff, result_eq_ok, scale_eq_ok] at h ⊢
    obtain ⟨m, hm, -, ⟨-, rfl⟩, x, hx, -, ⟨-, rfl⟩, y, hy, -, ⟨-, rfl⟩, -, ⟨-, rfl⟩, -, ⟨-, rfl⟩,
      -, ⟨-, rfl⟩, -, ⟨-, rfl⟩, -, ⟨-, rfl⟩, he⟩ := h
    obtain rfl := market_eq hm
    obtain rfl := pnl_exact hx
    obtain rfl := liquidationPriceX18_exact hy
    rw [← Except.ok.inj he]
    cases s.market p.marketId <;> rfl

theorem priceAll_exact {collateral : ℚ} {t : Totals} {ps : List PositionInfo}
    {r : Totals × List PositionInfo} (h : priceAll id s env collateral t ps = .ok r) :
    r = s.priceAll collateral t ps := by
  induction ps generalizing t r with
  | nil => exact (Except.ok.inj h).symm
  | cons p rest ih =>
    simp only [priceAll, chain_ok_iff] at h
    obtain ⟨priced, hpriced, others, hothers, he⟩ := h
    obtain rfl := pricePosition_exact hpriced
    obtain rfl := ih hothers
    exact (Except.ok.inj he).symm

theorem accountSummary_exact {address : Address} {r : PositionsResponse}
    (h : accountSummary id s env address = .ok r) : r = s.accountSummary address := by
  unfold accountSummary at h
  simp only [chain_ok_iff, result_eq_ok, scale_eq_ok] at h
  obtain ⟨priced, hpriced, -, ⟨-, rfl⟩, -, ⟨-, rfl⟩, -, ⟨-, rfl⟩, -, ⟨-, rfl⟩, -, ⟨-, rfl⟩, he⟩ := h
  obtain rfl := priceAll_exact hpriced
  exact (Except.ok.inj he).symm

theorem riskGate_exact {user : Address} {t : Taker} {r : Except ApiError Unit}
    (h : riskGate id s env user t = .ok r) : r = s.riskGate user t := by
  unfold riskGate at h
  unfold AppState.riskGate
  by_cases hro : t.reduceOnly
  · rw [if_pos hro] at h ⊢
    exact (Except.ok.inj h).symm
  · simp only [if_neg hro, chain_ok_iff] at h ⊢
    obtain ⟨m, hm, h⟩ := h
    obtain rfl := market_eq hm
    cases hmk : s.market t.marketId with
    | none =>
      rw [hmk] at h
      exact (Except.ok.inj h).symm
    | some m =>
      simp only [hmk, chain_ok_iff, result_eq_ok] at h
      obtain ⟨-, ⟨-, rfl⟩, summary, hsummary, h⟩ := h
      obtain rfl := accountSummary_exact hsummary
      unfold marginGate at h
      simp only [chain_ok_iff, result_eq_ok] at h
      obtain ⟨-, ⟨-, rfl⟩, h⟩ := h
      dsimp only
      by_cases hfree : dollars id (s.accountSummary user).freeCollateralUsdc <
          id (id (t.qty*t.price.getD (unscaleX18 id m.indexPriceX18))*ratio id m.imRatioBps)
      · simp only [if_pos hfree, chain_ok_iff, result_eq_ok] at h
        obtain ⟨-, ⟨-, rfl⟩, -, ⟨-, rfl⟩, he⟩ := h
        have hshort : ((s.accountSummary user).freeCollateralUsdc:ℚ)/10^6 <
            t.qty*t.price.getD (m.indexPriceX18/10^18)*((m.imRatioBps:ℚ)/10000) := hfree
        rw [← Except.ok.inj he, ensure, if_neg (not_not.mpr hshort)]
        rfl
      · simp only [if_neg hfree, chain_ok_iff, result_eq_ok] at h
        obtain ⟨-, ⟨-, rfl⟩, he⟩ := h
        have hcovered : ¬ ((s.accountSummary user).freeCollateralUsdc:ℚ)/10^6 <
            t.qty*t.price.getD (m.indexPriceX18/10^18)*((m.imRatioBps:ℚ)/10000) := hfree
        rw [← Except.ok.inj he, ensure_of hcovered]
        rfl

theorem probeOrder_exact {acc next : ℚ × ℚ} {o : OpenOrder}
    (h : probeOrder id left acc o = .ok next) : next =
      if acc.1 = 0 then acc
      else (acc.1-min acc.1 o.remaining,acc.2+min acc.1 o.remaining) := by
  unfold probeOrder at h
  by_cases hz : acc.1 = 0
  · rw [if_pos hz] at h ⊢
    exact (Except.ok.inj h).symm
  · simp only [if_neg hz, chain_ok_iff, result_eq_ok] at h ⊢
    obtain ⟨-, ⟨-, rfl⟩, -, ⟨-, rfl⟩, he⟩ := h
    exact (Except.ok.inj he).symm

theorem matchTakerProbe_exact {marketId : String} {takerSide : Side} {takerPrice : Option ℚ}
    {takerQty x : ℚ} {taker : Address}
    (h : matchTakerProbe id left s env marketId takerSide takerPrice takerQty taker = .ok x) :
    x = s.matchTakerProbe env marketId takerSide takerPrice takerQty taker := by
  unfold matchTakerProbe at h
  simp only [chain_ok_iff] at h
  obtain ⟨acc, hacc, he⟩ := h
  obtain rfl := foldlM_eq_foldl (fun _ _ _ => probeOrder_exact) hacc
  exact (Except.ok.inj he).symm

theorem postOnlyGuard_exact {user : Address} {t : Taker} {r : Except ApiError Unit}
    (h : postOnlyGuard id s env user t = .ok r) : r = s.postOnlyGuard env user t := by
  unfold postOnlyGuard at h
  unfold AppState.postOnlyGuard
  by_cases hpost : t.postOnly
  · simp only [if_pos hpost, chain_ok_iff] at h
    obtain ⟨x, hx, he⟩ := h
    obtain rfl := matchTakerProbe_exact hx
    rw [← Except.ok.inj he]
    simp [ensure, hpost]
  · rw [if_neg hpost] at h
    rw [← Except.ok.inj h]
    simp [ensure, hpost]

/-- Without rounding, a request that returns is answered as it is on rationals. -/
theorem placeOrder_exact {user : Address} {req : PlaceOrderRequest}
    {r : Except ApiError (PlaceOrderResponse × AppState)}
    (h : placeOrder id s env user req = .ok r) : r = s.placeOrder env user req := by
  unfold placeOrder at h
  simp only [chain_ok_iff] at h
  obtain ⟨-, -, h⟩ := h
  cases hv : s.validate req with
  | error e =>
    rw [hv] at h
    rw [← Except.ok.inj h, AppState.placeOrder, hv]
    rfl
  | ok t =>
    simp only [hv, chain_ok_iff] at h
    obtain ⟨risk, hrisk, h⟩ := h
    obtain rfl := riskGate_exact hrisk
    -- the gates stand in the order of the source
    have hgates : s.placeOrder env user req = (do
        s.riskGate user t
        s.postOnlyGuard env user t
        return s.execute env user t) := by
      rw [AppState.placeOrder, hv]
      rfl
    rw [hgates]
    cases hr : s.riskGate user t with
    | error e =>
      rw [hr] at h
      exact (Except.ok.inj h).symm
    | ok u =>
      simp only [hr, chain_ok_iff] at h
      obtain ⟨guard, hguard, h⟩ := h
      obtain rfl := postOnlyGuard_exact hguard
      cases hg : s.postOnlyGuard env user t with
      | error e =>
        rw [hg] at h
        exact (Except.ok.inj h).symm
      | ok u =>
        simp only [hg, chain_ok_iff] at h
        obtain ⟨x, hx, he⟩ := h
        obtain rfl := execute_exact hx
        exact (Except.ok.inj he).symm

end Exact

end Perplex.Edge.Decimal
