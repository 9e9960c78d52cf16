import Mathlib.Algebra.Order.Ring.Rat
import Perplex.Checked

/-! The quote agent (`quote.rs`, `strategy.rs`, `vol.rs` and `kill.rs` of the cli). It takes the
ids of its quotes out of its state before it cancels them, and puts new ones in only after both
sides are placed: a cancel that fails, or an ask that fails after its bid, leaves an order on
the book that it does not know of. Metrics and logs are left out. -/
namespace Perplex.Cli

/-- What the agent uses of `f64`. -/
class F64 (F : Type) extends Add F, Sub F, Mul F, Div F, Neg F where
  ofNat : ℕ → F
  abs : F → F
  max : F → F → F
  clamp : F → F → F → F
  powi : F → ℕ → F
  ln : F → F
  sqrt : F → F
  lt : F → F → Bool
  le : F → F → Bool
  /-- Eight decimals. -/
  fixed8 : F → String

section Model
variable (F : Type)

structure VolWindow where
  samples : List (ℕ × F)
  window : ℕ

structure StrategyParams where
  baseSpreadBps : ℕ
  invPenaltyBpsAtMax : ℕ
  invMax : F
  volMultBps : ℕ
  invSkewBpsAtMax : ℕ

structure Quotes where
  bid : F
  ask : F
  spreadBps : F
  skewBps : F

structure KillSwitch where
  thresholdUsdc : F
  tripped : Bool

structure QuoteAgentConfig where
  account : String
  strategy : StrategyParams F
  volWindow : ℕ
  quoteSize : String
  repriceThresholdBps : ℕ
  orderSignature : String

structure MarketState where
  bidOrderId : Option String
  askOrderId : Option String
  lastMid : Option F
  lastInventory : Option F
  vol : VolWindow F

structure MarketRisk where
  realisedPnlUsdc : F
  inventory : F

end Model

structure PlaceOrderRequest where
  marketId : String
  side : String
  orderType : String
  price : Option String
  qty : String
  timeInForce : String
  reduceOnly : Bool
  postOnly : Bool
  clientOrderId : Option String
  nonce : String
  signature : String
deriving DecidableEq, Repr

section Parts
variable {F : Type} [F64 F]

namespace VolWindow

def record (v : VolWindow F) (ts : ℕ) (mid : F) : VolWindow F :=
  if F64.le mid (F64.ofNat 0) then v
  else
    let samples := v.samples++[(ts,mid)]
    -- `checked_sub`: a window that reaches before the clock drops nothing
    if v.window ≤ ts then
      { v with samples := samples.dropWhile fun s => s.1 < ts-v.window }
    else { v with samples }

/-- Log-returns of consecutive samples. -/
def returns : List (ℕ × F) → List F
  | (_,p) :: (t,m) :: rest =>
    if F64.lt (F64.ofNat 0) p && F64.lt (F64.ofNat 0) m
    then F64.ln (m/p) :: returns ((t,m) :: rest) else returns ((t,m) :: rest)
  | _ => []

def realisedVol (v : VolWindow F) : F :=
  let rs := returns v.samples
  if v.samples.length < 2 ∨ rs = [] then F64.ofNat 0
  else
    let mean := rs.foldl (·+·) (F64.ofNat 0)/F64.ofNat rs.length
    let var := (rs.map fun r => F64.powi (r-mean) 2).foldl (·+·) (F64.ofNat 0)/
      F64.ofNat rs.length
    F64.sqrt var

end VolWindow

def StrategyParams.quotes (p : StrategyParams F) (mid inventory realisedVol : F) : Quotes F :=
  let one := F64.ofNat 1
  let invRatioSigned := if F64.lt (F64.ofNat 0) p.invMax
    then F64.clamp (inventory/p.invMax) (-one) one else F64.ofNat 0
  let invPenBps := F64.abs invRatioSigned*F64.ofNat p.invPenaltyBpsAtMax
  let volPenBps := F64.max realisedVol (F64.ofNat 0)*F64.ofNat p.volMultBps
  let spreadBps := F64.ofNat p.baseSpreadBps+invPenBps+volPenBps
  let skewBps := -invRatioSigned*F64.ofNat p.invSkewBpsAtMax
  let skewedMid := mid*(one+skewBps/F64.ofNat 10000)
  let halfSpread := spreadBps/F64.ofNat 2/F64.ofNat 10000
  ⟨skewedMid*(one-halfSpread), skewedMid*(one+halfSpread), spreadBps, skewBps⟩

namespace KillSwitch

/-- `observe`: whether the switch is tripped now, and the switch. -/
def observe (k : KillSwitch F) (realisedPnlUsdc : F) : Bool × KillSwitch F :=
  let tripped := k.tripped || F64.lt realisedPnlUsdc (-k.thresholdUsdc)
  (tripped,{ k with tripped })

def reset (k : KillSwitch F) : KillSwitch F := { k with tripped := false }

end KillSwitch

/-- What one iteration meets: the clock, the answers of the oracle and of the risk source, and
those that the edge gives if it is asked. -/
structure Tick (F : Type) where
  now : ℕ
  mid : Option F
  risk : Option (MarketRisk F)
  cancelBid : Bool
  cancelAsk : Bool
  placeBid : Option String
  placeAsk : Option String
  bidNonce : ℕ
  askNonce : ℕ

/-- A call to the edge with its answer. -/
inductive EdgeCall where
  | cancelOrder (id : String) (ok : Bool)
  | placeOrder (request : PlaceOrderRequest) (id : Option String)

def buildOrder (marketId : String) (config : QuoteAgentConfig F) (side : String) (price : F)
    (nonce : ℕ) : PlaceOrderRequest where
  marketId
  side
  orderType := "limit"
  price := some (F64.fixed8 price)
  qty := config.quoteSize
  timeInForce := "gtc"
  reduceOnly := false
  postOnly := true
  clientOrderId := some ("cli-"++config.account++"-"++marketId++"-"++side)
  nonce := toString nonce
  signature := config.orderSignature

namespace MarketState

def new (volWindow : ℕ) : MarketState F := ⟨none, none, none, none, ⟨[], volWindow⟩⟩

/-- Both quotes are there, and the mid has moved less than the threshold. -/
def unmoved (st : MarketState F) (config : QuoteAgentConfig F) (mid : F) : Bool :=
  match st.lastMid with
  | none => false
  | some last =>
    F64.lt (F64.abs (mid-last)/last*F64.ofNat 10000) (F64.ofNat config.repriceThresholdBps) &&
      st.bidOrderId.isSome && st.askOrderId.isSome

/-- The ids are taken out. -/
def taken (st : MarketState F) : MarketState F :=
  { st with bidOrderId := none, askOrderId := none }

/-- The cancels of the ids that are taken out. -/
def cancels (st : MarketState F) (t : Tick F) : List EdgeCall :=
  (st.bidOrderId.map fun id => .cancelOrder id t.cancelBid).toList++
    (st.askOrderId.map fun id => .cancelOrder id t.cancelAsk).toList

end MarketState

structure Iteration (F : Type) where
  result : Except String Unit
  state : MarketState F
  kill : KillSwitch F
  calls : List EdgeCall

def runQuoteIteration (marketId : String) (config : QuoteAgentConfig F) (t : Tick F)
    (kill : KillSwitch F) (state : MarketState F) : Iteration F :=
  match t.mid, t.risk with
  | none, _ => ⟨.error ("oracle mid for "++marketId), state, kill, []⟩
  | some _, none => ⟨.error ("risk fetch for "++marketId), state, kill, []⟩
  | some mid, some risk =>
    let state := { state with
      vol := state.vol.record t.now mid
      lastInventory := some risk.inventory }
    let (tripped,kill) := kill.observe risk.realisedPnlUsdc
    if tripped then ⟨.ok (), state.taken, kill, state.cancels t⟩
    else
      let quotes := config.strategy.quotes mid risk.inventory state.vol.realisedVol
      if state.unmoved config mid then ⟨.ok (), state, kill, []⟩
      else
        -- a failed cancel is logged, and the quotes are placed anyway
        let cancels := state.cancels t
        let state := state.taken
        let bidReq := buildOrder marketId config "buy" quotes.bid t.bidNonce
        let askReq := buildOrder marketId config "sell" quotes.ask t.askNonce
        match t.placeBid, t.placeAsk with
        | none, _ => ⟨.error "place bid", state, kill, cancels++[.placeOrder bidReq none]⟩
        | some bidId, none => ⟨.error "place ask", state, kill,
          cancels++[.placeOrder bidReq (some bidId), .placeOrder askReq none]⟩
        | some bidId, some askId =>
          ⟨.ok (), { state with
              bidOrderId := some bidId
              askOrderId := some askId
              lastMid := some mid }, kill,
            cancels++[.placeOrder bidReq (some bidId), .placeOrder askReq (some askId)]⟩

end Parts

/-- Orders that were placed and that no cancel has removed. -/
def live (calls : List EdgeCall) : List String :=
  calls.foldl (fun ids call => match call with
    | .cancelOrder id ok => if ok then ids.filter fun x => x ≠ id else ids
    | .placeOrder _ id => ids++id.toList) []

/-- The agent of one market, and all that it has asked of the edge. -/
structure Agent (F : Type) where
  state : MarketState F
  kill : KillSwitch F
  calls : List EdgeCall

/-- The loop iterates, and the operator may reset the switch in between. -/
inductive Op (F : Type) where
  | tick (t : Tick F)
  | reset

section Runs
variable {F : Type} [F64 F] (marketId : String) (config : QuoteAgentConfig F)

def Agent.step (a : Agent F) : Op F → Agent F
  | .tick t =>
    let i := runQuoteIteration marketId config t a.kill a.state
    ⟨i.state, i.kill, a.calls++i.calls⟩
  | .reset => { a with kill := a.kill.reset }

/-- A run from the initial state of the market. -/
def runAgent (kill : KillSwitch F) (ops : List (Op F)) : Agent F :=
  ops.foldl (Agent.step marketId config) ⟨MarketState.new config.volWindow, kill, []⟩

theorem runAgent_append (kill : KillSwitch F) (ops : List (Op F)) (op : Op F) :
    runAgent marketId config kill (ops++[op]) =
      (runAgent marketId config kill ops).step marketId config op := by
  simp [runAgent]

end Runs

namespace Agent
variable {F : Type}

/-- The id is that of the bid or of the ask. -/
def Knows (a : Agent F) (id : String) : Prop :=
  a.state.bidOrderId = some id ∨ a.state.askOrderId = some id

/-- The agent knows of every order that is live. -/
def Tracks (a : Agent F) : Prop := ∀ id ∈ live a.calls, a.Knows id

variable [F64 F]

/-- The iteration finds the switch tripped. -/
def Pulls (a : Agent F) (t : Tick F) : Prop :=
  ∃ mid risk, t.mid = some mid ∧ t.risk = some risk ∧
    (a.kill.observe risk.realisedPnlUsdc).1 = true

/-- The iteration replaces the quotes. -/
def Replaces (a : Agent F) (config : QuoteAgentConfig F) (t : Tick F) : Prop :=
  ∃ mid risk, t.mid = some mid ∧ t.risk = some risk ∧
    (a.kill.observe risk.realisedPnlUsdc).1 = false ∧ a.state.unmoved config mid = false

end Agent

/-- The edge cancels the orders that it is asked to cancel. -/
def Tick.Cancels {F : Type} (t : Tick F) (st : MarketState F) : Prop :=
  (st.bidOrderId.isSome → t.cancelBid = true) ∧ (st.askOrderId.isSome → t.cancelAsk = true)

/-- An iteration that cancels succeeds in it, and one that gets its bid placed gets its ask
placed too. -/
def Op.Kept {F : Type} [F64 F] (config : QuoteAgentConfig F) (a : Agent F) : Op F → Prop
  | .tick t => (a.Pulls t ∨ a.Replaces config t → t.Cancels a.state) ∧
    (a.Replaces config t → t.placeBid.isSome → t.placeAsk.isSome)
  | .reset => True

/-- The ids that the edge would hand out in an iteration. -/
def Op.ids {F : Type} : Op F → List String
  | .tick t => t.placeBid.toList++t.placeAsk.toList
  | .reset => []

theorem live_append (calls new : List EdgeCall) :
    live (calls++new) = new.foldl (fun ids call => match call with
      | .cancelOrder id ok => if ok then ids.filter fun x => x ≠ id else ids
      | .placeOrder _ id => ids++id.toList) (live calls) := by
  simp only [live, List.foldl_append]

theorem live_place (calls : List EdgeCall) (request : PlaceOrderRequest) (id : Option String) :
    live (calls++[.placeOrder request id]) = live calls++id.toList := by
  simp [live_append]

section Live
variable {F : Type} {st : MarketState F} {t : Tick F} {calls : List EdgeCall} {id : String}

/-- What is live after the cancels was live, and was not cancelled. -/
theorem mem_live_cancels : id ∈ live (calls++st.cancels t) ↔ id ∈ live calls ∧
    ¬ (st.bidOrderId = some id ∧ t.cancelBid = true) ∧
    ¬ (st.askOrderId = some id ∧ t.cancelAsk = true) := by
  rw [live_append]
  unfold MarketState.cancels
  have hone (ids : List String) (o : Option String) (ok : Bool) :
      id ∈ ((o.map fun x => EdgeCall.cancelOrder x ok).toList.foldl (fun ids call =>
        match call with
        | .cancelOrder x ok => if ok then ids.filter fun y => y ≠ x else ids
        | .placeOrder _ x => ids++x.toList) ids) ↔
        id ∈ ids ∧ ¬ (o = some id ∧ ok = true) := by
    cases o with
    | none => simp
    | some x =>
      cases ok with
      | false => simp
      | true =>
        simp only [Option.map_some, Option.toList_some, List.foldl_cons, List.foldl_nil, if_true,
          List.mem_filter, decide_eq_true_eq, Option.some.injEq, and_true]
        exact and_congr_right fun _ => ⟨fun h he => h he.symm, fun h he => h he.symm⟩
  rw [List.foldl_append, hone, hone]
  exact and_assoc

end Live

section Step
variable {F : Type} [F64 F] {marketId : String} {config : QuoteAgentConfig F} {a : Agent F}
  {t : Tick F}

/-- Every way in which an iteration can end. -/
inductive Ends (config : QuoteAgentConfig F) (a : Agent F) (t : Tick F) : Agent F → Prop where
  | idle {a' : Agent F} (hpulls : ¬ a.Pulls t) (hreplaces : ¬ a.Replaces config t)
      (hbid : a'.state.bidOrderId = a.state.bidOrderId)
      (hask : a'.state.askOrderId = a.state.askOrderId) (hcalls : a'.calls = a.calls) :
    Ends config a t a'
  | pulled {a' : Agent F} (h : a.Pulls t) (hbid : a'.state.bidOrderId = none)
      (hask : a'.state.askOrderId = none) (hcalls : a'.calls = a.calls++a.state.cancels t) :
    Ends config a t a'
  | noBid {a' : Agent F} (h : a.Replaces config t) (hplace : t.placeBid = none)
      (hbid : a'.state.bidOrderId = none) (hask : a'.state.askOrderId = none)
      (hlive : live a'.calls = live (a.calls++a.state.cancels t)) : Ends config a t a'
  | noAsk {a' : Agent F} (h : a.Replaces config t) (bidId : String)
      (hplace : t.placeBid = some bidId) (hplace' : t.placeAsk = none)
      (hbid : a'.state.bidOrderId = none) (hask : a'.state.askOrderId = none)
      (hlive : live a'.calls = live (a.calls++a.state.cancels t)++[bidId]) : Ends config a t a'
  | quoted {a' : Agent F} (h : a.Replaces config t) (bidId askId : String)
      (hplace : t.placeBid = some bidId) (hplace' : t.placeAsk = some askId)
      (hbid : a'.state.bidOrderId = some bidId) (hask : a'.state.askOrderId = some askId)
      (hlive : live a'.calls = live (a.calls++a.state.cancels t)++[bidId, askId]) :
    Ends config a t a'

theorem step_tick {i : Iteration F} (h : runQuoteIteration marketId config t a.kill a.state = i) :
    a.step marketId config (.tick t) = ⟨i.state, i.kill, a.calls++i.calls⟩ := by
  subst h
  rfl

/-- The iteration after both answers are there. -/
theorem answered_ends {mid : F} {risk : MarketRisk F} (hmid : t.mid = some mid)
    (hrisk : t.risk = some risk) : Ends config a t (a.step marketId config (.tick t)) := by
  have hanswers {mid' : F} {risk' : MarketRisk F} (h : t.mid = some mid')
      (h' : t.risk = some risk') : mid' = mid ∧ risk' = risk :=
    ⟨Option.some.inj (h.symm.trans hmid), Option.some.inj (h'.symm.trans hrisk)⟩
  cases htrip : (a.kill.observe risk.realisedPnlUsdc).1 with
  | true =>
    rw [step_tick (by simp only [runQuoteIteration, hmid, hrisk, htrip, if_true]; rfl)]
    exact .pulled ⟨mid, risk, hmid, hrisk, htrip⟩ rfl rfl rfl
  | false =>
    have hpulls : ¬ a.Pulls t := by
      rintro ⟨mid', risk', h, h', htrip'⟩
      obtain ⟨rfl, rfl⟩ := hanswers h h'
      simp [htrip] at htrip'
    cases hmove : a.state.unmoved config mid with
    | true =>
      -- the ids and the last mid are what they were when the iteration began
      have hmove' : MarketState.unmoved { a.state with
          vol := a.state.vol.record t.now mid
          lastInventory := some risk.inventory } config mid = true := hmove
      rw [step_tick (by simp only [runQuoteIteration, hmid, hrisk, htrip, hmove',
        Bool.false_eq_true, if_false, if_true]; rfl)]
      refine .idle hpulls ?_ rfl rfl (List.append_nil _)
      rintro ⟨mid', risk', h, h', -, hmoved⟩
      obtain ⟨rfl, rfl⟩ := hanswers h h'
      simp [hmove] at hmoved
    | false =>
      have hmove' : MarketState.unmoved { a.state with
          vol := a.state.vol.record t.now mid
          lastInventory := some risk.inventory } config mid = false := hmove
      have hreplaces : a.Replaces config t := ⟨mid, risk, hmid, hrisk, htrip, hmove⟩
      cases hbid : t.placeBid with
      | none =>
        rw [step_tick (by simp only [runQuoteIteration, hmid, hrisk, htrip, hmove', hbid,
          Bool.false_eq_true, if_false]; rfl)]
        refine .noBid hreplaces hbid rfl rfl ?_
        dsimp only
        rw [← List.append_assoc, live_place, Option.toList_none, List.append_nil]
        rfl
      | some bidId =>
        cases hask : t.placeAsk with
        | none =>
          rw [step_tick (by simp only [runQuoteIteration, hmid, hrisk, htrip, hmove', hbid, hask,
            Bool.false_eq_true, if_false]; rfl)]
          refine .noAsk hreplaces bidId hbid hask rfl rfl ?_
          dsimp only
          rw [← List.append_assoc, List.append_cons, live_place, live_place,
            Option.toList_none, List.append_nil]
          rfl
        | some askId =>
          rw [step_tick (by simp only [runQuoteIteration, hmid, hrisk, htrip, hmove', hbid, hask,
            Bool.false_eq_true, if_false]; rfl)]
          refine .quoted hreplaces bidId askId hbid hask rfl rfl ?_
          dsimp only
          rw [← List.append_assoc, List.append_cons, live_place, live_place, List.append_assoc]
          rfl

theorem tick_ends (marketId : String) (a : Agent F) (t : Tick F) :
    Ends config a t (a.step marketId config (.tick t)) := by
  cases hmid : t.mid with
  | none =>
    rw [step_tick (by simp only [runQuoteIteration, hmid]; rfl)]
    refine .idle ?_ ?_ rfl rfl (List.append_nil _)
    · rintro ⟨mid, risk, h, -⟩
      simp [hmid] at h
    · rintro ⟨mid, risk, h, -⟩
      simp [hmid] at h
  | some mid =>
    cases hrisk : t.risk with
    | none =>
      rw [step_tick (by simp only [runQuoteIteration, hmid, hrisk]; rfl)]
      refine .idle ?_ ?_ rfl rfl (List.append_nil _)
      · rintro ⟨mid, risk, -, h, -⟩
        simp [hrisk] at h
      · rintro ⟨mid, risk, -, h, -⟩
        simp [hrisk] at h
    | some risk => exact answered_ends hmid hrisk

/-- The agent knows exactly the orders that are live. -/
def Agent.Exact (a : Agent F) : Prop := ∀ id, id ∈ live a.calls ↔ a.Knows id

omit [F64 F] in
theorem Agent.Exact.tracks (h : a.Exact) : a.Tracks := fun id hid => (h id).mp hid

omit [F64 F] in
/-- Nothing is live once the edge has cancelled what the agent knows. -/
theorem Agent.Exact.live_cancels (h : a.Exact) (hc : t.Cancels a.state) :
    live (a.calls++a.state.cancels t) = [] := by
  apply List.eq_nil_iff_forall_not_mem.mpr
  intro id hid
  obtain ⟨hlive, hbid, hask⟩ := mem_live_cancels.mp hid
  rcases (h id).mp hlive with hk | hk
  · exact hbid ⟨hk, hc.1 (by simp [hk])⟩
  · exact hask ⟨hk, hc.2 (by simp [hk])⟩

/-- An iteration that is kept keeps the agent exact. -/
theorem Agent.Exact.step (h : a.Exact) {op : Op F} (hkept : op.Kept config a) :
    (a.step marketId config op).Exact := by
  cases op with
  | reset => exact h
  | tick t =>
    generalize hstep : a.step marketId config (.tick t) = a'
    have hends : Ends config a t a' := hstep ▸ tick_ends marketId a t
    unfold Agent.Exact Agent.Knows
    cases hends with
    | idle hpulls hreplaces hbid hask hcalls =>
      rw [hbid, hask, hcalls]
      exact h
    | pulled hpulls hbid hask hcalls =>
      rw [hbid, hask, hcalls, h.live_cancels (hkept.1 (Or.inl hpulls))]
      simp
    | noBid hreplaces hplace hbid hask hlive =>
      rw [hbid, hask, hlive, h.live_cancels (hkept.1 (Or.inr hreplaces))]
      simp
    | noAsk hreplaces bidId hplace hplace' hbid hask hlive =>
      have hboth := hkept.2 hreplaces (by simp [hplace])
      simp [hplace'] at hboth
    | quoted hreplaces bidId askId hplace hplace' hbid hask hlive =>
      rw [hbid, hask, hlive, h.live_cancels (hkept.1 (Or.inr hreplaces))]
      intro id
      simp [eq_comm]

theorem Agent.Pulls.not_replaces (h : a.Pulls t) : ¬ a.Replaces config t := by
  obtain ⟨mid, risk, -, hrisk, htrip⟩ := h
  rintro ⟨mid', risk', -, hrisk', htrip', -⟩
  obtain rfl := Option.some.inj (hrisk.symm.trans hrisk')
  simp [htrip] at htrip'

/-- Once the switch is tripped and the edge has cancelled the quotes, no order is live. -/
theorem Agent.Exact.pulled (h : a.Exact) (hpulls : a.Pulls t) (hc : t.Cancels a.state) :
    live (a.step marketId config (.tick t)).calls = [] := by
  generalize hstep : a.step marketId config (.tick t) = a'
  have hends : Ends config a t a' := hstep ▸ tick_ends marketId a t
  cases hends with
  | idle hnot => exact absurd hpulls hnot
  | pulled _ hbid hask hcalls =>
    rw [hcalls]
    exact h.live_cancels hc
  | noBid hreplaces => exact absurd hreplaces hpulls.not_replaces
  | noAsk hreplaces => exact absurd hreplaces hpulls.not_replaces
  | quoted hreplaces => exact absurd hreplaces hpulls.not_replaces

/-- The ids that the agent knows differ, and are among those that the edge has handed out. -/
structure Agent.Issued (ids : List String) (a : Agent F) : Prop where
  apart : ∀ id, a.state.bidOrderId = some id → a.state.askOrderId ≠ some id
  among : ∀ id, a.Knows id → id ∈ ids

theorem Agent.Issued.step {ids : List String} (h : a.Issued ids) {op : Op F}
    (hnd : op.ids.Nodup) : (a.step marketId config op).Issued (ids++op.ids) := by
  cases op with
  | reset => exact ⟨h.apart, fun id hid => List.mem_append_left _ (h.among id hid)⟩
  | tick t =>
    generalize hstep : a.step marketId config (.tick t) = a'
    have hends : Ends config a t a' := hstep ▸ tick_ends marketId a t
    have hnone (hbid : a'.state.bidOrderId = none) (hask : a'.state.askOrderId = none) :
        a'.Issued (ids++(Op.tick t).ids) :=
      ⟨fun id he => by simp [hbid] at he, fun id hid => by simp [Agent.Knows, hbid, hask] at hid⟩
    cases hends with
    | idle hpulls hreplaces hbid hask hcalls =>
      refine ⟨?_, ?_⟩
      · rw [hbid, hask]
        exact h.apart
      · unfold Agent.Knows
        rw [hbid, hask]
        exact fun id hid => List.mem_append_left _ (h.among id hid)
    | pulled hpulls hbid hask hcalls => exact hnone hbid hask
    | noBid hreplaces hplace hbid hask hlive => exact hnone hbid hask
    | noAsk hreplaces bidId hplace hplace' hbid hask hlive => exact hnone hbid hask
    | quoted hreplaces bidId askId hplace hplace' hbid hask hlive =>
      have hids : (Op.tick t).ids = [bidId, askId] := by simp [Op.ids, hplace, hplace']
      rw [hids] at hnd ⊢
      have hne : bidId ≠ askId := by simpa using hnd
      refine ⟨?_, ?_⟩
      · intro id he
        rw [hbid, Option.some.injEq] at he
        rw [hask, ← he]
        simpa using Ne.symm hne
      · rintro id (he | he)
        · rw [hbid, Option.some.injEq] at he
          simp [he]
        · rw [hask, Option.some.injEq] at he
          simp [he]

omit [F64 F] in
/-- An order whose cancel fails stays live, and its id is gone. -/
theorem Agent.Exact.survives (h : a.Exact) {ids : List String} (hissued : a.Issued ids)
    (hc : ¬ t.Cancels a.state) : ∃ id, a.Knows id ∧ id ∈ live (a.calls++a.state.cancels t) := by
  have hstays {id : String} (hk : a.Knows id)
      (hbid : ¬ (a.state.bidOrderId = some id ∧ t.cancelBid = true))
      (hask : ¬ (a.state.askOrderId = some id ∧ t.cancelAsk = true)) :
      ∃ id, a.Knows id ∧ id ∈ live (a.calls++a.state.cancels t) :=
    ⟨id, hk, mem_live_cancels.mpr ⟨(h id).mpr hk, hbid, hask⟩⟩
  unfold Tick.Cancels at hc
  rw [not_and_or, Classical.not_imp, Classical.not_imp] at hc
  rcases hc with ⟨hsome, hfail⟩ | ⟨hsome, hfail⟩
  · obtain ⟨id, hid⟩ := Option.isSome_iff_exists.mp hsome
    exact hstays (Or.inl hid) (fun hb => hfail hb.2) fun ha => hissued.apart id hid ha.1
  · obtain ⟨id, hid⟩ := Option.isSome_iff_exists.mp hsome
    exact hstays (Or.inr hid) (fun hb => hissued.apart id hb.1 hid) fun ha => hfail ha.2

/-- An iteration that is not kept loses an order, provided that the edge does not hand out an
id twice. -/
theorem Agent.Exact.kept_of_tracks (h : a.Exact) {ids : List String} (hissued : a.Issued ids)
    {op : Op F} (hnew : ∀ id ∈ op.ids, id ∉ ids)
    (htracks : (a.step marketId config op).Tracks) : op.Kept config a := by
  cases op with
  | reset => trivial
  | tick t =>
    generalize hstep : a.step marketId config (.tick t) = a' at htracks
    have hends : Ends config a t a' := hstep ▸ tick_ends marketId a t
    unfold Agent.Tracks Agent.Knows at htracks
    cases hends with
    | idle hpulls hreplaces hbid hask hcalls =>
      exact ⟨fun he => absurd he (not_or.mpr ⟨hpulls, hreplaces⟩), fun hr => absurd hr hreplaces⟩
    | pulled hpulls hbid hask hcalls =>
      refine ⟨fun _ => ?_, fun hr => absurd hr hpulls.not_replaces⟩
      by_contra hc
      obtain ⟨id, -, hlive⟩ := h.survives hissued hc
      rw [hbid, hask, hcalls] at htracks
      simpa using htracks id hlive
    | noBid hreplaces hplace hbid hask hlive =>
      refine ⟨fun _ => ?_, fun _ hsome => by simp [hplace] at hsome⟩
      by_contra hc
      obtain ⟨id, -, hid⟩ := h.survives hissued hc
      rw [hbid, hask, hlive] at htracks
      simpa using htracks id hid
    | noAsk hreplaces bidId hplace hplace' hbid hask hlive =>
      rw [hbid, hask, hlive] at htracks
      have hlost := htracks bidId (by simp)
      simp at hlost
    | quoted hreplaces bidId askId hplace hplace' hbid hask hlive =>
      refine ⟨fun _ => ?_, fun _ _ => by simp [hplace']⟩
      by_contra hc
      obtain ⟨id, hknown, hid⟩ := h.survives hissued hc
      have hold := hissued.among id hknown
      rw [hbid, hask, hlive] at htracks
      -- it is neither of the new ones
      rcases htracks id (List.mem_append_left _ hid) with he | he
      · refine hnew id ?_ hold
        rw [Option.some.injEq] at he
        simp [Op.ids, hplace, he]
      · refine hnew id ?_ hold
        rw [Option.some.injEq] at he
        simp [Op.ids, hplace', he]

end Step

section Main
variable {F : Type} [F64 F] (marketId : String) (config : QuoteAgentConfig F)
  (kill : KillSwitch F)

theorem runAgent_exact {ops : List (Op F)}
    (h : ∀ pre op, pre++[op] <+: ops → op.Kept config (runAgent marketId config kill pre)) :
    (runAgent marketId config kill ops).Exact := by
  induction ops using List.reverseRecOn with
  | nil => exact fun id => by simp [runAgent, live, Agent.Knows, MarketState.new]
  | append_singleton ops op ih =>
    rw [runAgent_append]
    refine (ih fun pre op' hpre => h pre op' (hpre.trans (List.prefix_append _ _))).step ?_
    exact h ops op (List.prefix_refl _)

theorem runAgent_issued {ops : List (Op F)} (hnd : (ops.flatMap Op.ids).Nodup) :
    (runAgent marketId config kill ops).Issued (ops.flatMap Op.ids) := by
  induction ops using List.reverseRecOn with
  | nil => exact ⟨fun id h => by simp [runAgent, MarketState.new] at h,
      fun id h => by simp [runAgent, Agent.Knows, MarketState.new] at h⟩
  | append_singleton ops op ih =>
    rw [List.flatMap_append, List.flatMap_singleton] at hnd ⊢
    rw [runAgent_append]
    exact (ih (List.nodup_append.mp hnd).1).step (List.nodup_append.mp hnd).2.1

/-- In a run all of whose iterations are kept, the agent knows of every live order after each of
them, and none is live after one that pulls the quotes. If the edge never hands out an id twice,
it loses track in every other run. -/
theorem run_tracks (ops : List (Op F)) :
    ((∀ pre op, pre++[op] <+: ops → op.Kept config (runAgent marketId config kill pre)) →
      (∀ pre, pre <+: ops → (runAgent marketId config kill pre).Tracks) ∧
      ∀ pre t, pre++[.tick t] <+: ops → (runAgent marketId config kill pre).Pulls t →
        t.Cancels (runAgent marketId config kill pre).state →
          live (runAgent marketId config kill (pre++[.tick t])).calls = []) ∧
    ((ops.flatMap Op.ids).Nodup →
      (∀ pre, pre <+: ops → (runAgent marketId config kill pre).Tracks) →
        ∀ pre op, pre++[op] <+: ops → op.Kept config (runAgent marketId config kill pre)) := by
  refine ⟨fun hkept => ⟨?_, ?_⟩, ?_⟩
  · intro pre hpre
    exact (runAgent_exact marketId config kill fun p op hp =>
      hkept p op (hp.trans hpre)).tracks
  · intro pre t hpre hpulls hcancels
    have hexact := runAgent_exact marketId config kill fun p op hp =>
      hkept p op (hp.trans ((List.prefix_append pre [.tick t]).trans hpre))
    rw [runAgent_append]
    exact hexact.pulled hpulls hcancels
  · intro hnd htracks
    refine (forall_prefix_iff (P := fun pre => (runAgent marketId config kill pre).Exact)
      (R := fun pre op => op.Kept config (runAgent marketId config kill pre)) ?_
      (fun pre hexact => hexact.tracks) ?_).mp htracks
    · exact fun id => by simp [runAgent, live, Agent.Knows, MarketState.new]
    · intro pre op hpre hexact
      obtain ⟨post, rfl⟩ := hpre
      rw [List.flatMap_append, List.flatMap_append, List.flatMap_singleton] at hnd
      obtain ⟨hpast, -, hdisj⟩ := List.nodup_append.mp (List.nodup_append.mp hnd).1
      have hissued := runAgent_issued marketId config kill hpast
      have hiff : (runAgent marketId config kill (pre++[op])).Tracks ↔
          op.Kept config (runAgent marketId config kill pre) := by
        rw [runAgent_append]
        refine ⟨fun h => ?_, fun h => (hexact.step h).tracks⟩
        exact hexact.kept_of_tracks hissued (fun id hid hold => hdisj id hold id hid rfl) h
      refine ⟨hiff, fun h => ?_⟩
      rw [runAgent_append]
      exact hexact.step (hiff.mp h)

end Main

/-- Fractions in place of `f64`. -/
structure Fraction where
  val : ℚ

/-- Eight decimals, half up. -/
def Fraction.fixed8 (x : Fraction) : String :=
  let n : ℤ := (x.val*10^8+1/2).floor
  let digits := toString (n%10^8).natAbs
  toString (n/10^8)++"."++String.ofList (List.replicate (8-digits.length) '0')++digits

/-- The logarithm and the root are used only once there are two samples. -/
instance : F64 Fraction where
  add x y := ⟨x.val+y.val⟩
  sub x y := ⟨x.val-y.val⟩
  mul x y := ⟨x.val*y.val⟩
  div x y := ⟨x.val/y.val⟩
  neg x := ⟨-x.val⟩
  ofNat n := ⟨n⟩
  abs x := ⟨|x.val|⟩
  max x y := ⟨Max.max x.val y.val⟩
  clamp x lo hi := ⟨Min.min (Max.max x.val lo.val) hi.val⟩
  powi x n := ⟨x.val^n⟩
  ln x := ⟨x.val-1⟩
  sqrt x := x
  lt x y := x.val < y.val
  le x y := x.val ≤ y.val
  fixed8 := Fraction.fixed8

/-- The defaults of the agent. -/
def defaultConfig : QuoteAgentConfig Fraction where
  account := "0x0000000000000000000000000000000000000000"
  strategy := ⟨10, 20, ⟨100⟩, 1000, 5⟩
  volWindow := 900000000000
  quoteSize := "0.05"
  repriceThresholdBps := 1
  orderSignature := "0x"++String.join (List.replicate 65 "00")

/-- The edge takes both quotes; then the loss trips the switch, and both are cancelled. -/
def bothQuoted : List (Op Fraction) :=
  [.tick ⟨0, some ⟨100⟩, some ⟨⟨0⟩, ⟨0⟩⟩, true, true, some "ord_1", some "ord_2", 0, 1⟩,
    .tick ⟨500000000, some ⟨100⟩, some ⟨⟨-600⟩, ⟨0⟩⟩, true, true, none, none, 0, 1⟩]

theorem run_tracks_bothQuoted :
    (∀ pre, pre <+: bothQuoted →
      (runAgent "btc-usd" defaultConfig ⟨⟨500⟩, false⟩ pre).Tracks) ∧
    live (runAgent "btc-usd" defaultConfig ⟨⟨500⟩, false⟩ (bothQuoted.take 1)).calls =
      ["ord_1", "ord_2"] ∧
    live (runAgent "btc-usd" defaultConfig ⟨⟨500⟩, false⟩ bothQuoted).calls = [] := by
  have hkept : ∀ pre op, pre++[op] <+: bothQuoted →
      op.Kept defaultConfig (runAgent "btc-usd" defaultConfig ⟨⟨500⟩, false⟩ pre) := by
    refine forall_request_cons ?_ (forall_request_cons ?_ forall_request_nil)
    · exact ⟨fun _ => ⟨fun _ => rfl, fun _ => rfl⟩, fun _ _ => rfl⟩
    · exact ⟨fun _ => ⟨fun _ => rfl, fun _ => rfl⟩, fun _ hbid => absurd hbid (by decide)⟩
  obtain ⟨htracks, hpulled⟩ := (run_tracks "btc-usd" defaultConfig ⟨⟨500⟩, false⟩ bothQuoted).1 hkept
  refine ⟨htracks, by decide +kernel, ?_⟩
  exact hpulled (bothQuoted.take 1) _ (List.prefix_refl _) ⟨_, _, rfl, rfl, by decide +kernel⟩
    ⟨fun _ => rfl, fun _ => rfl⟩

/-- The edge takes the bid and refuses the ask; then the loss trips the switch. -/
def bidOnly : List (Op Fraction) :=
  [.tick ⟨0, some ⟨100⟩, some ⟨⟨0⟩, ⟨0⟩⟩, true, true, some "ord_1", none, 0, 1⟩,
    .tick ⟨500000000, some ⟨100⟩, some ⟨⟨-600⟩, ⟨0⟩⟩, true, true, none, none, 0, 1⟩]

/-- The bid is live, the agent does not know of it, and tripping the switch leaves it there. -/
theorem bid_forgotten :
    let a := runAgent "btc-usd" defaultConfig ⟨⟨500⟩, false⟩ (bidOnly.take 1)
    let b := runAgent "btc-usd" defaultConfig ⟨⟨500⟩, false⟩ bidOnly
    live a.calls = ["ord_1"] ∧ a.state.bidOrderId = none ∧ a.state.askOrderId = none ∧
      ¬ a.Tracks ∧ b.kill.tripped = true ∧ live b.calls = ["ord_1"] := by
  intro a b
  have hlive : live a.calls = ["ord_1"] := by decide +kernel
  refine ⟨hlive, rfl, rfl, ?_, by decide +kernel, by decide +kernel⟩
  intro htracks
  rcases htracks "ord_1" (by rw [hlive]; exact List.mem_cons_self) with he | he
  · simp [show a.state.bidOrderId = none from rfl] at he
  · simp [show a.state.askOrderId = none from rfl] at he

end Perplex.Cli
