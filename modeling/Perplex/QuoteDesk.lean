import Perplex.EdgeAudit
import Perplex.EdgeOpenInterest
import Perplex.EdgeProbe
import Perplex.LiquidationThreshold
import Perplex.QuoteAgent

/-! The quote agent at work on the edge (`quote.rs`, `risk.rs` and `edge.rs` of the cli against
the order and position handlers). What it learns of its account comes from `GET /v1/positions`,
and what it asks for goes through `place_order` and `cancel_order`, while others use the edge at
any time. A call may be lost before or after the edge has served it. The edge is read in exact
arithmetic. -/
namespace Perplex.Cli

open Edge

/-- How the two programs read each other: `Decimal::from_str` of the texts of an order, the text
of an order id, and `f64::from_str` of a decimal. -/
structure Wire (F : Type) where
  parse : String → Option ℚ
  orderId : ℕ → String
  float : ℚ → F

namespace Wire
variable {F : Type} [F64 F] (w : Wire F)

/-- `fetch` of `EdgeRiskSource`: the record of the market, or `MarketRisk::default`. -/
def fetch (s : AppState) (user : Address) (marketId : String) : MarketRisk F :=
  match (s.accountSummary user).positions.find? (fun p => p.marketId = marketId) with
  | none => ⟨F64.ofNat 0, F64.ofNat 0⟩
  | some p =>
    { realisedPnlUsdc := w.float p.realisedPnlUsdc
      inventory := match p.side with
        | .long => F64.abs (w.float p.size)
        | .short => -F64.abs (w.float p.size) }

/-- The order as the edge reads it. -/
def order (r : PlaceOrderRequest) : Edge.PlaceOrderRequest where
  marketId := r.marketId
  side := r.side
  orderType := r.orderType
  price := r.price.map w.parse
  qty := w.parse r.qty
  timeInForce := r.timeInForce
  reduceOnly := r.reduceOnly
  postOnly := r.postOnly
  clientOrderId := r.clientOrderId
  signature := r.signature

/-- `cancel_order` looks the id up by its text. -/
def cancel (s : AppState) (env : Env) (user : Address) (id : String) : AppState :=
  match (s.openOrders user).find? (fun o => w.orderId o.id = id) with
  | none => s
  | some o => s.cancelOrder env user o.id

/-- The calls of an iteration come to the edge one after another, and what else is allowed
happens in between. An answer that is lost looks like a failure. -/
inductive Serves (allowed : Action → Prop) (user : Address) :
    AppState → List EdgeCall → AppState → Prop where
  | done (s : AppState) : Serves allowed user s [] s
  | other {s s' : AppState} {calls : List EdgeCall} (action : Action) (hallowed : allowed action)
      (hnext : Serves allowed user (act s action) calls s') : Serves allowed user s calls s'
  | placed {s s₁ s' : AppState} {calls : List EdgeCall} (env : Env) (r : PlaceOrderRequest)
      (resp : PlaceOrderResponse) (id : Option String)
      (hplaced : s.placeOrder env user (w.order r) = .ok (resp,s₁))
      (hid : id = none ∨ id = some (w.orderId resp.orderId))
      (hnext : Serves allowed user s₁ calls s') :
    Serves allowed user s (.placeOrder r id :: calls) s'
  | unplaced {s s' : AppState} {calls : List EdgeCall} (r : PlaceOrderRequest)
      (hnext : Serves allowed user s calls s') :
    Serves allowed user s (.placeOrder r none :: calls) s'
  | cancelled {s s' : AppState} {calls : List EdgeCall} (env : Env) (id : String) (ok : Bool)
      (hnext : Serves allowed user (w.cancel s env user id) calls s') :
    Serves allowed user s (.cancelOrder id ok :: calls) s'
  | uncancelled {s s' : AppState} {calls : List EdgeCall} (id : String)
      (hnext : Serves allowed user s calls s') :
    Serves allowed user s (.cancelOrder id false :: calls) s'

end Wire

/-- The edge and the agent of one market. -/
structure Desk (F : Type) where
  edge : AppState
  agent : Agent F

namespace Desk
section Steps
variable {F : Type} [F64 F] (w : Wire F) (allowed : Action → Prop) (user : Address)
  (marketId : String) (config : QuoteAgentConfig F)

/-- Others act, the agent iterates on what the edge tells it, or the operator resets it. -/
inductive Step : Desk F → Desk F → Prop where
  | other (d : Desk F) (action : Action) (hallowed : allowed action) :
    Step d ⟨act d.edge action, d.agent⟩
  | tick (d : Desk F) (t : Tick F) (s' : AppState)
      (hrisk : t.risk = none ∨ t.risk = some (w.fetch d.edge user marketId))
      (hserves : w.Serves allowed user d.edge
        (runQuoteIteration marketId config t d.agent.kill d.agent.state).calls s') :
    Step d ⟨s', d.agent.step marketId config (.tick t)⟩
  | reset (d : Desk F) : Step d ⟨d.edge, d.agent.step marketId config .reset⟩

/-- Any number of steps. -/
def Reaches : Desk F → Desk F → Prop :=
  Relation.ReflTransGen (Step w allowed user marketId config)

/-- The agent starts on an edge that nobody has used. -/
def start (kill : KillSwitch F) : Desk F :=
  ⟨AppState.new, MarketState.new config.volWindow, kill, []⟩

end Steps
end Desk

/-- What the fills of a history amount to in a market. -/
def netFilled (marketId : String) (fills : List FillInfo) : ℚ :=
  (fills.map fun f => if f.marketId = marketId then f.side.sign*f.qty else 0).sum

theorem netSize_replayFills (marketId : String) (fills : List FillInfo) :
    netSize marketId (replayFills fills) = netFilled marketId fills := by
  induction fills using List.reverseRecOn with
  | nil => rfl
  | append_singleton fills f ih =>
    rw [replayFills_concat, netSize_applyPositionFill, ih]
    simp [netFilled]

theorem netSize_undated (marketId : String) (l : List PositionInfo) :
    netSize marketId (l.map PositionInfo.undated) = netSize marketId l := by
  unfold netSize
  rw [List.map_map]
  rfl

theorem applyPositionFill_realised (now : ℕ) (marketId : String) (side : Side) (qty price : ℚ)
    {l : List PositionInfo} (h : ∀ p ∈ l, p.realisedPnlUsdc = 0) :
    ∀ p ∈ applyPositionFill now marketId side qty price l, p.realisedPnlUsdc = 0 := by
  induction l with
  | nil => simp [applyPositionFill]
  | cons x rest ih =>
    obtain ⟨hx, hrest⟩ := List.forall_mem_cons.mp h
    unfold applyPositionFill
    dsimp only
    split_ifs
    · exact List.forall_mem_cons.mpr ⟨hx,ih hrest⟩
    · exact List.forall_mem_cons.mpr ⟨hx,hrest⟩
    · exact List.forall_mem_cons.mpr ⟨hx,hrest⟩
    · exact List.forall_mem_cons.mpr ⟨hx,hrest⟩
    · exact hrest
    · exact List.forall_mem_cons.mpr ⟨hx,hrest⟩

/-- No fill is booked as realised, whether it reduces a position, closes it or flips it. -/
theorem replayFills_realised (fills : List FillInfo) :
    ∀ p ∈ replayFills fills, p.realisedPnlUsdc = 0 := by
  induction fills using List.reverseRecOn with
  | nil => exact List.forall_mem_nil _
  | append_singleton fills f ih =>
    rw [replayFills_concat]
    exact applyPositionFill_realised _ _ _ _ _ ih

section Reconciled
variable {s : AppState}

theorem reconciled_realised (h : s.Reconciled) {a : Address} :
    ∀ p ∈ s.positions a, p.realisedPnlUsdc = 0 := by
  intro p hp
  have hmem : p.undated ∈ replayFills (s.fills a) := by
    rw [← h.positions]
    exact List.mem_map.mpr ⟨p,hp,rfl⟩
  exact replayFills_realised _ p.undated hmem

theorem reconciled_netSize (h : s.Reconciled) (marketId : String) (a : Address) :
    netSize marketId (s.positions a) = netFilled marketId (s.fills a) := by
  rw [← netSize_undated, h.positions, netSize_replayFills]

end Reconciled

namespace Wire
variable {F : Type} [F64 F] (w : Wire F) {s : AppState}

/-- What a signed size reads as. -/
def inventory (x : ℚ) : F :=
  if 0 < x then F64.abs (w.float x) else if x < 0 then -F64.abs (w.float (-x)) else F64.ofNat 0

/-- The record that the agent finds is the one that the edge has stored, priced. -/
theorem fetch_eq (s : AppState) (user : Address) (marketId : String) :
    w.fetch s user marketId =
      match (s.positions user).find? (fun p => p.marketId = marketId) with
      | none => ⟨F64.ofNat 0, F64.ofNat 0⟩
      | some p =>
        { realisedPnlUsdc := w.float p.realisedPnlUsdc
          inventory := match p.side with
            | .long => F64.abs (w.float p.size)
            | .short => -F64.abs (w.float p.size) } := by
  let priced (p : PositionInfo) : PositionInfo :=
    (s.pricePosition (s.collateralOf user) ⟨0, 0, 0⟩ p).2
  have hpriced (p : PositionInfo) : (priced p).marketId = p.marketId ∧
      (priced p).realisedPnlUsdc = p.realisedPnlUsdc ∧ (priced p).side = p.side ∧
        (priced p).size = p.size := by
    dsimp only [priced]
    unfold AppState.pricePosition
    split_ifs <;> exact ⟨rfl,rfl,rfl,rfl⟩
  have hfind : (s.accountSummary user).positions.find? (fun p => p.marketId = marketId) =
      ((s.positions user).find? fun p => p.marketId = marketId).map priced := by
    rw [AppState.accountSummary_positions, List.find?_map]
    have hsame : ((fun p : PositionInfo => decide (p.marketId = marketId)) ∘ fun p =>
        (s.pricePosition (s.collateralOf user) ⟨0, 0, 0⟩ p).2) =
          fun p => decide (p.marketId = marketId) := by
      funext p
      exact congrArg (fun m => decide (m = marketId)) (hpriced p).1
    rw [hsame]
  unfold fetch
  rw [hfind]
  cases hf : (s.positions user).find? (fun p => p.marketId = marketId) with
  | none => rfl
  | some p =>
    obtain ⟨-, hpnl, hside, hsize⟩ := hpriced p
    rw [Option.map_some]
    dsimp only
    rw [hpnl, hside, hsize]

theorem fetch_realised (h : s.Reconciled) (hzero : w.float 0 = F64.ofNat 0) (user : Address)
    (marketId : String) : (w.fetch s user marketId).realisedPnlUsdc = F64.ofNat 0 := by
  rw [fetch_eq]
  cases hf : (s.positions user).find? (fun p => p.marketId = marketId) with
  | none => rfl
  | some p =>
    have hpnl := reconciled_realised h p (List.mem_of_find?_eq_some hf)
    dsimp only
    rw [hpnl, Int.cast_zero, hzero]

theorem fetch_inventory (h : s.Reconciled) (hsizes : s.SizesPos) (user : Address)
    (marketId : String) : (w.fetch s user marketId).inventory =
      w.inventory (netFilled marketId (s.fills user)) := by
  rw [fetch_eq, ← reconciled_netSize h]
  cases hf : (s.positions user).find? (fun p => p.marketId = marketId) with
  | none =>
    have hnone : netSize marketId (s.positions user) = 0 := by
      apply List.sum_eq_zero
      intro x hx
      obtain ⟨p, hp, rfl⟩ := List.mem_map.mp hx
      have hne := List.find?_eq_none.mp hf p hp
      rw [if_neg (by simpa using hne)]
    rw [hnone]
    simp [inventory]
  | some p =>
    have hp := List.mem_of_find?_eq_some hf
    obtain rfl : p.marketId = marketId := by simpa using List.find?_some hf
    have hpos := hsizes user p hp
    rw [netSize_of_mem (h.single user) hp]
    unfold inventory
    dsimp only
    cases hside : p.side with
    | long =>
      simp only [PositionSide.sign, one_mul, if_pos hpos]
    | short =>
      have hneg : ¬ 0 < -p.size := by linarith
      have hneg' : -p.size < 0 := by linarith
      simp only [PositionSide.sign, neg_one_mul, neg_neg, if_neg hneg, if_pos hneg']

end Wire

section Serving
variable {F : Type} {w : Wire F} {allowed : Action → Prop} {user : Address}
  {marketId : String} {config : QuoteAgentConfig F} {s s' : AppState}

/-- What every action keeps, the calls of an iteration keep. -/
theorem Wire.Serves.keeps {P : AppState → Prop} (hact : ∀ s action, allowed action → P s →
    P (act s action)) {calls : List EdgeCall}
    (hplace : ∀ s env r id resp s', .placeOrder r id ∈ calls →
      s.placeOrder env user (w.order r) = .ok (resp,s') → P s → P s')
    (hcancel : ∀ s env id, P s → P (w.cancel s env user id))
    (hserves : w.Serves allowed user s calls s') (h : P s) : P s' := by
  induction hserves with
  | done s => exact h
  | other action hallowed hnext ih => exact ih hplace (hact _ action hallowed h)
  | placed env r resp id hplaced hid hnext ih =>
    apply ih
    · exact fun s env r id resp s' hmem => hplace s env r id resp s' (List.mem_cons_of_mem _ hmem)
    · exact hplace _ env r id resp _ List.mem_cons_self hplaced h
  | unplaced r hnext ih =>
    apply ih
    · exact fun s env r id resp s' hmem => hplace s env r id resp s' (List.mem_cons_of_mem _ hmem)
    · exact h
  | cancelled env id ok hnext ih =>
    apply ih
    · exact fun s env r id resp s' hmem => hplace s env r id resp s' (List.mem_cons_of_mem _ hmem)
    · exact hcancel _ env id h
  | uncancelled id hnext ih =>
    apply ih
    · exact fun s env r id resp s' hmem => hplace s env r id resp s' (List.mem_cons_of_mem _ hmem)
    · exact h

/-- An order of the agent is a request like any other. -/
theorem act_of_placeOrder {env : Env} {r : Edge.PlaceOrderRequest} {resp : PlaceOrderResponse}
    (h : s.placeOrder env user r = .ok (resp,s')) :
    act s (.request (.placeOrder env user r)) = s' := by
  change attempt exec s (.placeOrder env user r) = s'
  obtain ⟨t, haccepts, he⟩ := AppState.placeOrder_eq_ok.mp h
  have hok : exec s (.placeOrder env user r) = .ok s' :=
    AppState.exec_placeOrder_eq_ok.mpr ⟨t,haccepts,congrArg Prod.snd he⟩
  unfold attempt
  rw [hok]

theorem Wire.cancel_cases (w : Wire F) (s : AppState) (env : Env) (user : Address) (id : String) :
    w.cancel s env user id = s ∨
      ∃ orderId, w.cancel s env user id = act s (.request (.cancelOrder env user orderId)) := by
  unfold Wire.cancel
  split
  · exact .inl rfl
  · next o ho => exact .inr ⟨o.id,rfl⟩

end Serving

section Switch
variable {F : Type} [F64 F] {marketId : String} {config : QuoteAgentConfig F}

/-- An iteration either leaves the switch alone or shows it the figure that it has read. -/
theorem runQuoteIteration_kill (t : Tick F) (kill : KillSwitch F) (state : MarketState F) :
    (runQuoteIteration marketId config t kill state).kill = kill ∨
      ∃ risk, t.risk = some risk ∧ (runQuoteIteration marketId config t kill state).kill =
        (kill.observe risk.realisedPnlUsdc).2 := by
  unfold runQuoteIteration
  cases hmid : t.mid with
  | none => exact .inl rfl
  | some mid =>
    cases hrisk : t.risk with
    | none => exact .inl rfl
    | some risk =>
      refine .inr ⟨risk,rfl,?_⟩
      dsimp only
      split_ifs
      · rfl
      · rfl
      · split <;> rfl

/-- The orders of an iteration are post-only, for the configured quantity. -/
theorem mem_runQuoteIteration_calls {t : Tick F} {kill : KillSwitch F} {state : MarketState F}
    {r : PlaceOrderRequest} {id : Option String}
    (h : .placeOrder r id ∈ (runQuoteIteration marketId config t kill state).calls) :
    r.postOnly = true ∧ r.qty = config.quoteSize := by
  have hcancels (state : MarketState F) : ¬ EdgeCall.placeOrder r id ∈ state.cancels t := by
    unfold MarketState.cancels
    cases state.bidOrderId <;> cases state.askOrderId <;> simp
  have hbuilt {side : String} {price : F} {nonce : ℕ} {answer : Option String}
      (he : EdgeCall.placeOrder r id =
        .placeOrder (buildOrder marketId config side price nonce) answer) :
      r.postOnly = true ∧ r.qty = config.quoteSize := by
    obtain ⟨rfl, -⟩ := EdgeCall.placeOrder.inj he
    exact ⟨rfl,rfl⟩
  unfold runQuoteIteration at h
  cases hmid : t.mid with
  | none => simp [hmid] at h
  | some mid =>
    cases hrisk : t.risk with
    | none => simp [hmid, hrisk] at h
    | some risk =>
      simp only [hmid, hrisk] at h
      split_ifs at h
      · exact absurd h (hcancels _)
      · cases h
      · cases hbid : t.placeBid with
        | none =>
          simp only [hbid, List.mem_append, List.mem_singleton] at h
          rcases h with h | h
          · exact absurd h (hcancels _)
          · exact hbuilt h
        | some bidId =>
          cases hask : t.placeAsk with
          | none =>
            simp only [hbid, hask, List.mem_append, List.mem_cons, List.not_mem_nil,
              or_false] at h
            rcases h with h | h | h
            · exact absurd h (hcancels _)
            · exact hbuilt h
            · exact hbuilt h
          | some askId =>
            simp only [hbid, hask, List.mem_append, List.mem_cons, List.not_mem_nil,
              or_false] at h
            rcases h with h | h | h
            · exact absurd h (hcancels _)
            · exact hbuilt h
            · exact hbuilt h

end Switch

namespace Desk
section Runs
variable {F : Type} [F64 F] {w : Wire F} {allowed : Action → Prop} {user : Address}
  {marketId : String} {config : QuoteAgentConfig F} {kill : KillSwitch F} {d d' : Desk F}

/-- What actions keep, a step keeps, if the orders of the agent keep it. -/
theorem Step.edge_keeps {P : AppState → Prop}
    (hact : ∀ s action, allowed action → P s → P (act s action))
    (hplace : ∀ s env r, r.postOnly = true → r.qty = config.quoteSize → P s →
      P (act s (.request (.placeOrder env user (w.order r)))))
    (hcancel : ∀ s env orderId, P s → P (act s (.request (.cancelOrder env user orderId))))
    (h : Step w allowed user marketId config d d') (hd : P d.edge) : P d'.edge := by
  cases h with
  | other action hallowed => exact hact _ action hallowed hd
  | reset => exact hd
  | tick t s' hrisk hserves =>
    refine hserves.keeps hact ?_ ?_ hd
    · intro s env r id resp s' hmem hplaced hs
      obtain ⟨hpost, hqty⟩ := mem_runQuoteIteration_calls hmem
      rw [← act_of_placeOrder hplaced]
      exact hplace s env r hpost hqty hs
    · intro s env id hs
      rcases w.cancel_cases s env user id with he | ⟨orderId, he⟩
      · rwa [he]
      · rw [he]
        exact hcancel s env orderId hs

theorem Step.reconciled (h : Step w allowed user marketId config d d')
    (hd : d.edge.Reconciled) : d'.edge.Reconciled :=
  h.edge_keeps (fun _ action _ hs => act_reconciled hs action)
    (fun _ _ _ _ _ hs => act_reconciled hs _) (fun _ _ _ hs => act_reconciled hs _) hd

theorem Reaches.reconciled (h : Reaches w allowed user marketId config (start config kill) d) :
    d.edge.Reconciled := by
  induction h with
  | refl => exact new_reconciled
  | tail _ hstep ih => exact hstep.reconciled ih

/-- The switch as it was made. -/
def Untripped (kill : KillSwitch F) (d : Desk F) : Prop :=
  d.agent.kill.thresholdUsdc = kill.thresholdUsdc ∧ d.agent.kill.tripped = false

theorem Step.untripped (hzero : w.float 0 = F64.ofNat 0)
    (hthreshold : F64.lt (F64.ofNat 0) (-kill.thresholdUsdc) = false)
    (h : Step w allowed user marketId config d d') (hrec : d.edge.Reconciled)
    (hd : d.Untripped kill) : d'.Untripped kill := by
  cases h with
  | other action hallowed => exact hd
  | reset => exact ⟨hd.1,rfl⟩
  | tick t s' hrisk hserves =>
    unfold Untripped
    rw [Agent.step]
    dsimp only
    rcases runQuoteIteration_kill t d.agent.kill d.agent.state with hsame | ⟨risk, ht, hseen⟩
    · rw [hsame]
      exact hd
    · rw [hseen]
      have hrisk : risk = w.fetch d.edge user marketId := by
        rcases hrisk with hnone | hsome
        · simp [ht] at hnone
        · exact Option.some.inj (ht.symm.trans hsome)
      -- the figure that it is shown is never below anything
      have hpnl := w.fetch_realised hrec hzero user marketId
      refine ⟨hd.1,?_⟩
      change (d.agent.kill.tripped || F64.lt risk.realisedPnlUsdc (-d.agent.kill.thresholdUsdc)) =
        false
      rw [hd.1, hd.2, hrisk, hpnl, hthreshold]
      exact Bool.or_self false

theorem Reaches.untripped (hzero : w.float 0 = F64.ofNat 0)
    (hthreshold : F64.lt (F64.ofNat 0) (-kill.thresholdUsdc) = false)
    (hfresh : kill.tripped = false)
    (h : Reaches w allowed user marketId config (start config kill) d) : d.Untripped kill := by
  induction h with
  | refl => exact ⟨rfl,hfresh⟩
  | tail hpast hstep ih => exact hstep.untripped hzero hthreshold (Reaches.reconciled hpast) ih

end Runs
end Desk

section Main
variable {F : Type} [F64 F] (w : Wire F) (allowed : Action → Prop) (user : Address)
  (marketId : String) (config : QuoteAgentConfig F) (kill : KillSwitch F)

/-- Whatever happens on the edge and to the account of the agent there, the realised PnL that the
agent is told of is zero: its switch never trips and it never pulls its quotes. -/
theorem kill_switch_blind (hzero : w.float 0 = F64.ofNat 0)
    (hthreshold : F64.lt (F64.ofNat 0) (-kill.thresholdUsdc) = false)
    (hfresh : kill.tripped = false) {d : Desk F}
    (h : Desk.Reaches w allowed user marketId config (Desk.start config kill) d) :
    (w.fetch d.edge user marketId).realisedPnlUsdc = F64.ofNat 0 ∧
      d.agent.kill.tripped = false ∧
      ∀ t : Tick F, t.risk = none ∨ t.risk = some (w.fetch d.edge user marketId) →
        ¬ d.agent.Pulls t := by
  have hpnl := w.fetch_realised h.reconciled hzero user marketId
  obtain ⟨hsame, htripped⟩ := h.untripped hzero hthreshold hfresh
  refine ⟨hpnl,htripped,?_⟩
  rintro t ht ⟨mid, risk, -, hrisk, hpulled⟩
  obtain rfl : risk = w.fetch d.edge user marketId := by
    rcases ht with hnone | hsome
    · simp [hrisk] at hnone
    · exact Option.some.inj (hrisk.symm.trans hsome)
  change (d.agent.kill.tripped || F64.lt _ (-d.agent.kill.thresholdUsdc)) = true at hpulled
  rw [htripped, hpnl, hsame, hthreshold] at hpulled
  cases hpulled

/-- An iteration whose first order is placed and not answered. -/
theorem Desk.step_unanswered {d : Desk F} {t : Tick F} {env : Env} {r : PlaceOrderRequest}
    (hrisk : t.risk = none ∨ t.risk = some (w.fetch d.edge user marketId))
    (hcalls : (runQuoteIteration marketId config t d.agent.kill d.agent.state).calls =
      [.placeOrder r none])
    (hok : (d.edge.placeOrder env user (w.order r)).toOption.isSome = true) :
    Desk.Step w allowed user marketId config d
      ⟨act d.edge (.request (.placeOrder env user (w.order r))),
        d.agent.step marketId config (.tick t)⟩ := by
  refine .tick d t _ hrisk ?_
  rw [hcalls]
  cases hplaced : d.edge.placeOrder env user (w.order r) with
  | error e => simp [hplaced, Except.toOption] at hok
  | ok x =>
    rw [act_of_placeOrder hplaced]
    exact .placed env r x.1 none hplaced (.inl rfl) (.done x.2)

/-- Any number of actions of others. -/
theorem Desk.reaches_actAll {d : Desk F} (actions : List Action)
    (hallowed : ∀ action ∈ actions, allowed action) :
    Desk.Reaches w allowed user marketId config d ⟨actAll d.edge actions, d.agent⟩ := by
  induction actions generalizing d with
  | nil => exact .refl
  | cons action rest ih =>
    obtain ⟨hfirst, hrest⟩ := List.forall_mem_cons.mp hallowed
    exact .head (.other d action hfirst) (ih hrest)

end Main

/-- Account 1 buys a contract at 100000 and sells it to account 2 at 50000. -/
def soldLower : List Cmd := openTrade++
  [.placeOrder (twoAccounts 2) 2 (btcOrder "buy" "limit" (some 50000) 1),
    .placeOrder (twoAccounts 3) 1 (btcOrder "sell" "limit" (some 50000) 1)]

/-- The agent of account 1 would stop at a loss of 500. -/
theorem kill_switch_blind_soldLower :
    let w : Wire Fraction := ⟨fun _ => none, toString, Fraction.mk⟩
    let d : Desk Fraction := ⟨actAll AppState.new (soldLower.map .request),
      (Desk.start defaultConfig ⟨⟨500⟩, false⟩).agent⟩
    (d.edge.fills 1).map (fun f => (f.side,f.price)) =
        [(Side.buy,100000), (Side.sell,50000)] ∧
      d.agent.kill.tripped = false ∧ (w.fetch d.edge 1 "btc-usd").realisedPnlUsdc = ⟨0⟩ := by
  intro w d
  have hreaches : Desk.Reaches w (fun _ => True) 1 "btc-usd" defaultConfig
      (Desk.start defaultConfig ⟨⟨500⟩, false⟩) d :=
    Desk.reaches_actAll w _ 1 "btc-usd" defaultConfig _ fun _ _ => trivial
  obtain ⟨hpnl, htripped, -⟩ := kill_switch_blind w (fun _ => True) 1 "btc-usd" defaultConfig
    ⟨⟨500⟩, false⟩ rfl (by decide +kernel) rfl hreaches
  exact ⟨by decide +kernel,htripped,hpnl⟩

/-- The quantity that is asked for, if any, is positive. -/
def Sized : Action → Prop
  | .request (.placeOrder _ _ req) => ∀ q, req.qty = some q → 0 < q
  | _ => True

/-- What is ordered for the account is post-only. -/
def MakesFor (user : Address) : Action → Prop
  | .request (.placeOrder _ a req) => a = user → req.postOnly = true
  | _ => True

section Makes
variable {s s' : AppState} {env : Env} {user a : Address} {t : Taker}

/-- A positive post-only order that is accepted meets nobody. -/
theorem matched_of_postOnly (hi : s.Indexed) (hpos : ∀ a, ∀ o ∈ s.openOrders a, 0 < o.remaining)
    (hq : 0 < t.qty) (hpost : t.postOnly = true) (hguard : s.postOnlyGuard env user t = .ok ()) :
    (s.matched env user t).1 = [] := by
  apply (AppState.matched_eq_nil_iff hi.nodup hq.ne' env user).mpr
  by_contra hne
  -- the makers hold something, and the probe sees it
  have hprobe := (ensure_eq_ok.mp hguard).1 hpost
  rw [AppState.matchTakerProbe_eq hpos hq.le] at hprobe
  refine hprobe (lt_min hq (List.sum_pos _ ?_ (by simpa using hne)))
  intro x hx
  obtain ⟨o, ho, rfl⟩ := List.mem_map.mp hx
  obtain ⟨b, -, ho⟩ := List.mem_flatMap.mp ho
  exact hpos b o (List.mem_filter.mp ho).1

/-- An account whose orders never took anything. -/
structure Makes (user : Address) (s : AppState) : Prop where
  indexed : s.Indexed
  remaining : ∀ a, ∀ o ∈ s.openOrders a, 0 < o.remaining
  sizes : s.SizesPos
  reconciled : s.Reconciled
  role : ∀ f ∈ s.fills user, f.role ≠ .taker

theorem execute_sizesPos (hi : s.Indexed) (hpos : ∀ a, ∀ o ∈ s.openOrders a, 0 < o.remaining)
    (h : s.SizesPos) (hq : 0 < t.qty) (env : Env) (user : Address) :
    (s.execute env user t).2.SizesPos := by
  have hm := AppState.matched_spec hi hpos hq.le env user
  intro a
  rw [AppState.execute_frame]
  exact AppState.settleAll_sizesPos _ _ _ _ _ _ hm.positive (s := (s.matched env user t).2) h a

theorem execute_roles (h : ∀ f ∈ s.fills user, f.role ≠ .taker)
    (hnone : a = user → (s.matched env a t).1 = []) :
    ∀ f ∈ (s.execute env a t).2.fills user, f.role ≠ .taker := by
  intro f hf
  have he : f.entry ∈ ((s.execute env a t).2.fills user).map FillInfo.entry :=
    List.mem_map.mpr ⟨f,hf,rfl⟩
  rw [AppState.execute_entries] at he
  rcases List.mem_append.mp he with he | he
  · obtain ⟨f₀, hf₀, he⟩ := List.mem_map.mp he
    have hrole : f₀.role = f.role := congrArg Entry.role he
    rw [← hrole]
    exact h f₀ hf₀
  · obtain ⟨m, hm, he⟩ := List.mem_flatMap.mp he
    unfold MatchedFill.entries at he
    by_cases ha : user = a
    · rw [hnone ha.symm] at hm
      cases hm
    · rw [if_neg ha, List.nil_append] at he
      split_ifs at he
      · have hrole : f.entry.role = .maker := congrArg Entry.role (List.mem_singleton.mp he)
        intro htaker
        have hboth : FillRole.taker = FillRole.maker := htaker.symm.trans hrole
        cases hboth
      · cases he

theorem Makes.placed (h : Makes user s) {req : Edge.PlaceOrderRequest}
    (hsized : ∀ q, req.qty = some q → 0 < q) (hpost : a = user → req.postOnly = true)
    (haccepts : s.Accepts env a req t) : Makes user (s.execute env a t).2 := by
  obtain ⟨hreq, hflag⟩ := AppState.validate_request haccepts.valid
  have hq := hsized _ hreq
  refine ⟨AppState.execute_indexed h.indexed env a t,
    AppState.execute_remaining h.indexed h.remaining hq env a,
    execute_sizesPos h.indexed h.remaining h.sizes hq env a,h.reconciled.execute env a t,?_⟩
  apply execute_roles h.role
  intro ha
  exact matched_of_postOnly h.indexed h.remaining hq (hflag.trans (hpost ha)) haccepts.guard

theorem Makes.act {action : Action} (h : Makes user s) (hsized : Sized action)
    (hmakes : MakesFor user action) : Makes user (Edge.act s action) := by
  cases action with
  | request c =>
    change Makes user (attempt exec s c)
    unfold attempt
    split
    · next s' hok =>
      cases c with
      | placeOrder env a req =>
        obtain ⟨t, haccepts, rfl⟩ := AppState.exec_placeOrder_eq_ok.mp hok
        exact h.placed hsized hmakes haccepts
      | cancelOrder env a orderId =>
        refine ⟨exec_indexed h.indexed hok,?_,?_,h.reconciled.exec hok,?_⟩
        · obtain rfl := Except.ok.inj hok
          intro b o ho
          exact h.remaining b o ((s.cancelOrder_sublist env a orderId b).subset ho)
        · obtain rfl := Except.ok.inj hok
          rw [AppState.cancelOrder_frame]
          exact h.sizes
        · obtain rfl := Except.ok.inj hok
          rw [AppState.cancelOrder_frame]
          exact h.role
      | setVaultBalance b amount =>
        have hrec := h.reconciled.exec hok
        have hi := exec_indexed h.indexed hok
        obtain rfl := Except.ok.inj hok
        exact ⟨hi,h.remaining,h.sizes,hrec,h.role⟩
      | setOraclePrice marketId price =>
        have hrec := h.reconciled.exec hok
        have hi := exec_indexed h.indexed hok
        obtain rfl := Except.ok.inj hok
        exact ⟨hi,h.remaining,h.sizes,hrec,h.role⟩
    · exact h
  | liquidate now fillId tradeId b marketId =>
    rcases AppState.act_liquidate_cases s now fillId tradeId b marketId with
      he | ⟨p, hp, mark, -, he⟩
    · rwa [he]
    · rw [he]
      refine ⟨⟨h.indexed.nodup,h.indexed.below⟩,h.remaining,?_,
        h.reconciled.closed now fillId tradeId hp mark,?_⟩
      · intro c q hq
        rw [AppState.closed_positions] at hq
        split_ifs at hq
        · exact h.sizes c q (List.mem_filter.mp hq).1
        · exact h.sizes c q hq
      · intro f hf
        rw [AppState.closed_fills] at hf
        rcases List.mem_append.mp hf with hf | hf
        · exact h.role f hf
        · split_ifs at hf
          · obtain rfl := List.mem_singleton.mp hf
            intro hrole
            cases hrole
          · cases hf

theorem new_makes (user : Address) : Makes user AppState.new := by
  refine ⟨new_indexed,?_,?_,new_reconciled,?_⟩
  · intro a o ho
    simp [AppState.new] at ho
  · intro a p hp
    simp [AppState.new] at hp
  · intro f hf
    simp [AppState.new] at hf

end Makes

section Main
variable {F : Type} [F64 F] (w : Wire F) (allowed : Action → Prop) (user : Address)
  (marketId : String) (config : QuoteAgentConfig F) (kill : KillSwitch F)

/-- While orders are for positive quantities, and the account is used for post-only orders alone,
the agent has taken nothing: all its fills are of quotes that others met or of forced closes. The
inventory that it reads is what these fills amount to. -/
theorem agent_only_makes (hsize : ∀ q, w.parse config.quoteSize = some q → 0 < q)
    (hallowed : ∀ action, allowed action → Sized action ∧ MakesFor user action) {d : Desk F}
    (h : Desk.Reaches w allowed user marketId config (Desk.start config kill) d) :
    (∀ f ∈ d.edge.fills user, f.role ≠ .taker) ∧
      (w.fetch d.edge user marketId).inventory =
        w.inventory (netFilled marketId (d.edge.fills user)) := by
  have hmakes : Makes user d.edge := by
    induction h with
    | refl => exact new_makes user
    | tail _ hstep ih =>
      apply hstep.edge_keeps (P := Makes user) _ _ _ ih
      · intro s action hact hs
        exact hs.act (hallowed action hact).1 (hallowed action hact).2
      · intro s env r hpost hqty hs
        apply hs.act
        · intro q hq
          exact hsize q (hqty ▸ hq)
        · exact fun _ => hpost
      · exact fun s env orderId hs => hs.act trivial trivial
  exact ⟨hmakes.role,w.fetch_inventory hmakes.reconciled hmakes.sizes user marketId⟩

end Main

deriving instance DecidableEq for EdgeCall

/-- The bid of the agent at a mid of 100. -/
def bidAt100 : PlaceOrderRequest :=
  buildOrder "btc-usd" defaultConfig "buy" (Fraction.mk (1999/20)) 0

/-- Decimals of this bid. -/
def parseBid (text : String) : Option ℚ :=
  if text = "0.05" then some (1/20) else if text = "99.95000000" then some (1999/20) else none

/-- The agent of account 2 bids, and the answer is lost; account 1 sells to it. -/
theorem agent_only_makes_bidAt100 :
    let w : Wire Fraction := ⟨parseBid, toString, Fraction.mk⟩
    let allowed := fun action => Sized action ∧ MakesFor 2 action
    ∃ d, Desk.Reaches w allowed 2 "btc-usd" defaultConfig
        (Desk.start defaultConfig ⟨⟨500⟩, false⟩) d ∧
      (d.edge.fills 2).map (fun f => (f.role,f.price,f.qty)) = [(.maker,1999/20,1/20)] ∧
        (w.fetch d.edge 2 "btc-usd").inventory = ⟨1/20⟩ := by
  intro w allowed
  let funded := actAll AppState.new ((openTrade.take 2).map .request)
  let bid : Cmd := .placeOrder (twoAccounts 0) 2 (w.order bidAt100)
  let sell : Cmd := .placeOrder (twoAccounts 1) 1 (btcOrder "sell" "limit" (some 99) (1/20))
  let t : Tick Fraction := ⟨0, some ⟨100⟩, some (w.fetch funded 2 "btc-usd"), true, true, none,
    none, 0, 1⟩
  let start := Desk.start defaultConfig ⟨⟨500⟩, false⟩
  let agent := start.agent.step "btc-usd" defaultConfig (.tick t)
  have hfunded : Desk.Reaches w allowed 2 "btc-usd" defaultConfig start ⟨funded, start.agent⟩ := by
    apply Desk.reaches_actAll
    intro action haction
    simp only [openTrade, List.take_succ_cons, List.take_zero, List.map_cons, List.map_nil,
      List.mem_cons, List.not_mem_nil, or_false] at haction
    rcases haction with rfl | rfl <;> exact ⟨trivial,trivial⟩
  have hcalls : (runQuoteIteration "btc-usd" defaultConfig t start.agent.kill
      start.agent.state).calls = [.placeOrder bidAt100 none] := by
    decide +kernel
  have hbid : Desk.Step w allowed 2 "btc-usd" defaultConfig ⟨funded, start.agent⟩
      ⟨act funded (.request bid), agent⟩ := by
    have hok : (funded.placeOrder (twoAccounts 0) 2 (w.order bidAt100)).toOption.isSome = true := by
      decide +kernel
    exact Desk.step_unanswered w allowed 2 "btc-usd" defaultConfig (d := ⟨funded, start.agent⟩)
      (.inr rfl) hcalls hok
  have hsell (edge : AppState) : Desk.Step w allowed 2 "btc-usd" defaultConfig ⟨edge, agent⟩
      ⟨act edge (.request sell), agent⟩ := by
    apply Desk.Step.other ⟨edge, agent⟩ (.request sell)
    constructor
    · intro q hq
      obtain rfl := Option.some.inj hq
      norm_num
    · intro ha
      exact absurd ha (by decide)
  have hreaches := (hfunded.tail hbid).tail (hsell _)
  have hsize : ∀ q, w.parse defaultConfig.quoteSize = some q → 0 < q := by
    intro q hq
    obtain rfl := Option.some.inj hq
    norm_num
  obtain ⟨-, hinventory⟩ := agent_only_makes w allowed 2 "btc-usd" defaultConfig ⟨⟨500⟩, false⟩ hsize
    (fun _ h => h) hreaches
  refine ⟨_,hreaches,by decide +kernel,?_⟩
  rw [hinventory]
  have hnet : netFilled "btc-usd" ((act (act funded (.request bid)) (.request sell)).fills 2) =
      1/20 := by
    decide +kernel
  rw [hnet]
  have hpos : (0:ℚ) < 1/20 := by norm_num
  change (if (0:ℚ) < 1/20 then _ else _) = _
  rw [if_pos hpos]
  exact congrArg Fraction.mk (abs_of_pos hpos)

end Perplex.Cli
