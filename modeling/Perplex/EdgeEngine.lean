import Perplex.BookPlain
import Perplex.EdgeAudit
import Perplex.EdgePositivity
import Perplex.EdgePriority
import Perplex.EdgeProbe

/-! The matcher of the edge beside the order books of the matching engine. `place_order` matches
in the maps of `AppState`, where `perplex-matching` keeps sorted levels with a queue in each. Both
are read in exact arithmetic. -/
namespace Perplex.Edge

def Side.book : Side → Book.Side
  | .buy => .buy
  | .sell => .sell

def OrderType.book : OrderType → Book.OrderType
  | .limit => .limit
  | .market => .market

@[simp]
theorem book_opposite (side : Side) : side.opposite.book = side.book.opposite := by
  cases side <;> rfl

@[simp]
theorem opposite_opposite (side : Side) : side.opposite.opposite = side := by
  cases side <;> rfl

/-- The resting orders that a taker may meet in a market, the first to be filled in front. -/
structure AppState.Queue (s : AppState) (marketId : String) (takerSide : Side)
    (l : List Candidate) : Prop where
  ranked : l.Pairwise fun a b => a.rank takerSide < b.rank takerSide
  mem : ∀ c, c ∈ l ↔ ∃ o ∈ s.openOrders c.address,
    o.marketId = marketId ∧ o.side = takerSide.opposite ∧ c = o.candidate c.address

/-- The candidate with what the fills leave of it. -/
def Candidate.after (fs : List MatchedFill) (c : Candidate) : Candidate :=
  { c with rem := c.rem-filledOf c.address c.id fs }

/-- Every open order is a limit order. -/
def AppState.Limits (s : AppState) : Prop := ∀ a, ∀ o ∈ s.openOrders a, o.orderType = .limit

namespace AppState
variable {s : AppState} {env : Env} {marketId : String} {takerSide : Side}
  {takerPrice : Option ℚ} {takerQty : ℚ} {taker : Address} {l : List Candidate}

section Meets
variable (hids : ∀ a, ((s.openOrders a).map OpenOrder.id).Nodup)
  (hposPrice : ∀ a, ∀ o ∈ s.openOrders a, 0 < o.price)
  (hpos : ∀ a, ∀ o ∈ s.openOrders a, 0 < o.remaining)
include hids hposPrice hpos

/-- What the taker is filled with is the queue as far as he crosses it, if nothing of it is his
own. -/
theorem Queue.candidates_eq (h : s.Queue marketId takerSide l) (hlimits : s.Limits)
    (henv : env.Iterates s)
    (hown : ∀ o ∈ s.openOrders taker, o.isMaker marketId takerSide takerPrice = false) :
    s.candidates env marketId takerSide takerPrice taker =
      l.filter fun c => crosses takerSide takerPrice c.price := by
  apply eq_of_ranked (h.ranked.sublist List.filter_sublist) candidates_sorted
  · refine List.Pairwise.imp ?_ (candidates_distinct hids)
    intro a b hne he
    exact hne (he ▸ ⟨rfl,rfl⟩)
  · intro c
    rw [mem_candidates_iff hposPrice hpos henv, List.mem_filter, h.mem]
    constructor
    · rintro ⟨o, ho, he⟩
      refine ⟨⟨o,ho.open_,ho.market,ho.side,he⟩,?_⟩
      rw [he]
      exact ho.crosses
    · rintro ⟨⟨o, ho, hm, hs, he⟩, hc⟩
      have hcrosses : crosses takerSide takerPrice o.price = true := by
        rw [he] at hc
        exact hc
      refine ⟨o,⟨ho,?_,hm,hs,hlimits c.address o ho,hcrosses⟩,he⟩
      -- an order of his own would be a maker for him
      rintro rfl
      have hmaker : o.isMaker marketId takerSide takerPrice = true := by
        simp [OpenOrder.isMaker, hm, hs, hlimits _ o ho, (hposPrice _ o ho).ne',
          (hpos _ o ho).ne', hcrosses]
      rw [hown o ho] at hmaker
      cases hmaker

/-- Matching takes its fills from the queues of the market and nothing else. -/
theorem Queue.matchTaker (hq : 0 ≤ takerQty) {mk : String} {side : Side}
    (h : s.Queue mk side l) :
    (s.matchTaker env marketId takerSide takerPrice takerQty taker).2.Queue mk side
      ((l.map (Candidate.after
        (s.matchTaker env marketId takerSide takerPrice takerQty taker).1)).filter
          fun c => c.rem ≠ 0) := by
  constructor
  · refine List.Pairwise.sublist List.filter_sublist (List.pairwise_map.mpr ?_)
    exact h.ranked
  · intro c
    rw [matchTaker_orders hids hposPrice hpos hq]
    constructor
    · intro hc
      obtain ⟨hc, hrem⟩ := List.mem_filter.mp hc
      obtain ⟨c₀, hc₀, rfl⟩ := List.mem_map.mp hc
      obtain ⟨o, ho, hm, hs, he⟩ := (h.mem c₀).mp hc₀
      refine ⟨_,List.mem_filter.mpr ⟨List.mem_map.mpr ⟨o,ho,rfl⟩,?_⟩,hm,hs,?_⟩
      · rw [he] at hrem
        exact hrem
      · rw [he]
        rfl
    · rintro ⟨o', ho', hm, hs, he⟩
      obtain ⟨ho', hrem⟩ := List.mem_filter.mp ho'
      obtain ⟨o, ho, rfl⟩ := List.mem_map.mp ho'
      refine List.mem_filter.mpr ⟨List.mem_map.mpr ⟨o.candidate c.address,?_,he.symm⟩,?_⟩
      · exact (h.mem _).mpr ⟨o,ho,hm,hs,rfl⟩
      · rw [he]
        exact hrem

/-- Orders of another side or market are not filled. -/
theorem Queue.unfilled (hq : 0 ≤ takerQty) {mk : String} {side : Side} (h : s.Queue mk side l)
    (hother : ¬ (mk = marketId ∧ side = takerSide)) :
    (l.map (Candidate.after
      (s.matchTaker env marketId takerSide takerPrice takerQty taker).1)).filter
        (fun c => c.rem ≠ 0) = l := by
  have hkeep : l.map (Candidate.after
      (s.matchTaker env marketId takerSide takerPrice takerQty taker).1) = l := by
    rw [List.map_congr_left, List.map_id]
    intro c hc
    obtain ⟨o, ho, hm, hs, he⟩ := (h.mem c).mp hc
    have hnone : filledOf c.address c.id
        (s.matchTaker env marketId takerSide takerPrice takerQty taker).1 = 0 := by
      apply filledOf_of_absent
      intro hmem
      obtain ⟨m, hfill, hkey⟩ := List.mem_map.mp hmem
      obtain ⟨o', ⟨ho', hid⟩, helig, -⟩ := matchTaker_eligible hids hpos hq hposPrice m hfill
      obtain ⟨haddress, hid'⟩ := Prod.mk.inj hkey
      rw [haddress] at ho'
      have hsame : o'.id = o.id := by
        rw [hid, hid', he]
        rfl
      obtain rfl := List.inj_on_of_nodup_map (hids c.address) ho' ho hsame
      apply hother
      refine ⟨hm.symm.trans helig.market,?_⟩
      have hsides := hs.symm.trans helig.side
      revert hsides
      cases side <;> cases takerSide <;> decide
    simp [Candidate.after, hnone]
  rw [hkeep, List.filter_eq_self]
  intro c hc
  obtain ⟨o, ho, -, -, he⟩ := (h.mem c).mp hc
  have hrem := (hpos c.address o ho).ne'
  rw [he]
  exact decide_eq_true hrem

end Meets

theorem Queue.congr {s' : AppState} {mk : String} {side : Side} (h : s.Queue mk side l)
    (hall : s'.openOrders = s.openOrders) : s'.Queue mk side l :=
  ⟨h.ranked,fun c => by rw [h.mem, hall]⟩

/-- A later order joins its queue behind the prices that are no worse. -/
theorem Queue.push {s' : AppState} {mk : String} {side : Side} (h : s.Queue mk side l)
    {user : Address} {o : OpenOrder}
    (hall : ∀ a, s'.openOrders a = s.openOrders a++if a = user then [o] else [])
    (hlater : ∀ c ∈ l, c.tsNs < o.tsNs) :
    s'.Queue mk side (if o.marketId = mk ∧ o.side = side.opposite then
      (l.filter fun c => Book.Orderbook.noWorse side.opposite.book c.price o.price)++
        o.candidate user ::
          l.filter fun c => !Book.Orderbook.noWorse side.opposite.book c.price o.price
      else l) := by
  have hmem (c : Candidate) : (∃ o' ∈ s'.openOrders c.address, o'.marketId = mk ∧
      o'.side = side.opposite ∧ c = o'.candidate c.address) ↔
        c ∈ l ∨ (o.marketId = mk ∧ o.side = side.opposite) ∧ c = o.candidate user := by
    rw [h.mem, hall]
    constructor
    · rintro ⟨o', ho', hm, hs, he⟩
      rcases List.mem_append.mp ho' with ho' | ho'
      · exact .inl ⟨o',ho',hm,hs,he⟩
      · split_ifs at ho' with ha
        · obtain rfl : o' = o := by simpa using ho'
          exact .inr ⟨⟨hm,hs⟩,ha ▸ he⟩
        · simp at ho'
    · rintro (⟨o', ho', hm, hs, he⟩ | ⟨⟨hm, hs⟩, he⟩)
      · exact ⟨o',List.mem_append_left _ ho',hm,hs,he⟩
      · have ha : c.address = user := by
          rw [he]
          rfl
        exact ⟨o,List.mem_append_right _ (by simp [ha]),hm,hs,ha ▸ he⟩
  -- the order goes behind all that rank before it
  split_ifs with hjoins
  · constructor
    · apply ranked_insert h.ranked
      · intro c hc hp
        have hts := hlater c hc
        unfold Candidate.rank OpenOrder.candidate
        rw [Prod.Lex.toLex_lt_toLex]
        rcases side with _ | _
        all_goals
          simp only [Book.Orderbook.noWorse, Side.opposite, Side.book, decide_eq_true_eq] at hp
          rcases hp.lt_or_eq with hlt | heq
        · left; simpa [Side.sign] using hlt
        · right; simpa [Side.sign, heq] using hts
        · left; simpa [Side.sign] using hlt
        · right; simpa [Side.sign, heq] using hts
      · intro c hc hp
        unfold Candidate.rank OpenOrder.candidate
        rw [Prod.Lex.toLex_lt_toLex]
        left
        cases side with
        | buy => simpa [Book.Orderbook.noWorse, Side.opposite, Side.book, Side.sign] using hp
        | sell => simpa [Book.Orderbook.noWorse, Side.opposite, Side.book, Side.sign] using hp
    · intro c
      rw [hmem]
      simp only [List.mem_append, List.mem_cons, List.mem_filter]
      cases Book.Orderbook.noWorse side.opposite.book c.price o.price <;> grind
  · constructor
    · exact h.ranked
    · intro c
      rw [hmem]
      simp [hjoins]

/-- What is left of an accepted limit order joins its queue, and the other queues stay. -/
theorem Queue.execute {user : Address} {t : Taker} {mk : String} {side : Side}
    (h : (s.matched env user t).2.Queue mk side l) (hlater : ∀ c ∈ l, c.tsNs < env.now) :
    (s.execute env user t).2.Queue mk side
      (if (s.unfilled env user t ≠ 0 ∧ t.orderType = .limit) ∧ t.marketId = mk ∧
          t.side = side.opposite then
        (l.filter fun c => Book.Orderbook.noWorse side.opposite.book c.price (t.price.getD 0))++
          (s.remainder env user t).candidate user ::
            l.filter fun c => !Book.Orderbook.noWorse side.opposite.book c.price (t.price.getD 0)
      else l) := by
  by_cases hrests : s.unfilled env user t ≠ 0 ∧ t.orderType = .limit
  · simp only [hrests, ne_eq, not_false_eq_true, and_self, true_and]
    apply h.push (o := s.remainder env user t) ?_ hlater
    intro a
    rw [execute_openOrders]
    simp [hrests]
  · rw [if_neg fun hc => hrests hc.1]
    apply h.congr
    funext a
    rw [execute_openOrders, if_neg fun hc => hrests hc.2, List.append_nil]

/-- Only limit orders rest. -/
theorem Limits.execute {user : Address} {t : Taker} (h : s.Limits) (hi : s.Indexed)
    (hp : s.Positive) (hq : 0 ≤ t.qty) : (s.execute env user t).2.Limits := by
  intro a o ho
  rw [execute_openOrders] at ho
  rcases List.mem_append.mp ho with ho | ho
  · unfold matched at ho
    rw [matchTaker_orders (s := s.drawn) hi.nodup (fun a o ho => (hp.orders a o ho).price)
      hp.remaining hq] at ho
    obtain ⟨o₀, ho₀, rfl⟩ := List.mem_map.mp (List.mem_filter.mp ho).1
    exact h a o₀ ho₀
  · split_ifs at ho with hrests
    · obtain rfl := List.mem_singleton.mp ho
      exact hrests.2.2
    · cases ho

/-- Cancelling takes one order out of its queue. -/
theorem Queue.cancelOrder {mk : String} {side : Side} (h : s.Queue mk side l) (env : Env)
    (user : Address) (orderId : ℕ) : (s.cancelOrder env user orderId).Queue mk side
      (l.filter fun c => ¬ (c.address = user ∧ c.id = orderId)) := by
  constructor
  · exact h.ranked.sublist List.filter_sublist
  · intro c
    rw [List.mem_filter, h.mem, cancelOrder_openOrders]
    constructor
    · rintro ⟨⟨o, ho, hm, hs, he⟩, hkeep⟩
      refine ⟨o,?_,hm,hs,he⟩
      split_ifs with ha
      · refine List.mem_filter.mpr ⟨ho,?_⟩
        rw [he] at hkeep
        simpa [OpenOrder.candidate, ha] using hkeep
      · exact ho
    · rintro ⟨o, ho, hm, hs, he⟩
      split_ifs at ho with ha
      · obtain ⟨ho, hid⟩ := List.mem_filter.mp ho
        refine ⟨⟨o,ho,hm,hs,he⟩,?_⟩
        rw [he]
        simpa [OpenOrder.candidate, ha] using hid
      · exact ⟨⟨o,ho,hm,hs,he⟩,by simp [ha]⟩

/-- What validation says about the price. -/
theorem validate_price {req : PlaceOrderRequest} {t : Taker} (hv : s.validate req = .ok t) :
    (t.orderType = .limit → t.price.isSome) ∧ (t.orderType = .market → t.price = none) := by
  unfold validate at hv
  simp only [chain_ok_iff, ensure_eq_ok, and_true, exists_const] at hv
  obtain ⟨-, -, -, -, -, -, -, -, hprice, he⟩ := hv
  obtain rfl := Except.ok.inj he
  by_cases ho : req.orderType = "limit"
  · simpa [ho] using hprice ho
  · simp [ho]

end AppState

/-- A quote of an order book as the edge collects it. -/
def quoted (x : Book.Quote) : Candidate := ⟨x.2.owner, x.2.id, x.1, x.2.remaining, x.2.tsNs⟩

/-- A fill of the engine as the edge's matcher returns it. -/
def matchedFill (now : ℕ) (f : Book.Fill) : MatchedFill :=
  ⟨f.makerUser, f.makerOrderId, f.price, f.qty, now⟩

/-- The order of a validated request as the engine takes it. -/
def engineOrder (s : AppState) (market : MarketId) (env : Env) (user : Address)
    (req : PlaceOrderRequest) (t : Taker) : Book.Order where
  id := s.nextUlid
  owner := user
  market := market
  side := t.side.book
  orderType := t.orderType.book
  price := t.price.getD 0
  qty := t.qty
  remaining := t.qty
  timeInForce := if req.timeInForce = "gtc" then .gtc
    else if req.timeInForce = "ioc" then .ioc else .fok
  postOnly := t.postOnly
  reduceOnly := t.reduceOnly
  tsNs := env.now

/-- The edge and, for every market, an order book of the engine. -/
structure Twin where
  edge : AppState
  books : String → Book.Orderbook

namespace Twin
variable (tracker : Book.PositionTracker)

/-- What reaches the engine of a market: orders past the risk gate, and cancels of own orders. -/
def engineCmd (c : Twin) : Cmd → Option (String × Book.Cmd)
  | .placeOrder env user req =>
    match c.edge.validate req with
    | .error _ => none
    | .ok t =>
      match c.edge.riskGate user t with
      | .error _ => none
      | .ok _ => some (t.marketId,.submit
          (engineOrder c.edge (c.books t.marketId).market env user req t) tracker)
  | .cancelOrder _ user orderId =>
    ((c.edge.openOrders user).find? fun o => o.id = orderId).map fun o =>
      (o.marketId,.cancel orderId)
  | _ => none

def step (c : Twin) (cmd : Cmd) : Twin where
  edge := attempt exec c.edge cmd
  books := match c.engineCmd tracker cmd with
    | none => c.books
    | some (marketId,b) => Function.update c.books marketId (Book.step (c.books marketId) b)

def run (c : Twin) (cmds : List Cmd) : Twin := cmds.foldl (step tracker) c

/-- Nothing is open yet, neither at the edge nor on any book. -/
def start (number : String → MarketId) (mode : Book.SelfTradeMode) : Twin :=
  ⟨.new,fun marketId => Book.start (number marketId) mode⟩

end Twin

/-- The answer of the edge to what the engine reports of an order. -/
def told (now orderId : ℕ) : Except Book.SubmitError Book.SubmitOutcome →
    Except ApiError PlaceOrderResponse
  | .ok out => .ok ⟨orderId, if out.fills ≠ [] ∧ out.remaining = 0 then .filled
      else if out.fills ≠ [] then .partially else .accepted, now⟩
  | .error _ => .error (.badRequest "post_only order would cross resting liquidity")

/-- The fills that the engine reports of an order. -/
def reported : Except Book.SubmitError Book.SubmitOutcome → List Book.Fill
  | .ok out => out.fills
  | .error _ => []

/-- The edge answers and books an order as the engine's report `r` has it. -/
structure AppState.Follows (s : AppState) (env : Env) (user : Address) (req : PlaceOrderRequest)
    (t : Taker) (r : Except Book.SubmitError Book.SubmitOutcome) : Prop where
  answer : (s.placeOrder env user req).map Prod.fst = told env.now s.nextUlid r
  error : ∀ e, r = .error e → e = .postOnlyWouldCross
  tape : ((attempt exec s (.placeOrder env user req)).publicTrades t.marketId).map
      PublicTrade.terms = (s.publicTrades t.marketId).map PublicTrade.terms++
    (reported r).map fun f => (f.price,f.qty,t.side,env.now)
  fills : ∀ a, ((attempt exec s (.placeOrder env user req)).fills a).map FillInfo.entry =
    (s.fills a).map FillInfo.entry++(reported r).flatMap fun f =>
      (matchedFill env.now f).entries s.nextUlid user t a

/-- Every order past the risk gate goes as the engine says. -/
def Twin.Follows (tracker : Book.PositionTracker) (c : Twin) : Cmd → Prop
  | .placeOrder env user req => ∀ t, c.edge.validate req = .ok t →
      c.edge.riskGate user t = .ok () → c.edge.Follows env user req t
        ((c.books t.marketId).submit (engineOrder c.edge (c.books t.marketId).market env user
          req t) tracker).1
  | _ => True

/-- Price, time and quantity alone decide what becomes of the order: it stays until it is filled
or cancelled, opens what it likes, meets no order of its owner, and has a market to go to. -/
structure AppState.Plain (s : AppState) (env : Env) (user : Address) (req : PlaceOrderRequest)
    (t : Taker) : Prop where
  qty : 0 < t.qty
  price : ∀ p, t.price = some p → 0 < p
  gtc : req.timeInForce = "gtc"
  opens : t.reduceOnly = false
  others : ∀ o ∈ s.openOrders user, o.isMaker t.marketId t.side t.price = false
  market : t.orderType = .market → t.postOnly = false ∧
    t.qty ≤ ((s.makers env t.marketId t.side t.price user).map OpenOrder.remaining).sum

/-- The orders that reach the matcher are plain, and later than those on the books. -/
def Cmd.Plain (s : AppState) : Cmd → Prop
  | .placeOrder env user req => env.Iterates s ∧ (∀ a, ∀ o ∈ s.openOrders a, o.tsNs < env.now) ∧
      ∀ t, s.validate req = .ok t → s.riskGate user t = .ok () → s.Plain env user req t
  | _ => True

namespace Twin
variable {tracker : Book.PositionTracker} {c : Twin}

/-- Both hold the same orders with the same priority. -/
structure Agree (c : Twin) : Prop where
  indexed : c.edge.Indexed
  positive : c.edge.Positive
  limits : c.edge.Limits
  sound : ∀ marketId, (c.books marketId).RepInv
  queues : ∀ marketId side, c.edge.Queue marketId side
    (((c.books marketId).quotes side.opposite.book).map quoted)

section Place
variable (h : c.Agree) {env : Env} {user : Address} {req : PlaceOrderRequest} {t : Taker}
  (hv : c.edge.validate req = .ok t) (henv : env.Iterates c.edge)
  (hp : c.edge.Plain env user req t)
include h hv hp

omit h hp in
theorem engineOrder_crosses (market : MarketId) (price : ℚ) :
    (engineOrder c.edge market env user req t).crosses price = crosses t.side t.price price := by
  obtain ⟨hlimit, hmarket⟩ := AppState.validate_price hv
  cases ht : t.orderType with
  | limit =>
    obtain ⟨p, hp⟩ := Option.isSome_iff_exists.mp (hlimit ht)
    cases hs : t.side <;>
      simp [Book.Order.crosses, crosses, engineOrder, ht, hs, hp, Side.book, OrderType.book]
  | market =>
    cases hs : t.side <;>
      simp [Book.Order.crosses, crosses, engineOrder, ht, hs, hmarket ht, Side.book,
        OrderType.book]

omit h hp in
/-- What the order crosses in the book is what the taker crosses in the queue. -/
theorem near_quoted :
    ((c.books t.marketId).near (engineOrder c.edge (c.books t.marketId).market env user req
      t)).map quoted = (((c.books t.marketId).quotes t.side.opposite.book).map quoted).filter
        fun x => crosses t.side t.price x.price := by
  unfold Book.Orderbook.near
  rw [List.filter_map, book_opposite]
  congr 1
  apply List.filter_congr
  intro x _
  exact engineOrder_crosses hv _ x.1

include henv

/-- The taker is filled with what the order crosses. -/
theorem candidates_eq_near : c.edge.candidates env t.marketId t.side t.price user =
    ((c.books t.marketId).near (engineOrder c.edge (c.books t.marketId).market env user req
      t)).map quoted := by
  rw [near_quoted hv]
  exact (h.queues t.marketId t.side).candidates_eq h.indexed.nodup
    (fun a o ho => (h.positive.orders a o ho).price) h.positive.remaining h.limits henv hp.others

theorem makers_sum : ((c.edge.makers env t.marketId t.side t.price user).map
    OpenOrder.remaining).sum = (((c.books t.marketId).near (engineOrder c.edge
      (c.books t.marketId).market env user req t)).map fun x => x.2.remaining).sum := by
  rw [← (c.edge.candidates_rem_perm env t.marketId t.side t.price user).sum_eq,
    candidates_eq_near h hv henv hp, List.map_map]
  rfl

/-- The order is plain for the engine too. -/
theorem engineOrder_plain : (c.books t.marketId).Plain (engineOrder c.edge
    (c.books t.marketId).market env user req t) := by
  obtain ⟨hlimit, hmarket⟩ := AppState.validate_price hv
  constructor
  · exact hp.qty
  · intro ht
    have ht' : t.orderType = .limit := by
      cases ho : t.orderType with
      | limit => rfl
      | market => simp [engineOrder, OrderType.book, ho] at ht
    obtain ⟨p, hprice⟩ := Option.isSome_iff_exists.mp (hlimit ht')
    have hpos := hp.price p hprice
    simpa [engineOrder, hprice] using hpos
  · simp [engineOrder, hp.gtc]
  · exact hp.opens
  · intro x hx ho
    have hmem := List.mem_map_of_mem (f := quoted) hx
    rw [near_quoted hv] at hmem
    obtain ⟨hmem, hcross⟩ := List.mem_filter.mp hmem
    obtain ⟨o, ho', hm, hs, he⟩ := ((h.queues t.marketId t.side).mem _).mp hmem
    have howner : (quoted x).address = user := ho
    rw [howner] at ho' he
    have hcross' : crosses t.side t.price o.price = true := by
      rw [he] at hcross
      exact hcross
    have hmaker : o.isMaker t.marketId t.side t.price = true := by
      have hpos := h.positive.orders user o ho'
      simp [OpenOrder.isMaker, hm, hs, h.limits user o ho', hpos.price.ne', hpos.remaining.ne',
        hcross']
    rw [hp.others o ho'] at hmaker
    cases hmaker
  · intro ht
    have ht' : t.orderType = .market := by
      cases ho : t.orderType with
      | market => rfl
      | limit => simp [engineOrder, OrderType.book, ho] at ht
    obtain ⟨hpost, hqty⟩ := hp.market ht'
    rw [makers_sum h hv henv hp] at hqty
    exact ⟨hpost,hqty⟩

/-- The post-only check lets the order through exactly when it crosses nothing. -/
theorem guard_ok_iff : c.edge.postOnlyGuard env user t = .ok () ↔ (t.postOnly = true →
    (c.books t.marketId).near (engineOrder c.edge (c.books t.marketId).market env user req t) =
      []) := by
  unfold AppState.postOnlyGuard
  simp only [ensure_eq_ok, and_true]
  apply imp_congr_right
  intro _
  rw [AppState.matchTakerProbe_eq h.positive.remaining hp.qty.le, makers_sum h hv henv hp,
    lt_min_iff]
  constructor
  · intro hnot
    by_contra hne
    obtain ⟨x, hx⟩ := List.exists_mem_of_ne_nil _ hne
    have hpos : ∀ y ∈ (c.books t.marketId).near (engineOrder c.edge (c.books t.marketId).market
        env user req t), 0 < y.2.remaining := fun y hy =>
      ((h.sound t.marketId).quotes_rest (List.mem_filter.mp hy).1).pos
    apply hnot ⟨hp.qty,?_⟩
    apply List.sum_pos
    · intro q hq
      obtain ⟨y, hy, rfl⟩ := List.mem_map.mp hq
      exact hpos y hy
    · simpa using hne
  · rintro hnil ⟨-, hsum⟩
    rw [hnil] at hsum
    exact lt_irrefl _ hsum

/-- The fills of the edge are the draws of the engine. -/
theorem matched_eq : (c.edge.matched env user t).1 =
    (draw (fun x : Book.Quote => x.2.remaining) t.qty ((c.books t.marketId).near
      (engineOrder c.edge (c.books t.marketId).market env user req t))).map
        fun y => (quoted y.1).fill env.now y.2 := by
  have hfills : (c.edge.matched env user t).1 = (c.edge.drawn.draws env t.marketId t.side t.price
      t.qty user).map fun x => x.1.fill env.now x.2 :=
    AppState.matchTaker_eq_draws h.indexed.nodup h.positive.remaining hp.qty.le
  have hcands : c.edge.drawn.candidates env t.marketId t.side t.price user =
      c.edge.candidates env t.marketId t.side t.price user := rfl
  rw [hfills, AppState.draws, hcands, candidates_eq_near h hv henv hp, draw_map, List.map_map]
  rfl

/-- Ids tell the quotes of a side apart, so the fills of a quote are the draws with its id. -/
theorem filledOf_quoted {x : Book.Quote}
    (hx : x ∈ (c.books t.marketId).quotes t.side.opposite.book) :
    filledOf x.2.owner x.2.id (c.edge.matched env user t).1 =
      drawnFrom (fun y : Book.Quote => y.2.id) x.2.id (draw (fun y : Book.Quote => y.2.remaining)
        t.qty ((c.books t.marketId).near (engineOrder c.edge (c.books t.marketId).market env
          user req t))) := by
  rw [matched_eq h hv henv hp, filledOf, fillsOf, drawnFrom, List.filter_map, List.map_map]
  refine congrArg (fun ys => (List.map Prod.snd ys).sum) (List.filter_congr ?_)
  intro y hy
  have hmem : y.1 ∈ (c.books t.marketId).quotes t.side.opposite.book := by
    have hnear := (List.mem_filter.mp (mem_of_mem_draw _ hy)).1
    rw [book_opposite]
    exact hnear
  have hids := (h.sound t.marketId).quotes_ids t.side.opposite.book
  have howner : y.1.2.id = x.2.id → y.1.2.owner = x.2.owner := by
    intro he
    rw [List.inj_on_of_nodup_map hids hmem hx he]
  simpa [quoted, Candidate.fill] using howner

/-- After an order that both take, the queues of both are the same again. -/
theorem queues_execute (hlater : ∀ a, ∀ o ∈ c.edge.openOrders a, o.tsNs < env.now)
    {b' : Book.Orderbook}
    (hopp : b'.quotes t.side.book.opposite = (((c.books t.marketId).quotes
      t.side.book.opposite).map fun x => x.less (drawnFrom (fun x : Book.Quote => x.2.id) x.2.id
        (draw (fun x : Book.Quote => x.2.remaining) t.qty ((c.books t.marketId).near
          (engineOrder c.edge (c.books t.marketId).market env user req t))))).filter
            fun x => x.2.remaining ≠ 0)
    (hown : b'.quotes t.side.book = if c.edge.unfilled env user t ≠ 0 ∧ t.orderType = .limit then
        (((c.books t.marketId).quotes t.side.book).filter fun x =>
          Book.Orderbook.noWorse t.side.book x.1 (t.price.getD 0))++
            (t.price.getD 0,{ engineOrder c.edge (c.books t.marketId).market env user req t with
              remaining := c.edge.unfilled env user t }) ::
                ((c.books t.marketId).quotes t.side.book).filter fun x =>
                  !Book.Orderbook.noWorse t.side.book x.1 (t.price.getD 0)
      else (c.books t.marketId).quotes t.side.book) (marketId : String) (side : Side) :
    (c.edge.execute env user t).2.Queue marketId side
      (((Function.update c.books t.marketId b' marketId).quotes side.opposite.book).map
        quoted) := by
  have hprice : ∀ a, ∀ o ∈ c.edge.openOrders a, 0 < o.price := fun a o ho =>
    (h.positive.orders a o ho).price
  -- the queue between matching and resting
  have hdrawn : c.edge.drawn.Queue marketId side
      (((c.books marketId).quotes side.opposite.book).map quoted) :=
    (h.queues marketId side).congr rfl
  have hbetween : (c.edge.matched env user t).2.Queue marketId side
      (((((c.books marketId).quotes side.opposite.book).map quoted).map
        (Candidate.after (c.edge.matched env user t).1)).filter fun x => x.rem ≠ 0) :=
    AppState.Queue.matchTaker (s := c.edge.drawn) h.indexed.nodup hprice h.positive.remaining
      hp.qty.le hdrawn
  have hkept (hmeets : ¬ (marketId = t.marketId ∧ side = t.side)) :
      ((((c.books marketId).quotes side.opposite.book).map quoted).map
        (Candidate.after (c.edge.matched env user t).1)).filter (fun x => x.rem ≠ 0) =
          ((c.books marketId).quotes side.opposite.book).map quoted :=
    AppState.Queue.unfilled (s := c.edge.drawn) h.indexed.nodup hprice h.positive.remaining
      hp.qty.le hdrawn hmeets
  have hearlier : ∀ x ∈ ((((c.books marketId).quotes side.opposite.book).map quoted).map
      (Candidate.after (c.edge.matched env user t).1)).filter (fun x => x.rem ≠ 0),
        x.tsNs < env.now := by
    intro x hx
    obtain ⟨y, hy, rfl⟩ := List.mem_map.mp (List.mem_filter.mp hx).1
    obtain ⟨o, ho, -, -, he⟩ := ((h.queues marketId side).mem y).mp hy
    have hts : y.tsNs = o.tsNs := by
      rw [he]
      rfl
    exact hts.trans_lt (hlater y.address o ho)
  have hafter := hbetween.execute hearlier
  by_cases hmarket : marketId = t.marketId
  · subst hmarket
    rw [Function.update_self]
    by_cases hside : side = t.side
    · -- the side that the order crosses
      subst hside
      have hne : t.side ≠ t.side.opposite := by cases t.side <;> decide
      rw [if_neg fun hc => hne hc.2.2] at hafter
      have hmap : (((c.books t.marketId).quotes t.side.opposite.book).map quoted).map
          (Candidate.after (c.edge.matched env user t).1) =
            (((c.books t.marketId).quotes t.side.opposite.book).map fun x => x.less (drawnFrom
              (fun x : Book.Quote => x.2.id) x.2.id (draw (fun x : Book.Quote => x.2.remaining)
                t.qty ((c.books t.marketId).near (engineOrder c.edge (c.books t.marketId).market
                  env user req t))))).map quoted := by
        rw [List.map_map, List.map_map]
        apply List.map_congr_left
        intro x hx
        have hfilled := filledOf_quoted h hv henv hp hx
        simp only [Function.comp_apply, Candidate.after, quoted, Book.Quote.less, hfilled]
      rw [hmap, List.filter_map, book_opposite] at hafter
      rw [book_opposite, hopp]
      exact hafter
    · -- the side where the order rests
      have hopposite : side.opposite = t.side := by
        revert hside
        cases side <;> cases t.side <;> decide
      rw [hkept fun hc => hside hc.2, hopposite] at hafter
      rw [hopposite, hown]
      split_ifs with hrests
      · rw [if_pos ⟨hrests,rfl,rfl⟩, List.filter_map, List.filter_map] at hafter
        rw [List.map_append, List.map_cons]
        exact hafter
      · rw [if_neg fun hc => hrests hc.1] at hafter
        exact hafter
  · rw [Function.update_of_ne hmarket]
    rw [if_neg fun hc => hmarket hc.2.1.symm, hkept fun hc => hmarket hc.1] at hafter
    exact hafter

omit hv hp henv in
/-- The engine knows no order with the id that the edge draws next. -/
theorem engineOrder_fresh (marketId : String) (side : Book.Side) :
    c.edge.nextUlid ∉ (c.books marketId).ids side := by
  intro hmem
  obtain ⟨x, hx, hid⟩ := (h.sound marketId).mem_ids_iff.mp hmem
  obtain ⟨s, rfl⟩ : ∃ s : Side, s.opposite.book = side := by
    cases side with
    | buy => exact ⟨.sell,rfl⟩
    | sell => exact ⟨.buy,rfl⟩
  obtain ⟨o, ho, -, -, he⟩ := ((h.queues marketId s).mem _).mp (List.mem_map_of_mem hx)
  have hbelow : x.2.id < c.edge.nextUlid := by
    rw [show x.2.id = o.id from congrArg Candidate.id he]
    exact h.indexed.below _ o ho
  exact hbelow.ne hid

omit h hv henv in
/-- Signs are in order, so they stay so. -/
theorem signsOk (hv : c.edge.validate req = .ok t) : c.edge.SignsOk env user t := by
  constructor
  · intro hneg
    exact absurd hneg hp.qty.not_gt
  · intro _ hlimit hcheap
    obtain ⟨p, hprice⟩ := Option.isSome_iff_exists.mp ((AppState.validate_price hv).1 hlimit)
    rw [hprice] at hcheap
    exact absurd (hp.price p hprice) hcheap.not_gt

theorem unfilled_eq_left : c.edge.unfilled env user t =
    t.qty-((draw (fun x : Book.Quote => x.2.remaining) t.qty ((c.books t.marketId).near
      (engineOrder c.edge (c.books t.marketId).market env user req t))).map Prod.snd).sum := by
  unfold AppState.unfilled
  rw [matched_eq h hv henv hp, List.map_map]
  rfl

variable (tracker) in
/-- Past the post-only check both fill the order the same and rest the same of it. -/
theorem submitted (hguard : c.edge.postOnlyGuard env user t = .ok ())
    (hlater : ∀ a, ∀ o ∈ c.edge.openOrders a, o.tsNs < env.now) :
    ∃ out b', (c.books t.marketId).submit (engineOrder c.edge (c.books t.marketId).market env
        user req t) tracker = (.ok out,b') ∧
      out.fills.map (matchedFill env.now) = (c.edge.matched env user t).1 ∧
      out.remaining = c.edge.unfilled env user t ∧
      out.resting = (if c.edge.unfilled env user t ≠ 0 ∧ t.orderType = .limit
        then some c.edge.nextUlid else none) ∧
      Agree ⟨(c.edge.execute env user t).2,Function.update c.books t.marketId b'⟩ := by
  have hlimit : t.orderType.book = .limit ↔ t.orderType = .limit := by
    cases t.orderType <;> simp [OrderType.book]
  obtain ⟨out, b', hsubmit, hsound, rfl, hopp, hown⟩ :=
    (engineOrder_plain h hv henv hp).accepted tracker (h.sound t.marketId)
      ((guard_ok_iff h hv henv hp).mp hguard) (engineOrder_fresh h t.marketId)
  have hleft := unfilled_eq_left h hv henv hp
  refine ⟨_,b',hsubmit,?_,hleft.symm,?_,?_⟩
  · rw [matched_eq h hv henv hp]
    exact Book.fillsFrom_map (fun _ _ => rfl) _ _
  · rw [hleft]
    simp only [engineOrder, hlimit]
    rfl
  · constructor
    · exact AppState.execute_indexed h.indexed env user t
    · exact (AppState.execute_positive h.indexed h.positive hp.qty.ne' (signsOk hp hv)).1
    · exact h.limits.execute h.indexed h.positive hp.qty.le
    · intro marketId
      dsimp only
      by_cases hm : marketId = t.marketId
      · subst hm
        rwa [Function.update_self]
      · rw [Function.update_of_ne hm]
        exact h.sound marketId
    · apply queues_execute h hv henv hp hlater hopp
      change b'.quotes t.side.book = if _ ∧ t.orderType.book = .limit then _ else _ at hown
      simp only [hlimit] at hown
      rw [hleft]
      exact hown

variable (tracker) in
/-- A post-only order that crosses is turned down by both, and nothing changes. -/
theorem turned_down (hguard : c.edge.postOnlyGuard env user t ≠ .ok ()) :
    (c.books t.marketId).submit (engineOrder c.edge (c.books t.marketId).market env user req t)
      tracker = (.error .postOnlyWouldCross,c.books t.marketId) := by
  rw [Ne, guard_ok_iff h hv henv hp, Classical.not_imp] at hguard
  exact (engineOrder_plain h hv henv hp).rejected (h.sound t.marketId) hguard.1 hguard.2

variable (tracker) in
/-- An order past the risk gate goes at the edge as in the engine. -/
theorem placeOrder_follows (hgate : c.edge.riskGate user t = .ok ())
    (hlater : ∀ a, ∀ o ∈ c.edge.openOrders a, o.tsNs < env.now) :
    (c.step tracker (.placeOrder env user req)).Agree ∧ c.edge.Follows env user req t
      ((c.books t.marketId).submit (engineOrder c.edge (c.books t.marketId).market env user
        req t) tracker).1 := by
  have hcmd : c.engineCmd tracker (.placeOrder env user req) = some (t.marketId,.submit
      (engineOrder c.edge (c.books t.marketId).market env user req t) tracker) := by
    simp [engineCmd, hv, hgate]
  -- a post-only order that would meet a maker is turned down on both sides
  by_cases hguard : c.edge.postOnlyGuard env user t = .ok ()
  · obtain ⟨out, b', hsubmit, hfills, hremaining, -, hagree⟩ :=
      submitted tracker h hv henv hp hguard hlater
    have hplace : c.edge.placeOrder env user req = .ok (c.edge.execute env user t) := by
      simp [AppState.placeOrder, hv, hgate, hguard]
    have hexec : attempt exec c.edge (.placeOrder env user req) =
        (c.edge.execute env user t).2 := by
      simp [attempt, exec, hplace]
    refine ⟨?_,?_⟩
    · unfold step
      rw [hcmd, hexec]
      simp only [Book.step, hsubmit]
      exact hagree
    · rw [hsubmit]
      constructor
      · have hany : out.fills ≠ [] ↔ (c.edge.matched env user t).1 ≠ [] := by
          rw [← hfills, Ne, Ne, List.map_eq_nil_iff]
        rw [hplace]
        simp only [told, hany, hremaining]
        rfl
      · intro e he
        cases he
      · rw [hexec, AppState.execute_tape, ← hfills, List.map_map]
        rfl
      · intro a
        rw [hexec, AppState.execute_entries, ← hfills, List.flatMap_map]
        rfl
  · have hdown := turned_down tracker h hv henv hp hguard
    have herror : c.edge.postOnlyGuard env user t =
        .error (.badRequest "post_only order would cross resting liquidity") := by
      unfold AppState.postOnlyGuard ensure at hguard ⊢
      split_ifs at hguard ⊢ with hcross
      · exact absurd rfl hguard
      · rfl
    have hplace : c.edge.placeOrder env user req =
        .error (.badRequest "post_only order would cross resting liquidity") := by
      simp only [AppState.placeOrder, hv, hgate, herror, bind, Except.bind]
    have hexec : attempt exec c.edge (.placeOrder env user req) = c.edge := by
      simp [attempt, exec, hplace]
    refine ⟨?_,?_⟩
    · unfold step
      rw [hcmd, hexec]
      simp only [Book.step, hdown, Function.update_eq_self]
      exact h
    · rw [hdown]
      constructor
      · rw [hplace]
        rfl
      · intro e he
        exact (Except.error.inj he).symm
      · rw [hexec]
        simp [reported]
      · intro a
        rw [hexec]
        simp [reported]

end Place

/-- Ids tell the orders of a market apart, whoever owns them. -/
theorem Agree.owner_eq (h : c.Agree) {user : Address} {o : OpenOrder}
    (ho : o ∈ c.edge.openOrders user) {side : Book.Side} {x : Book.Quote}
    (hx : x ∈ (c.books o.marketId).quotes side) (hid : x.2.id = o.id) : x.2.owner = user := by
  have hmem : o.candidate user ∈ ((c.books o.marketId).quotes o.side.book).map quoted := by
    have hqueue := ((h.queues o.marketId o.side.opposite).mem (o.candidate user)).mpr
      ⟨o,ho,rfl,(opposite_opposite o.side).symm,rfl⟩
    rwa [opposite_opposite] at hqueue
  obtain ⟨y, hy, he⟩ := List.mem_map.mp hmem
  have hsound := h.sound o.marketId
  have hsame : y.2.id = x.2.id := (congrArg Candidate.id he).trans hid.symm
  -- an id is on one side only
  have hside : side = o.side.book := by
    have hbyX := (hsound.byId_iff x.2.id side).mpr (hsound.mem_ids_iff.mpr ⟨x,hx,rfl⟩)
    have hbyY := (hsound.byId_iff x.2.id o.side.book).mpr (hsound.mem_ids_iff.mpr ⟨y,hy,hsame⟩)
    exact Option.some.inj (hbyX.symm.trans hbyY)
  subst hside
  obtain rfl := List.inj_on_of_nodup_map (hsound.quotes_ids o.side.book) hy hx hsame
  exact congrArg Candidate.address he

/-- A command of the engine changes one book. -/
theorem step_books (c : Twin) (cmd : Cmd) (marketId : String) :
    (c.step tracker cmd).books marketId = match c.engineCmd tracker cmd with
      | none => c.books marketId
      | some (m,b) => if marketId = m then Book.step (c.books m) b else c.books marketId := by
  unfold step
  cases c.engineCmd tracker cmd with
  | none => rfl
  | some mb => exact Function.update_apply ..

theorem engineCmd_cancelOrder (c : Twin) (env : Env) (user : Address) (orderId : ℕ) :
    c.engineCmd tracker (.cancelOrder env user orderId) =
      ((c.edge.openOrders user).find? fun o => o.id = orderId).map fun o =>
        (o.marketId,.cancel orderId) := rfl

/-- Cancelling takes the order out of both. -/
theorem cancelOrder_queues (h : c.Agree) (env : Env) (user : Address) (orderId : ℕ)
    (marketId : String) (side : Side) : (c.edge.cancelOrder env user orderId).Queue marketId side
      ((((c.step tracker (.cancelOrder env user orderId)).books marketId).quotes
        side.opposite.book).map quoted) := by
  have hqueue := (h.queues marketId side).cancelOrder env user orderId
  -- where no own order with the id rests, nothing is taken out
  have hkept (hnone : ∀ o ∈ c.edge.openOrders user, o.id = orderId → o.marketId ≠ marketId) :
      (((c.books marketId).quotes side.opposite.book).map quoted).filter
        (fun x => ¬ (x.address = user ∧ x.id = orderId)) =
          ((c.books marketId).quotes side.opposite.book).map quoted := by
    rw [List.filter_eq_self]
    intro x hx
    obtain ⟨o, ho, hm, -, he⟩ := ((h.queues marketId side).mem x).mp hx
    apply decide_eq_true
    rintro ⟨haddress, hid⟩
    rw [haddress] at ho
    have hid' : o.id = orderId := by
      rw [← hid, he]
      rfl
    exact hnone o ho hid' hm
  rw [step_books, engineCmd_cancelOrder]
  cases hfind : (c.edge.openOrders user).find? fun o => o.id = orderId with
  | none =>
    rw [hkept] at hqueue
    · exact hqueue
    · intro o ho hid
      have habsent := List.find?_eq_none.mp hfind o ho
      simp [hid] at habsent
  | some o =>
    have ho := List.mem_of_find?_eq_some hfind
    have hid : o.id = orderId := by simpa using List.find?_some hfind
    by_cases hm : marketId = o.marketId
    · subst hm
      have htaken : (((c.books o.marketId).quotes side.opposite.book).map quoted).filter
          (fun x => ¬ (x.address = user ∧ x.id = orderId)) =
            (((c.books o.marketId).cancel orderId).2.quotes side.opposite.book).map quoted := by
        rw [(h.sound o.marketId).cancel_quotes, List.filter_map]
        congr 1
        apply List.filter_congr
        intro x hx
        have howner : x.2.id = orderId → x.2.owner = user := fun hx' =>
          h.owner_eq ho hx (hx'.trans hid.symm)
        apply decide_eq_decide.mpr
        exact not_congr ⟨fun hx' => hx'.2,fun hx' => ⟨howner hx',hx'⟩⟩
      rw [htaken] at hqueue
      simp only [Option.map_some, if_pos]
      exact hqueue
    · rw [hkept] at hqueue
      · simp only [Option.map_some, if_neg hm]
        exact hqueue
      · intro o' ho' hid' hm'
        obtain rfl := List.inj_on_of_nodup_map (h.indexed.nodup user) ho' ho (hid'.trans hid.symm)
        exact hm hm'.symm

theorem cancelOrder_agree (h : c.Agree) (env : Env) (user : Address) (orderId : ℕ) :
    (c.step tracker (.cancelOrder env user orderId)).Agree := by
  have hsub := c.edge.cancelOrder_sublist env user orderId
  constructor
  · exact exec_indexed h.indexed (c := .cancelOrder env user orderId) rfl
  · refine ⟨fun a o ho => h.positive.orders a o ((hsub a).subset ho),?_⟩
    change (c.edge.cancelOrder env user orderId).RecordsPositive
    rw [AppState.cancelOrder_frame]
    exact ⟨h.positive.records.fills,h.positive.records.trades⟩
  · intro a o ho
    exact h.limits a o ((hsub a).subset ho)
  · intro marketId
    rw [step_books, engineCmd_cancelOrder]
    cases (c.edge.openOrders user).find? fun o => o.id = orderId with
    | none => exact h.sound marketId
    | some o =>
      simp only [Option.map_some]
      split_ifs
      · exact Book.cancel_repInv (h.sound o.marketId) orderId
      · exact h.sound marketId
  · exact cancelOrder_queues h env user orderId

theorem Agree.congr (h : c.Agree) {s : AppState} (hall : s.openOrders = c.edge.openOrders)
    (hi : s.Indexed) (hp : s.Positive) : Agree ⟨s,c.books⟩ := by
  refine ⟨hi,hp,?_,h.sound,fun marketId side => (h.queues marketId side).congr hall⟩
  intro a o ho
  rw [hall] at ho
  exact h.limits a o ho

/-- A request that fails before the post-only check does not reach the engine. -/
theorem step_refused {env : Env} {user : Address} {req : PlaceOrderRequest}
    (hfails : ¬ ∃ t, c.edge.validate req = .ok t ∧ c.edge.riskGate user t = .ok ()) :
    c.step tracker (.placeOrder env user req) = c := by
  have hcmd : c.engineCmd tracker (.placeOrder env user req) = none := by
    cases hv : c.edge.validate req with
    | error e => simp only [engineCmd, hv]
    | ok t =>
      cases hg : c.edge.riskGate user t with
      | error e => simp only [engineCmd, hv, hg]
      | ok u => exact absurd ⟨t,hv,hg⟩ hfails
  have hexec : attempt exec c.edge (.placeOrder env user req) = c.edge := by
    unfold attempt
    split
    · next s' he =>
      obtain ⟨t, ht, -⟩ := AppState.exec_placeOrder_eq_ok.mp he
      exact absurd ⟨t,ht.valid,ht.gate⟩ hfails
    · rfl
  unfold step
  rw [hcmd, hexec]

/-- Whatever is requested, both hold the same orders afterwards. -/
theorem step_agree (h : c.Agree) {cmd : Cmd} (hp : cmd.Plain c.edge) :
    (c.step tracker cmd).Agree ∧ c.Follows tracker cmd := by
  cases cmd with
  | placeOrder env user req =>
    obtain ⟨henv, hlater, hplain⟩ := hp
    by_cases hpasses : ∃ t, c.edge.validate req = .ok t ∧ c.edge.riskGate user t = .ok ()
    · obtain ⟨t, hv, hgate⟩ := hpasses
      obtain ⟨hagree, hfollows⟩ := placeOrder_follows tracker h hv henv
        (hplain t hv hgate) hgate hlater
      refine ⟨hagree,?_⟩
      intro t' hv' hgate'
      rw [hv] at hv'
      obtain rfl := Except.ok.inj hv'
      exact hfollows
    · refine ⟨?_,fun t hv hgate => absurd ⟨t,hv,hgate⟩ hpasses⟩
      rw [step_refused hpasses]
      exact h
  | cancelOrder env user orderId => exact ⟨cancelOrder_agree h env user orderId,trivial⟩
  | setVaultBalance address amount =>
    refine ⟨h.congr rfl ⟨h.indexed.nodup,h.indexed.below⟩ ⟨h.positive.orders,?_⟩,trivial⟩
    exact ⟨h.positive.records.fills,h.positive.records.trades⟩
  | setOraclePrice marketId price =>
    refine ⟨h.congr rfl ⟨h.indexed.nodup,h.indexed.below⟩ ⟨h.positive.orders,?_⟩,trivial⟩
    exact ⟨h.positive.records.fills,h.positive.records.trades⟩

theorem start_agree (number : String → MarketId) (mode : Book.SelfTradeMode) :
    (start number mode).Agree := by
  have hsound (marketId : String) : ((start number mode).books marketId).RepInv :=
    Book.start_repInv (number marketId) mode
  have hempty (marketId : String) (side : Book.Side) :
      ((start number mode).books marketId).quotes side = [] := by
    rw [(hsound marketId).quotes_eq]
    simp [start, Book.Orderbook.makers]
  refine ⟨new_indexed,new_positive,?_,hsound,?_⟩
  · intro a o ho
    simp [start, AppState.new] at ho
  · intro marketId side
    rw [hempty]
    refine ⟨List.Pairwise.nil,?_⟩
    simp [start, AppState.new]

theorem run_edge (cmds : List Cmd) (c : Twin) :
    (c.run tracker cmds).edge = runAll exec c.edge cmds := by
  induction cmds generalizing c with
  | nil => rfl
  | cons cmd rest ih => exact ih (c.step tracker cmd)

theorem run_append (c : Twin) (cmds : List Cmd) (cmd : Cmd) :
    c.run tracker (cmds++[cmd]) = (c.run tracker cmds).step tracker cmd := by
  simp [run]

/-- As long as every order is plain, the edge fills, rests and turns down what the engine would,
and keeps the same queues. -/
theorem edge_follows_engine (tracker : Book.PositionTracker) (number : String → MarketId)
    (mode : Book.SelfTradeMode) (cmds : List Cmd)
    (hplain : ∀ pre cmd, pre++[cmd] <+: cmds → cmd.Plain (runAll exec AppState.new pre)) :
    (∀ pre, pre <+: cmds →
      ((start number mode).run tracker pre).edge = runAll exec AppState.new pre ∧
        ∀ marketId side, (runAll exec AppState.new pre).Queue marketId side
          (((((start number mode).run tracker pre).books marketId).quotes
            side.opposite.book).map quoted)) ∧
      ∀ pre cmd, pre++[cmd] <+: cmds →
        ((start number mode).run tracker pre).Follows tracker cmd := by
  have hagree (pre : List Cmd) (hpre : pre <+: cmds) :
      ((start number mode).run tracker pre).Agree := by
    induction pre using List.reverseRecOn with
    | nil => exact start_agree number mode
    | append_singleton pre cmd ih =>
      rw [run_append]
      apply (step_agree (ih ((List.prefix_append pre [cmd]).trans hpre)) ?_).1
      rw [run_edge]
      exact hplain pre cmd hpre
  constructor
  · intro pre hpre
    have hedge : ((start number mode).run tracker pre).edge = runAll exec AppState.new pre :=
      run_edge pre _
    refine ⟨hedge,?_⟩
    rw [← hedge]
    exact (hagree pre hpre).queues
  · intro pre cmd hpre
    apply (step_agree (hagree pre ((List.prefix_append pre [cmd]).trans hpre)) ?_).2
    rw [run_edge]
    exact hplain pre cmd hpre

/-- A limit order for a contract is plain for an account that has nothing open. -/
theorem plain_btcOrder {s : AppState} {env : Env} {user : Address} {name : String} (side : Side)
    {t : Taker} (hv : s.validate (btcOrder name "limit" (some 100000) 1) =
      .ok ⟨"btc-usd", side, .limit, some 100000, 1, false, false, none⟩)
    (hnone : s.openOrders user = [])
    (ht : s.validate (btcOrder name "limit" (some 100000) 1) = .ok t) :
    s.Plain env user (btcOrder name "limit" (some 100000) 1) t := by
  rw [hv] at ht
  obtain rfl := Except.ok.inj ht
  constructor
  · norm_num
  · intro p hp
    obtain rfl := Option.some.inj hp
    norm_num
  · rfl
  · rfl
  · rw [hnone]
    simp
  · intro hmarket
    cases hmarket

/-- Nobody but account 2 has anything open before the last order of the opening trade. -/
theorem openTrade_offer {a : Address} (ha : a ≠ 2) :
    (runAll exec AppState.new (openTrade.take 3)).openOrders a = [] := by
  have hlast : openTrade.take 3 = openTrade.take 2++[.placeOrder (twoAccounts 0) 2
      (btcOrder "sell" "limit" (some 100000) 1)] := by
    simp [openTrade]
  rw [hlast, runAll_append]
  unfold attempt
  split
  · next s' he =>
    obtain ⟨t, -, rfl⟩ := AppState.exec_placeOrder_eq_ok.mp he
    have hids := AppState.matched_ids (runAll exec AppState.new (openTrade.take 2))
      (twoAccounts 0) 2 t a
    rw [AppState.execute_openOrders, if_neg fun hc => ha hc.1, List.append_nil]
    exact List.map_eq_nil_iff.mp (List.sublist_nil.mp hids)
  · rfl

/-- Account 2 offers a contract, which rests; account 1 takes it. -/
theorem edge_follows_engine_openTrade :
    let c := start (fun _ => 1) .cancelNewest
    (∀ pre cmd, pre++[cmd] <+: openTrade → cmd.Plain (runAll exec AppState.new pre)) ∧
      (c.run .new (openTrade.take 3)).Follows .new (.placeOrder (twoAccounts 1) 1
        (btcOrder "buy" "limit" (some 100000) 1)) ∧
      ∀ side, (runAll exec AppState.new openTrade).Queue "btc-usd" side
        ((((c.run .new openTrade).books "btc-usd").quotes side.opposite.book).map quoted) := by
  dsimp only
  have hempty (a : Address) : (runAll exec AppState.new (openTrade.take 2)).openOrders a = [] :=
    rfl
  have hsell : Cmd.Plain (runAll exec AppState.new (openTrade.take 2)) (.placeOrder
      (twoAccounts 0) 2 (btcOrder "sell" "limit" (some 100000) 1)) := by
    refine ⟨fun a ha => absurd (hempty a) ha,fun a o ho => ?_,fun t ht _ => ?_⟩
    · rw [hempty] at ho
      cases ho
    · exact plain_btcOrder .sell (by decide +kernel) (hempty 2) ht
  have hbuy : Cmd.Plain (runAll exec AppState.new (openTrade.take 3)) (.placeOrder
      (twoAccounts 1) 1 (btcOrder "buy" "limit" (some 100000) 1)) := by
    refine ⟨fun a ha => ?_,fun a o ho => ?_,fun t ht _ => ?_⟩
    · obtain rfl : a = 2 := not_imp_comm.mp openTrade_offer ha
      decide
    · have hoffer : ∀ o ∈ (runAll exec AppState.new (openTrade.take 3)).openOrders 2,
          o.tsNs < 1 := by decide +kernel
      by_cases ha : a = 2
      · subst ha
        exact hoffer o ho
      · rw [openTrade_offer ha] at ho
        cases ho
    · exact plain_btcOrder .buy (by decide +kernel) (openTrade_offer (by decide)) ht
  have hplain : ∀ pre cmd, pre++[cmd] <+: openTrade →
      cmd.Plain (runAll exec AppState.new pre) := by
    refine forall_request_cons trivial (forall_request_cons trivial
      (forall_request_cons ?_ (forall_request_cons ?_ forall_request_nil)))
    · simpa only [openTrade, List.take_succ_cons, List.take_zero] using hsell
    · simpa only [openTrade, List.take_succ_cons, List.take_zero] using hbuy
  obtain ⟨hqueues, hfollows⟩ := edge_follows_engine .new (fun _ => 1) .cancelNewest openTrade
    hplain
  have hlast : openTrade.take 3++[.placeOrder (twoAccounts 1) 1
      (btcOrder "buy" "limit" (some 100000) 1)] <+: openTrade := by
    simp [openTrade]
  refine ⟨hplain,hfollows _ _ hlast,?_⟩
  intro side
  exact (hqueues openTrade (List.prefix_refl _)).2 "btc-usd" side

end Twin

end Perplex.Edge
