import Perplex.EdgePriority
import Perplex.EdgeStaleBook

/-! The levels of the public book. The open orders keep their numbers as strings, and one price
has many spellings; a rebuild adds the orders up by the price that they parse to. The sums are
those of `Decimal`, which rounds what has too many digits. -/
namespace Perplex.Edge

theorem get?_foldl_addLevel (l : List OpenOrder) (m : SortedMap ℚ ℚ) (price : ℚ) :
    (l.foldl addLevel m).get? price =
      if ∃ o ∈ l, o.price = price then some ((m.get? price).getD 0+restingAt l price)
      else m.get? price := by
  induction l generalizing m with
  | nil => simp
  | cons o l ih =>
    rw [List.foldl_cons, ih]
    unfold restingAt
    by_cases ho : o.price = price
    · -- the order adds to the level, and there is one from now on
      subst ho
      have hsome : ∃ x ∈ o :: l, x.price = o.price := ⟨o, List.mem_cons_self, rfl⟩
      rw [addLevel, SortedMap.get?_upsert_self, List.filter_cons_of_pos (by simp), List.map_cons,
        List.sum_cons, if_pos hsome]
      split_ifs with h
      · rw [Option.getD_some, add_assoc]
      · have hnone : l.filter (fun o' => o'.price = o.price) = [] := by
          rw [List.filter_eq_nil_iff]
          intro o' ho' he
          exact h ⟨o', ho', by simpa using he⟩
        simp [hnone]
    · rw [addLevel, SortedMap.get?_upsert_of_ne _ (Ne.symm ho),
        List.filter_cons_of_neg (by simpa using ho)]
      simp [ho]

/-- The levels of some orders: one for each price, with what the orders at it have left. -/
theorem mem_levels_iff {l : List OpenOrder} {price qty : ℚ} :
    (price,qty) ∈ (l.foldl addLevel SortedMap.empty).entries ↔
      (∃ o ∈ l, o.price = price) ∧ qty = restingAt l price := by
  rw [SortedMap.mem_entries_iff, get?_foldl_addLevel]
  split_ifs with h
  · simp only [h, true_and, SortedMap.get?, SortedMap.empty, List.find?_nil, Option.map_none,
      Option.getD_none, zero_add, Option.some.injEq]
    exact eq_comm
  · simp [h, SortedMap.get?, SortedMap.empty]

namespace AppState
variable {s : AppState}

/-- The levels of one side of a market. -/
def levelsOn (s : AppState) (env : Env) (marketId : String) : Side → List (ℚ × ℚ)
  | .buy => (s.levels env marketId).1
  | .sell => (s.levels env marketId).2

theorem mem_levelsOn_iff {env : Env} {marketId : String} {side : Side} {price qty : ℚ} :
    (price,qty) ∈ s.levelsOn env marketId side ↔
      (∃ o ∈ s.restingOrders env marketId side, o.price = price) ∧
        qty = restingAt (s.restingOrders env marketId side) price := by
  cases side with
  | buy => exact List.mem_reverse.trans mem_levels_iff
  | sell => exact mem_levels_iff

theorem levels_sorted (s : AppState) (env : Env) (marketId : String) :
    (s.levels env marketId).1.Pairwise (fun x y => y.1 < x.1) ∧
      (s.levels env marketId).2.Pairwise (fun x y => x.1 < y.1) :=
  ⟨List.pairwise_reverse.mpr (SortedMap.sorted _), SortedMap.sorted _⟩

end AppState

/-- An open order as it is stored, with its numbers as strings. -/
structure OrderInfo where
  id : ℕ
  marketId : String
  side : String
  orderType : String
  price : String
  qty : String
  remaining : String
  tsNs : ℕ
  clientOrderId : Option String
deriving DecidableEq, Repr

/-- A limit order of the market and side. -/
def OrderInfo.isOn (marketId : String) (side : Side) (o : OrderInfo) : Bool :=
  o.marketId = marketId ∧ o.orderType = "limit" ∧ (o.side = "buy" ↔ side = .buy)

/-- A public book as it is served. -/
structure OrderbookSnapshot where
  sequence : ℕ
  bids : List (String × String)
  asks : List (String × String)
deriving DecidableEq, Repr

/-- What `rebuild_orderbook` reads and writes. -/
@[ext]
structure Books where
  openOrders : Address → List OrderInfo
  orderbooks : String → OrderbookSnapshot

section Strings
-- `parse` is `Decimal::from_str`, and `print` normalizes and formats
variable (parse : String → Option ℚ) (print : ℚ → String)

/-- One order in the loop of `rebuild_orderbook`. -/
def addOrder (levels : SortedMap ℚ ℚ × SortedMap ℚ ℚ) (o : OrderInfo) :
    SortedMap ℚ ℚ × SortedMap ℚ ℚ :=
  if o.orderType ≠ "limit" then levels
  else
    match parse o.price with
    | none => levels
    | some price =>
      if price = 0 then levels
      else
        match parse o.remaining with
        | none => levels
        | some qty =>
          if qty = 0 then levels
          else if o.side = "buy" then (levels.1.upsert price 0 (· +qty),levels.2)
          else (levels.1,levels.2.upsert price 0 (· +qty))

namespace Books

/-- `rebuild_orderbook`. -/
def rebuildOrderbook (s : Books) (env : Env) (marketId : String) : Books :=
  let orders := (env.keys.flatMap s.openOrders).filter fun o => o.marketId = marketId
  let (bids,asks) := orders.foldl (addOrder parse) (SortedMap.empty,SortedMap.empty)
  let toLevels (l : List (ℚ × ℚ)) := l.map fun x => (print x.1,print x.2)
  let entry : OrderbookSnapshot := ⟨min ((s.orderbooks marketId).sequence+1) (2^64-1),
    toLevels bids.entries.reverse, toLevels asks.entries⟩
  { s with orderbooks := Function.update s.orderbooks marketId entry }

/-- The limit orders of a market and side. -/
def limitOrders (s : Books) (env : Env) (marketId : String) (side : Side) : List OrderInfo :=
  (env.keys.flatMap s.openOrders).filter (OrderInfo.isOn marketId side)

/-- What the limit orders at a price have left, however it is spelled. -/
def levelQty (s : Books) (env : Env) (marketId : String) (side : Side) (price : ℚ) : ℚ :=
  (((s.limitOrders env marketId side).filter fun o => parse o.price = some price).map
    fun o => (parse o.remaining).getD 0).sum

/-- The levels of a side: one for each price of its limit orders, with all that the orders at this
price have left. -/
def Aggregates (s : Books) (env : Env) (marketId : String) (side : Side)
    (levels : List (ℚ × ℚ)) : Prop :=
  ∀ price qty, (price,qty) ∈ levels ↔
    (∃ a, ∃ o ∈ s.openOrders a, o.isOn marketId side = true ∧ parse o.price = some price) ∧
      qty = s.levelQty parse env marketId side price

/-- The book of the market holds the levels of its orders, and nothing else has changed. -/
structure Rebuilt (s : Books) (env : Env) (marketId : String) (s' : Books) : Prop where
  levels : ∃ bids asks : List (ℚ × ℚ), s'.orderbooks marketId =
      ⟨min ((s.orderbooks marketId).sequence+1) (2^64-1),
        bids.map fun x => (print x.1,print x.2), asks.map fun x => (print x.1,print x.2)⟩ ∧
    bids.Pairwise (fun x y => y.1 < x.1) ∧ asks.Pairwise (fun x y => x.1 < y.1) ∧
    s.Aggregates parse env marketId .buy bids ∧ s.Aggregates parse env marketId .sell asks
  others : ∀ other, other ≠ marketId → s'.orderbooks other = s.orderbooks other
  orders : s'.openOrders = s.openOrders

/-- What the limit orders of a market have left are multiples of `10^-k`, and so is their sum at
every price, within the mantissa. -/
structure Fits (k : ℕ) (s : Books) (env : Env) (marketId : String) : Prop where
  scale : ∀ side, ∀ o ∈ s.limitOrders env marketId side,
    OnScale k ((parse o.remaining).getD 0)
  total : ∀ side price, rustDecimal.Grid k (s.levelQty parse env marketId side price)

end Books

/-- The order that the strings stand for; what does not parse is skipped like a zero. -/
def OrderInfo.order (o : OrderInfo) : OpenOrder where
  id := o.id
  marketId := o.marketId
  side := if o.side = "buy" then .buy else .sell
  orderType := if o.orderType = "limit" then .limit else .market
  price := (parse o.price).getD 0
  qty := (parse o.qty).getD 0
  remaining := (parse o.remaining).getD 0
  tsNs := o.tsNs
  clientOrderId := o.clientOrderId

def Books.state (s : Books) : AppState :=
  { AppState.new with openOrders := fun a => (s.openOrders a).map (OrderInfo.order parse) }

/-- The order belongs to a level of this side. -/
def OpenOrder.rests (side : Side) (o : OpenOrder) : Bool :=
  o.orderType = .limit ∧ o.price ≠ 0 ∧ o.remaining ≠ 0 ∧ o.side = side

theorem addOrder_eq (levels : SortedMap ℚ ℚ × SortedMap ℚ ℚ) (o : OrderInfo) :
    addOrder parse levels o =
      (if (o.order parse).rests .buy then addLevel levels.1 (o.order parse) else levels.1,
        if (o.order parse).rests .sell then addLevel levels.2 (o.order parse) else levels.2) := by
  unfold addOrder OpenOrder.rests addLevel OrderInfo.order
  by_cases hlimit : o.orderType = "limit"
  · cases hprice : parse o.price with
    | none => simp [hlimit]
    | some price =>
      cases hrem : parse o.remaining with
      | none => simp [hlimit]
      | some qty =>
        by_cases hp : price = 0
        · simp [hlimit, hp]
        by_cases hq : qty = 0
        · simp [hlimit, hp, hq]
        by_cases hside : o.side = "buy"
        · simp [hlimit, hp, hq, hside]
        · simp [hlimit, hp, hq, hside]
  · simp [hlimit]

theorem foldl_addOrder (l : List OrderInfo) (bids asks : SortedMap ℚ ℚ) :
    l.foldl (addOrder parse) (bids,asks) =
      (((l.map (OrderInfo.order parse)).filter (OpenOrder.rests .buy)).foldl addLevel bids,
        ((l.map (OrderInfo.order parse)).filter (OpenOrder.rests .sell)).foldl addLevel asks) := by
  induction l generalizing bids asks with
  | nil => rfl
  | cons o l ih =>
    rw [List.foldl_cons, addOrder_eq, ih, List.map_cons, List.filter_cons, List.filter_cons]
    split_ifs <;> rfl

namespace Decimal
variable (round : ℚ → ℚ)

/-- One order in the loop of `rebuild_orderbook`. -/
def addOrder {σ : Type} (left : σ) (levels : SortedMap ℚ ℚ × SortedMap ℚ ℚ) (o : OrderInfo) :
    Except σ (SortedMap ℚ ℚ × SortedMap ℚ ℚ) :=
  if o.orderType ≠ "limit" then return levels
  else
    match parse o.price with
    | none => return levels
    | some price =>
      if price = 0 then return levels
      else
        match parse o.remaining with
        | none => return levels
        | some qty =>
          if qty = 0 then return levels
          else if o.side = "buy" then do
            let bids ← addLevel round left levels.1 (o.order parse)
            return (bids,levels.2)
          else do
            let asks ← addLevel round left levels.2 (o.order parse)
            return (levels.1,asks)

/-- `rebuild_orderbook`: the book is written when all is added up. -/
def rebuildBooks (s : Books) (env : Env) (marketId : String) : Except Books Books := do
  let orders := (env.keys.flatMap s.openOrders).filter fun o => o.marketId = marketId
  let (bids,asks) ← orders.foldlM (addOrder parse round s) (SortedMap.empty,SortedMap.empty)
  let toLevels (l : List (ℚ × ℚ)) := l.map fun x => (print x.1,print x.2)
  let entry : OrderbookSnapshot := ⟨min ((s.orderbooks marketId).sequence+1) (2^64-1),
    toLevels bids.entries.reverse, toLevels asks.entries⟩
  return { s with orderbooks := Function.update s.orderbooks marketId entry }

/-- An order that rests on a side adds to its levels, another one leaves them. -/
def addResting {σ : Type} (left : σ) (side : Side) (levels : SortedMap ℚ ℚ) (o : OpenOrder) :
    Except σ (SortedMap ℚ ℚ) :=
  if o.rests side then addLevel round left levels o else return levels

theorem addOrder_eq {σ : Type} (left : σ) (levels : SortedMap ℚ ℚ × SortedMap ℚ ℚ)
    (o : OrderInfo) : addOrder parse round left levels o = (do
      let bids ← addResting round left .buy levels.1 (o.order parse)
      let asks ← addResting round left .sell levels.2 (o.order parse)
      return (bids,asks)) := by
  unfold addOrder addResting OpenOrder.rests
  by_cases hlimit : o.orderType = "limit"
  · cases hprice : parse o.price with
    | none => simp [hlimit, OrderInfo.order, hprice]
    | some price =>
      cases hrem : parse o.remaining with
      | none => simp [hlimit, OrderInfo.order, hrem]
      | some qty =>
        by_cases hp : price = 0
        · simp [hlimit, hp, OrderInfo.order, hprice]
        by_cases hq : qty = 0
        · simp [hlimit, hp, hq, OrderInfo.order, hrem]
        by_cases hside : o.side = "buy"
        · simp [hlimit, hp, hq, hside, OrderInfo.order, hprice, hrem]
        · simp [hlimit, hp, hq, hside, OrderInfo.order, hprice, hrem]
  · simp [hlimit, OrderInfo.order]

variable {round : ℚ → ℚ} {k : ℕ}

theorem addResting_of_fit {σ : Type} (hround : rustDecimal.IsRounding round) (left : σ)
    {side : Side} {o : OpenOrder} {l : List OpenOrder} {levels : SortedMap ℚ ℚ}
    (h : LevelsFit k levels ((o :: l).filter (OpenOrder.rests side))) :
    addResting round left side levels o =
        .ok (if o.rests side then Edge.addLevel levels o else levels) ∧
      LevelsFit k (if o.rests side then Edge.addLevel levels o else levels)
        (l.filter (OpenOrder.rests side)) := by
  unfold addResting
  by_cases hrests : o.rests side
  · rw [List.filter_cons_of_pos hrests] at h
    rw [if_pos hrests, if_pos hrests]
    exact ⟨h.addLevel_eq hround left, h.tail⟩
  · rw [List.filter_cons_of_neg hrests] at h
    rw [if_neg hrests, if_neg hrests]
    exact ⟨rfl, h⟩

theorem foldlM_addOrder {σ : Type} (hround : rustDecimal.IsRounding round) (left : σ)
    {l : List OrderInfo} {bids asks : SortedMap ℚ ℚ}
    (hbids : LevelsFit k bids ((l.map (OrderInfo.order parse)).filter (OpenOrder.rests .buy)))
    (hasks : LevelsFit k asks ((l.map (OrderInfo.order parse)).filter (OpenOrder.rests .sell))) :
    l.foldlM (addOrder parse round left) (bids,asks) =
      .ok (l.foldl (Edge.addOrder parse) (bids,asks)) := by
  induction l generalizing bids asks with
  | nil => rfl
  | cons o l ih =>
    rw [List.map_cons] at hbids hasks
    obtain ⟨hbid, hbids⟩ := addResting_of_fit hround left hbids
    obtain ⟨hask, hasks⟩ := addResting_of_fit hround left hasks
    rw [List.foldlM_cons, List.foldl_cons, addOrder_eq, Edge.addOrder_eq, hbid, hask]
    exact ih hbids hasks

end Decimal

namespace Books

theorem restingOrders_state (s : Books) (env : Env) (marketId : String) (side : Side) :
    (s.state parse).restingOrders env marketId side =
      ((((env.keys.flatMap s.openOrders).filter fun o => o.marketId = marketId).map
        (OrderInfo.order parse)).filter (OpenOrder.rests side)) := by
  have hmap : env.keys.flatMap (s.state parse).openOrders =
      (env.keys.flatMap s.openOrders).map (OrderInfo.order parse) := by
    rw [List.map_flatMap]
    rfl
  unfold AppState.restingOrders
  rw [hmap, List.filter_map, List.filter_map, List.filter_filter]
  congr 1
  apply List.filter_congr
  intro o _
  rw [Bool.eq_iff_iff]
  simp only [OpenOrder.rests, Function.comp_apply, Bool.and_eq_true, decide_eq_true_eq]
  exact and_comm

/-- The strings that are stored are the levels of the numbers. -/
theorem rebuildOrderbook_eq (s : Books) (env : Env) (marketId : String) :
    (s.rebuildOrderbook parse print env marketId).orderbooks = Function.update s.orderbooks marketId
      ⟨min ((s.orderbooks marketId).sequence+1) (2^64-1),
        ((s.state parse).levels env marketId).1.map fun x => (print x.1,print x.2),
        ((s.state parse).levels env marketId).2.map fun x => (print x.1,print x.2)⟩ := by
  unfold rebuildOrderbook AppState.levels
  simp only [foldl_addOrder, restingOrders_state]

/-- Limit orders have a positive price and something left. -/
def Positive (s : Books) : Prop :=
  ∀ a, ∀ o ∈ s.openOrders a, o.orderType = "limit" →
    ∃ price qty, parse o.price = some price ∧ 0 < price ∧ parse o.remaining = some qty ∧ 0 < qty

variable {parse} {s : Books}

theorem Positive.restingOrders (h : s.Positive parse) (env : Env) (marketId : String)
    (side : Side) : (s.state parse).restingOrders env marketId side =
      (s.limitOrders env marketId side).map (OrderInfo.order parse) := by
  rw [restingOrders_state, List.filter_map, List.filter_filter, limitOrders]
  congr 1
  apply List.filter_congr
  intro o ho
  obtain ⟨a, -, hmem⟩ := List.mem_flatMap.mp ho
  rw [Bool.eq_iff_iff]
  simp only [OpenOrder.rests, OrderInfo.isOn, Function.comp_apply, Bool.and_eq_true,
    decide_eq_true_eq]
  by_cases hlimit : o.orderType = "limit"
  · obtain ⟨price, qty, hprice, hp, hrem, hq⟩ := h a o hmem hlimit
    have hside : (if o.side = "buy" then Side.buy else Side.sell) = side ↔
        (o.side = "buy" ↔ side = .buy) := by
      by_cases hbuy : o.side = "buy"
      · cases side <;> simp [hbuy]
      · cases side <;> simp [hbuy]
    simp [OrderInfo.order, hlimit, hprice, hrem, hp.ne', hq.ne', hside, and_comm]
  · simp [OrderInfo.order, hlimit]

theorem isLimit_of_mem {env : Env} {marketId : String} {side : Side} {o : OrderInfo}
    (ho : o ∈ s.limitOrders env marketId side) :
    (∃ a, o ∈ s.openOrders a) ∧ o.isOn marketId side = true := by
  obtain ⟨hmem, hon⟩ := List.mem_filter.mp ho
  obtain ⟨a, -, ha⟩ := List.mem_flatMap.mp hmem
  exact ⟨⟨a, ha⟩, hon⟩

/-- The price of a limit order parses, so a zero does not stand for one that does not. -/
theorem Positive.price_iff (h : s.Positive parse) {env : Env} {marketId : String} {side : Side}
    {o : OrderInfo} (ho : o ∈ s.limitOrders env marketId side) (price : ℚ) :
    (o.order parse).price = price ↔ parse o.price = some price := by
  obtain ⟨⟨a, ha⟩, hon⟩ := isLimit_of_mem ho
  simp only [OrderInfo.isOn, decide_eq_true_eq] at hon
  obtain ⟨p, q, hp, -⟩ := h a o ha hon.2.1
  simp [OrderInfo.order, hp]

theorem Positive.restingAt_eq (h : s.Positive parse) (env : Env) (marketId : String)
    (side : Side) (price : ℚ) :
    restingAt ((s.state parse).restingOrders env marketId side) price =
      s.levelQty parse env marketId side price := by
  have hfilter : (s.limitOrders env marketId side).filter
        ((fun x : OpenOrder => decide (x.price = price)) ∘ OrderInfo.order parse) =
      (s.limitOrders env marketId side).filter fun o => parse o.price = some price := by
    apply List.filter_congr
    intro o ho
    simpa using h.price_iff ho price
  rw [h.restingOrders, restingAt, List.filter_map, hfilter, List.map_map]
  rfl

/-- The levels of the numbers add the strings up. -/
theorem Positive.aggregates (h : s.Positive parse) {env : Env}
    (henv : ∀ a, s.openOrders a ≠ [] → a ∈ env.keys) (marketId : String) (side : Side) :
    s.Aggregates parse env marketId side ((s.state parse).levelsOn env marketId side) := by
  intro price qty
  have hmem {o : OrderInfo} : o ∈ s.limitOrders env marketId side ↔
      (∃ a, o ∈ s.openOrders a) ∧ o.isOn marketId side = true := by
    refine ⟨isLimit_of_mem, ?_⟩
    rintro ⟨⟨a, ha⟩, hon⟩
    have hkey := henv a (List.ne_nil_of_mem ha)
    exact List.mem_filter.mpr ⟨List.mem_flatMap.mpr ⟨a, hkey, ha⟩, hon⟩
  have hexists : (∃ x ∈ (s.limitOrders env marketId side).map (OrderInfo.order parse),
      x.price = price) ↔
      ∃ a, ∃ o ∈ s.openOrders a, o.isOn marketId side = true ∧ parse o.price = some price := by
    constructor
    · rintro ⟨x, hx, hprice⟩
      obtain ⟨o, ho, rfl⟩ := List.mem_map.mp hx
      obtain ⟨⟨a, ha⟩, hon⟩ := hmem.mp ho
      exact ⟨a, o, ha, hon, (h.price_iff ho price).mp hprice⟩
    · rintro ⟨a, o, ha, hon, hprice⟩
      have ho := hmem.mpr ⟨⟨a, ha⟩, hon⟩
      exact ⟨_, List.mem_map_of_mem ho, (h.price_iff ho price).mpr hprice⟩
  rw [AppState.mem_levelsOn_iff, h.restingAt_eq, h.restingOrders, hexists]

/-- With the quantities added up as they are, a rebuild stores, for every market and either side,
one level for each price of the limit orders, sorted from the best price, with the sum of what they
have left. It counts up to the largest sequence number, leaves the other books, and does the same
for every iteration. -/
theorem rebuildOrderbook_sums (print : ℚ → String) (h : s.Positive parse) {env : Env}
    (henv : ∀ a, s.openOrders a ≠ [] → a ∈ env.keys) (marketId : String) :
    s.Rebuilt parse print env marketId (s.rebuildOrderbook parse print env marketId) ∧
    ∀ env' : Env, (∀ a, s.openOrders a ≠ [] → a ∈ env'.keys) →
      s.rebuildOrderbook parse print env' marketId =
        s.rebuildOrderbook parse print env marketId := by
  have hbooks := rebuildOrderbook_eq parse print s env marketId
  obtain ⟨hbids, hasks⟩ := (s.state parse).levels_sorted env marketId
  refine ⟨⟨⟨_, _, ?_, hbids, hasks, h.aggregates henv marketId .buy,
    h.aggregates henv marketId .sell⟩, ?_, rfl⟩, ?_⟩
  · rw [hbooks, Function.update_self]
  · intro other hother
    rw [hbooks, Function.update_of_ne hother]
  · intro env' henv'
    have hstate {env : Env} (henv : ∀ a, s.openOrders a ≠ [] → a ∈ env.keys) :
        ∀ a, (s.state parse).openOrders a ≠ [] → a ∈ env.keys :=
      fun a ha => henv a fun hnil => ha (by simp [state, hnil])
    have hlevels := levels_eq_of_covers (hstate henv') (hstate henv) marketId
    have hsame : (s.rebuildOrderbook parse print env' marketId).orderbooks =
        (s.rebuildOrderbook parse print env marketId).orderbooks := by
      rw [rebuildOrderbook_eq, hbooks, hlevels]
    exact Books.ext rfl hsame

/-- Another iteration meets the same orders. -/
theorem Fits.of_covers {k : ℕ} {env env' : Env} {marketId : String}
    (h : s.Fits parse k env marketId) (henv : ∀ a, s.openOrders a ≠ [] → a ∈ env.keys)
    (henv' : ∀ a, s.openOrders a ≠ [] → a ∈ env'.keys) : s.Fits parse k env' marketId := by
  have hperm (side : Side) : (s.limitOrders env marketId side).Perm
      (s.limitOrders env' marketId side) :=
    (flatMap_perm_of_covers env.nodup env'.nodup henv henv').filter _
  refine ⟨fun side o ho => h.scale side o ((hperm side).mem_iff.mpr ho), fun side price => ?_⟩
  have hsum : s.levelQty parse env marketId side price =
      s.levelQty parse env' marketId side price :=
    (((hperm side).filter _).map _).sum_eq
  rw [← hsum]
  exact h.total side price

section Rounding
variable {round : ℚ → ℚ} {k : ℕ}

theorem Fits.levelsFit {env : Env} {marketId : String} (h : s.Fits parse k env marketId)
    (hpos : s.Positive parse) (side : Side) : Decimal.LevelsFit k SortedMap.empty
      ((s.state parse).restingOrders env marketId side) := by
  refine .of_empty ?_ fun price => ?_
  · rw [hpos.restingOrders]
    intro x hx
    obtain ⟨o, ho, rfl⟩ := List.mem_map.mp hx
    exact h.scale side o ho
  · rw [hpos.restingAt_eq]
    exact h.total side price

/-- Where the levels fit, nothing is rounded. -/
theorem Fits.rebuildOrderbook_eq (hround : rustDecimal.IsRounding round) (print : ℚ → String)
    {env : Env} {marketId : String} (h : s.Fits parse k env marketId)
    (hpos : s.Positive parse) :
    Decimal.rebuildBooks parse print round s env marketId =
      .ok (s.rebuildOrderbook parse print env marketId) := by
  have hbids := h.levelsFit hpos .buy
  have hasks := h.levelsFit hpos .sell
  rw [restingOrders_state] at hbids hasks
  unfold Decimal.rebuildBooks rebuildOrderbook
  dsimp only
  rw [Decimal.foldlM_addOrder parse hround s hbids hasks]
  rfl

/-- A rebuild adds up the limit orders of a market in the arithmetic of `Decimal`: what they have
left is of one scale, and fits at every price. -/
theorem rebuildOrderbook_aggregates (hround : rustDecimal.IsRounding round) (print : ℚ → String)
    {env : Env} {marketId : String} (h : s.Positive parse) (hfits : s.Fits parse k env marketId)
    (henv : ∀ a, s.openOrders a ≠ [] → a ∈ env.keys) :
    ∃ s', Decimal.rebuildBooks parse print round s env marketId = .ok s' ∧
      s.Rebuilt parse print env marketId s' ∧
      ∀ env' : Env, (∀ a, s.openOrders a ≠ [] → a ∈ env'.keys) →
        Decimal.rebuildBooks parse print round s env' marketId = .ok s' := by
  obtain ⟨hrebuilt, hiter⟩ := rebuildOrderbook_sums print h henv marketId
  refine ⟨_, hfits.rebuildOrderbook_eq hround print h, hrebuilt, fun env' henv' => ?_⟩
  rw [(hfits.of_covers henv henv').rebuildOrderbook_eq hround print h, hiter env' henv']

end Rounding

end Books

end Strings

/-- Some spellings of prices and quantities. -/
def spellings (str : String) : Option ℚ :=
  if str = "100" ∨ str = "100.0" ∨ str = "100.00" then some 100
  else if str = "99.5" then some (199/2)
  else if str = "10" then some 10
  else if str = "1" then some 1
  else if str = "0.0000000000000000000000000004" then some (4/10^28)
  else none

def printed (q : ℚ) : String :=
  if q = 100 then "100" else if q = 10 then "10" else if q = 3 then "3" else "?"

/-- One price in three spellings, from two accounts. -/
def threeSpellings : Books where
  openOrders a :=
    if a = 1 then [⟨1, "btc-usd", "buy", "limit", "100", "1", "1", 1, none⟩,
      ⟨2, "btc-usd", "buy", "limit", "100.00", "1", "1", 2, none⟩]
    else if a = 2 then [⟨3, "btc-usd", "buy", "limit", "100.0", "1", "1", 3, none⟩]
    else []
  orderbooks _ := ⟨0, [], []⟩

theorem mem_threeSpellings {a : Address} {o : OrderInfo} (ho : o ∈ threeSpellings.openOrders a) :
    (a = 1 ∨ a = 2) ∧ spellings o.price = some 100 ∧ spellings o.remaining = some 1 := by
  simp only [threeSpellings] at ho
  split_ifs at ho with h1 h2
  · simp only [List.mem_cons, List.not_mem_nil, or_false] at ho
    rcases ho with rfl | rfl
    · exact ⟨Or.inl h1, by decide, by decide⟩
    · exact ⟨Or.inl h1, by decide, by decide⟩
  · obtain rfl := List.mem_singleton.mp ho
    exact ⟨Or.inr h2, by decide, by decide⟩
  · simp at ho

theorem threeSpellings_positive : threeSpellings.Positive spellings := by
  intro a o ho _
  obtain ⟨-, hprice, hrem⟩ := mem_threeSpellings ho
  exact ⟨100, 1, hprice, by norm_num, hrem, by norm_num⟩

theorem threeSpellings_keys {env : Env} (h1 : 1 ∈ env.keys) (h2 : 2 ∈ env.keys) :
    ∀ a, threeSpellings.openOrders a ≠ [] → a ∈ env.keys := by
  intro a ha
  obtain ⟨o, ho⟩ := List.exists_mem_of_ne_nil _ ha
  rcases (mem_threeSpellings ho).1 with rfl | rfl
  · exact h1
  · exact h2

/-- Whole quantities, and at most three orders. -/
theorem threeSpellings_fits : threeSpellings.Fits spellings 0 (twoAccounts 0) "btc-usd" := by
  have hone (side : Side) : ∀ o ∈ threeSpellings.limitOrders (twoAccounts 0) "btc-usd" side,
      (spellings o.remaining).getD 0 = 1 := by
    intro o ho
    obtain ⟨⟨a, ha⟩, -⟩ := Books.isLimit_of_mem ho
    rw [(mem_threeSpellings ha).2.2]
    rfl
  refine ⟨fun side o ho => ⟨1, by rw [hone side o ho]; norm_num⟩, fun side price => ?_⟩
  have hsum : threeSpellings.levelQty spellings (twoAccounts 0) "btc-usd" side price =
      ((threeSpellings.limitOrders (twoAccounts 0) "btc-usd" side).filter
        fun o => spellings o.price = some price).length := by
    unfold Books.levelQty
    rw [List.map_congr_left fun o ho => hone side o (List.mem_filter.mp ho).1, List.map_const',
      List.sum_replicate, nsmul_eq_mul, mul_one]
  have hlen : ((threeSpellings.limitOrders (twoAccounts 0) "btc-usd" side).filter
      fun o => spellings o.price = some price).length ≤ 3 := by
    refine (List.length_filter_le _ _).trans ((List.length_filter_le _ _).trans ?_)
    decide
  obtain ⟨n, hn⟩ : ∃ n, ((threeSpellings.limitOrders (twoAccounts 0) "btc-usd" side).filter
      fun o => spellings o.price = some price).length = n := ⟨_, rfl⟩
  rw [hn] at hsum hlen
  rw [hsum]
  refine ⟨by decide, ⟨n, by simp⟩, ?_⟩
  have hle : (n:ℚ) ≤ 3 := by exact_mod_cast hlen
  have hlimit : (3:ℚ) < (rustDecimal.limit : ℕ) := by norm_num [rustDecimal]
  simpa using hle.trans_lt hlimit

theorem rebuildOrderbook_aggregates_threeSpellings :
    ∃ s', Decimal.rebuildBooks spellings printed rustDecimal.halfEven threeSpellings (twoAccounts 0)
        "btc-usd" = .ok s' ∧
      threeSpellings.Rebuilt spellings printed (twoAccounts 0) "btc-usd" s' ∧
      Decimal.rebuildBooks spellings printed rustDecimal.halfEven threeSpellings
        ⟨0, [2, 1], by decide⟩ "btc-usd" = .ok s' := by
  obtain ⟨s', hs', hrebuilt, hiter⟩ := Books.rebuildOrderbook_aggregates
    rustDecimal.halfEven_isRounding printed threeSpellings_positive threeSpellings_fits
    (threeSpellings_keys (by decide) (by decide))
  exact ⟨s', hs', hrebuilt, hiter ⟨0, [2, 1], by decide⟩
    (threeSpellings_keys (by decide) (by decide))⟩

/-- A bid of ten, and one of four units of the last decimal place. -/
def dustBids : Books where
  openOrders a :=
    if a = 1 then [⟨1, "btc-usd", "buy", "limit", "100", "10", "10", 1, none⟩]
    else if a = 2 then [⟨2, "btc-usd", "buy", "limit", "100", "0.0000000000000000000000000004",
      "0.0000000000000000000000000004", 2, none⟩]
    else []
  orderbooks _ := ⟨0, [], []⟩

theorem dustBids_positive : dustBids.Positive spellings := by
  intro a o ho _
  simp only [dustBids] at ho
  split_ifs at ho
  · obtain rfl := List.mem_singleton.mp ho
    exact ⟨100, 10, by decide, by norm_num, by decide, by norm_num⟩
  · obtain rfl := List.mem_singleton.mp ho
    exact ⟨100, 4/10^28, by decide, by norm_num, by decide +kernel, by norm_num⟩
  · simp at ho

/-- The level is stored as ten. -/
theorem dustBids_stored : ∃ s', Decimal.rebuildBooks spellings printed rustDecimal.halfEven dustBids
    (twoAccounts 0) "btc-usd" = .ok s' ∧ (s'.orderbooks "btc-usd").bids = [("100","10")] := by
  have hsome : (Decimal.rebuildBooks spellings printed rustDecimal.halfEven dustBids
      (twoAccounts 0) "btc-usd").toOption.isSome = true := by decide +kernel
  obtain ⟨x, hx⟩ := Option.isSome_iff_exists.mp hsome
  have hbids : ∀ x ∈ (Decimal.rebuildBooks spellings printed rustDecimal.halfEven dustBids
      (twoAccounts 0) "btc-usd").toOption, (x.orderbooks "btc-usd").bids = [("100","10")] := by
    decide +kernel
  exact ⟨x, Decimal.toOption_eq_some.mp hx, hbids x hx⟩

/-- `rebuild_orderbook` on the orders above. A panic leaves the books as they are. -/
def rebuildSpelled (s : Books) : Books :=
  ((Decimal.rebuildBooks spellings printed rustDecimal.halfEven s (twoAccounts 0)
    "btc-usd").toOption).getD s

theorem rebuildSpelled_eq {s : Books} (h : s.openOrders = threeSpellings.openOrders) :
    rebuildSpelled s = s.rebuildOrderbook spellings printed (twoAccounts 0) "btc-usd" := by
  obtain ⟨orders, books⟩ := s
  subst h
  have hfits : (⟨threeSpellings.openOrders, books⟩ : Books).Fits spellings 0 (twoAccounts 0)
      "btc-usd" := ⟨threeSpellings_fits.scale, threeSpellings_fits.total⟩
  unfold rebuildSpelled
  rw [hfits.rebuildOrderbook_eq rustDecimal.halfEven_isRounding printed threeSpellings_positive]
  rfl

/-- Rebuilds leave the orders and count up to the largest sequence number. -/
theorem rebuildSpelled_iterate (n : ℕ) :
    (rebuildSpelled^[n] threeSpellings).openOrders = threeSpellings.openOrders ∧
      ((rebuildSpelled^[n] threeSpellings).orderbooks "btc-usd").sequence = min n (2^64-1) := by
  induction n with
  | zero => exact ⟨rfl, rfl⟩
  | succ n ih =>
    obtain ⟨horders, hsequence⟩ := ih
    rw [Function.iterate_succ_apply', rebuildSpelled_eq horders]
    refine ⟨horders, ?_⟩
    rw [Books.rebuildOrderbook_eq, Function.update_self]
    dsimp only
    rw [hsequence]
    omega

theorem rebuildSpelled_stays {n : ℕ} (h : 2^64-1 ≤ n) :
    let s := rebuildSpelled^[n] threeSpellings
    s.Positive spellings ∧ (∀ a, s.openOrders a ≠ [] → a ∈ (twoAccounts 0).keys) ∧
      ((rebuildSpelled s).orderbooks "btc-usd").sequence ≠
        (s.orderbooks "btc-usd").sequence+1 := by
  intro s
  obtain ⟨horders, hcount⟩ := rebuildSpelled_iterate n
  have hnext := (rebuildSpelled_iterate (n+1)).2
  rw [Function.iterate_succ_apply'] at hnext
  refine ⟨?_, ?_, ?_⟩
  · unfold Books.Positive
    rw [horders]
    exact threeSpellings_positive
  · rw [horders]
    exact threeSpellings_keys (by decide) (by decide)
  · rw [hnext, hcount]
    omega

/-- After enough rebuilds the sequence number stays, and a level of ten and some dust is stored as
ten. -/
theorem sequence_stays_and_dust_is_lost :
    (∃ s : Books, s.Positive spellings ∧ (∀ a, s.openOrders a ≠ [] → a ∈ (twoAccounts 0).keys) ∧
      ((rebuildSpelled s).orderbooks "btc-usd").sequence ≠
        (s.orderbooks "btc-usd").sequence+1) ∧
    dustBids.Positive spellings ∧
      dustBids.levelQty spellings (twoAccounts 0) "btc-usd" .buy 100 = 10+4/10^28 ∧
      ∃ s', Decimal.rebuildBooks spellings printed rustDecimal.halfEven dustBids (twoAccounts 0)
        "btc-usd" = .ok s' ∧ (s'.orderbooks "btc-usd").bids = [("100","10")] :=
  ⟨⟨_, rebuildSpelled_stays le_rfl⟩, dustBids_positive, by decide +kernel, dustBids_stored⟩

end Perplex.Edge
