import Perplex.BookUncrossed
import Perplex.BookLedger

/-! Price-time priority. One side of the book is a single queue of quotes, best price first
and oldest first within a price; what the level-by-level loop does to it is one greedy pass. -/
namespace Perplex.Book

/-- A resting order and the price of the level it rests at. -/
abbrev Quote := ℚ × Order

/-- The quote after `qty` of it has been traded. -/
def Quote.less (x : Quote) (qty : ℚ) : Quote :=
  (x.1,{ x.2 with remaining := x.2.remaining-qty })

/-- The orders of some levels as one queue. -/
def quotesIn (ls : List (ℚ × Queue)) : List Quote :=
  ls.flatMap (fun l => l.2.map (fun o => (l.1,o)))

def Orderbook.quotes (b : Orderbook) (side : Side) : List Quote := quotesIn (b.levelsOf side)

/-- Own quotes are removed without a fill under `CancelBoth`. -/
def SelfTradeMode.skips (mode : SelfTradeMode) (taker : Order) (x : Quote) : Bool :=
  decide (mode = .cancelBoth ∧ x.2.owner = taker.owner)

/-- The greedy pass of `taker` with quantity `r` over quotes. -/
def greedy (mode : SelfTradeMode) (taker : Order) : ℚ → List Quote → Drawing Quote :=
  drawDown (fun x => x.2.remaining) (mode.skips taker) Quote.less

theorem greedy_of_nonpos {mode : SelfTradeMode} {taker : Order} {r : ℚ} (h : r ≤ 0)
    (xs : List Quote) : greedy mode taker r xs = ⟨[], xs, r⟩ := drawDown_of_nonpos _ _ _ h xs

theorem greedy_append (mode : SelfTradeMode) (taker : Order) (r : ℚ) (xs ys : List Quote) :
    greedy mode taker r (xs++ys) = (greedy mode taker r xs).andThen
      (greedy mode taker (greedy mode taker r xs).amount ys) := drawDown_append _ _ _ r xs ys

/-- The fill made when `taker` draws from a quote. -/
def fillOf (market : MarketId) (taker : Order) (id : ℕ) (t : Quote × ℚ) : Fill where
  id := id
  market := market
  makerOrderId := t.1.2.id
  takerOrderId := taker.id
  makerUser := t.1.2.owner
  takerUser := taker.owner
  price := t.1.1
  qty := t.2
  takerSide := taker.side
  tsNs := taker.tsNs

/-- The fills of successive draws, numbered behind `n`. -/
def fillsFrom (market : MarketId) (taker : Order) (n : ℕ) (draws : List (Quote × ℚ)) :
    List Fill := draws.mapIdx (fun i t => fillOf market taker (n+1+i) t)

theorem fillsFrom_append (market : MarketId) (taker : Order) (n : ℕ)
    (xs ys : List (Quote × ℚ)) : fillsFrom market taker n (xs++ys) =
      fillsFrom market taker n xs++fillsFrom market taker (n+xs.length) ys := by
  unfold fillsFrom
  rw [List.mapIdx_append]
  congr 2
  funext i t
  congr 1
  omega

theorem greedy_congr {t t' : Order} (h : ∃ r, t' = { t with remaining := r })
    (mode : SelfTradeMode) : greedy mode t' = greedy mode t := by
  obtain ⟨r, rfl⟩ := h
  rfl

theorem fillsFrom_congr {t t' : Order} (h : ∃ r, t' = { t with remaining := r })
    (market : MarketId) : fillsFrom market t' = fillsFrom market t := by
  obtain ⟨r, rfl⟩ := h
  rfl

/-- Crossing has made the fills of these draws between two passes. -/
structure Traded (market : MarketId) (s s' : Pass) (d : Drawing Quote) : Prop where
  amount : s'.taker.remaining = d.amount
  fills : s'.fills = s.fills++fillsFrom market s.taker s.nextFillId d.draws
  nextFillId : s'.nextFillId = s.nextFillId+d.draws.length

theorem Traded.refl (market : MarketId) (s : Pass) (left : List Quote) :
    Traded market s s ⟨[], left, s.taker.remaining⟩ := ⟨rfl, by simp [fillsFrom], rfl⟩

theorem Traded.trans {market : MarketId} {s s' s'' : Pass} {d d' : Drawing Quote}
    (h : Traded market s s' d) (h' : Traded market s' s'' d')
    (ht : ∃ r, s'.taker = { s.taker with remaining := r }) :
    Traded market s s'' (d.andThen d') := by
  refine ⟨h'.amount, ?_, ?_⟩
  · rw [h'.fills, h.fills, Drawing.andThen, fillsFrom_append, h.nextFillId, fillsFrom_congr ht,
      List.append_assoc]
  · rw [h'.nextFillId, h.nextFillId, Drawing.andThen, List.length_append, add_assoc]

section Sweep
variable (mode : SelfTradeMode) (market : MarketId)

theorem skips_of_dropMaker {price : ℚ} {m t : Order} (ha : mode.action m t = .dropMaker) :
    mode.skips t (price,m) = true := by
  by_cases ho : m.owner = t.owner <;> cases mode <;>
    simp_all [SelfTradeMode.action, SelfTradeMode.skips]

theorem skips_of_proceed {price : ℚ} {m t : Order} (ha : mode.action m t = .proceed) :
    mode.skips t (price,m) = false := by
  by_cases ho : m.owner = t.owner <;> cases mode <;>
    simp_all [SelfTradeMode.action, SelfTradeMode.skips]

/-- A level's loop that ends without an error is a greedy pass over its queue. -/
theorem sweepQueue_greedy (price : ℚ) (s : Pass) (q : Queue)
    (he : (sweepQueue mode market price s q).err = none) :
    let d := greedy mode s.taker s.taker.remaining (q.map fun o => (price,o))
    (sweepQueue mode market price s q).left.map (fun o => (price,o)) = d.left ∧
      Traded market s (sweepQueue mode market price s q).pass d := by
  fun_induction sweepQueue mode market price s q with
  | case1 s => exact ⟨rfl, .refl market s []⟩
  | case2 => simp at he
  | case3 s maker rest hr ha ih =>
    -- an own maker goes without a fill, in both
    obtain ⟨hleft, htraded⟩ := ih he
    rw [List.map_cons, greedy, drawDown_skip _ _ _ hr (skips_of_dropMaker mode ha)]
    exact ⟨hleft, htraded.amount, htraded.fills, htraded.nextFillId⟩
  | case4 s maker rest hr ha hm ih =>
    obtain ⟨hleft, htraded⟩ := ih he
    rw [List.map_cons, greedy, drawDown_used_up _ _ _ hr (skips_of_proceed mode ha) hm]
    -- one fill of the whole maker, and then the pass over the others
    have hfill : Traded market s ((s.fill market price maker).forget maker)
        ⟨[((price,maker),maker.remaining)], [], s.taker.remaining-maker.remaining⟩ := by
      refine ⟨?_, ?_, rfl⟩
      · simp [Pass.forget, Pass.fill, min_eq_right hm]
      · simp [Pass.forget, Pass.fill, fillsFrom, fillOf, min_eq_right hm]
    have hrest := hfill.trans htraded ⟨_, rfl⟩
    rw [hfill.amount] at hleft hrest
    exact ⟨hleft, hrest⟩
  | case5 s maker rest hr ha hm =>
    -- the taker is used up on this maker
    have hlt := not_le.mp hm
    rw [List.map_cons, greedy, drawDown_enough _ _ _ hr (skips_of_proceed mode ha) hlt]
    refine ⟨rfl, ?_, ?_, rfl⟩
    · simp [Pass.fill, min_eq_left hlt.le]
    · simp [Pass.fill, fillsFrom, fillOf, min_eq_left hlt.le]
  | case6 s maker rest hr =>
    rw [greedy_of_nonpos (not_lt.mp hr)]
    exact ⟨rfl, .refl market s _⟩

theorem quotesIn_cons (key : ℚ) (q : Queue) (ls : List (ℚ × Queue)) :
    quotesIn ((key,q) :: ls) = q.map (fun o => (key,o))++quotesIn ls := rfl

theorem quotesIn_append (ls ls' : List (ℚ × Queue)) :
    quotesIn (ls++ls') = quotesIn ls++quotesIn ls' := List.flatMap_append

/-- The outer loop composes the passes of the levels it crosses into one. -/
theorem sweepLevels_greedy (s : Pass) (ls : List (ℚ × Queue))
    (he : (sweepLevels id mode market s ls).err = none) :
    let d := greedy mode s.taker s.taker.remaining
      (quotesIn (ls.takeWhile fun l => s.taker.crosses l.1))
    quotesIn (sweepLevels id mode market s ls).levels =
        d.left++quotesIn (ls.dropWhile fun l => s.taker.crosses l.1) ∧
      Traded market s (sweepLevels id mode market s ls).pass d := by
  induction ls generalizing s with
  | nil => exact ⟨rfl, .refl market s []⟩
  | cons e rest ih =>
    obtain ⟨key, q⟩ := e
    by_cases hg : 0 < s.taker.remaining ∧ s.taker.crosses key = true
    · obtain ⟨hr, hx⟩ := hg
      rw [List.takeWhile_cons_of_pos (by simpa using hx),
        List.dropWhile_cons_of_pos (by simpa using hx), quotesIn_cons, greedy_append]
      simp only [sweepLevels, id, hr, hx, and_self, if_true] at he ⊢
      split_ifs at he ⊢ with herr hl
      · rw [show (sweepQueue mode market key s q).err = none from he] at herr
        simp at herr
      · -- the level is used up, and the pass goes on with what is left of the taker
        obtain ⟨hleft, htraded⟩ := sweepQueue_greedy mode market key s q (by simpa using herr)
        have ht : ∃ r, (sweepQueue mode market key s q).pass.taker =
            { s.taker with remaining := r } := ⟨_, sweepQueue_taker mode market key s q⟩
        obtain ⟨hlevels, hrest⟩ := ih (sweepQueue mode market key s q).pass he
        simp only [sweepQueue_crosses, greedy_congr ht, htraded.amount] at hlevels hrest
        rw [List.isEmpty_iff.mp hl] at hleft
        refine ⟨?_, htraded.trans hrest ht⟩
        rw [hlevels, Drawing.andThen, ← hleft]
        rfl
      · obtain ⟨hleft, htraded⟩ := sweepQueue_greedy mode market key s q (by simpa using herr)
        -- a queue that is not used up has stopped the taker
        have hdone := sweepQueue_left_ne_nil mode market key s q (by simpa using herr)
          (by simpa using hl)
        rw [htraded.amount] at hdone
        rw [greedy_of_nonpos hdone]
        refine ⟨?_, htraded.amount, ?_, ?_⟩
        · rw [Drawing.andThen, ← hleft, quotesIn_cons, List.append_assoc, ← quotesIn_append,
            List.takeWhile_append_dropWhile]
        · simpa only [Drawing.andThen, List.append_nil] using htraded.fills
        · simpa only [Drawing.andThen, List.append_nil] using htraded.nextFillId
    · -- the loop ends here: the taker is used up, or this level and those behind do not cross
      have hnone : greedy mode s.taker s.taker.remaining
          (quotesIn (((key,q) :: rest).takeWhile fun l => s.taker.crosses l.1)) =
          ⟨[], quotesIn (((key,q) :: rest).takeWhile fun l => s.taker.crosses l.1),
            s.taker.remaining⟩ := by
        by_cases hr : 0 < s.taker.remaining
        · have hx : ¬ s.taker.crosses key = true := fun hx => hg ⟨hr, hx⟩
          rw [List.takeWhile_cons_of_neg (by simpa using hx)]
          rfl
        · exact greedy_of_nonpos (not_lt.mp hr) _
      rw [hnone]
      simp only [sweepLevels, id, if_neg hg]
      refine ⟨?_, .refl market s _⟩
      rw [← quotesIn_append, List.takeWhile_append_dropWhile]

end Sweep

/-- Crossing leaves makers at their levels. -/
theorem sweepLevels_price (mode : SelfTradeMode) (market : MarketId) (s : Pass)
    (ls : List (ℚ × Queue)) : ∀ l' ∈ (sweepLevels id mode market s ls).levels,
      ∃ l ∈ ls, l.1 = l'.1 ∧ ∀ o ∈ l'.2, ∃ m ∈ l.2, m.price = o.price := by
  have hself : ∀ l : ℚ × Queue, ∀ o ∈ l.2, ∃ m ∈ l.2, m.price = o.price :=
    fun l o ho => ⟨o, ho, rfl⟩
  induction ls generalizing s with
  | nil => intro l' hl'; simp [sweepLevels] at hl'
  | cons e rest ih =>
    obtain ⟨key, q⟩ := e
    have hq := sweepQueue_map mode market key (f := Order.price) s q fun _ _ => rfl
    simp only [sweepLevels, id]
    intro l' hl'
    split_ifs at hl' with h1 h2 h3
    · rcases List.mem_cons.mp hl' with rfl | hl'
      · -- after an error the makers that were passed are still in the queue
        refine ⟨(key,q), List.mem_cons_self, rfl, ?_⟩
        intro o ho
        have hmem := List.mem_map_of_mem (f := Order.price) ho
        rw [List.map_append, ← hq] at hmem
        exact List.mem_map.mp hmem
      · exact ⟨l', List.mem_cons_of_mem _ hl', rfl, hself l'⟩
    · obtain ⟨l, hl, h⟩ := ih _ l' hl'
      exact ⟨l, List.mem_cons_of_mem _ hl, h⟩
    · rcases List.mem_cons.mp hl' with rfl | hl'
      · refine ⟨(key,q), List.mem_cons_self, rfl, ?_⟩
        intro o ho
        have hmem := List.mem_append_right
          ((sweepQueue mode market key s q).gone.map Order.price)
          (List.mem_map_of_mem (f := Order.price) ho)
        rw [← hq] at hmem
        exact List.mem_map.mp hmem
      · exact ⟨l', List.mem_cons_of_mem _ hl', rfl, hself l'⟩
    · exact ⟨l', hl', rfl, hself l'⟩

namespace Orderbook

/-- Every order rests at the level of its own price. -/
def AtPrice (b : Orderbook) : Prop := ∀ side, ∀ l ∈ b.levelsOf side, ∀ o ∈ l.2, o.price = l.1

theorem crossed_atPrice {b : Orderbook} (h : b.AtPrice) (order : Order) :
    (b.crossed order).AtPrice := by
  obtain ⟨-, -, -, -, -, hopp, hown, -⟩ := cross_spec b (taker order)
  intro side l hl o ho
  rcases Side.eq_or_eq_opposite side order.side with rfl | rfl
  · rw [show (b.crossed order).levelsOf order.side = _ from hown] at hl
    exact h _ l hl o ho
  · rw [show (b.crossed order).levelsOf order.side.opposite = _ from hopp] at hl
    obtain ⟨l₀, hl₀, hkey, hall⟩ := sweepLevels_price b.selfTrade b.market _ _ l hl
    obtain ⟨m, hm, hprice⟩ := hall o ho
    rw [← hprice, ← hkey]
    exact h _ l₀ hl₀ m hm

theorem rest_atPrice {b : Orderbook} (h : b.AtPrice) (o : Order) : (b.rest o).AtPrice := by
  intro side l hl x hx
  by_cases hs : side = o.side
  · subst hs
    rcases rest_mem_levelsOf hl with hl | rfl | ⟨q, hq, rfl⟩
    · exact h _ l hl x hx
    · obtain rfl : x = o := by simpa using hx
      rfl
    · rcases List.mem_append.mp hx with hx | hx
      · exact h _ _ hq x hx
      · obtain rfl : x = o := by simpa using hx
        rfl
  · rw [rest_levelsOf_other hs] at hl
    exact h side l hl x hx

theorem cancel_atPrice {b : Orderbook} (h : b.AtPrice) (id : OrderId) :
    ((b.cancel id).2).AtPrice := by
  cases hid : b.byId id with
  | none => rwa [cancel_unknown hid]
  | some s =>
    intro side l hl o ho
    by_cases hs : side = s
    · subst hs
      rcases cancel_mem_levelsOf hid hl with hl | ⟨q, hq, -, heq⟩
      · exact h side l hl o ho
      · rw [heq] at ho
        exact h side _ hq o (List.mem_of_mem_eraseP ho)
    · rw [cancel_levelsOf_other hid hs] at hl
      exact h side l hl o ho

theorem submit_atPrice {b : Orderbook} (h : b.AtPrice) (order : Order)
    (tracker : PositionTracker) : ((b.submit order tracker).2).AtPrice := by
  apply submit_invariant h
  · intro _
    exact crossed_atPrice h order
  · intro hc _ _ _
    exact rest_atPrice hc _

end Orderbook

/-- In every book reached the price of a quote is the price of its order. -/
theorem run_quotes_price (market : MarketId) (mode : SelfTradeMode) (cmds : List Cmd)
    (side : Side) : ∀ x ∈ (run (start market mode) cmds).quotes side, x.2.price = x.1 := by
  have hrun : (run (start market mode) cmds).AtPrice := by
    apply run_invariant
    · exact fun b order tracker hb => Orderbook.submit_atPrice hb order tracker
    · exact fun b id hb => Orderbook.cancel_atPrice hb id
    · intro side l hl
      simp at hl
  intro x hx
  obtain ⟨l, hl, hx⟩ := List.mem_flatMap.mp hx
  obtain ⟨o, ho, rfl⟩ := List.mem_map.mp hx
  exact hrun side l hl o ho

theorem quotesIn_filter (p : ℚ → Bool) (ls : List (ℚ × Queue)) :
    quotesIn (ls.filter fun l => p l.1) = (quotesIn ls).filter fun x => p x.1 := by
  induction ls with
  | nil => rfl
  | cons l ls ih =>
    obtain ⟨key, q⟩ := l
    rw [quotesIn_cons, List.filter_append]
    cases hp : p key with
    | true =>
      have hall : (q.map fun o => (key,o)).filter (fun x => p x.1) = q.map fun o => (key,o) :=
        List.filter_eq_self.mpr (by simp [hp])
      rw [List.filter_cons_of_pos (by simpa using hp), quotesIn_cons, ih, hall]
    | false =>
      have hnone : (q.map fun o => (key,o)).filter (fun x => p x.1) = [] :=
        List.filter_eq_nil_iff.mpr (by simp [hp])
      rw [List.filter_cons_of_neg (by simp [hp]), ih, hnone, List.nil_append]

namespace Orderbook

theorem rest_quotes (b : Orderbook) (o : Order) : ∃ front back,
    b.quotes o.side = front++back ∧ (b.rest o).quotes o.side = front++(o.price,o) :: back := by
  unfold rest quotes quotesIn
  cases hs : o.side with
  | sell => exact upsertList_flat_insert (fun k o => (k,o)) o.price o b.asks.entries
  | buy =>
    simp only [levelsOf, List.flatMap_map]
    exact upsertList_flat_insert (fun k o => (OrderDual.ofDual k,o)) (OrderDual.toDual o.price) o
      b.bids.entries

/-- The greedy pass of an order over the quotes it crosses. -/
def priorityPass (b : Orderbook) (order : Order) : Drawing Quote :=
  greedy b.selfTrade order order.qty
    ((b.quotes order.side.opposite).filter fun x => order.crosses x.1)

/-- The levels in front are those the order crosses. -/
theorem levels_crossed (b : Orderbook) (order : Order) :
    let ls := b.levelsOf order.side.opposite
    ls.takeWhile (fun l => order.crosses l.1) = ls.filter (fun l => order.crosses l.1) ∧
      ls.dropWhile (fun l => order.crosses l.1) = ls.filter (fun l => !order.crosses l.1) :=
  takeWhile_eq_filter_of_pairwise
    ((b.levelsOf_sorted order.side.opposite).imp fun hac => Order.crosses_of_better hac)

theorem quotes_crossed (b : Orderbook) (order : Order) : b.quotes order.side.opposite =
    ((b.quotes order.side.opposite).filter fun x => order.crosses x.1)++
      ((b.quotes order.side.opposite).filter fun x => !order.crosses x.1) := by
  obtain ⟨hnear, hfar⟩ := b.levels_crossed order
  unfold quotes
  rw [← quotesIn_filter, ← quotesIn_filter fun p => !order.crosses p, ← hnear, ← hfar,
    ← quotesIn_append, List.takeWhile_append_dropWhile]

/-- Crossing that ends without an error is that pass. -/
theorem crossed_priority {b : Orderbook} {order : Order}
    (he : (b.sweep (taker order)).err = none) :
    (b.crossed order).quotes order.side.opposite = (b.priorityPass order).left++
        ((b.quotes order.side.opposite).filter fun x => !order.crosses x.1) ∧
      Traded b.market (b.pass (taker order)) (b.sweep (taker order)).pass
        (b.priorityPass order) := by
  obtain ⟨-, -, -, -, -, hopp, -⟩ := cross_spec b (taker order)
  obtain ⟨hnear, hfar⟩ := b.levels_crossed order
  obtain ⟨hlevels, htraded⟩ := sweepLevels_greedy b.selfTrade b.market (b.pass (taker order))
    (b.levelsOf order.side.opposite) he
  have hcrosses : (b.pass (taker order)).taker.crosses = order.crosses := rfl
  rw [hcrosses, hnear, quotesIn_filter] at htraded
  rw [hcrosses, hnear, hfar, quotesIn_filter,
    quotesIn_filter fun p => !order.crosses p] at hlevels
  refine ⟨?_, htraded⟩
  unfold quotes
  rw [show (b.crossed order).levelsOf order.side.opposite = _ from hopp]
  exact hlevels

/-- What price-time priority asks of a call that returns `out` and leaves `b'`. -/
structure Prioritised (b b' : Orderbook) (order : Order) (out : SubmitOutcome) : Prop where
  fills : out.fills = fillsFrom b.market order b.nextFillId (b.priorityPass order).draws
  remaining : out.remaining = (b.priorityPass order).amount
  total : (out.fills.map Fill.qty).sum+out.remaining = order.qty
  not_own : b.selfTrade ≠ .allow → ∀ f ∈ out.fills, f.makerUser ≠ order.owner
  /-- Fully filled and own quotes are gone, at most one behind them is filled in part, and
  all others are as they were. -/
  opposite : ∃ (gone : List Quote) (part : Option (Quote × ℚ)) (back : List Quote),
    b.quotes order.side.opposite = gone++(part.map Prod.fst).toList++back ∧
    b'.quotes order.side.opposite = (part.map fun t => t.1.less t.2).toList++back ∧
    (b.priorityPass order).draws =
      (gone.filter fun x => !b.selfTrade.skips order x).map (fun x => (x,x.2.remaining))++
        part.toList ∧
    ∀ t ∈ part, 0 < t.2 ∧ t.2 < t.1.2.remaining
  /-- On its own side the order joins the others, if it rests. -/
  own : ∃ front back, b.quotes order.side = front++back ∧ b'.quotes order.side =
    front++(out.resting.map fun _ => (order.price,{ order with remaining := out.remaining })).toList
      ++back

/-- A call that succeeds has made the fills of one greedy pass over the other side, in any
book and self-trade mode. -/
theorem submit_greedy {b b' : Orderbook} {order : Order} {tracker : PositionTracker}
    {out : SubmitOutcome} (hok : b.submit order tracker = (.ok out,b')) :
    b.Prioritised b' order out := by
  have h := submit_ok hok
  obtain ⟨hquotes, htraded⟩ := crossed_priority h.swept
  obtain ⟨-, -, -, -, -, -, hown, -⟩ := cross_spec b (taker order)
  have hside : (b.crossed order).quotes order.side = b.quotes order.side := congrArg quotesIn hown
  -- a remainder rests on the other side of what was crossed
  have hopp : b'.quotes order.side.opposite = (b.crossed order).quotes order.side.opposite := by
    rcases h.book with ⟨-, rfl⟩ | ⟨-, rfl⟩
    · rfl
    · exact congrArg quotesIn (rest_levelsOf_other (Side.opposite_ne order.side))
  refine ⟨?_, ?_, ?_, ?_, ?_, ?_⟩
  · rw [h.fills, htraded.fills]
    rfl
  · rw [h.remaining, htraded.amount]
  · rw [h.fills, h.remaining, sweep_total]
    ring
  · intro hmode f hf
    rw [h.fills] at hf
    obtain ⟨x, -, hfor⟩ := sweep_fill_mem hf
    have hne := sweep_fill_not_self hmode hf
    rwa [hfor.takerUser] at hne
  · obtain ⟨gone, part, back, hnear, hleft, hdraws, hpart⟩ := drawDown_cut
      (fun x : Quote => x.2.remaining) (b.selfTrade.skips order) Quote.less order.qty
      ((b.quotes order.side.opposite).filter fun x => order.crosses x.1)
    -- what the order does not cross stands behind the whole pass
    refine ⟨gone, part, back++((b.quotes order.side.opposite).filter
      fun x => !order.crosses x.1), ?_, ?_, hdraws, hpart⟩
    · rw [← List.append_assoc, ← hnear, ← quotes_crossed]
    · rw [hopp, hquotes, priorityPass, greedy, hleft, List.append_assoc]
  · rcases h.book with ⟨hrest, rfl⟩ | ⟨hrest, rfl⟩
    · exact ⟨b.quotes order.side, [], by simp, by simp [hrest, hside]⟩
    · obtain ⟨front, back, hold, hnew⟩ := rest_quotes (b.crossed order)
        { order with remaining := out.remaining }
      refine ⟨front, back, hside.symm.trans hold, ?_⟩
      rw [hrest, hnew]
      simp

/-- So has a call that meets amounts of one scale, in the arithmetic of `Decimal`. -/
theorem submit_prioritised {round : ℚ → ℚ} (hround : rustDecimal.IsRounding round)
    {b b' : Orderbook} {order : Order} {tracker : PositionTracker} {out : SubmitOutcome}
    (hexact : Decimal.Exact b order)
    (hok : Decimal.submit round b order tracker = (some (.ok out),b')) :
    b.Prioritised b' order out := by
  rw [Decimal.submit_eq hround hexact] at hok
  obtain ⟨hanswer, hbook⟩ := Prod.mk.inj hok
  exact submit_greedy (Prod.ext (Option.some.inj hanswer) hbook)

end Orderbook

/-- User 7 has one unit at 100, ahead of one of user 1; user 2 has three at 101. -/
def ownAskInFront : List Cmd :=
  [.submit ⟨1, 7, 0, .sell, .limit, 100, 1, 1, .gtc, false, false, 0⟩ .new,
    .submit ⟨2, 1, 0, .sell, .limit, 100, 1, 1, .gtc, false, false, 1⟩ .new,
    .submit ⟨3, 2, 0, .sell, .limit, 101, 3, 3, .gtc, false, false, 2⟩ .new]

/-- User 7 buys two units at up to 101. -/
def buyTwo : Order := ⟨4, 7, 0, .buy, .limit, 101, 2, 2, .gtc, false, false, 3⟩

theorem submit_prioritised_ownAskInFront :
    let b := Decimal.run rustDecimal.halfEven (start 0 .cancelBoth) ownAskInFront
    let out : SubmitOutcome := ⟨[⟨1, 0, 2, 4, 1, 7, 100, 1, .buy, 3⟩,
      ⟨2, 0, 3, 4, 2, 7, 101, 1, .buy, 3⟩], none, 0⟩
    (Decimal.submit rustDecimal.halfEven b buyTwo .new).1 = some (.ok out) ∧
      b.Prioritised (Decimal.submit rustDecimal.halfEven b buyTwo .new).2 buyTwo out := by
  intro b out
  have hok : (Decimal.submit rustDecimal.halfEven b buyTwo .new).1 = some (.ok out) := by
    decide +kernel
  exact ⟨hok, Orderbook.submit_prioritised rustDecimal.halfEven_isRounding
    (.of_scale 0 (by decide +kernel)) (Prod.ext hok rfl)⟩

/-- User 1 offers four units of the last decimal place and then ten whole ones, all at 100. -/
def dustInFront : List Cmd :=
  [.submit ⟨1, 1, 0, .sell, .limit, 100, 4/10^28, 4/10^28, .gtc, false, false, 0⟩ .new,
    .submit ⟨2, 1, 0, .sell, .limit, 100, 10, 10, .gtc, false, false, 1⟩ .new]

/-- User 2 buys ten. -/
def buyTen : Order := ⟨3, 2, 0, .buy, .limit, 100, 10, 10, .gtc, false, false, 2⟩

/-- Ten less the dust is rounded to ten, so the buyer gets the dust and then ten more. -/
theorem dust_overfills_taker :
    let b := Decimal.run rustDecimal.halfEven (start 0 .cancelNewest) dustInFront
    (∀ side, ∀ l ∈ b.levelsOf side, l.2 ≠ [] ∧ ∀ o ∈ l.2, 0 < o.remaining) ∧ ∃ out,
      (Decimal.submit rustDecimal.halfEven b buyTen .new).1 = some (.ok out) ∧
        (out.fills.map Fill.qty).sum+out.remaining ≠ buyTen.qty := by
  intro b
  refine ⟨by rintro (_ | _) <;> decide +kernel,
    ⟨[⟨1, 0, 1, 3, 1, 2, 100, 4/10^28, .buy, 2⟩, ⟨2, 0, 2, 3, 1, 2, 100, 10, .buy, 2⟩],
      none, 0⟩, by decide +kernel, by decide +kernel⟩

end Perplex.Book
