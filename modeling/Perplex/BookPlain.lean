import Perplex.QueueDraw
import Perplex.BookAdmission
import Perplex.BookPriority
import Perplex.BookRepInv

/-! The two sides of a sound book as queues, and the calls that nobody's own orders, flags or
empty levels get in the way of: what they fill and what they leave of the queues. -/
namespace Perplex.Book

/-- Adding an order leaves those that are not behind its key in front of it. -/
theorem upsertList_flat_split {K β : Type} [LinearOrder K] (f : K → Order → β) (k : K)
    (o : Order) {l : List (K × Queue)} (h : l.Pairwise fun a b => a.1 < b.1) :
    (SortedMap.upsertList k [] (·++[o]) l).flatMap (fun e => e.2.map (f e.1)) =
      (l.filter fun e => e.1 ≤ k).flatMap (fun e => e.2.map (f e.1))++
        f k o :: (l.filter fun e => !decide (e.1 ≤ k)).flatMap fun e => e.2.map (f e.1) := by
  induction l with
  | nil => rfl
  | cons e rest ih =>
    obtain ⟨hhead, hrest⟩ := List.pairwise_cons.mp h
    -- past the key every level is behind
    have hbehind (hk : k ≤ e.1) : rest.filter (fun e => e.1 ≤ k) = [] ∧
        rest.filter (fun e => !decide (e.1 ≤ k)) = rest := by
      constructor
      · rw [List.filter_eq_nil_iff]
        intro x hx
        simpa using hk.trans_lt (hhead x hx)
      · rw [List.filter_eq_self]
        intro x hx
        simpa using hk.trans_lt (hhead x hx)
    unfold SortedMap.upsertList
    split_ifs with hlt heq
    · obtain ⟨hfront, hback⟩ := hbehind hlt.le
      rw [List.filter_cons_of_neg (by simpa using hlt), hfront,
        List.filter_cons_of_pos (by simpa using hlt), hback]
      rfl
    · obtain ⟨hfront, hback⟩ := hbehind heq.le
      rw [List.filter_cons_of_pos (by simp [heq]), hfront,
        List.filter_cons_of_neg (by simp [heq]), hback, heq]
      simp
    · have hle : e.1 ≤ k := not_lt.mp hlt
      rw [List.filter_cons_of_pos (by simpa using hle),
        List.filter_cons_of_neg (by simpa using hle), List.flatMap_cons, ih hrest,
        List.flatMap_cons, List.append_assoc]

/-- What does not depend on the number of a fill can be read off the draws. -/
theorem fillsFrom_map {β : Type} {g : Fill → β} {g' : Quote × ℚ → β} {market : MarketId}
    {order : Order} (h : ∀ id y, g (fillOf market order id y) = g' y) (n : ℕ)
    (draws : List (Quote × ℚ)) : (fillsFrom market order n draws).map g = draws.map g' := by
  apply List.ext_getElem
  · simp [fillsFrom]
  · intro i _ _
    simp [fillsFrom, h]

namespace Orderbook
variable {b : Orderbook} {order : Order} {tracker : PositionTracker}

/-- The price is at least as good, for the side that rests there. -/
def noWorse (side : Side) (p price : ℚ) : Bool :=
  match side with
  | .buy => price ≤ p
  | .sell => p ≤ price

theorem rest_quotes_split (b : Orderbook) (o : Order) : (b.rest o).quotes o.side =
    ((b.quotes o.side).filter fun x => noWorse o.side x.1 o.price)++
      (o.price,o) :: (b.quotes o.side).filter fun x => !noWorse o.side x.1 o.price := by
  unfold quotes
  rw [← quotesIn_filter fun p => noWorse o.side p o.price,
    ← quotesIn_filter fun p => !noWorse o.side p o.price]
  unfold rest quotesIn
  cases hs : o.side with
  | sell => exact upsertList_flat_split (fun k o => (k,o)) o.price o b.asks.sorted
  | buy =>
    have hsplit := upsertList_flat_split (fun (k : ℚᵒᵈ) o => (OrderDual.ofDual k,o))
      (OrderDual.toDual o.price) o b.bids.sorted
    simp only [levelsOf, List.flatMap_map, List.filter_map]
    exact hsplit

namespace RepInv

theorem quotes_eq (h : b.RepInv) (side : Side) :
    b.quotes side = (b.makers side).map fun o => (o.price,o) := by
  unfold quotes quotesIn makers
  rw [List.map_flatMap]
  apply List.flatMap_congr
  intro l hl
  apply List.map_congr_left
  intro o ho
  rw [(h.rests side l hl o ho).price_eq]

theorem quotes_rest (h : b.RepInv) {side : Side} {x : Quote} (hx : x ∈ b.quotes side) :
    RestsAt side x.1 x.2 := by
  obtain ⟨l, hl, hx⟩ := List.mem_flatMap.mp hx
  obtain ⟨o, ho, rfl⟩ := List.mem_map.mp hx
  exact h.rests side l hl o ho

theorem quotes_ids (h : b.RepInv) (side : Side) :
    ((b.quotes side).map fun x => x.2.id).Nodup := by
  rw [h.quotes_eq, List.map_map]
  exact h.side_nodup side

theorem mem_ids_iff (h : b.RepInv) {side : Side} {id : OrderId} :
    id ∈ b.ids side ↔ ∃ x ∈ b.quotes side, x.2.id = id := by
  rw [h.quotes_eq, ids]
  simp

/-- Cancelling takes the order with the id out of the queues. -/
theorem cancel_quotes (h : b.RepInv) (id : OrderId) (side : Side) :
    (b.cancel id).2.quotes side = (b.quotes side).filter fun x => x.2.id ≠ id := by
  have hother (hside : b.byId id ≠ some side) :
      (b.quotes side).filter (fun x => x.2.id ≠ id) = b.quotes side := by
    rw [List.filter_eq_self]
    intro x hx
    have hid : x.2.id ≠ id := by
      rintro rfl
      exact hside ((h.byId_iff _ _).mpr (h.mem_ids_iff.mpr ⟨x,hx,rfl⟩))
    simpa using hid
  cases hid : b.byId id with
  | none => rw [cancel_unknown hid, hother (by simp [hid])]
  | some s =>
    by_cases hs : side = s
    · subst hs
      have herase := eraseP_eq_filter (h.side_nodup side) id
      rw [(cancel_repInv h id).quotes_eq, cancel_makers hid, herase, h.quotes_eq, List.filter_map]
      rfl
    · rw [hother (by rw [hid]; exact fun he => hs (Option.some.inj he).symm)]
      exact congrArg quotesIn (cancel_levelsOf_other hid hs)

end RepInv

/-- The quotes that the order crosses. -/
def near (b : Orderbook) (order : Order) : List Quote :=
  (b.quotes order.side.opposite).filter fun x => order.crosses x.1

/-- Price, time and quantity alone decide what becomes of the order. -/
structure Plain (b : Orderbook) (order : Order) : Prop where
  qty : 0 < order.qty
  price : order.orderType = .limit → 0 < order.price
  gtc : order.timeInForce = .gtc
  opens : order.reduceOnly = false
  others : ∀ x ∈ b.near order, x.2.owner ≠ order.owner
  market : order.orderType = .market → order.postOnly = false ∧
    order.qty ≤ ((b.near order).map fun x => x.2.remaining).sum

theorem near_eq (b : Orderbook) (order : Order) : b.near order =
    quotesIn ((b.levelsOf order.side.opposite).takeWhile fun l => order.crosses l.1) := by
  rw [(b.levels_crossed order).1, quotesIn_filter]
  rfl

theorem crossable_eq (b : Orderbook) (order : Order) :
    b.crossable order = (b.near order).map Prod.snd := by
  rw [near_eq, quotesIn, List.map_flatMap]
  unfold crossable crossing
  congr 1
  funext l
  simp

/-- The check of a post-only limit order looks at the best price, and some order rests there. -/
theorem wouldCross_iff (h : b.RepInv) (hlimit : order.orderType = .limit) :
    b.wouldCross order = true ↔ b.near order ≠ [] := by
  constructor
  · intro hcross
    have key (l : ℚ × Queue) (hl : l ∈ b.levelsOf order.side.opposite)
        (hc : order.crosses l.1 = true) : b.near order ≠ [] := by
      obtain ⟨o, ho⟩ := List.exists_mem_of_ne_nil _ (h.nonempty _ l hl)
      apply List.ne_nil_of_mem
      exact List.mem_filter.mpr ⟨List.mem_flatMap.mpr ⟨l,hl,List.mem_map.mpr ⟨o,ho,rfl⟩⟩,hc⟩
    cases hs : order.side with
    | buy =>
      simp only [wouldCross, hs, bestAsk] at hcross
      cases he : b.asks.entries with
      | nil => simp [he] at hcross
      | cons e rest =>
        apply key e
        · simp [hs, Side.opposite, levelsOf, he]
        · simpa [he, Order.crosses, hs, hlimit] using hcross
    | sell =>
      simp only [wouldCross, hs, bestBid] at hcross
      cases he : b.bids.entries with
      | nil => simp [he] at hcross
      | cons e rest =>
        apply key (OrderDual.ofDual e.1,e.2)
        · simp [hs, Side.opposite, levelsOf, he]
        · simpa [he, Order.crosses, hs, hlimit] using hcross
  · intro hnear
    by_contra hcross
    have hnil := crossable_eq_nil hlimit (by simpa using hcross)
    rw [crossable_eq, List.map_eq_nil_iff] at hnil
    exact hnear hnil

theorem not_strandsAt {owner : Address} {ls : List (ℚ × Queue)}
    (h : ∀ l ∈ ls, ∀ m ∈ l.2, m.owner ≠ owner) (r : ℚ) : ¬ strandsAt owner r ls := by
  induction ls generalizing r with
  | nil => exact id
  | cons l ls ih =>
    have hnone : ¬ ∃ m ∈ l.2, m.owner = owner := by
      rintro ⟨m, hm, he⟩
      exact h l List.mem_cons_self m hm he
    rw [strandsAt, if_neg hnone]
    exact ih (fun l' hl' => h l' (List.mem_cons_of_mem _ hl')) _

namespace Plain
variable (hp : b.Plain order) (h : b.RepInv)
include hp

theorem not_strands : ¬ b.Strands order := by
  rintro ⟨-, hst⟩
  refine not_strandsAt ?_ _ hst
  intro l hl m hm
  apply hp.others (l.1,m)
  rw [near_eq]
  exact List.mem_flatMap.mpr ⟨l,hl,List.mem_map.mpr ⟨m,hm,rfl⟩⟩

include h

theorem admission_eq : b.admission order tracker =
    if order.postOnly = true ∧ b.near order ≠ [] then some .postOnlyWouldCross else none := by
  have hpost : (order.postOnly = true ∧ b.wouldCross order = true) ↔
      order.postOnly = true ∧ b.near order ≠ [] := by
    apply and_congr_right
    intro hpost
    cases ht : order.orderType with
    | limit => exact wouldCross_iff h ht
    | market =>
      rw [(hp.market ht).1] at hpost
      cases hpost
  unfold admission
  rw [if_neg (not_le.mpr hp.qty), if_neg (fun hl => absurd (hp.price hl.1) (not_lt.mpr hl.2))]
  simp only [hpost, hp.opens, hp.gtc]
  split_ifs <;> simp_all

theorem rejected (hpost : order.postOnly = true) (hnear : b.near order ≠ []) :
    b.submit order tracker = (.error .postOnlyWouldCross,b) := by
  unfold submit
  rw [hp.admission_eq h, if_pos ⟨hpost,hnear⟩]

theorem swept : (b.sweep (taker order)).err = none := by
  by_contra herr
  obtain ⟨-, ⟨m, hm, ho⟩, -⟩ := (sweep_err_iff h.sane order).mp (Option.isSome_iff_ne_none.mpr herr)
  rw [crossable_eq] at hm
  obtain ⟨x, hx, rfl⟩ := List.mem_map.mp hm
  exact hp.others x hx ho

omit h in
/-- What is drawn from the quotes in reach. -/
theorem priorityPass_draws : (b.priorityPass order).draws =
    draw (fun x : Quote => x.2.remaining) order.qty (b.near order) := by
  apply drawDown_draws
  intro x hx
  simp [SelfTradeMode.skips, hp.others x hx]

/-- Of every quote stays what was not drawn from it. -/
theorem crossed_opposite : (b.crossed order).quotes order.side.opposite =
    ((b.quotes order.side.opposite).map fun x => x.less (drawnFrom (fun x : Quote => x.2.id) x.2.id
      (draw (fun x : Quote => x.2.remaining) order.qty (b.near order)))).filter
        fun x => x.2.remaining ≠ 0 := by
  have hpos : ∀ x ∈ b.quotes order.side.opposite, 0 < x.2.remaining := fun x hx =>
    (h.quotes_rest hx).pos
  have hids := h.quotes_ids order.side.opposite
  rw [b.quotes_crossed order] at hids
  obtain ⟨hnear, -, hdisjoint⟩ := List.nodup_append.mp (List.map_append ▸ hids)
  rw [(crossed_priority (hp.swept h)).1, priorityPass, greedy]
  conv_rhs => rw [b.quotes_crossed order, List.map_append, List.filter_append]
  congr 1
  · apply drawDown_left (fun x : Quote => x.2.remaining) (fun x : Quote => x.2.id)
    · intro x hx
      simp [SelfTradeMode.skips, hp.others x hx]
    · exact fun x hx => hpos x (List.mem_filter.mp hx).1
    · exact hnear
    · exact fun x q => rfl
    · intro x
      simp [Quote.less]
  · -- nothing is drawn out of reach
    have hsame : (((b.quotes order.side.opposite).filter fun x => !order.crosses x.1).map
        fun x => x.less (drawnFrom (fun x : Quote => x.2.id) x.2.id
          (draw (fun x : Quote => x.2.remaining) order.qty (b.near order)))) =
        (b.quotes order.side.opposite).filter fun x => !order.crosses x.1 := by
      rw [List.map_congr_left, List.map_id]
      intro x hx
      have hnone : drawnFrom (fun x : Quote => x.2.id) x.2.id
          (draw (fun x : Quote => x.2.remaining) order.qty (b.near order)) = 0 := by
        apply drawnFrom_of_absent
        intro y hy he
        exact hdisjoint _ (List.mem_map.mpr ⟨y.1,mem_of_mem_draw _ hy,rfl⟩) _
          (List.mem_map.mpr ⟨x,hx,rfl⟩) he
      simp [hnone, Quote.less]
    rw [hsame]
    symm
    rw [List.filter_eq_self]
    intro x hx
    simpa using (hpos x (List.mem_filter.mp hx).1).ne'

variable (tracker) in
/-- The call succeeds: the quotes in reach are drawn from in order of price and time, and what
is left of a limit order joins its queue. -/
theorem accepted (hpost : order.postOnly = true → b.near order = [])
    (hfresh : ∀ side, order.id ∉ b.ids side) :
    let draws := draw (fun x : Quote => x.2.remaining) order.qty (b.near order)
    let left := order.qty-(draws.map Prod.snd).sum
    ∃ out b', b.submit order tracker = (.ok out,b') ∧ b'.RepInv ∧
      out = ⟨fillsFrom b.market order b.nextFillId draws,
        if left ≠ 0 ∧ order.orderType = .limit then some order.id else none, left⟩ ∧
      b'.quotes order.side.opposite = ((b.quotes order.side.opposite).map fun x =>
        x.less (drawnFrom (fun x : Quote => x.2.id) x.2.id draws)).filter
          (fun x => x.2.remaining ≠ 0) ∧
      b'.quotes order.side = if left ≠ 0 ∧ order.orderType = .limit then
          ((b.quotes order.side).filter fun x => noWorse order.side x.1 order.price)++
            (order.price,{ order with remaining := left }) ::
              (b.quotes order.side).filter fun x => !noWorse order.side x.1 order.price
        else b.quotes order.side := by
  intro draws left
  have hcap : ∀ x ∈ b.near order, 0 ≤ x.2.remaining := fun x hx =>
    (h.quotes_rest (List.mem_filter.mp hx).1).pos.le
  have htotal : (draws.map Prod.snd).sum = min order.qty ((b.near order).map
      fun x => x.2.remaining).sum := draw_total _ hcap hp.qty.le
  have hleft : 0 ≤ left := by
    have hle := min_le_left order.qty ((b.near order).map fun x => x.2.remaining).sum
    rw [← htotal] at hle
    exact sub_nonneg.mpr hle
  obtain ⟨-, htraded⟩ := crossed_priority (hp.swept h)
  have hfills : (b.sweep (taker order)).pass.fills =
      fillsFrom b.market order b.nextFillId draws := by
    rw [htraded.fills, hp.priorityPass_draws]
    rfl
  have hrem : (b.sweep (taker order)).pass.taker.remaining = left := by
    have hsum := b.sweep_total order
    rw [hfills, fillsFrom_map fun _ _ => rfl] at hsum
    linarith
  have hown : (b.crossed order).quotes order.side = b.quotes order.side := by
    obtain ⟨-, -, -, -, -, -, hown, -⟩ := cross_spec b (taker order)
    exact congrArg quotesIn hown
  have hopp := hp.crossed_opposite h
  have hinv : ((b.submit order tracker).2).RepInv :=
    submit_repInv h hfresh fun hst => hp.not_strands hst.2
  rcases b.submit_cases order tracker with ⟨e, hadm, -⟩ | ⟨-, ⟨e, herr, -⟩ | ⟨-, hcases⟩⟩
  · rw [hp.admission_eq h, if_neg fun hc => hc.2 (hpost hc.1)] at hadm
    cases hadm
  · rw [hp.swept h] at herr
    cases herr
  · rw [hrem, hfills] at hcases
    rcases hcases with ⟨hmarket, hpos, -⟩ | ⟨hlimit, -, hpos, hr⟩ | ⟨hmarket, hlimit, hr⟩
    · -- a market order that is not covered is not plain
      have hzero : left = 0 := by
        change order.qty-(draws.map Prod.snd).sum = 0
        rw [htotal, min_eq_left (hp.market hmarket).2, sub_self]
      exact absurd hpos hzero.not_gt
    · rw [hr] at hinv
      refine ⟨_,_,hr,hinv,?_,?_,?_⟩
      · rw [if_pos ⟨hpos.ne',hlimit⟩]
      · rw [← hopp]
        exact congrArg quotesIn (rest_levelsOf_other
          (by rw [sweep_taker]; exact Side.opposite_ne order.side))
      · rw [if_pos ⟨hpos.ne',hlimit⟩, ← hown, sweep_taker, hrem]
        exact (b.crossed order).rest_quotes_split { order with remaining := left }
    · have hnot : ¬ (left ≠ 0 ∧ order.orderType = .limit) := fun hc =>
        hlimit ⟨lt_of_le_of_ne hleft (Ne.symm hc.1),hc.2,hp.gtc⟩
      rw [hr] at hinv
      refine ⟨_,_,hr,hinv,?_,hopp,?_⟩
      · rw [if_neg hnot]
      · rw [if_neg hnot, hown]

end Plain

end Orderbook

end Perplex.Book
