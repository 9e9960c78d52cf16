import Perplex.BookRun

/-! The two sides of the book never meet. A remainder rests only after crossing has emptied
every level it crosses, and every other path takes orders away. -/
namespace Perplex.Book

/-- The side prefers the first price. -/
def Side.better : Side → ℚ → ℚ → Prop
  | .buy, p, q => q < p
  | .sell, p, q => p < q

/-- Levels are listed best price first. -/
theorem Orderbook.levelsOf_sorted (b : Orderbook) (side : Side) :
    (b.levelsOf side).Pairwise (fun a c => side.better a.1 c.1) := by
  cases side with
  | sell => exact b.asks.sorted
  | buy =>
    simp only [levelsOf, List.pairwise_map]
    exact b.bids.sorted.imp (fun h => h)

/-- A taker that crosses a level crosses every better one. -/
theorem Order.crosses_of_better {t : Order} {p q : ℚ} (h : t.side.opposite.better p q)
    (hq : t.crosses q = true) : t.crosses p = true := by
  unfold Order.crosses at *
  cases hs : t.side <;> cases ht : t.orderType <;> simp only [hs, ht, Side.opposite, Side.better,
    decide_eq_true_eq] at *
  · exact h.le.trans hq
  · exact hq.trans h.le

section Levels
variable (mode : SelfTradeMode) (market : MarketId)

/-- A taker with quantity left has emptied every level it crosses and no other. -/
theorem sweepLevels_dropWhile {s : Pass} {ls : List (ℚ × Queue)}
    (he : (sweepLevels id mode market s ls).err = none)
    (hr : 0 < (sweepLevels id mode market s ls).pass.taker.remaining) :
    (sweepLevels id mode market s ls).levels = ls.dropWhile (fun l => s.taker.crosses l.1) := by
  induction ls generalizing s with
  | nil => rfl
  | cons e rest ih =>
    obtain ⟨key, q⟩ := e
    have ht := sweepQueue_taker mode market key s q
    simp only [sweepLevels, id] at he hr ⊢
    split_ifs at he hr ⊢ with hg herr hl
    · have hnone : (sweepQueue mode market key s q).err = none := he
      simp [hnone] at herr
    · have hcross : ∀ l : ℚ × Queue, (sweepQueue mode market key s q).pass.taker.crosses l.1 =
          s.taker.crosses l.1 := by
        intro l
        rw [ht]
        rfl
      rw [ih he hr, List.dropWhile_cons_of_pos (by simpa using hg.2)]
      simp only [hcross]
    · -- a queue that is not used up has stopped the taker
      have hne : (sweepQueue mode market key s q).left ≠ [] := by simpa using hl
      have hdone := sweepQueue_left_ne_nil mode market key s q (by simpa using herr) hne
      exact absurd hr (not_lt.mpr hdone)
    · have hno : ¬ s.taker.crosses key = true := fun hx => hg ⟨hr, hx⟩
      rw [List.dropWhile_cons_of_neg (by simpa using hno)]

/-- The levels a sweep leaves have prices the side had before. -/
theorem sweepLevels_key {s : Pass} {ls : List (ℚ × Queue)} {l : ℚ × Queue}
    (h : l ∈ (sweepLevels id mode market s ls).levels) : ∃ l₀ ∈ ls, l₀.1 = l.1 := by
  rcases sweepLevels_mem mode market s ls l h with hl | ⟨l₀, hl₀, hkey, -⟩
  · exact ⟨l, hl, rfl⟩
  · exact ⟨l₀, hl₀, hkey.symm⟩

end Levels

namespace Orderbook

/-- Every bid is below every ask. -/
def Uncrossed (b : Orderbook) : Prop :=
  ∀ bid ∈ b.levelsOf .buy, ∀ ask ∈ b.levelsOf .sell, bid.1 < ask.1

/-- A book whose prices are among those of an uncrossed one is uncrossed. -/
theorem Uncrossed.of_keys {b b' : Orderbook} (h : b.Uncrossed)
    (hkeys : ∀ side, ∀ l ∈ b'.levelsOf side, ∃ l₀ ∈ b.levelsOf side, l₀.1 = l.1) :
    b'.Uncrossed := by
  intro bid hbid ask hask
  obtain ⟨bid₀, hbid₀, hb⟩ := hkeys .buy bid hbid
  obtain ⟨ask₀, hask₀, ha⟩ := hkeys .sell ask hask
  rw [← hb, ← ha]
  exact h bid₀ hbid₀ ask₀ hask₀

theorem crossed_uncrossed {b : Orderbook} (h : b.Uncrossed) (order : Order) :
    (b.crossed order).Uncrossed := by
  obtain ⟨-, -, -, -, -, hopp, hown, -⟩ := cross_spec b (taker order)
  -- crossing edits queues and drops levels, it never makes a price
  apply h.of_keys
  intro side l hl
  rcases Side.eq_or_eq_opposite side order.side with rfl | rfl
  · rw [show (b.crossed order).levelsOf order.side = _ from hown] at hl
    exact ⟨l, hl, rfl⟩
  · rw [show (b.crossed order).levelsOf order.side.opposite = _ from hopp] at hl
    exact sweepLevels_key b.selfTrade b.market hl

theorem cancel_uncrossed {b : Orderbook} (h : b.Uncrossed) (id : OrderId) :
    ((b.cancel id).2).Uncrossed := by
  cases hid : b.byId id with
  | none => rwa [cancel_unknown hid]
  | some s =>
    apply h.of_keys
    intro side l hl
    by_cases hs : side = s
    · subst hs
      rcases cancel_mem_levelsOf hid hl with hl | ⟨q, hq, -⟩
      · exact ⟨l, hl, rfl⟩
      · exact ⟨_, hq, rfl⟩
    · rw [cancel_levelsOf_other hid hs] at hl
      exact ⟨l, hl, rfl⟩

/-- Resting at a price that no level of the other side reaches. -/
theorem rest_uncrossed {b : Orderbook} (h : b.Uncrossed) {o : Order}
    (hprice : ∀ l ∈ b.levelsOf o.side.opposite, o.side.opposite.better o.price l.1) :
    (b.rest o).Uncrossed := by
  -- the only price that can be new is that of the order itself
  have hkey : ∀ l ∈ (b.rest o).levelsOf o.side, l.1 = o.price ∨ ∃ l₀ ∈ b.levelsOf o.side,
      l₀.1 = l.1 := by
    intro l hl
    rcases rest_mem_levelsOf hl with hl | rfl | ⟨q, -, rfl⟩
    · exact Or.inr ⟨l, hl, rfl⟩
    · exact Or.inl rfl
    · exact Or.inl rfl
  have hother : (b.rest o).levelsOf o.side.opposite = b.levelsOf o.side.opposite :=
    rest_levelsOf_other (Side.opposite_ne o.side)
  intro bid hbid ask hask
  cases hs : o.side with
  | buy =>
    rw [hs] at hkey hother hprice
    rw [show Side.sell = Side.buy.opposite from rfl, hother] at hask
    rcases hkey bid hbid with hp | ⟨l₀, hl₀, hp⟩
    · rw [hp]
      exact hprice ask hask
    · rw [← hp]
      exact h l₀ hl₀ ask hask
  | sell =>
    rw [hs] at hkey hother hprice
    rw [show Side.buy = Side.sell.opposite from rfl, hother] at hbid
    rcases hkey ask hask with hp | ⟨l₀, hl₀, hp⟩
    · rw [hp]
      exact hprice bid hbid
    · rw [← hp]
      exact h bid hbid l₀ hl₀

/-- What crossing leaves on the other side is out of reach of the remainder. -/
theorem crossed_out_of_reach {b : Orderbook} {order : Order}
    (hlimit : order.orderType = .limit) (he : (b.sweep (taker order)).err = none)
    (hr : 0 < (b.sweep (taker order)).pass.taker.remaining) :
    ∀ l ∈ (b.crossed order).levelsOf order.side.opposite,
      order.side.opposite.better order.price l.1 := by
  obtain ⟨-, -, -, -, -, hopp, -⟩ := cross_spec b (taker order)
  have hdrop := sweepLevels_dropWhile b.selfTrade b.market he hr
  intro l hl
  rw [show (b.crossed order).levelsOf order.side.opposite = _ from hopp,
    show (b.sweep (taker order)).levels = _ from hdrop] at hl
  have hsorted : (b.levelsOf order.side.opposite).Pairwise
      (fun a c => (taker order).crosses c.1 = true → (taker order).crosses a.1 = true) :=
    (b.levelsOf_sorted order.side.opposite).imp
      (fun hac => Order.crosses_of_better (t := taker order) hac)
  have hno := not_of_mem_dropWhile hsorted l hl
  unfold Order.crosses at hno
  cases hs : order.side <;> simp [taker, hs, hlimit, Side.opposite, Side.better] at hno ⊢ <;>
    exact hno

theorem submit_uncrossed {b : Orderbook} (h : b.Uncrossed) (order : Order)
    (tracker : PositionTracker) : ((b.submit order tracker).2).Uncrossed := by
  apply submit_invariant h
  · intro _
    exact crossed_uncrossed h order
  · intro hc hlimit he hpos
    apply rest_uncrossed hc
    rw [sweep_taker]
    exact crossed_out_of_reach hlimit he hpos

theorem bestBid_mem {b : Orderbook} {p : ℚ} (h : b.bestBid = some p) :
    ∃ q, (p,q) ∈ b.levelsOf .buy := by
  obtain ⟨e, he, rfl⟩ := Option.map_eq_some_iff.mp h
  exact ⟨e.2, List.mem_map.mpr ⟨e, List.mem_of_mem_head? he, rfl⟩⟩

theorem bestAsk_mem {b : Orderbook} {p : ℚ} (h : b.bestAsk = some p) :
    ∃ q, (p,q) ∈ b.levelsOf .sell := by
  obtain ⟨e, he, rfl⟩ := Option.map_eq_some_iff.mp h
  exact ⟨e.2, List.mem_of_mem_head? he⟩

end Orderbook

/-- Whatever is submitted and cancelled, in every self-trade mode and with or without
errors, the best bid is below the best ask. -/
theorem run_uncrossed (market : MarketId) (mode : SelfTradeMode) (cmds : List Cmd)
    {bid ask : ℚ} (hbid : (run (start market mode) cmds).bestBid = some bid)
    (hask : (run (start market mode) cmds).bestAsk = some ask) : bid < ask := by
  have hrun : (run (start market mode) cmds).Uncrossed := by
    apply run_invariant
    · exact fun b order tracker hb => Orderbook.submit_uncrossed hb order tracker
    · exact fun b id hb => Orderbook.cancel_uncrossed hb id
    · intro l hl
      simp at hl
  obtain ⟨qb, hb⟩ := Orderbook.bestBid_mem hbid
  obtain ⟨qa, ha⟩ := Orderbook.bestAsk_mem hask
  exact hrun _ hb _ ha

/-- An ask at 100 and a bid at 99. -/
def twoSided : List Cmd :=
  [.submit ⟨1, 1, 0, .sell, .limit, 100, 1, 1, .gtc, false, false, 0⟩ .new,
    .submit ⟨2, 2, 0, .buy, .limit, 99, 1, 1, .gtc, false, false, 1⟩ .new]

theorem run_uncrossed_twoSided :
    let b := run (start 0 .cancelNewest) twoSided
    b.bestBid = some 99 ∧ b.bestAsk = some 100 ∧ (99:ℚ) < 100 := by
  have hbid : (run (start 0 .cancelNewest) twoSided).bestBid = some 99 := by decide +kernel
  have hask : (run (start 0 .cancelNewest) twoSided).bestAsk = some 100 := by decide +kernel
  exact ⟨hbid, hask, run_uncrossed 0 .cancelNewest twoSided hbid hask⟩

end Perplex.Book
