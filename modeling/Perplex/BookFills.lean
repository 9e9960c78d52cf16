import Perplex.GreedyDraw
import Perplex.BookAtomicity

/-! The fills of one call. They are the amounts drawn from the makers in reach of the order,
in priority order, and are numbered from the book's counter. -/
namespace Perplex.Book

/-- A fill between `taker` and the maker of a draw. -/
structure FillFor (market : MarketId) (taker : Order) (f : Fill) (x : Order × ℚ) : Prop where
  market : f.market = market
  makerOrderId : f.makerOrderId = x.1.id
  takerOrderId : f.takerOrderId = taker.id
  makerUser : f.makerUser = x.1.owner
  takerUser : f.takerUser = taker.owner
  takerSide : f.takerSide = taker.side
  qty : f.qty = x.2

/-- What the loop draws from the makers it meets, until an own one stops it. -/
def trades (mode : SelfTradeMode) (taker : Order) : ℚ → List Order → List (Order × ℚ)
  | _, [] => []
  | r, m :: ms =>
    if 0 < r then
      match mode.action m taker with
      | .rejectTaker => []
      | .dropMaker => trades mode taker r ms
      | .proceed => (m,min r m.remaining) :: trades mode taker (r-min r m.remaining) ms
    else []

theorem trades_of_nonpos {mode : SelfTradeMode} {taker : Order} {r : ℚ} (h : r ≤ 0)
    (ms : List Order) : trades mode taker r ms = [] := by
  cases ms with
  | nil => rfl
  | cons m ms => simp [trades, not_lt.mpr h]

theorem trades_congr (mode : SelfTradeMode) (t : Order) (x r : ℚ) (ms : List Order) :
    trades mode { t with remaining := x } r ms = trades mode t r ms := by
  induction ms generalizing r with
  | nil => rfl
  | cons m ms ih => simp only [trades, action_congr, ih]

theorem trades_eq_draw (mode : SelfTradeMode) (t : Order) (r : ℚ) (ms : List Order) :
    trades mode t r ms = draw Order.remaining r (tradable mode t.owner ms) := by
  induction ms generalizing r with
  | nil => cases mode <;> rfl
  | cons m ms ih =>
    by_cases hr : 0 < r
    · rw [trades, if_pos hr]
      cases ha : mode.action m t with
      | rejectTaker =>
        obtain ⟨rfl, ho⟩ := rejectTaker_iff.mp ha
        simp [tradable, ho, draw]
      | dropMaker => rw [tradable_dropMaker ha, ← ih]
      | proceed => rw [tradable_proceed ha, draw, if_pos hr, ← ih]
    · rw [trades, if_neg hr, draw_of_nonpos _ (not_lt.mp hr)]

/-- The fills between two passes match the draws and carry the next numbers. -/
def FillsFor (market : MarketId) (s s' : Pass) (xs : List (Order × ℚ)) : Prop :=
  ∃ new, s'.fills = s.fills++new ∧ List.Forall₂ (FillFor market s.taker) new xs ∧
    new.map Fill.id = List.range' (s.nextFillId+1) new.length ∧
    s'.nextFillId = s.nextFillId+new.length

namespace FillsFor
variable {market : MarketId} {s s' s'' : Pass} {xs ys : List (Order × ℚ)}

theorem refl (market : MarketId) (s : Pass) : FillsFor market s s [] :=
  ⟨[], by simp, .nil, rfl, rfl⟩

theorem fill (market : MarketId) (price : ℚ) (s : Pass) (maker : Order) :
    FillsFor market s (s.fill market price maker)
      [(maker,min s.taker.remaining maker.remaining)] :=
  ⟨_, rfl, .cons ⟨rfl, rfl, rfl, rfl, rfl, rfl, rfl⟩ .nil, rfl, rfl⟩

theorem trans (h : FillsFor market s s' xs) (h' : FillsFor market s' s'' ys)
    (ht : ∃ r, s'.taker = { s.taker with remaining := r }) :
    FillsFor market s s'' (xs++ys) := by
  obtain ⟨new, hf, hm, hid, hn⟩ := h
  obtain ⟨new', hf', hm', hid', hn'⟩ := h'
  obtain ⟨r, ht⟩ := ht
  -- a fill does not name the remaining quantity of the taker
  have hsame : ∀ f x, FillFor market s'.taker f x → FillFor market s.taker f x := by
    intro f x hx
    rw [ht] at hx
    exact ⟨hx.market, hx.makerOrderId, hx.takerOrderId, hx.makerUser, hx.takerUser,
      hx.takerSide, hx.qty⟩
  refine ⟨new++new', ?_, List.rel_append hm (hm'.imp hsame), ?_, ?_⟩
  · rw [hf', hf, List.append_assoc]
  · rw [List.map_append, hid, hid', hn, List.length_append, add_right_comm,
      List.range'_append_1]
  · rw [hn', hn, List.length_append, add_assoc]

end FillsFor

section Sweep
variable (mode : SelfTradeMode) (market : MarketId)

theorem sweepQueue_fills (price : ℚ) (s : Pass) (q ms : List Order) :
    ∃ xs, FillsFor market s (sweepQueue mode market price s q).pass xs ∧
      trades mode s.taker s.taker.remaining (q++ms) =
        xs++(if (sweepQueue mode market price s q).err.isSome then []
          else trades mode s.taker (sweepQueue mode market price s q).pass.taker.remaining ms) := by
  fun_induction sweepQueue mode market price s q with
  | case1 => exact ⟨[], .refl _ _, rfl⟩
  | case2 s maker rest hr ha => exact ⟨[], .refl _ _, by simp [trades, hr, ha]⟩
  | case3 s maker rest hr ha ih =>
    -- an own maker is passed over without a fill
    obtain ⟨xs, hfills, htrades⟩ := ih
    refine ⟨xs, hfills, ?_⟩
    rw [List.cons_append, trades, if_pos hr, ha]
    exact htrades
  | case4 s maker rest hr ha hm ih =>
    obtain ⟨xs, hfills, htrades⟩ := ih
    refine ⟨_, (FillsFor.fill market price s maker).trans hfills ⟨_, rfl⟩, ?_⟩
    rw [List.cons_append, trades, if_pos hr, ha, List.singleton_append, List.cons_append]
    have ht : ((s.fill market price maker).forget maker).taker =
      { s.taker with remaining := s.taker.remaining-min s.taker.remaining maker.remaining } := rfl
    rw [ht] at htrades
    simp only [trades_congr] at htrades
    rw [htrades]
    rfl
  | case5 s maker rest hr ha hm =>
    -- the taker is used up on this maker
    have hlt := not_le.mp hm
    refine ⟨_, FillsFor.fill market price s maker, ?_⟩
    simp [trades, hr, ha, Pass.fill, min_eq_left hlt.le, trades_of_nonpos]
  | case6 s maker rest hr =>
    have hle := not_lt.mp hr
    exact ⟨[], .refl _ _, by simp [trades_of_nonpos hle]⟩

theorem sweepLevels_fills (s : Pass) (ls : List (ℚ × Queue)) :
    FillsFor market s (sweepLevels id mode market s ls).pass
      (trades mode s.taker s.taker.remaining (crossing s.taker ls)) := by
  induction ls generalizing s with
  | nil => exact .refl _ _
  | cons e rest ih =>
    obtain ⟨key, q⟩ := e
    simp only [sweepLevels, id]
    by_cases hg : 0 < s.taker.remaining ∧ s.taker.crosses key = true
    · obtain ⟨hr, hx⟩ := hg
      obtain ⟨xs, hfills, htrades⟩ :=
        sweepQueue_fills mode market key s q (crossing s.taker rest)
      have ht := sweepQueue_taker mode market key s q
      rw [crossing_cons hx, htrades]
      -- an error ends the draws; so does a queue that is not used up
      simp only [hr, hx, and_self, if_true]
      split_ifs with herr hl
      · rw [List.append_nil]
        exact hfills
      · have hrest := ih (sweepQueue mode market key s q).pass
        have htr : trades mode (sweepQueue mode market key s q).pass.taker =
            trades mode s.taker := by
          funext r ms
          rw [ht]
          exact trades_congr mode s.taker _ r ms
        rw [crossing_swept, htr] at hrest
        exact hfills.trans hrest ⟨_, ht⟩
      · -- a queue that is not used up has stopped the taker
        have hne : (sweepQueue mode market key s q).left ≠ [] := by simpa using hl
        have hdone := sweepQueue_left_ne_nil mode market key s q (by simpa using herr) hne
        rw [trades_of_nonpos hdone, List.append_nil]
        exact hfills
    · have hnone : trades mode s.taker s.taker.remaining (crossing s.taker ((key,q) :: rest)) =
          [] := by
        by_cases hr : 0 < s.taker.remaining
        · have hx : ¬ s.taker.crosses key = true := fun hx => hg ⟨hr, hx⟩
          simp [crossing, hx, trades]
        · exact trades_of_nonpos (not_lt.mp hr) _
      rw [hnone, if_neg hg]
      exact .refl _ _

end Sweep

namespace Orderbook

/-- The makers an order may trade with, in priority order. -/
def reach (b : Orderbook) (order : Order) : List Order :=
  tradable b.selfTrade order.owner (b.crossable order)

theorem reach_nonneg {b : Orderbook} (h : b.Sane) (order : Order) :
    ∀ m ∈ b.reach order, 0 ≤ m.remaining :=
  fun m hm => crossable_nonneg h order m (tradable_subset m hm)

/-- Crossing makes one fill for each maker it draws from, numbered from the counter. -/
theorem sweep_fills (b : Orderbook) (order : Order) :
    List.Forall₂ (FillFor b.market order) (b.sweep (taker order)).pass.fills
        (draw Order.remaining order.qty (b.reach order)) ∧
      (b.sweep (taker order)).pass.fills.map Fill.id =
        List.range' (b.nextFillId+1) (b.sweep (taker order)).pass.fills.length ∧
      (b.sweep (taker order)).pass.nextFillId =
        b.nextFillId+(b.sweep (taker order)).pass.fills.length := by
  obtain ⟨new, hf, hm, hid, hn⟩ := sweepLevels_fills b.selfTrade b.market (b.pass (taker order))
    (b.levelsOf order.side.opposite)
  have hnew : (b.sweep (taker order)).pass.fills = new := hf
  rw [trades_eq_draw] at hm
  rw [hnew]
  exact ⟨hm.imp fun f x hx => ⟨hx.market, hx.makerOrderId, hx.takerOrderId, hx.makerUser,
    hx.takerUser, hx.takerSide, hx.qty⟩, hid, hn⟩

end Orderbook

end Perplex.Book
