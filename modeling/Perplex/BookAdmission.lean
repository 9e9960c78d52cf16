import Perplex.BookLedger

/-! What the checks made before crossing promise and what crossing then does. The dry run of a
fill-or-kill order counts the taker's own makers, and the post-only check reads the price of
a market order, which crossing ignores. -/
namespace Perplex.Book

namespace Orderbook
variable {b b' : Orderbook} {order : Order} {tracker : PositionTracker} {out : SubmitOutcome}

/-- The dry run counts every maker the order crosses. -/
theorem crossableQty_eq (b : Orderbook) (order : Order) :
    b.crossableQty order = sumRemaining (b.crossable order) := by
  unfold crossableQty crossable crossing sumRemaining
  rw [List.map_flatMap, List.flatMap_def, List.sum_flatten, List.map_map]
  rfl

/-- What others have resting at the prices the order crosses. -/
def othersQty (b : Orderbook) (order : Order) : ℚ :=
  sumRemaining ((b.crossable order).filter fun m => m.owner ≠ order.owner)

theorem admission_fok (h : b.admission order tracker = none)
    (hfok : order.timeInForce = .fok) : order.qty ≤ b.crossableQty order := by
  unfold admission at h
  split_ifs at h with h1 h2 h3 h4 h5
  exact not_lt.mp fun hlt => h5 ⟨hfok, hlt⟩

theorem sweep_remaining_nonneg (h : b.admission order tracker = none) :
    0 ≤ (b.sweep (taker order)).pass.taker.remaining :=
  sweepLevels_remaining_nonneg b.selfTrade b.market _ _ (admission_qty_pos h).le

/-- The order is filled when the makers it may trade with cover it. -/
theorem Returned.filled_iff (h : b.Returned order tracker out b') (hs : b.Sane) :
    (out.remaining = 0 ∧ (out.fills.map Fill.qty).sum = order.qty) ↔
      order.qty ≤ b.fillable order := by
  have hnonneg := sweep_remaining_nonneg h.admitted
  have hleft := sweep_remaining_iff hs order h.swept
  -- fills and remainder make up the quantity, so one is known from the other
  rw [h.fills, h.remaining, sweep_total, ← not_lt, ← hleft]
  constructor
  · rintro ⟨hzero, -⟩
    exact hzero.not_gt
  · intro hpos
    have hzero := le_antisymm (not_lt.mp hpos) hnonneg
    exact ⟨hzero, by rw [hzero, sub_zero]⟩

/-- Only when own makers are dropped does the dry run count what crossing does not fill. -/
theorem Returned.fok_iff (h : b.Returned order tracker out b') (hs : b.Sane)
    (hfok : order.timeInForce = .fok) :
    order.qty ≤ b.fillable order ↔ (b.selfTrade = .cancelBoth → order.qty ≤ b.othersQty order) := by
  have hdry := admission_fok h.admitted hfok
  rw [crossableQty_eq] at hdry
  have herr := (sweep_err_iff hs order).not
  rw [h.swept] at herr
  unfold fillable at *
  cases hmode : b.selfTrade with
  | allow =>
    -- own makers are filled like the others
    exact iff_of_true hdry fun hc => by simp at hc
  | cancelBoth => exact ⟨fun hle _ => hle, fun hle => hle rfl⟩
  | cancelNewest =>
    refine iff_of_true ?_ fun hc => by simp at hc
    by_contra hlt
    -- without an error there is no own maker to stop at, so nothing is left out
    have hnone : ∀ m ∈ b.crossable order, m.owner ≠ order.owner := by
      intro m hm ho
      rw [hmode] at herr
      exact (herr.mp (by simp)) ⟨rfl, ⟨m, hm, ho⟩, not_le.mp hlt⟩
    have hall : tradable .cancelNewest order.owner (b.crossable order) = b.crossable order :=
      List.takeWhile_eq_self_iff.mpr (by simpa using hnone)
    rw [hall] at hlt
    exact hlt hdry

end Orderbook

/-- A fill-or-kill order that is accepted in a reachable book is filled completely, if and
only if own makers are not dropped or those of others cover it. -/
theorem fok_othersQty_iff (market : MarketId) (mode : SelfTradeMode) (cmds : List Cmd)
    {order : Order} {tracker : PositionTracker} {out : SubmitOutcome} {b' : Orderbook}
    (hfok : order.timeInForce = .fok)
    (hok : (run (start market mode) cmds).submit order tracker = (.ok out,b')) :
    (out.remaining = 0 ∧ (out.fills.map Fill.qty).sum = order.qty) ↔
      (mode = .cancelBoth → order.qty ≤ (run (start market mode) cmds).othersQty order) := by
  have hs := run_sane market mode cmds
  have hmode : (run (start market mode) cmds).selfTrade = mode :=
    (run_settings (start_sane market mode) cmds).2
  have h := Orderbook.submit_ok hok
  rw [h.filled_iff hs, h.fok_iff hs hfok, hmode]

/-- The same of a book whose amounts are rounded, where the run met amounts of one scale. -/
theorem fok_filled_iff {round : ℚ → ℚ} (hround : rustDecimal.IsRounding round)
    (market : MarketId) (mode : SelfTradeMode) (cmds : List Cmd) {order : Order}
    {tracker : PositionTracker} {out : SubmitOutcome} {b' : Orderbook}
    (hexact : Decimal.ExactRun round (start market mode) (cmds++[.submit order tracker]))
    (hfok : order.timeInForce = .fok)
    (hok : Decimal.submit round (Decimal.run round (start market mode) cmds) order tracker =
      (some (.ok out),b')) :
    (out.remaining = 0 ∧ (out.fills.map Fill.qty).sum = order.qty) ↔
      (mode = .cancelBoth →
        order.qty ≤ (Decimal.run round (start market mode) cmds).othersQty order) := by
  obtain ⟨hrun, hlast⟩ := hexact.last hround
  rw [hrun] at hok ⊢
  rw [Decimal.submit_eq hround hlast] at hok
  obtain ⟨hanswer, hbook⟩ := Prod.mk.inj hok
  exact fok_othersQty_iff market mode cmds hfok (Prod.ext (Option.some.inj hanswer) hbook)

/-- Users 7 and 1 offer one unit each at 100. -/
def ownAndOther : List Cmd :=
  [.submit ⟨1, 7, 0, .sell, .limit, 100, 1, 1, .gtc, false, false, 0⟩ .new,
    .submit ⟨2, 1, 0, .sell, .limit, 100, 1, 1, .gtc, false, false, 1⟩ .new]

/-- User 7 wants this much at 100 or nothing. -/
def buyOrKill (qty : ℚ) : Order := ⟨3, 7, 0, .buy, .limit, 100, qty, qty, .fok, false, false, 2⟩

theorem fok_filled_iff_ownAndOther :
    let b := Decimal.run rustDecimal.halfEven (start 0 .cancelBoth) ownAndOther
    let out : SubmitOutcome := ⟨[⟨1, 0, 2, 3, 1, 7, 100, 1, .buy, 2⟩], none, 0⟩
    (Decimal.submit rustDecimal.halfEven b (buyOrKill 1) .new).1 = some (.ok out) ∧
      ((out.remaining = 0 ∧ (out.fills.map Fill.qty).sum = (buyOrKill 1).qty) ↔
        (SelfTradeMode.cancelBoth = .cancelBoth → (buyOrKill 1).qty ≤
          b.othersQty (buyOrKill 1))) := by
  intro b out
  have hok : (Decimal.submit rustDecimal.halfEven b (buyOrKill 1) .new).1 = some (.ok out) := by
    decide +kernel
  have hexact : Decimal.ExactRun rustDecimal.halfEven (start 0 .cancelBoth)
      (ownAndOther++[.submit (buyOrKill 1) .new]) :=
    forall_request_cons (.of_scale 0 (by decide +kernel))
      (forall_request_cons (.of_scale 0 (by decide +kernel))
        (forall_request_cons (.of_scale 0 (by decide +kernel)) forall_request_nil))
  exact ⟨hok, fok_filled_iff rustDecimal.halfEven_isRounding 0 .cancelBoth ownAndOther hexact rfl
    (Prod.ext hok rfl)⟩

/-- The dry run counts the own unit, which is then dropped: half the order is filled. -/
theorem fok_half_filled :
    let b := Decimal.run rustDecimal.halfEven (start 0 .cancelBoth) ownAndOther
    (buyOrKill 2).timeInForce = .fok ∧ ∃ out,
      (Decimal.submit rustDecimal.halfEven b (buyOrKill 2) .new).1 = some (.ok out) ∧
      ¬ (out.remaining = 0 ∧ (out.fills.map Fill.qty).sum = (buyOrKill 2).qty) := by
  refine ⟨rfl, ⟨[⟨1, 0, 2, 3, 1, 7, 100, 1, .buy, 2⟩], none, 1⟩, ?_, ?_⟩
  · decide +kernel
  · decide +kernel

/-- Every resting order is where it was: its level is there, and its queue begins as before. -/
def Orderbook.Undisturbed (b b' : Orderbook) : Prop :=
  ∀ side, ∀ l ∈ b.levelsOf side, ∃ behind, (l.1,l.2++behind) ∈ b'.levelsOf side

/-- A level keeps its orders when another one joins. -/
theorem level_upsertList {K : Type} [LinearOrder K] {k : K} {o : Order} {l : List (K × Queue)}
    {e : K × Queue} (h : e ∈ l) :
    ∃ behind, (e.1,e.2++behind) ∈ SortedMap.upsertList k [] (·++[o]) l := by
  rcases SortedMap.mem_upsertList_of_mem h k [] (·++[o]) with h | h
  · exact ⟨[], by rw [List.append_nil]; exact h⟩
  · exact ⟨[o], h⟩

namespace Orderbook
variable {b b' : Orderbook} {order : Order} {tracker : PositionTracker} {out : SubmitOutcome}

theorem Undisturbed.refl (b : Orderbook) : b.Undisturbed b :=
  fun _ l hl => ⟨[], by rw [List.append_nil]; exact hl⟩

/-- Resting puts an order behind the others of its price. -/
theorem rest_undisturbed (b : Orderbook) (o : Order) : b.Undisturbed (b.rest o) := by
  intro side l hl
  by_cases hs : side = o.side
  · subst hs
    unfold rest
    cases hs : o.side with
    | sell =>
      rw [hs] at hl
      exact level_upsertList (l := b.asks.entries) hl
    | buy =>
      rw [hs] at hl
      obtain ⟨e, he, rfl⟩ := List.mem_map.mp hl
      obtain ⟨behind, hmem⟩ := level_upsertList (k := OrderDual.toDual o.price) (o := o) he
      exact ⟨behind, List.mem_map.mpr ⟨_, hmem, rfl⟩⟩
  · exact ⟨[], by rw [List.append_nil, rest_levelsOf_other hs]; exact hl⟩

theorem admission_postOnly (h : b.admission order tracker = none) (hpost : order.postOnly = true) :
    b.wouldCross order = false := by
  unfold admission at h
  split_ifs at h with h1 h2 h3
  exact Bool.eq_false_iff.mpr fun hcross => h3 ⟨hpost, hcross⟩

/-- For a limit order the check reads the price that crossing goes by. -/
theorem crossable_eq_nil (hlimit : order.orderType = .limit)
    (hcross : b.wouldCross order = false) : b.crossable order = [] := by
  have key (p : ℚ) (q : Queue) (rest : List (ℚ × Queue)) (hno : ¬ order.crosses p = true) :
      crossing order ((p,q) :: rest) = [] := by
    simp [crossing, hno]
  unfold crossable
  cases hs : order.side with
  | buy =>
    simp only [wouldCross, hs, bestAsk, Side.opposite, levelsOf] at hcross ⊢
    cases he : b.asks.entries with
    | nil => rfl
    | cons e rest =>
      apply key
      simpa [he, Order.crosses, hs, hlimit] using hcross
  | sell =>
    simp only [wouldCross, hs, bestBid, Side.opposite, levelsOf] at hcross ⊢
    cases he : b.bids.entries with
    | nil => rfl
    | cons e rest =>
      apply key
      simpa [he, Order.crosses, hs, hlimit] using hcross

/-- An order that crosses nothing makes no fill and moves no other order. -/
theorem Returned.of_crossable_nil (h : b.Returned order tracker out b') (hs : b.Sane)
    (hnil : b.crossable order = []) : out.fills = [] ∧ b.Undisturbed b' := by
  obtain ⟨hpass, -⟩ := sweepLevels_untouched b.selfTrade b.market (s := b.pass (taker order))
    (hs order.side.opposite).nonempty fun m hm => by
      rw [show crossing (b.pass (taker order)).taker _ = [] from hnil] at hm
      simp at hm
  -- crossing has not even touched the id map
  have hbook : b.crossed order = b := by
    apply (crossed_eq_iff hs (admission_qty_pos h.admitted)).mpr
    rintro ⟨m, hm, -⟩
    rw [hnil] at hm
    simp at hm
  refine ⟨h.fills.trans (congrArg Pass.fills hpass), ?_⟩
  rcases h.book with ⟨-, rfl⟩ | ⟨-, rfl⟩
  · rw [hbook]
    exact .refl b
  · rw [hbook]
    exact rest_undisturbed b _

/-- An accepted market order has been filled. -/
theorem Returned.market_fills_ne_nil (h : b.Returned order tracker out b')
    (hmarket : order.orderType = .market) : out.fills ≠ [] := by
  intro hnone
  have htotal := sweep_total b order
  have hleft := h.market hmarket
  -- nothing is left of it, so what it traded is its whole quantity
  rw [← h.fills, ← h.remaining, hnone] at htotal
  have hqty := admission_qty_pos h.admitted
  simp only [List.map_nil, List.sum_nil] at htotal
  linarith

end Orderbook

/-- A post-only order that is accepted in a reachable book makes no fill and leaves every
resting order where it was, if and only if it is a limit order. -/
theorem postOnly_rests_iff (market : MarketId) (mode : SelfTradeMode) (cmds : List Cmd)
    {order : Order} {tracker : PositionTracker} {out : SubmitOutcome} {b' : Orderbook}
    (hpost : order.postOnly = true)
    (hok : (run (start market mode) cmds).submit order tracker = (.ok out,b')) :
    (out.fills = [] ∧ (run (start market mode) cmds).Undisturbed b') ↔
      order.orderType = .limit := by
  have h := Orderbook.submit_ok hok
  constructor
  · rintro ⟨hnone, -⟩
    cases htype : order.orderType with
    | limit => rfl
    | market => exact absurd hnone (h.market_fills_ne_nil htype)
  · intro hlimit
    apply h.of_crossable_nil (run_sane market mode cmds)
    exact Orderbook.crossable_eq_nil hlimit (Orderbook.admission_postOnly h.admitted hpost)

/-- A post-only buy of one unit. -/
def makerBuy (orderType : OrderType) (price : ℚ) : Order :=
  ⟨3, 2, 0, .buy, orderType, price, 1, 1, .gtc, true, false, 2⟩

theorem postOnly_rests_iff_belowAsk :
    let b := run (start 0 .cancelNewest) ownAndOther
    let out : SubmitOutcome := ⟨[], some 3, 1⟩
    (b.submit (makerBuy .limit 99) .new).1 = .ok out ∧
      ((out.fills = [] ∧ b.Undisturbed (b.submit (makerBuy .limit 99) .new).2) ↔
        (makerBuy .limit 99).orderType = .limit) := by
  intro b out
  have hok : (b.submit (makerBuy .limit 99) .new).1 = .ok out := by decide +kernel
  have hcall : b.submit (makerBuy .limit 99) .new =
      (.ok out,(b.submit (makerBuy .limit 99) .new).2) := Prod.ext hok rfl
  exact ⟨hok, postOnly_rests_iff 0 .cancelNewest ownAndOther rfl hcall⟩

/-- A post-only market order without a price passes the check and takes the ask. -/
theorem postOnly_market_takes :
    let b := run (start 0 .cancelNewest) ownAndOther
    (makerBuy .market 0).postOnly = true ∧ ∃ out, (b.submit (makerBuy .market 0) .new).1 = .ok out ∧
      out.fills ≠ [] ∧ (b.submit (makerBuy .market 0) .new).2.levelQty .sell 100 <
        b.levelQty .sell 100 := by
  refine ⟨rfl, ⟨[⟨1, 0, 1, 3, 7, 2, 100, 1, .buy, 2⟩], none, 0⟩, ?_, ?_, ?_⟩
  · decide +kernel
  · decide +kernel
  · decide +kernel

end Perplex.Book
