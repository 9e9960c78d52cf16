import Perplex.BookDecimal
import Perplex.DispatcherSync

/-! `run_market_worker` in the arithmetic of `Decimal`. The quantity of a level is summed up anew
for every delta, so it may be rounded or overflow, which ends the task; the number of a delta is a
`u64`. -/
namespace Perplex.Book

namespace Decimal
variable (round : ℚ → ℚ)

/-- Number and append a delta that tells the level as it is now. -/
def emit (w : Worker) (side : Side) (price : ℚ) (tsNs : ℕ) : Option Worker :=
  (levelQty round w.book side price).map fun qty =>
    { w with
      sequence := (w.sequence+1)%2^64
      deltas := w.deltas++[⟨w.market, (w.sequence+1)%2^64, side, price, qty, tsNs⟩] }

def appendFill (order : Order) (w : Worker) (f : Fill) : Option Worker :=
  emit round { w with fills := w.fills++[f] } order.side.opposite f.price f.tsNs

def submitWorker (w : Worker) (order : Order) (tracker : PositionTracker) : Option Worker :=
  match submit round w.book order tracker with
  | (none,_) => none
  | (some (.error _),book) => some { w with book := book }
  | (some (.ok out),book) =>
    (out.fills.foldlM (appendFill round order) { w with book := book }).bind fun w =>
      if out.resting.isSome then emit round w order.side order.price order.tsNs else some w

def stepWorker (w : Worker) : EngineCmd → Option Worker
  | .submit order tracker => submitWorker round w order tracker
  | .cancel orderId => some { w with book := (w.book.cancel orderId).2 }
  | .top => some w

/-- The worker after the commands it has received, unless one of them ended its task. -/
def runMarketWorker (market : MarketId) (selfTrade : SelfTradeMode) (cmds : List EngineCmd) :
    Option Worker := cmds.foldlM (stepWorker round) (.new market selfTrade)

theorem runMarketWorker_append (market : MarketId) (mode : SelfTradeMode)
    (cmds : List EngineCmd) (c : EngineCmd) : runMarketWorker round market mode (cmds++[c]) =
      (runMarketWorker round market mode cmds).bind fun w => stepWorker round w c := by
  unfold runMarketWorker
  rw [List.foldlM_append]
  simp only [List.foldlM_cons, List.foldlM_nil, bind_pure]
  rfl

end Decimal

/-- The quantities of each level are of one scale, and so is their sum. -/
def Orderbook.OneScale (b : Orderbook) : Prop :=
  ∃ k, ∀ side, ∀ l ∈ b.levelsOf side, (∀ m ∈ l.2, OnScale k m.remaining) ∧
    rustDecimal.Grid k (sumRemaining l.2)

namespace EngineCmd

/-- A command that meets amounts of one scale and leaves levels of one scale, with numbers left
for its deltas. -/
structure Exact (w : Worker) (c : EngineCmd) : Prop where
  amounts : ∀ order tracker, c = .submit order tracker → Decimal.Exact w.book order
  levels : (c.exec w.book).OneScale
  room : w.sequence+(c.announced w.book).length < 2^64

end EngineCmd

namespace Decimal
variable {round : ℚ → ℚ}

theorem levelQty_eq (hround : rustDecimal.IsRounding round) {b : Orderbook} (h : b.OneScale)
    (side : Side) (price : ℚ) :
    levelQty round b side price = some (b.levelQty side price) := by
  obtain ⟨k, hlevels⟩ := h
  -- the sum of one level
  have hsum {q : Queue} (hq : (price,q) ∈ b.levelsOf side) :
      rustDecimal.runningSum round 0 (q.map Order.remaining) =
        some (q.map Order.remaining).sum := by
    obtain ⟨hmem, hgrid⟩ := hlevels side _ hq
    unfold sumRemaining at hgrid
    rw [← zero_add (List.sum _)] at hgrid
    rw [hgrid.runningSum_eq hround (OnScale.zero k), zero_add]
    intro x hx
    obtain ⟨m, hm, rfl⟩ := List.mem_map.mp hx
    exact hmem m hm
  unfold levelQty Orderbook.levelQty
  cases side with
  | buy =>
    cases hq : b.bids.get? (OrderDual.toDual price) with
    | none => simp [DecimalFormat.runningSum]
    | some q =>
      exact hsum (List.mem_map.mpr
        ⟨(OrderDual.toDual price,q), SortedMap.mem_entries_iff.mpr hq, rfl⟩)
  | sell =>
    cases hq : b.asks.get? price with
    | none => simp [DecimalFormat.runningSum]
    | some q => exact hsum (SortedMap.mem_entries_iff.mpr hq)

theorem emit_eq (hround : rustDecimal.IsRounding round) {w : Worker} (h : w.book.OneScale)
    (hroom : w.sequence+1 < 2^64) (side : Side) (price : ℚ) (tsNs : ℕ) :
    emit round w side price tsNs = some (w.emit side price tsNs) := by
  simp only [emit, Worker.emit, qtyAt, levelQty_eq hround h, Nat.mod_eq_of_lt hroom,
    Option.map_some]

theorem appendFills_eq (hround : rustDecimal.IsRounding round) (order : Order) {w : Worker}
    {fs : List Fill} (h : w.book.OneScale) (hroom : w.sequence+fs.length < 2^64) :
    fs.foldlM (appendFill round order) w = some (fs.foldl (Worker.appendFill order) w) ∧
      (fs.foldl (Worker.appendFill order) w).book = w.book ∧
      (fs.foldl (Worker.appendFill order) w).sequence = w.sequence+fs.length := by
  induction fs generalizing w with
  | nil => exact ⟨rfl, rfl, rfl⟩
  | cons f fs ih =>
    rw [List.length_cons] at hroom
    have hone : appendFill round order w f = some (w.appendFill order f) :=
      emit_eq hround (w := { w with fills := w.fills++[f] }) h (by dsimp only; omega) _ _ _
    obtain ⟨heq, hbook, hseq⟩ := @ih (w.appendFill order f) h (by
      change w.sequence+1+fs.length < 2^64
      omega)
    rw [List.foldlM_cons, hone, List.foldl_cons]
    refine ⟨heq, hbook, hseq.trans ?_⟩
    change w.sequence+1+fs.length = w.sequence+(fs.length+1)
    omega

/-- A command whose amounts are of one scale is processed as on rationals. -/
theorem stepWorker_eq (hround : rustDecimal.IsRounding round) {w : Worker} {c : EngineCmd}
    (h : c.Exact w) : stepWorker round w c = some (w.step c) := by
  cases c with
  | cancel orderId => rfl
  | top => rfl
  | submit order tracker =>
    have hroom := h.room
    have hlevels := h.levels
    have hsubmit := submit_eq hround (h.amounts order tracker rfl) tracker
    simp only [EngineCmd.announced] at hroom
    simp only [EngineCmd.exec] at hlevels
    change submitWorker round w order tracker = some (w.submit order tracker)
    unfold submitWorker Worker.submit
    rw [hsubmit]
    rcases hcall : w.book.submit order tracker with ⟨res, book⟩
    rw [hcall] at hroom hlevels
    cases res with
    | error e => rfl
    | ok out =>
      dsimp only at hroom hlevels ⊢
      rw [List.length_append, List.length_map] at hroom
      obtain ⟨heq, hbook, hseq⟩ := @appendFills_eq round hround order { w with book := book }
        out.fills hlevels (by dsimp only; omega)
      rw [heq, Option.bind_some]
      split_ifs with hrest
      · rw [if_pos hrest, List.length_singleton] at hroom
        exact emit_eq hround (hbook ▸ hlevels) (by rw [hseq]; dsimp only; omega) _ _ _
      · rfl

/-- A worker all of whose commands meet amounts of one scale is the one on rationals. -/
theorem runMarketWorker_eq (hround : rustDecimal.IsRounding round) {market : MarketId}
    {mode : SelfTradeMode} {cmds : List EngineCmd}
    (h : ∀ (pre : List EngineCmd) (c : EngineCmd), pre++[c] <+: cmds →
      ∀ w, runMarketWorker round market mode pre = some w → c.Exact w)
    {pre : List EngineCmd} (hpre : pre <+: cmds) :
    runMarketWorker round market mode pre = some (Book.runMarketWorker market mode pre) ∧
      (Book.runMarketWorker market mode pre).book.OneScale := by
  induction pre using List.reverseRecOn with
  | nil =>
    refine ⟨rfl, 0, ?_⟩
    rintro (_ | _) l hl <;> exact absurd hl List.not_mem_nil
  | append_singleton pre c ih =>
    obtain ⟨hrun, -⟩ := ih ((List.prefix_append pre [c]).trans hpre)
    have hc := h pre c hpre _ hrun
    rw [runMarketWorker_append, hrun, Book.runMarketWorker_append, Worker.step_book]
    exact ⟨stepWorker_eq hround hc, hc.levels⟩

end Decimal

/-- Where amounts are of one scale, the deltas sent so far are after each command of a run
numbered 1, 2, 3, ... and rebuild every level of the book, if and only if every command of the run
is told in the book it meets. -/
theorem delta_stream_determines_book_iff {round : ℚ → ℚ} (hround : rustDecimal.IsRounding round)
    (market : MarketId) (mode : SelfTradeMode) (cmds : List EngineCmd)
    (hexact : ∀ (pre : List EngineCmd) (c : EngineCmd), pre++[c] <+: cmds →
      ∀ w, Decimal.runMarketWorker round market mode pre = some w → c.Exact w) :
    (∀ pre, pre <+: cmds → ∃ w, Decimal.runMarketWorker round market mode pre = some w ∧
      (∀ side price, Decimal.levelQty round w.book side price =
        some ((replay w.deltas).qty side price)) ∧
      w.deltas.map BookDelta.sequence = List.range' 1 w.deltas.length) ↔
    ∀ (pre : List EngineCmd) (c : EngineCmd), pre++[c] <+: cmds →
      ∀ w, Decimal.runMarketWorker round market mode pre = some w → c.Told w.book := by
  have hpast {pre : List EngineCmd} (hpre : pre <+: cmds) :=
    Decimal.runMarketWorker_eq hround hexact hpre
  have hiff := told_along_iff market mode cmds
  constructor
  · intro hall pre c hpre w hw
    rw [(hpast ((List.prefix_append pre [c]).trans hpre)).1] at hw
    obtain rfl := Option.some.inj hw
    refine hiff.mp (fun p hp => ?_) pre c hpre
    obtain ⟨hrun, hscale⟩ := hpast hp
    obtain ⟨w, hw, hlevels, hseq⟩ := hall p hp
    obtain rfl := Option.some.inj (hrun.symm.trans hw)
    refine ⟨fun side price => ?_, hseq⟩
    have hlevel := hlevels side price
    rw [Decimal.levelQty_eq hround hscale] at hlevel
    exact (Option.some.inj hlevel).symm
  · intro hall p hp
    obtain ⟨hrun, hscale⟩ := hpast hp
    obtain ⟨hlevels, hseq⟩ := hiff.mpr (fun pre c hpre =>
      hall pre c hpre _ (hpast ((List.prefix_append pre [c]).trans hpre)).1) p hp
    refine ⟨_, hrun, fun side price => ?_, hseq⟩
    rw [Decimal.levelQty_eq hround hscale, hlevels]

/-- The order and the levels before and behind it are of scale `k`. -/
theorem EngineCmd.exact_of_scale (k : ℕ) {past : Option Worker} {order : Order}
    {tracker : PositionTracker} (h : ∀ w ∈ past,
      (rustDecimal.Grid k order.qty ∧
        (∀ m ∈ crossing order (w.book.levelsOf order.side.opposite),
          rustDecimal.Grid k m.remaining) ∧
        (order.timeInForce = .fok → rustDecimal.Grid k (w.book.crossableQty order)) ∧
        w.book.nextFillId+(crossing order (w.book.levelsOf order.side.opposite)).length < 2^64) ∧
      (∀ side ∈ [Side.buy, Side.sell], ∀ l ∈ ((w.book.submit order tracker).2).levelsOf side,
        (∀ m ∈ l.2, rustDecimal.Grid k m.remaining) ∧ rustDecimal.Grid k (sumRemaining l.2)) ∧
      w.sequence+((EngineCmd.submit order tracker).announced w.book).length < 2^64) :
    ∀ w, past = some w → (EngineCmd.submit order tracker).Exact w := by
  intro w hw
  obtain ⟨hamounts, hlevels, hroom⟩ := h w hw
  refine ⟨?_, ⟨k, fun side l hl => ?_⟩, hroom⟩
  · rintro _ _ ⟨⟩
    exact .of_scale k hamounts
  · obtain ⟨hmem, hsum⟩ := hlevels side (by cases side <;> simp) l hl
    exact ⟨fun m hm => (hmem m hm).mem, hsum⟩

/-- An ask is placed and bought. -/
def placedAndBought : List EngineCmd :=
  [.submit restingAsk .new, .submit { restingAsk with id := 2, owner := 2, side := .buy } .new]

theorem placedAndBought_exact (pre : List EngineCmd) (c : EngineCmd)
    (hpre : pre++[c] <+: placedAndBought) (w : Worker) :
    Decimal.runMarketWorker rustDecimal.halfEven 0 .cancelNewest pre = some w → c.Exact w := by
  refine forall_request_cons (P := fun pre c => ∀ w,
    Decimal.runMarketWorker rustDecimal.halfEven 0 .cancelNewest pre = some w → c.Exact w)
    (EngineCmd.exact_of_scale 0 (by decide +kernel)) ?_ pre c hpre w
  exact forall_request_cons (EngineCmd.exact_of_scale 0 (by decide +kernel)) forall_request_nil

theorem delta_stream_determines_book_iff_bought :
    let worker := Decimal.runMarketWorker rustDecimal.halfEven 0 .cancelNewest
    (∀ pre, pre <+: placedAndBought → ∃ w, worker pre = some w ∧
      (∀ side price, Decimal.levelQty rustDecimal.halfEven w.book side price =
        some ((replay w.deltas).qty side price)) ∧
      w.deltas.map BookDelta.sequence = List.range' 1 w.deltas.length) ↔
    ∀ (pre : List EngineCmd) (c : EngineCmd), pre++[c] <+: placedAndBought →
      ∀ w, worker pre = some w → c.Told w.book :=
  delta_stream_determines_book_iff rustDecimal.halfEven_isRounding 0 .cancelNewest placedAndBought
    placedAndBought_exact

/-- An ask is placed and cancelled; the consumer still sees it. -/
theorem cancel_sends_no_delta :
    ∃ w, Decimal.runMarketWorker rustDecimal.halfEven 0 .cancelNewest
        [.submit restingAsk .new, .cancel 1] = some w ∧
      (replay w.deltas).qty .sell 100 = 1 ∧
      Decimal.levelQty rustDecimal.halfEven w.book .sell 100 = some 0 := by
  have hrun : (Decimal.runMarketWorker rustDecimal.halfEven 0 .cancelNewest
      [.submit restingAsk .new, .cancel 1]).isSome = true := by decide +kernel
  obtain ⟨w, hw⟩ := Option.isSome_iff_exists.mp hrun
  have hseen : ∀ w ∈ Decimal.runMarketWorker rustDecimal.halfEven 0 .cancelNewest
      [.submit restingAsk .new, .cancel 1], (replay w.deltas).qty .sell 100 = 1 ∧
        Decimal.levelQty rustDecimal.halfEven w.book .sell 100 = some 0 := by decide +kernel
  exact ⟨w, hw, hseen w hw⟩

end Perplex.Book
