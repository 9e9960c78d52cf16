import Mathlib.Algebra.Order.BigOperators.Group.List
import Perplex.BookDecimal

/-! When a rejected `submit` leaves the book as it was. The checks made up front never
touch it; a rejection raised during or after crossing does, unless crossing stopped at the
very first maker. -/
namespace Perplex.Book

def sumRemaining (ms : List Order) : ℚ := (ms.map Order.remaining).sum

/-- Of the makers met in priority order, those a taker of `owner` may trade with before
the self-trade check stops it. -/
def tradable (mode : SelfTradeMode) (owner : Address) (ms : List Order) : List Order :=
  match mode with
  | .allow => ms
  | .cancelBoth => ms.filter (fun m => m.owner ≠ owner)
  | .cancelNewest => ms.takeWhile (fun m => m.owner ≠ owner)

theorem sumRemaining_nonneg {ms : List Order} (h : ∀ m ∈ ms, 0 ≤ m.remaining) :
    0 ≤ sumRemaining ms := by
  apply List.sum_nonneg
  intro x hx
  obtain ⟨m, hm, rfl⟩ := List.mem_map.mp hx
  exact h m hm

theorem tradable_subset {mode : SelfTradeMode} {owner : Address} {ms : List Order} :
    ∀ m ∈ tradable mode owner ms, m ∈ ms := by
  intro m hm
  cases mode with
  | allow => exact hm
  | cancelBoth => exact (List.mem_filter.mp hm).1
  | cancelNewest => exact (List.takeWhile_prefix _).subset hm

section Spend
variable {mode : SelfTradeMode} {t : Order}

theorem tradable_proceed {m : Order} (ha : mode.action m t = .proceed) (ms : List Order) :
    tradable mode t.owner (m :: ms) = m :: tradable mode t.owner ms := by
  by_cases ho : m.owner = t.owner
  · cases mode <;> simp_all [SelfTradeMode.action, tradable]
  · cases mode <;> simp [tradable, ho]

theorem tradable_dropMaker {m : Order} (ha : mode.action m t = .dropMaker) (ms : List Order) :
    tradable mode t.owner (m :: ms) = tradable mode t.owner ms := by
  by_cases ho : m.owner = t.owner
  · cases mode <;> simp_all [SelfTradeMode.action, tradable]
  · simp [SelfTradeMode.action, ho] at ha

theorem rejectTaker_iff {m : Order} :
    mode.action m t = .rejectTaker ↔ mode = .cancelNewest ∧ m.owner = t.owner := by
  by_cases ho : m.owner = t.owner <;> cases mode <;> simp [SelfTradeMode.action, ho]

/-- The taker is exhausted exactly when the tradable makers cover it, and rejected exactly
when they do not and an own maker follows under `CancelNewest`. -/
theorem spend_iff (mode : SelfTradeMode) (t : Order) (ms : List Order)
    (hms : ∀ m ∈ ms, 0 ≤ m.remaining) (r : ℚ) :
    (spend mode t r ms = none ↔ mode = .cancelNewest ∧ (∃ m ∈ ms, m.owner = t.owner) ∧
      sumRemaining (tradable mode t.owner ms) < r) ∧
    ∀ x, spend mode t r ms = some x →
      (0 < x ↔ sumRemaining (tradable mode t.owner ms) < r) := by
  induction ms generalizing r with
  | nil =>
    have ht : tradable mode t.owner [] = [] := by cases mode <;> rfl
    simp [spend, ht, sumRemaining]
  | cons m ms ih =>
    have hm := hms m List.mem_cons_self
    have hms' : ∀ m ∈ ms, 0 ≤ m.remaining := fun x hx => hms x (List.mem_cons_of_mem _ hx)
    have hsum : 0 ≤ sumRemaining (tradable mode t.owner (m :: ms)) :=
      sumRemaining_nonneg (fun x hx => hms x (tradable_subset x hx))
    have hrest : 0 ≤ sumRemaining (tradable mode t.owner ms) :=
      sumRemaining_nonneg (fun x hx => hms' x (tradable_subset x hx))
    by_cases hr : 0 < r
    · simp only [spend, if_pos hr]
      cases ha : mode.action m t with
      | rejectTaker =>
        -- nothing before an own maker can be traded, so the whole of `r` is left over
        obtain ⟨hmode, ho⟩ := rejectTaker_iff.mp ha
        subst hmode
        have h0 : tradable .cancelNewest t.owner (m :: ms) = [] := by simp [tradable, ho]
        rw [h0]
        exact ⟨⟨fun _ => ⟨rfl, ⟨m, List.mem_cons_self, ho⟩, by simpa [sumRemaining] using hr⟩,
          fun _ => rfl⟩, fun x hx => by simp at hx⟩
      | dropMaker =>
        have hmode : mode ≠ .cancelNewest := by
          rintro rfl
          simp only [SelfTradeMode.action] at ha
          split_ifs at ha
        rw [tradable_dropMaker ha]
        refine ⟨⟨fun h => absurd ((ih hms' r).1.mp h).1 hmode, fun h => absurd h.1 hmode⟩, ?_⟩
        exact (ih hms' r).2
      | proceed =>
        obtain ⟨ih1, ih2⟩ := ih hms' (r-min r m.remaining)
        have hadd : sumRemaining (tradable mode t.owner (m :: ms)) =
            m.remaining+sumRemaining (tradable mode t.owner ms) := by
          rw [tradable_proceed ha]
          simp [sumRemaining]
        -- what the tail has to cover is what this maker does not
        have hcover : sumRemaining (tradable mode t.owner ms) < r-min r m.remaining ↔
            sumRemaining (tradable mode t.owner (m :: ms)) < r := by
          rw [hadd]
          rcases le_total r m.remaining with hle | hle
          · rw [min_eq_left hle]
            constructor <;> intro h <;> linarith
          · rw [min_eq_right hle]
            constructor <;> intro h <;> linarith
        -- a maker that is traded with under `CancelNewest` is not an own one
        have hown : mode = .cancelNewest → ((∃ x ∈ m :: ms, x.owner = t.owner) ↔
            ∃ x ∈ ms, x.owner = t.owner) := by
          rintro rfl
          have hne : m.owner ≠ t.owner := by
            intro ho
            rw [rejectTaker_iff.mpr ⟨rfl, ho⟩] at ha
            simp at ha
          simp [hne]
        refine ⟨?_, fun x hx => by rw [ih2 x hx, hcover]⟩
        rw [ih1, hcover]
        constructor
        · rintro ⟨h1, h2, h3⟩
          exact ⟨h1, (hown h1).mpr h2, h3⟩
        · rintro ⟨h1, h2, h3⟩
          exact ⟨h1, (hown h1).mp h2, h3⟩
    · have hle := not_lt.mp hr
      rw [spend_of_nonpos hle]
      refine ⟨⟨fun h => by simp at h, fun h => absurd h.2.2 (by linarith)⟩, ?_⟩
      intro x hx
      obtain rfl := Option.some.inj hx
      exact ⟨fun h => absurd h hr, fun h => by linarith⟩

end Spend

namespace Orderbook

/-- The resting orders the order crosses, in price-time priority. -/
def crossable (b : Orderbook) (order : Order) : List Order :=
  crossing order (b.levelsOf order.side.opposite)

/-- How much of the order the book can fill before the self-trade check stops it. -/
def fillable (b : Orderbook) (order : Order) : ℚ :=
  sumRemaining (tradable b.selfTrade order.owner (b.crossable order))

/-- Crossing starts to work on the book: the first maker is not one that rejects. -/
def Touches (b : Orderbook) (order : Order) : Prop :=
  ∃ m, (b.crossable order).head? = some m ∧ b.selfTrade.action m order ≠ .rejectTaker

/-- The order cannot be filled and belongs to the kinds that are then rejected. -/
def FailsLate (b : Orderbook) (order : Order) : Prop :=
  b.fillable order < order.qty ∧ (order.orderType = .market ∨
    b.selfTrade = .cancelNewest ∧ ∃ m ∈ b.crossable order, m.owner = order.owner)

theorem crossable_nonneg {b : Orderbook} (h : b.Sane) (order : Order) :
    ∀ m ∈ b.crossable order, 0 ≤ m.remaining := by
  intro m hm
  obtain ⟨l, hl, hm⟩ := List.mem_flatMap.mp hm
  exact (h order.side.opposite).nonneg l ((List.takeWhile_prefix _).subset hl) m hm

theorem sweep_err_iff {b : Orderbook} (h : b.Sane) (order : Order) :
    (b.sweep (taker order)).err.isSome ↔ b.selfTrade = .cancelNewest ∧
      (∃ m ∈ b.crossable order, m.owner = order.owner) ∧ b.fillable order < order.qty := by
  have hs := spend_sweepLevels b.selfTrade b.market (b.pass (taker order))
    (b.levelsOf order.side.opposite)
  have hi := (spend_iff b.selfTrade (taker order) (b.crossable order)
    (crossable_nonneg h order) order.qty).1
  change spend b.selfTrade (taker order) order.qty (b.crossable order) =
    (if (b.sweep (taker order)).err.isSome then none
      else some (b.sweep (taker order)).pass.taker.remaining) at hs
  rw [hs] at hi
  unfold fillable
  rw [show order.owner = (taker order).owner from rfl, ← hi]
  split_ifs with he <;> simp [he]

theorem sweep_remaining_iff {b : Orderbook} (h : b.Sane) (order : Order)
    (he : (b.sweep (taker order)).err = none) :
    0 < (b.sweep (taker order)).pass.taker.remaining ↔ b.fillable order < order.qty := by
  have hs := spend_sweepLevels b.selfTrade b.market (b.pass (taker order))
    (b.levelsOf order.side.opposite)
  change spend b.selfTrade (taker order) order.qty (b.crossable order) =
    (if (b.sweep (taker order)).err.isSome then none
      else some (b.sweep (taker order)).pass.taker.remaining) at hs
  rw [he] at hs
  exact (spend_iff b.selfTrade (taker order) (b.crossable order)
    (crossable_nonneg h order) order.qty).2 _ hs

/-- An admitted order is rejected exactly when it fails late. -/
theorem submit_error_iff {b : Orderbook} (h : b.Sane) {order : Order}
    {tracker : PositionTracker} (ha : b.admission order tracker = none) :
    (∃ e, (b.submit order tracker).1 = .error e) ↔ b.FailsLate order := by
  have herr := sweep_err_iff h order
  rcases submit_cases b order tracker with
    ⟨e, hadm, -⟩ | ⟨-, ⟨e, he, hr⟩ | ⟨he, ⟨hk, hpos, hr⟩ | ⟨hk, -, hpos, hr⟩ | ⟨hk, -, hr⟩⟩⟩
  · rw [ha] at hadm
    simp at hadm
  -- the self-trade check stopped the sweep
  · obtain ⟨h1, h2, h3⟩ := herr.mp (by simp [he])
    rw [hr]
    exact ⟨fun _ => ⟨h3, Or.inr ⟨h1, h2⟩⟩, fun _ => ⟨e, rfl⟩⟩
  -- a market order with a remainder
  · rw [hr]
    exact ⟨fun _ => ⟨(sweep_remaining_iff h order he).mp hpos, Or.inl hk⟩, fun _ => ⟨_, rfl⟩⟩
  · rw [hr]
    refine ⟨fun ⟨e, h⟩ => by simp at h, ?_⟩
    rintro ⟨hlt, hm | ⟨h1, h2⟩⟩
    · simp [hk] at hm
    · have hc := herr.mpr ⟨h1, h2, hlt⟩
      simp [he] at hc
  · rw [hr]
    refine ⟨fun ⟨e, h⟩ => by simp at h, ?_⟩
    rintro ⟨hlt, hm | ⟨h1, h2⟩⟩
    · exact absurd ⟨hm, (sweep_remaining_iff h order he).mpr hlt⟩ hk
    · have hc := herr.mpr ⟨h1, h2, hlt⟩
      simp [he] at hc

/-- Crossing leaves the book alone exactly when it does not touch the first maker. -/
theorem crossed_eq_iff {b : Orderbook} (h : b.Sane) {order : Order} (hq : 0 < order.qty) :
    b.crossed order = b ↔ ¬ b.Touches order := by
  obtain ⟨-, -, -, hid, hn, hopp, hown, hm, hst⟩ := cross_spec b (taker order)
  change (b.crossed order).byId = _ at hid
  change (b.crossed order).nextFillId = _ at hn
  change (b.crossed order).levelsOf order.side.opposite = _ at hopp
  change (b.crossed order).levelsOf order.side = _ at hown
  have hne := (h order.side.opposite).nonempty
  constructor
  · rintro heq ⟨m, hhead, hact⟩
    -- fill ids used plus orders gone grow with the first maker visited
    have ht := sweepLevels_touched b.selfTrade b.market (s := b.pass (taker order)) hne hq
      hhead hact
    change b.nextFillId+orderCount (b.sweep (taker order)).levels <
      (b.sweep (taker order)).pass.nextFillId+_ at ht
    rw [← hn, ← hopp, heq] at ht
    exact absurd ht (lt_irrefl _)
  · intro hnt
    have hu := sweepLevels_untouched b.selfTrade b.market (s := b.pass (taker order)) hne
      (fun m hhead => by
        by_contra hact
        exact hnt ⟨m, hhead, hact⟩)
    change (b.sweep (taker order)).pass = _ ∧ (b.sweep (taker order)).levels = _ at hu
    rw [hu.1] at hid hn
    rw [hu.2] at hopp
    apply eq_of_levels _ hm hid hn hst
    intro side
    rcases Side.eq_or_eq_opposite side order.side with rfl | rfl
    · exact hown
    · exact hopp

/-- On rationals, a rejected `submit` leaves a sane book unchanged if and only if the order is not
one that is admitted, touches a maker and then fails. -/
theorem submit_keeps_iff {b : Orderbook} (hs : b.Sane) (order : Order)
    (tracker : PositionTracker) :
    (∀ e, (b.submit order tracker).1 = .error e → (b.submit order tracker).2 = b) ↔
      ¬ (b.admission order tracker = none ∧ b.Touches order ∧ b.FailsLate order) := by
  rcases Orderbook.submit_cases b order tracker with ⟨e, hadm, hr⟩ | ⟨hadm, hcases⟩
  · rw [hr, hadm]
    simp
  have herr := Orderbook.submit_error_iff hs hadm
  have heq := Orderbook.crossed_eq_iff hs (Orderbook.admission_qty_pos hadm)
  -- every rejection of an admitted order comes with the crossed book
  have hbook : ∀ e, (b.submit order tracker).1 = .error e →
      (b.submit order tracker).2 = b.crossed order := by
    intro e he
    rcases hcases with ⟨e', -, hr⟩ | ⟨-, ⟨-, -, hr⟩ | ⟨-, -, -, hr⟩ | ⟨-, -, hr⟩⟩
    · rw [hr]
    · rw [hr]
    · rw [hr] at he
      simp at he
    · rw [hr] at he
      simp at he
  constructor
  · rintro hall ⟨-, ht, hf⟩
    obtain ⟨e, he⟩ := herr.mpr hf
    exact heq.mp ((hbook e he).symm.trans (hall e he)) ht
  · intro hn e he
    rw [hbook e he]
    apply heq.mpr
    intro ht
    exact hn ⟨hadm, ht, herr.mp ⟨e, he⟩⟩

end Orderbook

/-- For every book that amounts of one scale reach, a rejected `submit` leaves the book unchanged
if and only if the order is not one that is admitted, touches a maker and then fails. -/
theorem submit_error_keeps_book_iff {round : ℚ → ℚ} (hround : rustDecimal.IsRounding round)
    (market : MarketId) (mode : SelfTradeMode) (cmds : List Cmd) (order : Order)
    (tracker : PositionTracker) (hexact : Decimal.ExactRun round (start market mode)
      (cmds++[.submit order tracker])) :
    let b := Decimal.run round (start market mode) cmds
    (∀ e, (Decimal.submit round b order tracker).1 = some (.error e) →
        (Decimal.submit round b order tracker).2 = b) ↔
      ¬ (b.admission order tracker = none ∧ b.Touches order ∧ b.FailsLate order) := by
  intro b
  obtain ⟨hrun, hlast⟩ := hexact.last hround
  have hb : b = run (start market mode) cmds := hrun
  have hsane : b.Sane := hb ▸ run_sane market mode cmds
  rw [Decimal.submit_eq hround (hb ▸ hlast : Decimal.Exact b order),
    ← Orderbook.submit_keeps_iff hsane order tracker]
  simp only [Option.some.injEq]

/-- A limit order of one unit by user 1 on the ask side. -/
def restingAsk : Order :=
  ⟨1, 1, 0, .sell, .limit, 100, 1, 1, .gtc, false, false, 0⟩

/-- A market buy of two units by user 2. -/
def marketBuy : Order :=
  ⟨2, 2, 0, .buy, .market, 0, 2, 2, .gtc, false, false, 1⟩

/-- Both orders are of scale zero. -/
theorem exactRun_ask_then_buy : Decimal.ExactRun rustDecimal.halfEven (start 0 .cancelNewest)
    [.submit restingAsk .new, .submit marketBuy .new] :=
  forall_request_cons (.of_scale 0 (by decide +kernel))
    (forall_request_cons (.of_scale 0 (by decide +kernel)) forall_request_nil)

theorem submit_error_keeps_book_iff_restingAsk :
    let b := Decimal.run rustDecimal.halfEven (start 0 .cancelNewest) [.submit restingAsk .new]
    (∀ e, (Decimal.submit rustDecimal.halfEven b marketBuy .new).1 = some (.error e) →
        (Decimal.submit rustDecimal.halfEven b marketBuy .new).2 = b) ↔
      ¬ (b.admission marketBuy .new = none ∧ b.Touches marketBuy ∧ b.FailsLate marketBuy) :=
  submit_error_keeps_book_iff rustDecimal.halfEven_isRounding 0 .cancelNewest
    [.submit restingAsk .new] marketBuy .new exactRun_ask_then_buy

/-- A market order larger than the book is rejected after it has emptied the book. -/
theorem market_reject_empties_book :
    let b := Decimal.run rustDecimal.halfEven (start 0 .cancelNewest) [.submit restingAsk .new]
    (Decimal.submit rustDecimal.halfEven b marketBuy .new).1 =
        some (.error .marketNoLiquidity) ∧
      (Decimal.submit rustDecimal.halfEven b marketBuy .new).2 ≠ b := by
  refine ⟨by decide +kernel, fun h => ?_⟩
  have hn := congrArg Orderbook.nextFillId h
  revert hn
  decide +kernel

end Perplex.Book
