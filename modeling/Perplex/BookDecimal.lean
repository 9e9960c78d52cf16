import Perplex.BookRun
import Perplex.Checked

/-! The order book in the arithmetic of `Decimal`: a difference is rounded, and a sum that does not
fit panics. Where the quantities that an order meets are of one scale nothing is rounded, and the
call does what it does on rationals. Differences of quantities that are not negative always fit, so
the only panic is that of the dry run, before anything is written. -/
namespace Perplex.Book

namespace Decimal

section Model
variable (round : ℚ → ℚ)

/-- One fill, with both remainders rounded. The number of the fill is a `u64`. -/
def trade (market : MarketId) (price : ℚ) (st : LevelPass) (maker : Order) : LevelPass :=
  let traded := min st.taker.remaining maker.remaining
  let id := (st.nextFillId+1)%2^64
  { st with
    taker := { st.taker with remaining := round (st.taker.remaining-traded) }
    fills := st.fills++[
      { id := id
        market := market
        makerOrderId := maker.id
        takerOrderId := st.taker.id
        makerUser := maker.owner
        takerUser := st.taker.owner
        price := price
        qty := traded
        takerSide := st.taker.side
        tsNs := st.taker.tsNs }]
    nextFillId := id
    visited := st.visited++[{ maker with remaining := round (maker.remaining-traded) }] }

/-- The `while` loop of `cross_one_level`. -/
def crossQueue (mode : SelfTradeMode) (market : MarketId) (price : ℚ) :
    LevelPass → Queue → LevelPass × Queue × Option SubmitError
  | st, [] => (st,[],none)
  | st, maker :: rest =>
    if 0 < st.taker.remaining then
      match mode.action maker st.taker with
      | .rejectTaker => (st,maker :: rest,some .selfTradeRejected)
      | .dropMaker => crossQueue mode market price (st.drop maker) rest
      | .proceed =>
        if round (maker.remaining-min st.taker.remaining maker.remaining) = 0 then
          crossQueue mode market price
            ((trade round market price st maker).consume maker st.visited.length) rest
        else (trade round market price st maker,rest,none)
    else (st,maker :: rest,none)

section Crossing
variable {K : Type} [LinearOrder K]

/-- `cross_one_level`. -/
def crossOneLevel (priceOf : K → ℚ) (mode : SelfTradeMode) (market : MarketId) (key : K)
    (c : Crossing K) : Crossing K × Option SubmitError :=
  let queue := (c.levels.get? key).getD []
  let start : LevelPass := ⟨c.taker, c.fills, c.byId, c.nextFillId, [], []⟩
  match crossQueue round mode market (priceOf key) start queue with
  | (st,rest,err) =>
    let queue := st.visited++rest
    let queue := if err.isSome then queue else compact queue st.consumed
    (⟨c.levels.adjust key (fun _ => queue), st.byId, st.nextFillId, st.taker, st.fills⟩, err)

/-- The loop shared by `cross_buy` and `cross_sell`, cut off after `fuel` rounds. -/
def crossLoop (priceOf : K → ℚ) (mode : SelfTradeMode) (market : MarketId) :
    ℕ → Crossing K → Crossing K × Option SubmitError
  | 0, c => (c,none)
  | fuel+1, c =>
    if c.taker.remaining ≤ 0 then (c,none)
    else match c.levels.entries.head? with
      | none => (c,none)
      | some (key,_) =>
        if !c.taker.crosses (priceOf key) then (c,none)
        else match crossOneLevel round priceOf mode market key c with
          | (c',some e) => (c',some e)
          | (c',none) => crossLoop priceOf mode market fuel (dropEmptyLevel key c')

end Crossing

/-- `level_qty`. -/
def levelQty (b : Orderbook) (side : Side) (price : ℚ) : Option ℚ :=
  let queue := match side with
    | .buy => b.bids.get? (OrderDual.toDual price)
    | .sell => b.asks.get? price
  rustDecimal.runningSum round 0 ((queue.getD []).map Order.remaining)

/-- `crossable_qty`. -/
def crossableQty (b : Orderbook) (taker : Order) : Option ℚ :=
  rustDecimal.runningSum round 0
    ((crossing taker (b.levelsOf taker.side.opposite)).map Order.remaining)

def crossBuy (b : Orderbook) (taker : Order) :
    Option SubmitError × Order × List Fill × Orderbook :=
  match crossLoop round id b.selfTrade b.market (b.asks.entries.length+1)
      ⟨b.asks, b.byId, b.nextFillId, taker, []⟩ with
  | (c,err) => (err,c.taker,c.fills,
      { b with asks := c.levels, byId := c.byId, nextFillId := c.nextFillId })

def crossSell (b : Orderbook) (taker : Order) :
    Option SubmitError × Order × List Fill × Orderbook :=
  match crossLoop round OrderDual.ofDual b.selfTrade b.market (b.bids.entries.length+1)
      ⟨b.bids, b.byId, b.nextFillId, taker, []⟩ with
  | (c,err) => (err,c.taker,c.fills,
      { b with bids := c.levels, byId := c.byId, nextFillId := c.nextFillId })

def cross (b : Orderbook) (taker : Order) :
    Option SubmitError × Order × List Fill × Orderbook :=
  match taker.side with
  | .buy => crossBuy round b taker
  | .sell => crossSell round b taker

/-- The checks of `submit`; the dry run may panic. -/
def admission (b : Orderbook) (order : Order) (tracker : PositionTracker) :
    Option (Option SubmitError) :=
  if order.qty ≤ 0 then some (some .zeroQty)
  else if order.orderType = .limit ∧ order.price ≤ 0 then some (some .zeroPrice)
  else if order.postOnly ∧ b.wouldCross order then some (some .postOnlyWouldCross)
  else if order.reduceOnly ∧
      !tracker.wouldReduce order.owner order.market order.side order.qty then
    some (some .reduceOnlyWouldIncrease)
  else if order.timeInForce = .fok then
    (crossableQty round b order).map fun available =>
      if available < order.qty then some .fokUnfillable else none
  else some none

/-- The answer, unless the call panics, and the book after the call. -/
def submit (b : Orderbook) (order : Order) (tracker : PositionTracker) :
    Option (Except SubmitError SubmitOutcome) × Orderbook :=
  match admission round b order tracker with
  | none => (none,b)
  | some (some e) => (some (.error e),b)
  | some none =>
    match cross round b { order with remaining := order.qty } with
    | (some e,_,_,b') => (some (.error e),b')
    | (none,taker,fills,b') =>
      if taker.orderType = .market ∧ 0 < taker.remaining then
        (some (.error .marketNoLiquidity),b')
      else if 0 < taker.remaining ∧ taker.orderType = .limit ∧ taker.timeInForce = .gtc then
        (some (.ok ⟨fills, some taker.id, taker.remaining⟩),b'.rest taker)
      else (some (.ok ⟨fills, none, taker.remaining⟩),b')

def step (b : Orderbook) : Cmd → Orderbook
  | .submit order tracker => (submit round b order tracker).2
  | .cancel id => (b.cancel id).2

/-- The book after a sequence of `submit` and `cancel` calls. -/
def run (b : Orderbook) (cmds : List Cmd) : Orderbook := cmds.foldl (step round) b

end Model

/-- The quantity of an order and those that it may cross are of one scale, and so is the sum of
these where the order asks for it; and the fills that it may make have numbers left. -/
structure Exact (b : Orderbook) (order : Order) : Prop where
  amounts : 0 < order.qty → ∃ k, rustDecimal.Grid k order.qty ∧
    (∀ m ∈ crossing order (b.levelsOf order.side.opposite), rustDecimal.Grid k m.remaining) ∧
    (order.timeInForce = .fok → rustDecimal.Grid k (b.crossableQty order))
  room : b.nextFillId+(crossing order (b.levelsOf order.side.opposite)).length < 2^64

theorem Exact.of_scale {b : Orderbook} {order : Order} (k : ℕ)
    (h : rustDecimal.Grid k order.qty ∧
      (∀ m ∈ crossing order (b.levelsOf order.side.opposite), rustDecimal.Grid k m.remaining) ∧
      (order.timeInForce = .fok → rustDecimal.Grid k (b.crossableQty order)) ∧
      b.nextFillId+(crossing order (b.levelsOf order.side.opposite)).length < 2^64) :
    Exact b order := ⟨fun _ => ⟨k, h.1, h.2.1, h.2.2.1⟩, h.2.2.2⟩

section Exact
variable {round : ℚ → ℚ} {k : ℕ}

theorem trade_eq (hround : rustDecimal.IsRounding round) {st : LevelPass} {maker : Order}
    (ht : rustDecimal.Grid k st.taker.remaining) (hm : rustDecimal.Grid k maker.remaining)
    (hid : st.nextFillId+1 < 2^64) (market : MarketId) (price : ℚ) :
    trade round market price st maker = st.trade market price maker := by
  simp only [trade, LevelPass.trade, (ht.sub_min_left hm).round_eq hround,
    (ht.sub_min_right hm).round_eq hround, Nat.mod_eq_of_lt hid]

/-- What the loop of one level does to the taker and to the numbers. -/
structure Settles (k : ℕ) (n : ℕ) (q : List Order) (taker : Order) (n' : ℕ) : Prop where
  taker : rustDecimal.Grid k taker.remaining
  numbers : n' ≤ n+q.length

/-- The loop over a queue of one scale is not rounded. -/
theorem crossQueue_eq (hround : rustDecimal.IsRounding round) (mode : SelfTradeMode)
    (market : MarketId) (price : ℚ) {st : LevelPass} {q : Queue}
    (ht : rustDecimal.Grid k st.taker.remaining)
    (hq : ∀ m ∈ q, rustDecimal.Grid k m.remaining) (hid : st.nextFillId+q.length < 2^64) :
    crossQueue round mode market price st q = Book.crossQueue mode market price st q ∧
      Settles k st.nextFillId q (Book.crossQueue mode market price st q).1.taker
        (Book.crossQueue mode market price st q).1.nextFillId := by
  induction q generalizing st with
  | nil => exact ⟨rfl, ht, le_rfl⟩
  | cons maker rest ih =>
    obtain ⟨hm, hrest⟩ := List.forall_mem_cons.mp hq
    rw [List.length_cons] at hid
    unfold crossQueue Book.crossQueue
    rw [trade_eq hround ht hm (by omega), (ht.sub_min_right hm).round_eq hround]
    by_cases hpos : 0 < st.taker.remaining
    · rw [if_pos hpos, if_pos hpos]
      cases mode.action maker st.taker with
      | rejectTaker => exact ⟨rfl, ht, Nat.le_add_right _ _⟩
      | dropMaker =>
        obtain ⟨heq, hsettles⟩ := @ih (st.drop maker) ht hrest (by
          change st.nextFillId+rest.length < 2^64
          omega)
        exact ⟨heq, hsettles.taker, hsettles.numbers.trans (Nat.add_le_add_left (by simp) _)⟩
      | proceed =>
        -- a maker that is used up makes room for the next one, another ends the loop
        by_cases hz : maker.remaining-min st.taker.remaining maker.remaining = 0
        · simp only [if_pos hz]
          obtain ⟨heq, hsettles⟩ := @ih
            ((st.trade market price maker).consume maker st.visited.length)
            (ht.sub_min_left hm) hrest (by
              change st.nextFillId+1+rest.length < 2^64
              omega)
          refine ⟨heq, hsettles.taker, hsettles.numbers.trans ?_⟩
          change st.nextFillId+1+rest.length ≤ st.nextFillId+(rest.length+1)
          omega
        · simp only [if_neg hz]
          refine ⟨trivial, ht.sub_min_left hm, ?_⟩
          change st.nextFillId+1 ≤ st.nextFillId+(rest.length+1)
          omega
    · rw [if_neg hpos, if_neg hpos]
      exact ⟨rfl, ht, Nat.le_add_right _ _⟩

section Crossing
variable {K : Type} [LinearOrder K] (priceOf : K → ℚ)

theorem crossOneLevel_eq (hround : rustDecimal.IsRounding round) (mode : SelfTradeMode)
    (market : MarketId) {key : K} {c : Crossing K} {q : Queue} {rest : List (K × Queue)}
    (hc : c.levels.entries = (key,q) :: rest) (ht : rustDecimal.Grid k c.taker.remaining)
    (hq : ∀ m ∈ q, rustDecimal.Grid k m.remaining) (hid : c.nextFillId+q.length < 2^64) :
    crossOneLevel round priceOf mode market key c =
        Book.crossOneLevel priceOf mode market key c ∧
      Settles k c.nextFillId q (Book.crossOneLevel priceOf mode market key c).1.taker
        (Book.crossOneLevel priceOf mode market key c).1.nextFillId := by
  have hqueue : (c.levels.get? key).getD [] = q := by
    rw [SortedMap.get?_head hc, Option.getD_some]
  have hloop := @crossQueue_eq round k hround mode market (priceOf key)
    ⟨c.taker, c.fills, c.byId, c.nextFillId, [], []⟩ q ht hq hid
  simp only [crossOneLevel, Book.crossOneLevel, hqueue, hloop.1, true_and]
  exact hloop.2

/-- The orders of a side that the taker may meet. -/
def ahead (c : Crossing K) : List Order :=
  (c.levels.entries.takeWhile fun l => c.taker.crosses (priceOf l.1)).flatMap Prod.snd

/-- The levels behind the first one wait as they are: it is gone after its turn, or the taker
is. -/
theorem crossLoop_eq (hround : rustDecimal.IsRounding round) (mode : SelfTradeMode)
    (market : MarketId) (fuel : ℕ) {c : Crossing K} (ht : rustDecimal.Grid k c.taker.remaining)
    (hq : 0 < c.taker.remaining → (∀ m ∈ ahead priceOf c, rustDecimal.Grid k m.remaining) ∧
      c.nextFillId+(ahead priceOf c).length < 2^64) :
    crossLoop round priceOf mode market fuel c = Book.crossLoop priceOf mode market fuel c := by
  induction fuel generalizing c with
  | zero => rfl
  | succ fuel ih =>
    unfold crossLoop Book.crossLoop
    split_ifs with hr
    · rfl
    cases hc : c.levels.entries with
    | nil => rfl
    | cons e rest =>
      obtain ⟨key, q⟩ := e
      simp only [List.head?_cons]
      by_cases hx : c.taker.crosses (priceOf key) = true
      · simp only [hx, Bool.not_true, Bool.false_eq_true, if_false]
        obtain ⟨hmakers, hid⟩ := hq (not_le.mp hr)
        have hahead : ahead priceOf c = q++(rest.takeWhile fun l =>
            c.taker.crosses (priceOf l.1)).flatMap Prod.snd := by
          simp [ahead, hc, hx]
        rw [hahead] at hmakers hid
        obtain ⟨hfirst, hbehind⟩ := List.forall_mem_append.mp hmakers
        rw [List.length_append] at hid
        obtain ⟨heq, hsettles⟩ := crossOneLevel_eq priceOf hround mode market hc ht hfirst
          (by omega)
        obtain ⟨hpass, herr, hentries⟩ := crossOneLevel_head priceOf mode market hc
        rw [heq]
        generalize Book.crossOneLevel priceOf mode market key c = o at *
        obtain ⟨c', err⟩ := o
        dsimp only at hsettles hpass herr hentries
        cases err with
        | some e => rfl
        | none =>
          rw [← herr] at hentries
          simp only [Option.isSome_none, Bool.false_eq_true, if_false] at hentries
          have htaker : c'.taker = (sweepQueue mode market (priceOf key) c.toPass q).pass.taker :=
            congrArg Pass.taker hpass
          cases hl : (sweepQueue mode market (priceOf key) c.toPass q).left with
          | nil =>
            -- the level is removed; the taker crosses what it crossed before
            rw [hl] at hentries
            have hnext : ahead priceOf { c' with levels := c'.levels.erase key } =
                (rest.takeWhile fun l => c.taker.crosses (priceOf l.1)).flatMap Prod.snd := by
              simp only [ahead, SortedMap.erase_head hentries, htaker, sweepQueue_crosses]
              rfl
            dsimp only
            rw [dropEmptyLevel_of_empty hentries]
            refine ih hsettles.taker fun _ => ?_
            rw [hnext]
            have hnumbers := hsettles.numbers
            exact ⟨hbehind, by dsimp only; omega⟩
          | cons m ms =>
            have hdone := sweepQueue_left_ne_nil mode market (priceOf key) c.toPass q herr.symm
              (by simp [hl])
            rw [← htaker] at hdone
            rw [hl] at hentries
            dsimp only
            rw [dropEmptyLevel_of_cons hentries]
            exact ih hsettles.taker fun hpos => absurd hdone (not_le.mpr hpos)
      · simp [hx]

end Crossing

theorem cross_eq (hround : rustDecimal.IsRounding round) {b : Orderbook} {taker : Order}
    (ht : rustDecimal.Grid k taker.remaining)
    (hm : ∀ m ∈ crossing taker (b.levelsOf taker.side.opposite),
      rustDecimal.Grid k m.remaining)
    (hid : b.nextFillId+(crossing taker (b.levelsOf taker.side.opposite)).length < 2^64) :
    cross round b taker = b.cross taker := by
  unfold cross Orderbook.cross
  cases hs : taker.side with
  | buy =>
    rw [hs] at hm hid
    have hloop := crossLoop_eq id hround b.selfTrade b.market (b.asks.entries.length+1)
      (c := ⟨b.asks, b.byId, b.nextFillId, taker, []⟩) ht fun _ => ⟨hm, hid⟩
    simp only [crossBuy, Orderbook.crossBuy, hloop]
  | sell =>
    have hahead : ahead OrderDual.ofDual ⟨b.bids, b.byId, b.nextFillId, taker, []⟩ =
        crossing taker (b.levelsOf .buy) := by
      simp only [ahead, crossing, Orderbook.levelsOf, List.takeWhile_map, List.flatMap_map]
      rfl
    rw [hs, Side.opposite, ← hahead] at hm hid
    have hloop := crossLoop_eq OrderDual.ofDual hround b.selfTrade b.market
      (b.bids.entries.length+1) (c := ⟨b.bids, b.byId, b.nextFillId, taker, []⟩) ht
      fun _ => ⟨hm, hid⟩
    simp only [crossSell, Orderbook.crossSell, hloop]

theorem crossableQty_eq_sum (b : Orderbook) (taker : Order) : b.crossableQty taker =
    ((crossing taker (b.levelsOf taker.side.opposite)).map Order.remaining).sum := by
  unfold Orderbook.crossableQty crossing
  rw [List.map_flatMap, List.flatMap, List.sum_flatten, List.map_map]
  rfl

theorem admission_eq (hround : rustDecimal.IsRounding round) {b : Orderbook} {order : Order}
    (h : Exact b order) (tracker : PositionTracker) :
    admission round b order tracker = some (b.admission order tracker) := by
  have hdry (hqty : 0 < order.qty) (hfok : order.timeInForce = .fok) :
      crossableQty round b order = some (b.crossableQty order) := by
    obtain ⟨k, -, hm, hsum⟩ := h.amounts hqty
    have htotal := hsum hfok
    rw [crossableQty_eq_sum] at htotal ⊢
    rw [← zero_add (List.sum _)] at htotal
    rw [crossableQty, htotal.runningSum_eq hround (OnScale.zero k), zero_add]
    intro x hx
    obtain ⟨m, hmem, rfl⟩ := List.mem_map.mp hx
    exact (hm m hmem).mem
  unfold admission Orderbook.admission
  by_cases hqty : order.qty ≤ 0
  · simp [hqty]
  by_cases hfok : order.timeInForce = .fok
  · rw [hdry (not_le.mp hqty) hfok]
    simp only [hqty, if_false, hfok, if_true, true_and, Option.map_some]
    split_ifs <;> rfl
  · simp only [hqty, hfok, if_false, false_and]
    split_ifs <;> rfl

/-- A call whose quantities are of one scale is not rounded and does not panic. -/
theorem submit_eq (hround : rustDecimal.IsRounding round) {b : Orderbook} {order : Order}
    (h : Exact b order) (tracker : PositionTracker) :
    submit round b order tracker =
      (some (b.submit order tracker).1,(b.submit order tracker).2) := by
  unfold submit Orderbook.submit
  rw [admission_eq hround h]
  cases ha : b.admission order tracker with
  | some e => rfl
  | none =>
    dsimp only
    obtain ⟨k, hqty, hm, -⟩ := h.amounts (Orderbook.admission_qty_pos ha)
    have hcross : cross round b { order with remaining := order.qty } =
        b.cross { order with remaining := order.qty } := cross_eq hround hqty hm h.room
    rw [hcross]
    rcases b.cross { order with remaining := order.qty } with ⟨_ | e, taker, fills, b'⟩
    · dsimp only
      split_ifs <;> rfl
    · rfl

end Exact

end Decimal

/-- The order that a command submits meets amounts of one scale. -/
def Cmd.Exact (b : Orderbook) : Cmd → Prop
  | .submit order _ => Decimal.Exact b order
  | .cancel _ => True

namespace Decimal

/-- So does every order of a run. -/
def ExactRun (round : ℚ → ℚ) (b : Orderbook) (cmds : List Cmd) : Prop :=
  ∀ pre c, pre++[c] <+: cmds → c.Exact (run round b pre)

section Run
variable {round : ℚ → ℚ} {b : Orderbook} {cmds pre : List Cmd}

theorem step_eq (hround : rustDecimal.IsRounding round) {c : Cmd} (h : c.Exact b) :
    step round b c = Book.step b c := by
  cases c with
  | cancel id => rfl
  | submit order tracker => exact congrArg Prod.snd (submit_eq hround h tracker)

theorem ExactRun.mono (h : ExactRun round b cmds) (hpre : pre <+: cmds) :
    ExactRun round b pre := fun p c hp => h p c (hp.trans hpre)

theorem ExactRun.run_eq (hround : rustDecimal.IsRounding round) (h : ExactRun round b cmds) :
    run round b cmds = Book.run b cmds :=
  foldl_eq_of_reached fun pre c hpre => step_eq hround (h pre c hpre)

theorem ExactRun.run_eq_of_prefix (hround : rustDecimal.IsRounding round)
    (h : ExactRun round b cmds) (hpre : pre <+: cmds) : run round b pre = Book.run b pre :=
  (h.mono hpre).run_eq hround

/-- Every command of such a run meets the book that it meets on rationals. -/
theorem ExactRun.meets (hround : rustDecimal.IsRounding round) (h : ExactRun round b cmds)
    {c : Cmd} (hpre : pre++[c] <+: cmds) : run round b pre = Book.run b pre :=
  h.run_eq_of_prefix hround ((List.prefix_append pre [c]).trans hpre)

/-- The last command of a run, in the book that it meets. -/
theorem ExactRun.last {c : Cmd} (hround : rustDecimal.IsRounding round)
    (h : ExactRun round b (pre++[c])) :
    run round b pre = Book.run b pre ∧ c.Exact (Book.run b pre) := by
  have hrun := (h.mono (List.prefix_append pre [c])).run_eq hround
  exact ⟨hrun, hrun ▸ h pre c (List.prefix_refl _)⟩

end Run

end Decimal

end Perplex.Book
