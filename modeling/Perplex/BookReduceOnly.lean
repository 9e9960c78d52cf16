import Mathlib.Algebra.Order.Group.Abs
import Perplex.BookLedger
import Perplex.Checked

/-! Reduce-only orders over whole runs. A fill shrinks the position of a reduce-only order's
owner exactly when that position covers it at the time of the fill. The check in `submit`
secures this for the taker, but not for an order that rests and is met later. -/
namespace Perplex.Book

/-- Buying adds to a position and selling takes from it. -/
def Side.sign : Side → ℚ
  | .buy => 1
  | .sell => -1

theorem Side.sign_mul_self (side : Side) : side.sign*side.sign = 1 := by
  cases side <;> norm_num [sign]

@[simp]
theorem Side.sign_opposite (side : Side) : side.opposite.sign = -side.sign := by
  cases side <;> simp [opposite, sign]

namespace PositionTracker

/-- Both parties of a fill book it. -/
def settle (t : PositionTracker) (f : Fill) : PositionTracker :=
  (t.applyFill f.takerUser f.market f.takerSide f.qty).applyFill f.makerUser f.market
    f.takerSide.opposite f.qty

theorem get_set (t : PositionTracker) (user u : Address) (market mk : MarketId) (size : ℚ) :
    (t.set user market size).get u mk =
      if u = user ∧ mk = market then size else t.get u mk := by
  simp only [get, set, Function.update_apply, Prod.mk.injEq]
  split_ifs with h hz
  · exact hz.symm
  · rfl
  · rfl

theorem get_applyFill (t : PositionTracker) (user u : Address) (market mk : MarketId)
    (side : Side) (qty : ℚ) : (t.applyFill user market side qty).get u mk =
      t.get u mk+(if u = user ∧ mk = market then side.sign*qty else 0) := by
  unfold applyFill
  rw [get_set]
  by_cases h : u = user ∧ mk = market
  · obtain ⟨rfl, rfl⟩ := h
    cases side <;> simp [Side.sign]
  · rw [if_neg h, if_neg h, add_zero]

/-- A reduce-only order passes the check when the position it works against covers it. -/
theorem wouldReduce_iff (t : PositionTracker) (user : Address) (market : MarketId)
    (side : Side) {qty : ℚ} (hq : 0 < qty) :
    t.wouldReduce user market side qty = true ↔ qty ≤ -(side.sign*t.get user market) := by
  unfold wouldReduce
  rcases lt_trichotomy (t.get user market) 0 with h | h | h
  · cases side with
    | buy => simp [h.ne, h.not_gt, Side.sign]
    | sell =>
      simp only [h.ne, h.not_gt, if_false, decide_false, Bool.false_eq_true, Side.sign]
      constructor
      · exact fun hf => hf.elim
      · intro hle
        linarith
  · -- an account without a position has nothing to reduce
    simp [h, hq]
  · cases side with
    | sell => simp [h.ne', h, Side.sign]
    | buy =>
      simp only [h.ne', h, if_false, decide_true, Bool.false_eq_true, Side.sign]
      constructor
      · exact fun hf => hf.elim
      · intro hle
        linarith

end PositionTracker

/-- The net positions resulting from fills. -/
def netPositions (fs : List Fill) : PositionTracker := fs.foldl PositionTracker.settle .new

/-- What a fill adds to a position. -/
def Fill.delta (u : Address) (mk : MarketId) (f : Fill) : ℚ :=
  (if u = f.takerUser ∧ mk = f.market then f.takerSide.sign*f.qty else 0)-
    (if u = f.makerUser ∧ mk = f.market then f.takerSide.sign*f.qty else 0)

theorem PositionTracker.get_settle (t : PositionTracker) (f : Fill) (u : Address)
    (mk : MarketId) : (t.settle f).get u mk = t.get u mk+f.delta u mk := by
  unfold settle Fill.delta
  rw [get_applyFill, get_applyFill, Side.sign_opposite]
  split_ifs <;> ring

theorem get_foldl_settle (t : PositionTracker) (fs : List Fill) (u : Address) (mk : MarketId) :
    (fs.foldl PositionTracker.settle t).get u mk =
      t.get u mk+(fs.map (Fill.delta u mk)).sum := by
  induction fs generalizing t with
  | nil => simp
  | cons f fs ih =>
    rw [List.foldl_cons, ih, PositionTracker.get_settle, List.map_cons, List.sum_cons, add_assoc]

theorem netPositions_append (fs gs : List Fill) (u : Address) (mk : MarketId) :
    (netPositions (fs++gs)).get u mk =
      (netPositions fs).get u mk+(gs.map (Fill.delta u mk)).sum := by
  unfold netPositions
  rw [List.foldl_append, get_foldl_settle]

/-- Strictly smaller in size, and not on the opposite side. -/
def Reduces (x x' : ℚ) : Prop := |x'| < |x| ∧ 0 ≤ x*x'

instance (x x' : ℚ) : Decidable (Reduces x x') := inferInstanceAs (Decidable (_ ∧ _))

theorem not_reduces_self (x : ℚ) : ¬ Reduces x x := fun h => lt_irrefl _ h.1

/-- A trade shrinks a position that covers it on the other side. -/
theorem reduces_add_iff (side : Side) {x q : ℚ} (hq : 0 ≤ q) :
    Reduces x (x+side.sign*q) ↔ 0 < q ∧ q ≤ -(side.sign*x) := by
  -- both sides of a trade are the same up to the sign of the position
  have key : ∀ y : ℚ, Reduces y (y-q) ↔ 0 < q ∧ q ≤ y := by
    intro y
    constructor
    · rintro ⟨hlt, hsign⟩
      rcases lt_or_ge 0 y with hy | hy
      · rw [abs_of_pos hy] at hlt
        have hpos : 0 < q := by linarith [le_abs_self (y-q)]
        exact ⟨hpos, by linarith [nonneg_of_mul_nonneg_right hsign hy]⟩
      · -- a position that is not long grows when it is sold
        rw [abs_of_nonpos hy, abs_of_nonpos (by linarith)] at hlt
        linarith
    · rintro ⟨hpos, hle⟩
      have hy : 0 < y := lt_of_lt_of_le hpos hle
      refine ⟨?_, mul_nonneg hy.le (sub_nonneg.mpr hle)⟩
      rw [abs_of_pos hy, abs_of_nonneg (sub_nonneg.mpr hle)]
      linarith
  have hneg : ∀ y z : ℚ, Reduces (-y) (-z) ↔ Reduces y z := by
    intro y z
    simp [Reduces]
  cases side with
  | sell =>
    have hx : x+Side.sell.sign*q = x-q := by
      simp only [Side.sign]
      ring
    rw [hx, key]
    simp [Side.sign]
  | buy =>
    have hx : x+Side.buy.sign*q = -(-x-q) := by
      simp only [Side.sign]
      ring
    have h := hneg (-x) (-x-q)
    rw [neg_neg] at h
    rw [hx, h, key]
    simp [Side.sign]

/-- The makers an order draws from, in the order of its fills. -/
def Orderbook.drawn (b : Orderbook) (order : Order) : List Order :=
  (draw Order.remaining order.qty (b.reach order)).map Prod.fst

/-- The fills a call returns, each with the resting order it was made with. -/
def matched (b : Orderbook) : Cmd → List (Fill × Order)
  | .submit order tracker => (returned b (.submit order tracker)).zip (b.drawn order)
  | .cancel _ => []

/-- The tracker given to the call holds the positions made by the fills so far. -/
def Cmd.Tracks (past : List Fill) : Cmd → Prop
  | .submit _ tracker => ∀ u mk, tracker.get u mk = (netPositions past).get u mk
  | .cancel _ => True

/-- A fill shrinks the position of each party whose order is reduce-only. -/
def Fill.Shrinks (before : List Fill) (taker maker : Order) (f : Fill) : Prop :=
  (taker.reduceOnly = true → Reduces ((netPositions before).get f.takerUser f.market)
    ((netPositions (before++[f])).get f.takerUser f.market)) ∧
  (maker.reduceOnly = true → Reduces ((netPositions before).get f.makerUser f.market)
    ((netPositions (before++[f])).get f.makerUser f.market))

/-- Every fill of the call does, at the positions left by the fills before it. -/
def Cmd.Shrinks (past : List Fill) (b : Orderbook) : Cmd → Prop
  | .submit order tracker => ∀ (ahead : List (Fill × Order)) (f : Fill) (m : Order)
      (behind : List (Fill × Order)),
      matched b (.submit order tracker) = ahead++(f,m) :: behind →
        f.Shrinks (past++ahead.map Prod.fst) order m
  | .cancel _ => True

/-- What a user has resting among orders. -/
def ownedQty (u : Address) (ms : List Order) : ℚ :=
  (ms.map fun m => if u = m.owner then m.remaining else 0).sum

/-- An order draws from `m`, behind the makers in `front`. If one of the two is reduce-only,
`m` has something left and another owner; if `m` is, then what is drawn is covered by what
its owner still holds behind `front`. -/
def DrawCovered (past : List Fill) (market : MarketId) (order : Order) (front : List Order)
    (m : Order) : Prop :=
  (order.reduceOnly = true ∨ m.reduceOnly = true → 0 < m.remaining ∧ m.owner ≠ order.owner) ∧
  (m.reduceOnly = true → min (order.qty-sumRemaining front) m.remaining ≤
    order.side.sign*(netPositions past).get m.owner market-ownedQty m.owner front)

/-- Whatever an accepted order of the call draws is covered. -/
def Cmd.Covered (past : List Fill) (b : Orderbook) : Cmd → Prop
  | .submit order tracker => b.Accepts order tracker →
      ∀ (front : List Order) (m : Order) (back : List Order),
        b.reach order = front++m :: back → sumRemaining front < order.qty →
          DrawCovered past b.market order front m
  | .cancel _ => True

theorem ownedQty_nonneg {ms : List Order} (h : ∀ m ∈ ms, 0 ≤ m.remaining) (u : Address) :
    0 ≤ ownedQty u ms := by
  apply List.sum_nonneg
  intro x hx
  obtain ⟨m, hm, rfl⟩ := List.mem_map.mp hx
  split_ifs
  · exact h m hm
  · exact le_rfl

section Call
variable {market : MarketId} {order : Order}

theorem delta_of_fillFor {f : Fill} {x : Order × ℚ} (h : FillFor market order f x)
    (u : Address) : f.delta u market = order.side.sign*
      ((if u = order.owner then x.2 else 0)-(if u = x.1.owner then x.2 else 0)) := by
  unfold Fill.delta
  rw [h.market, h.takerUser, h.makerUser, h.takerSide, h.qty]
  simp only [and_true]
  split_ifs <;> ring

/-- Makers drawn in full move the taker by their sum and each owner by his own part. -/
theorem delta_sum {fs : List Fill} {front : List Order}
    (h : List.Forall₂ (FillFor market order) fs (front.map fun m => (m,m.remaining)))
    (u : Address) : (fs.map (Fill.delta u market)).sum = order.side.sign*
      ((if u = order.owner then sumRemaining front else 0)-ownedQty u front) := by
  induction front generalizing fs with
  | nil =>
    obtain rfl := List.forall₂_nil_right_iff.mp h
    simp [sumRemaining, ownedQty]
  | cons m front ih =>
    obtain ⟨f, fs, hf, hfs, rfl⟩ := List.forall₂_cons_right_iff.mp h
    have hrest := ih hfs
    have hdelta := delta_of_fillFor hf u
    simp only [sumRemaining, ownedQty, List.map_cons, List.sum_cons] at hrest ⊢
    rw [hrest, hdelta]
    split_ifs <;> ring

variable {past ahead : List Fill} {f : Fill} {front : List Order} {m : Order}
  (hahead : List.Forall₂ (FillFor market order) ahead (front.map fun m => (m,m.remaining)))
  (hf : FillFor market order f (m,min (order.qty-sumRemaining front) m.remaining))
  (hlt : sumRemaining front < order.qty) (hm : 0 ≤ m.remaining)
include hahead hf hlt hm

/-- The check at submission is made against the whole quantity, so it covers each fill. -/
theorem taker_reduces_iff (hfront : ∀ x ∈ front, 0 ≤ x.remaining)
    (hcheck : order.qty ≤ -(order.side.sign*(netPositions past).get order.owner market)) :
    Reduces ((netPositions (past++ahead)).get f.takerUser f.market)
        ((netPositions (past++ahead++[f])).get f.takerUser f.market) ↔
      0 < m.remaining ∧ m.owner ≠ order.owner := by
  have hq : 0 ≤ min (order.qty-sumRemaining front) m.remaining :=
    le_min (sub_pos.mpr hlt).le hm
  rw [hf.takerUser, hf.market, netPositions_append (past++ahead), List.map_singleton,
    List.sum_singleton, delta_of_fillFor hf, if_pos rfl]
  -- a fill with oneself moves nothing, and does not reduce
  by_cases ho : order.owner = m.owner
  · rw [if_pos ho, sub_self, mul_zero, add_zero]
    exact iff_of_false (not_reduces_self _) fun h => h.2 ho.symm
  · rw [if_neg ho, sub_zero, reduces_add_iff _ hq, lt_min_iff, netPositions_append,
      delta_sum hahead, if_pos rfl]
    -- the makers ahead have taken part of the cover, and part of the quantity with it
    have hcover : min (order.qty-sumRemaining front) m.remaining ≤
        -(order.side.sign*((netPositions past).get order.owner market+
          order.side.sign*(sumRemaining front-ownedQty order.owner front))) := by
      have hown := ownedQty_nonneg hfront order.owner
      have hmin := min_le_left (order.qty-sumRemaining front) m.remaining
      rw [mul_add, ← mul_assoc, Side.sign_mul_self, one_mul]
      linarith
    exact ⟨fun h => ⟨h.1.2, Ne.symm ho⟩, fun h => ⟨⟨sub_pos.mpr hlt, h.1⟩, hcover⟩⟩

theorem maker_reduces_iff :
    Reduces ((netPositions (past++ahead)).get f.makerUser f.market)
        ((netPositions (past++ahead++[f])).get f.makerUser f.market) ↔
      (0 < m.remaining ∧ m.owner ≠ order.owner) ∧
        min (order.qty-sumRemaining front) m.remaining ≤
          order.side.sign*(netPositions past).get m.owner market-ownedQty m.owner front := by
  have hq : 0 ≤ min (order.qty-sumRemaining front) m.remaining :=
    le_min (sub_pos.mpr hlt).le hm
  have hmaker : f.makerUser = m.owner := hf.makerUser
  rw [hmaker, hf.market, netPositions_append (past++ahead), List.map_singleton,
    List.sum_singleton, delta_of_fillFor hf]
  by_cases ho : m.owner = order.owner
  · rw [if_pos ho, if_pos rfl, sub_self, mul_zero, add_zero]
    exact iff_of_false (not_reduces_self _) fun h => h.1.2 ho
  · -- the maker is on the other side of the trade
    have hside : order.side.sign*(0-min (order.qty-sumRemaining front) m.remaining) =
        order.side.opposite.sign*min (order.qty-sumRemaining front) m.remaining := by
      rw [Side.sign_opposite]
      ring
    rw [if_neg ho, if_pos rfl, hside, reduces_add_iff _ hq, lt_min_iff, netPositions_append,
      delta_sum hahead, if_neg ho, Side.sign_opposite]
    have hheld : -(-order.side.sign*((netPositions past).get m.owner market+
        order.side.sign*(0-ownedQty m.owner front))) =
        order.side.sign*(netPositions past).get m.owner market-ownedQty m.owner front := by
      rw [neg_mul, neg_neg, mul_add, ← mul_assoc, Side.sign_mul_self, one_mul, zero_sub,
        ← sub_eq_add_neg]
    rw [hheld]
    exact ⟨fun h => ⟨⟨h.1.2, ho⟩, h.2⟩, fun h => ⟨⟨sub_pos.mpr hlt, h.1.1⟩, h.2⟩⟩

theorem fill_shrinks_iff (hfront : ∀ x ∈ front, 0 ≤ x.remaining)
    (hcheck : order.reduceOnly = true →
      order.qty ≤ -(order.side.sign*(netPositions past).get order.owner market)) :
    f.Shrinks (past++ahead) order m ↔ DrawCovered past market order front m := by
  have htaker := fun hro => taker_reduces_iff hahead hf hlt hm hfront (hcheck hro)
  unfold Fill.Shrinks DrawCovered
  rw [maker_reduces_iff hahead hf hlt hm]
  constructor
  · rintro ⟨ht, hmk⟩
    refine ⟨?_, fun hro => (hmk hro).2⟩
    rintro (hro | hro)
    · exact (htaker hro).mp (ht hro)
    · exact (hmk hro).1
  · rintro ⟨hlive, hcover⟩
    exact ⟨fun hro => (htaker hro).mpr (hlive (Or.inl hro)),
      fun hro => ⟨hlive (Or.inr hro), hcover hro⟩⟩

end Call

theorem netPositions_other {fs : List Fill} {market : MarketId}
    (h : ∀ f ∈ fs, f.market = market) {mk : MarketId} (hmk : mk ≠ market) (u : Address) :
    (netPositions fs).get u mk = 0 := by
  have hzero : (fs.map (Fill.delta u mk)).sum = 0 := by
    apply List.sum_eq_zero
    intro x hx
    obtain ⟨f, hf, rfl⟩ := List.mem_map.mp hx
    simp [Fill.delta, h f hf, hmk]
  have hget := netPositions_append [] fs u mk
  rw [List.nil_append, hzero, add_zero] at hget
  exact hget

namespace Orderbook

theorem admission_wouldReduce {b : Orderbook} {order : Order} {tracker : PositionTracker}
    (h : b.admission order tracker = none) (hro : order.reduceOnly = true) :
    tracker.wouldReduce order.owner order.market order.side order.qty = true := by
  unfold admission at h
  by_contra hw
  rw [Bool.not_eq_true] at hw
  have hfails : order.reduceOnly = true ∧
      (!tracker.wouldReduce order.owner order.market order.side order.qty) = true := by
    simp [hro, hw]
  rw [if_pos hfails] at h
  split_ifs at h

/-- An admitted reduce-only order is covered by its owner's position in this market. -/
theorem admission_covered {b : Orderbook} {order : Order} {tracker : PositionTracker}
    {past : List Fill} (hadm : b.admission order tracker = none)
    (htracks : Cmd.Tracks past (.submit order tracker))
    (hpast : ∀ f ∈ past, f.market = b.market) (hro : order.reduceOnly = true) :
    order.qty ≤ -(order.side.sign*(netPositions past).get order.owner b.market) := by
  have hqty := admission_qty_pos hadm
  have hw := (tracker.wouldReduce_iff order.owner order.market order.side hqty).mp
    (admission_wouldReduce hadm hro)
  rw [htracks] at hw
  by_cases hmk : order.market = b.market
  · rw [← hmk]
    exact hw
  · -- nobody has a position in another market
    rw [netPositions_other hpast hmk, mul_zero, neg_zero] at hw
    exact absurd hqty (not_lt.mpr hw)

end Orderbook

theorem submit_shrinks_iff {b : Orderbook} (h : b.Sane) {past : List Fill} {order : Order}
    {tracker : PositionTracker} (hpast : ∀ f ∈ past, f.market = b.market)
    (htracks : Cmd.Tracks past (.submit order tracker)) (hacc : b.Accepts order tracker)
    (hret : returned b (.submit order tracker) = (b.sweep (Orderbook.taker order)).pass.fills) :
    Cmd.Shrinks past b (.submit order tracker) ↔
      ∀ (front : List Order) (m : Order) (back : List Order),
        b.reach order = front++m :: back → sumRemaining front < order.qty →
          DrawCovered past b.market order front m := by
  obtain ⟨hfills, -⟩ := Orderbook.sweep_fills b order
  have hnonneg := Orderbook.reach_nonneg h order
  have hcheck := Orderbook.admission_covered hacc.1 htracks hpast
  have hmatched : matched b (.submit order tracker) =
      (b.sweep (Orderbook.taker order)).pass.fills.zip (b.drawn order) := by
    rw [← hret]
    rfl
  -- one fill, together with the makers drawn ahead of it
  have hone : ∀ (ahead : List Fill) (f : Fill) (front : List Order) (m : Order)
      (back : List Order), b.reach order = front++m :: back → sumRemaining front < order.qty →
      List.Forall₂ (FillFor b.market order) ahead (front.map fun m => (m,m.remaining)) →
      FillFor b.market order f (m,min (order.qty-sumRemaining front) m.remaining) →
      (f.Shrinks (past++ahead) order m ↔ DrawCovered past b.market order front m) := by
    intro ahead f front m back hreach hlt hahead hf
    rw [hreach] at hnonneg
    exact fill_shrinks_iff hahead hf hlt
      (hnonneg m (List.mem_append_right _ List.mem_cons_self))
      (fun x hx => hnonneg x (List.mem_append_left _ hx)) hcheck
  constructor
  · intro hall front m back hreach hlt
    -- from a maker that is drawn from to the fill made with it
    obtain ⟨ys, hsplit⟩ := (draw_eq_append_iff Order.remaining hnonneg).mpr
      ⟨front, back, hreach, hlt, rfl, rfl⟩
    have hfills' := hfills
    rw [hsplit] at hfills'
    obtain ⟨ahead, f, behind, hz, hahead, hf⟩ := zip_eq_append_of_split Prod.fst hfills'
    rw [← hsplit] at hz
    exact (hone _ f front m back hreach hlt hahead hf).mp
      (hall ahead f m behind (hmatched.trans hz))
  · intro hcov ahead f m behind hz
    rw [hmatched] at hz
    -- and from a fill back to its maker and those ahead
    obtain ⟨xs, x, ys, hsplit, hahead, hf, rfl⟩ := split_of_zip_eq_append Prod.fst hfills hz
    obtain ⟨front, back, hreach, hlt, rfl, hx⟩ :=
      (draw_eq_append_iff Order.remaining hnonneg).mp ⟨ys, hsplit⟩
    have hdrawn : x = (x.1,min (order.qty-sumRemaining front) x.1.remaining) :=
      Prod.ext rfl hx
    rw [hdrawn] at hf
    exact (hone _ f front x.1 back hreach hlt hahead hf).mpr (hcov front x.1 back hreach hlt)

theorem shrinks_iff_covered {b : Orderbook} (h : b.Sane) {past : List Fill} {c : Cmd}
    (hpast : ∀ f ∈ past, f.market = b.market) (htracks : c.Tracks past) :
    c.Shrinks past b ↔ c.Covered past b := by
  cases c with
  | cancel id => exact Iff.rfl
  | submit order tracker =>
    rcases Orderbook.submit_returned h order tracker with ⟨hacc, hret, -⟩ | ⟨hacc, hret, -⟩
    · rw [submit_shrinks_iff h hpast htracks hacc hret]
      exact ⟨fun hcov _ => hcov, fun hcov => hcov hacc⟩
    · refine iff_of_true ?_ fun ha => absurd ha hacc
      -- a rejected order returns no fill
      intro ahead f m behind hz
      simp [matched, hret] at hz

theorem returned_market {b : Orderbook} (h : b.Sane) {c : Cmd} {f : Fill}
    (hf : f ∈ returned b c) : f.market = b.market := by
  cases c with
  | cancel id => simp [returned] at hf
  | submit order tracker =>
    rcases Orderbook.submit_returned h order tracker with ⟨-, hret, -⟩ | ⟨-, hret, -⟩
    · rw [hret] at hf
      obtain ⟨x, -, hfor⟩ := Orderbook.sweep_fill_mem hf
      exact hfor.market
    · simp [hret] at hf

theorem ledger_market {b : Orderbook} (h : b.Sane) {cmds : List Cmd} {f : Fill}
    (hf : f ∈ ledger b cmds) : f.market = b.market := by
  obtain ⟨pre, c, -, hf⟩ := mem_ledger.mp hf
  exact (returned_market (h.run pre) hf).trans (run_settings h pre).1

/-- Along a run whose calls are given the positions made by the fills so far, every fill
shrinks the position of each party whose order is reduce-only, if and only if every call
is covered. -/
theorem shrinks_along_iff (market : MarketId) (mode : SelfTradeMode) (cmds : List Cmd)
    (htracks : ∀ (pre : List Cmd) (c : Cmd), pre++[c] <+: cmds →
      c.Tracks (ledger (start market mode) pre)) :
    (∀ (pre : List Cmd) (c : Cmd), pre++[c] <+: cmds →
      c.Shrinks (ledger (start market mode) pre) (run (start market mode) pre)) ↔
    ∀ (pre : List Cmd) (c : Cmd), pre++[c] <+: cmds →
      c.Covered (ledger (start market mode) pre) (run (start market mode) pre) := by
  have hsane := start_sane market mode
  have hcall : ∀ (pre : List Cmd) (c : Cmd), pre++[c] <+: cmds →
      (c.Shrinks (ledger (start market mode) pre) (run (start market mode) pre) ↔
        c.Covered (ledger (start market mode) pre) (run (start market mode) pre)) := by
    intro pre c hpre
    -- each call is looked at in the book it meets, with the ledger so far
    apply shrinks_iff_covered (hsane.run pre) _ (htracks pre c hpre)
    intro f hf
    exact (ledger_market hsane hf).trans (run_settings hsane pre).1.symm
  exact ⟨fun h pre c hpre => (hcall pre c hpre).mp (h pre c hpre),
    fun h pre c hpre => (hcall pre c hpre).mpr (h pre c hpre)⟩

namespace Decimal
variable (round : ℚ → ℚ)

/-- The fills a call returns, each with the resting order it was made with. -/
def matched (b : Orderbook) : Cmd → List (Fill × Order)
  | .submit order tracker => (returned round b (.submit order tracker)).zip (b.drawn order)
  | .cancel _ => []

/-- Every fill of the call shrinks the positions it is to shrink. -/
def Shrinks (past : List Fill) (b : Orderbook) : Cmd → Prop
  | .submit order tracker => ∀ (ahead : List (Fill × Order)) (f : Fill) (m : Order)
      (behind : List (Fill × Order)),
      matched round b (.submit order tracker) = ahead++(f,m) :: behind →
        f.Shrinks (past++ahead.map Prod.fst) order m
  | .cancel _ => True

variable {round}

theorem shrinks_iff (hround : rustDecimal.IsRounding round) {past : List Fill} {b : Orderbook}
    {c : Cmd} (h : c.Exact b) : Shrinks round past b c ↔ c.Shrinks past b := by
  cases c with
  | cancel id => exact Iff.rfl
  | submit order tracker =>
    simp only [Shrinks, Cmd.Shrinks, matched, Book.matched, returned_eq hround h]

end Decimal

/-- Along a run whose amounts are of one scale and whose calls are given the positions made by
the fills so far, every fill shrinks the position of each party whose order is reduce-only, if
and only if every call is covered. -/
theorem reduceOnly_shrinks_iff {round : ℚ → ℚ} (hround : rustDecimal.IsRounding round)
    (market : MarketId) (mode : SelfTradeMode) (cmds : List Cmd)
    (hexact : Decimal.ExactRun round (start market mode) cmds)
    (htracks : ∀ (pre : List Cmd) (c : Cmd), pre++[c] <+: cmds →
      c.Tracks (Decimal.ledger round (start market mode) pre)) :
    (∀ (pre : List Cmd) (c : Cmd), pre++[c] <+: cmds →
      Decimal.Shrinks round (Decimal.ledger round (start market mode) pre)
        (Decimal.run round (start market mode) pre) c) ↔
    ∀ (pre : List Cmd) (c : Cmd), pre++[c] <+: cmds →
      c.Covered (Decimal.ledger round (start market mode) pre)
        (Decimal.run round (start market mode) pre) := by
  have hledger {pre : List Cmd} {c : Cmd} (hpre : pre++[c] <+: cmds) :
      Decimal.ledger round (start market mode) pre = ledger (start market mode) pre :=
    (hexact.mono ((List.prefix_append pre [c]).trans hpre)).ledger_eq hround
  have hiff := shrinks_along_iff market mode cmds fun pre c hpre =>
    hledger hpre ▸ htracks pre c hpre
  constructor
  · intro hall pre c hpre
    rw [hledger hpre, hexact.meets hround hpre]
    refine hiff.mp (fun pre c hpre => ?_) pre c hpre
    have hmet := hexact pre c hpre
    have hshrinks := hall pre c hpre
    rw [hledger hpre, Decimal.shrinks_iff hround hmet, hexact.meets hround hpre] at hshrinks
    exact hshrinks
  · intro hall pre c hpre
    rw [hledger hpre, Decimal.shrinks_iff hround (hexact pre c hpre), hexact.meets hround hpre]
    refine hiff.mpr (fun pre c hpre => ?_) pre c hpre
    have hcovered := hall pre c hpre
    rwa [hledger hpre, hexact.meets hround hpre] at hcovered

/-- User 2 buys two units from user 1. -/
def openLong : List Cmd :=
  [.submit ⟨1, 1, 0, .sell, .limit, 100, 2, 2, .gtc, false, false, 0⟩ .new,
    .submit ⟨2, 2, 0, .buy, .limit, 100, 2, 2, .gtc, false, false, 1⟩ .new]

/-- The positions after that. -/
def longOpened : PositionTracker :=
  netPositions (Decimal.ledger rustDecimal.halfEven (start 0 .cancelNewest) openLong)

/-- User 2 rests a reduce-only sell of both units. -/
def exitLong (id : OrderId) : Cmd :=
  .submit ⟨id, 2, 0, .sell, .limit, 110, 2, 2, .gtc, false, true, 2⟩ longOpened

/-- User 3 buys at the price of the exits. -/
def buyExits (qty : ℚ) : Cmd :=
  .submit ⟨5, 3, 0, .buy, .limit, 110, qty, qty, .gtc, false, false, 3⟩ longOpened

/-- What a call is given when a run of these calls has returned these fills. -/
def TracksRun (cmds : List Cmd) : Prop := ∀ (pre : List Cmd) (c : Cmd), pre++[c] <+: cmds →
  c.Tracks (Decimal.ledger rustDecimal.halfEven (start 0 .cancelNewest) pre)

/-- Calls after the opening are given its positions as long as they return no fill. -/
theorem openLong_tracks {rest : List Cmd}
    (h : ∀ (pre : List Cmd) (c : Cmd), pre++[c] <+: rest →
      c.Tracks (Decimal.ledger rustDecimal.halfEven (start 0 .cancelNewest) (openLong++pre))) :
    TracksRun (openLong++rest) := by
  refine forall_request_cons
    (P := fun pre => Cmd.Tracks (Decimal.ledger rustDecimal.halfEven (start 0 .cancelNewest) pre))
    (fun _ _ => rfl) ?_
  refine forall_request_cons ?_ h
  have hnone : Decimal.ledger rustDecimal.halfEven (start 0 .cancelNewest)
      [.submit ⟨1, 1, 0, .sell, .limit, 100, 2, 2, .gtc, false, false, 0⟩ .new] = [] := by
    decide +kernel
  rw [hnone]
  exact fun _ _ => rfl

/-- The calls after the opening are given its positions. -/
theorem exits_track {pre : List Cmd}
    (h : Decimal.ledger rustDecimal.halfEven (start 0 .cancelNewest) (openLong++pre) =
      Decimal.ledger rustDecimal.halfEven (start 0 .cancelNewest) openLong)
    (id : OrderId) (qty : ℚ) :
    (exitLong id).Tracks
        (Decimal.ledger rustDecimal.halfEven (start 0 .cancelNewest) (openLong++pre)) ∧
      (buyExits qty).Tracks
        (Decimal.ledger rustDecimal.halfEven (start 0 .cancelNewest) (openLong++pre)) := by
  rw [h]
  exact ⟨fun _ _ => rfl, fun _ _ => rfl⟩

/-- All orders of the run are of scale zero. -/
theorem exactRun_oneExit : Decimal.ExactRun rustDecimal.halfEven (start 0 .cancelNewest)
    (openLong++[exitLong 3, buyExits 2]) :=
  forall_request_cons (.of_scale 0 (by decide +kernel))
    (forall_request_cons (.of_scale 0 (by decide +kernel))
      (forall_request_cons (.of_scale 0 (by decide +kernel))
        (forall_request_cons (.of_scale 0 (by decide +kernel)) forall_request_nil)))

theorem reduceOnly_shrinks_iff_oneExit :
    let cmds := openLong++[exitLong 3, buyExits 2]
    TracksRun cmds ∧
    ((∀ (pre : List Cmd) (c : Cmd), pre++[c] <+: cmds →
      Decimal.Shrinks rustDecimal.halfEven
        (Decimal.ledger rustDecimal.halfEven (start 0 .cancelNewest) pre)
        (Decimal.run rustDecimal.halfEven (start 0 .cancelNewest) pre) c) ↔
    ∀ (pre : List Cmd) (c : Cmd), pre++[c] <+: cmds →
      c.Covered (Decimal.ledger rustDecimal.halfEven (start 0 .cancelNewest) pre)
        (Decimal.run rustDecimal.halfEven (start 0 .cancelNewest) pre)) := by
  intro cmds
  have htracks : TracksRun cmds := by
    refine openLong_tracks (forall_request_cons (exits_track rfl 3 0).1 ?_)
    exact forall_request_cons (exits_track (by decide +kernel) 0 2).2 forall_request_nil
  exact ⟨htracks, reduceOnly_shrinks_iff rustDecimal.halfEven_isRounding 0 .cancelNewest cmds
    exactRun_oneExit htracks⟩

/-- Two exits pass the check against the same long, and the second one opens a short. -/
theorem second_exit_opens_short :
    let cmds := openLong++[exitLong 3, exitLong 4, buyExits 4]
    TracksRun cmds ∧
    ¬ ∀ (pre : List Cmd) (c : Cmd), pre++[c] <+: cmds →
      Decimal.Shrinks rustDecimal.halfEven
        (Decimal.ledger rustDecimal.halfEven (start 0 .cancelNewest) pre)
        (Decimal.run rustDecimal.halfEven (start 0 .cancelNewest) pre) c := by
  intro cmds
  refine ⟨?_, ?_⟩
  · refine openLong_tracks (forall_request_cons (exits_track rfl 3 0).1 ?_)
    refine forall_request_cons (exits_track (by decide +kernel) 4 0).1 ?_
    exact forall_request_cons (exits_track (by decide +kernel) 0 4).2 forall_request_nil
  · intro hall
    have hlast := hall (openLong++[exitLong 3, exitLong 4]) (buyExits 4) (List.prefix_refl _)
    -- the first exit closes the long, and the second one is filled from there
    have hfills : Decimal.matched rustDecimal.halfEven (Decimal.run rustDecimal.halfEven
          (start 0 .cancelNewest) (openLong++[exitLong 3, exitLong 4])) (buyExits 4) =
        [(⟨2, 0, 3, 5, 2, 3, 110, 2, .buy, 3⟩,
          ⟨3, 2, 0, .sell, .limit, 110, 2, 2, .gtc, false, true, 2⟩)]++
        (⟨3, 0, 4, 5, 2, 3, 110, 2, .buy, 3⟩,
          ⟨4, 2, 0, .sell, .limit, 110, 2, 2, .gtc, false, true, 2⟩) :: [] := by
      decide +kernel
    have hreduces := (hlast _ _ _ _ hfills).2 rfl
    revert hreduces
    decide +kernel

end Perplex.Book
