import Mathlib.Data.List.TakeWhile
import Perplex.BookRepInv
import Perplex.BookFills

/-! The ledger of a run: every fill that some call returned. No order is filled beyond its
quantity, the numbers grow and nobody trades with himself; a fill of nothing is made exactly
when an order reaches a maker that has nothing left. -/
namespace Perplex.Book

/-- The fills a call returns. -/
def returned (b : Orderbook) : Cmd → List Fill
  | .submit order tracker =>
    match (b.submit order tracker).1 with
    | .ok outcome => outcome.fills
    | .error _ => []
  | .cancel _ => []

/-- All fills returned along a run. -/
def ledger : Orderbook → List Cmd → List Fill
  | _, [] => []
  | b, c :: cmds => returned b c++ledger (step b c) cmds

theorem ledger_append (b : Orderbook) (pre post : List Cmd) :
    ledger b (pre++post) = ledger b pre++ledger (run b pre) post := by
  induction pre generalizing b with
  | nil => rfl
  | cons c pre ih =>
    rw [List.cons_append, ledger, ih, ledger, List.append_assoc]
    rfl

/-- The quantity resting under an id. -/
def qtyOf (oid : OrderId) (ms : List Order) : ℚ :=
  (ms.map fun m => if m.id = oid then m.remaining else 0).sum

def Orderbook.restingQty (b : Orderbook) (oid : OrderId) : ℚ :=
  qtyOf oid (b.makers .buy)+qtyOf oid (b.makers .sell)

/-- The quantity that fills give an order as maker. -/
def madeQty (oid : OrderId) (fs : List Fill) : ℚ :=
  (fs.map fun f => if f.makerOrderId = oid then f.qty else 0).sum

/-- The quantity that fills give an order on either side. -/
def filledQty (oid : OrderId) (fs : List Fill) : ℚ :=
  (fs.map fun f => if f.makerOrderId = oid ∨ f.takerOrderId = oid then f.qty else 0).sum

section Sums
variable {oid : OrderId}

@[simp]
theorem qtyOf_cons (m : Order) (ms : List Order) :
    qtyOf oid (m :: ms) = (if m.id = oid then m.remaining else 0)+qtyOf oid ms := rfl

@[simp]
theorem qtyOf_append (ms ms' : List Order) : qtyOf oid (ms++ms') = qtyOf oid ms+qtyOf oid ms' := by
  simp [qtyOf]

theorem qtyOf_perm {ms ms' : List Order} (h : ms.Perm ms') : qtyOf oid ms = qtyOf oid ms' :=
  (h.map _).sum_eq

theorem ite_remaining_nonneg {m : Order} (h : 0 ≤ m.remaining) (oid : OrderId) :
    0 ≤ if m.id = oid then m.remaining else 0 := by
  split_ifs
  · exact h
  · exact le_rfl

theorem qtyOf_nonneg {ms : List Order} (h : ∀ m ∈ ms, 0 ≤ m.remaining) : 0 ≤ qtyOf oid ms := by
  apply List.sum_nonneg
  intro x hx
  obtain ⟨m, hm, rfl⟩ := List.mem_map.mp hx
  exact ite_remaining_nonneg (h m hm) oid

theorem qtyOf_eraseP_le {ms : List Order} (h : ∀ m ∈ ms, 0 ≤ m.remaining) (p : Order → Bool)
    (oid : OrderId) :
    qtyOf oid (ms.eraseP p) ≤ qtyOf oid ms := by
  induction ms with
  | nil => exact le_rfl
  | cons m ms ih =>
    have hm := ite_remaining_nonneg (h m List.mem_cons_self) oid
    have hms := ih fun x hx => h x (List.mem_cons_of_mem _ hx)
    rw [List.eraseP_cons, qtyOf_cons]
    cases p m with
    | true =>
      rw [cond_true]
      linarith
    | false =>
      rw [cond_false, qtyOf_cons]
      linarith

@[simp]
theorem madeQty_append (fs gs : List Fill) :
    madeQty oid (fs++gs) = madeQty oid fs+madeQty oid gs := by
  simp [madeQty]

@[simp]
theorem filledQty_append (fs gs : List Fill) :
    filledQty oid (fs++gs) = filledQty oid fs+filledQty oid gs := by
  simp [filledQty]

end Sums

section Sweep
variable (mode : SelfTradeMode) (market : MarketId) (oid : OrderId)

theorem kept_after (r : Swept) (m : Order) :
    (r.after m).kept = if r.err.isSome then m :: r.kept else r.kept := by
  unfold Swept.kept Swept.after
  split_ifs <;> rfl

/-- What an order gets as maker is taken from what rests under its id. -/
theorem sweepQueue_qtyOf (price : ℚ) (s : Pass) {q : Queue} (hq : ∀ m ∈ q, 0 ≤ m.remaining) :
    qtyOf oid (sweepQueue mode market price s q).kept+
        madeQty oid (sweepQueue mode market price s q).pass.fills ≤
      qtyOf oid q+madeQty oid s.fills := by
  fun_induction sweepQueue mode market price s q with
  | case1 => simp [Swept.kept]
  | case2 => simp [Swept.kept]
  -- own makers are dropped, which only lowers what rests
  | case3 s maker rest hr ha ih =>
    have hm := ite_remaining_nonneg (hq maker List.mem_cons_self) oid
    have hrest := ih fun x hx => hq x (List.mem_cons_of_mem _ hx)
    change _ ≤ qtyOf oid rest+madeQty oid s.fills at hrest
    have hkept : qtyOf oid (Swept.after (sweepQueue mode market price (s.forget maker) rest)
        maker).kept ≤ (if maker.id = oid then maker.remaining else 0)+
          qtyOf oid (sweepQueue mode market price (s.forget maker) rest).kept := by
      rw [kept_after]
      split_ifs <;> simp [*]
    rw [qtyOf_cons]
    change _+madeQty oid (sweepQueue mode market price (s.forget maker) rest).pass.fills ≤ _
    linarith
  | case4 s maker rest hr ha hm ih =>
    have hrest := ih fun x hx => hq x (List.mem_cons_of_mem _ hx)
    have hmade : madeQty oid ((s.fill market price maker).forget maker).fills =
        madeQty oid s.fills+(if maker.id = oid then maker.remaining else 0) := by
      simp [Pass.fill, Pass.forget, madeQty, min_eq_right hm]
    -- a maker that is used up adds nothing to what is kept
    have hkept : ∀ r : Swept, qtyOf oid (r.after { maker with remaining := 0 }).kept =
        qtyOf oid r.kept := by
      intro r
      rw [kept_after]
      split_ifs <;> simp
    rw [hkept, qtyOf_cons]
    change _+madeQty oid (sweepQueue mode market price
      ((s.fill market price maker).forget maker) rest).pass.fills ≤ _
    linarith
  | case5 s maker rest hr ha hm =>
    -- the taker is used up on this maker, which keeps the rest
    have hmin := min_eq_left (not_le.mp hm).le
    have hmade : madeQty oid (s.fill market price maker).fills =
        madeQty oid s.fills+(if maker.id = oid then s.taker.remaining else 0) := by
      simp [Pass.fill, madeQty, hmin]
    simp only [Swept.kept, Option.isSome_none, Bool.false_eq_true, if_false, qtyOf_cons, hmade]
    split_ifs <;> linarith
  | case6 => simp [Swept.kept]

theorem sweepLevels_qtyOf (s : Pass) {ls : List (ℚ × Queue)}
    (hls : ∀ l ∈ ls, ∀ m ∈ l.2, 0 ≤ m.remaining) :
    qtyOf oid ((sweepLevels id mode market s ls).levels.flatMap Prod.snd)+
        madeQty oid (sweepLevels id mode market s ls).pass.fills ≤
      qtyOf oid (ls.flatMap Prod.snd)+madeQty oid s.fills := by
  induction ls generalizing s with
  | nil => exact le_rfl
  | cons e rest ih =>
    obtain ⟨key, q⟩ := e
    have hq := sweepQueue_qtyOf mode market oid key s (hls (key,q) List.mem_cons_self)
    -- what stays at this level and what the later ones give are added up
    have hrest := ih (sweepQueue mode market key s q).pass
      fun l hl => hls l (List.mem_cons_of_mem _ hl)
    unfold Swept.kept at hq
    simp only [sweepLevels, id]
    split_ifs with h1 h2 h3
    · simp only [h2, if_true] at hq
      simp only [List.flatMap_cons, qtyOf_append] at hq hrest ⊢
      linarith
    · rw [if_neg h2, List.isEmpty_iff.mp h3] at hq
      change 0+_ ≤ _ at hq
      simp only [List.flatMap_cons, qtyOf_append]
      linarith
    · rw [if_neg h2] at hq
      simp only [List.flatMap_cons, qtyOf_append] at hrest ⊢
      linarith
    · exact le_rfl

/-- What the taker loses is what the fills add up to. -/
theorem sweepQueue_total (price : ℚ) (s : Pass) (q : Queue) :
    (sweepQueue mode market price s q).pass.taker.remaining+
        ((sweepQueue mode market price s q).pass.fills.map Fill.qty).sum =
      s.taker.remaining+(s.fills.map Fill.qty).sum := by
  have hfill : ∀ (s : Pass) (maker : Order), (s.fill market price maker).taker.remaining+
      ((s.fill market price maker).fills.map Fill.qty).sum =
        s.taker.remaining+(s.fills.map Fill.qty).sum := by
    intro s maker
    simp [Pass.fill]
  fun_induction sweepQueue mode market price s q with
  | case1 => rfl
  | case2 => rfl
  | case3 s maker rest hr ha ih => exact ih
  | case4 s maker rest hr ha hm ih => exact ih.trans (hfill s maker)
  | case5 s maker rest hr ha hm => exact hfill s maker
  | case6 => rfl

theorem sweepLevels_total (s : Pass) (ls : List (ℚ × Queue)) :
    (sweepLevels id mode market s ls).pass.taker.remaining+
        ((sweepLevels id mode market s ls).pass.fills.map Fill.qty).sum =
      s.taker.remaining+(s.fills.map Fill.qty).sum := by
  induction ls generalizing s with
  | nil => rfl
  | cons e rest ih =>
    obtain ⟨key, q⟩ := e
    have hq := sweepQueue_total mode market key s q
    simp only [sweepLevels, id]
    split_ifs
    · exact hq
    · exact (ih _).trans hq
    · exact hq
    · rfl

theorem sweepQueue_remaining_nonneg (price : ℚ) (s : Pass) (q : Queue)
    (h : 0 ≤ s.taker.remaining) :
    0 ≤ (sweepQueue mode market price s q).pass.taker.remaining := by
  have hfill : ∀ (s : Pass) (maker : Order), 0 ≤ (s.fill market price maker).taker.remaining :=
    fun s maker => sub_nonneg.mpr (min_le_left _ _)
  fun_induction sweepQueue mode market price s q with
  | case1 => exact h
  | case2 => exact h
  | case3 s maker rest hr ha ih => exact ih h
  | case4 s maker rest hr ha hm ih => exact ih (hfill s maker)
  | case5 s maker rest hr ha hm => exact hfill s maker
  | case6 => exact h

theorem sweepLevels_remaining_nonneg (s : Pass) (ls : List (ℚ × Queue))
    (h : 0 ≤ s.taker.remaining) :
    0 ≤ (sweepLevels id mode market s ls).pass.taker.remaining := by
  induction ls generalizing s with
  | nil => exact h
  | cons e rest ih =>
    obtain ⟨key, q⟩ := e
    have hq := sweepQueue_remaining_nonneg mode market key s q h
    simp only [sweepLevels, id]
    split_ifs
    · exact hq
    · exact ih _ hq
    · exact hq
    · exact h

end Sweep

namespace Orderbook
variable {b : Orderbook} {order : Order} {tracker : PositionTracker} {oid : OrderId}

/-- The order gets past every check. -/
def Accepts (b : Orderbook) (order : Order) (tracker : PositionTracker) : Prop :=
  b.admission order tracker = none ∧ ¬ b.FailsLate order

/-- An accepted order returns what it has crossed, a rejected one nothing. -/
theorem submit_returned (h : b.Sane) (order : Order) (tracker : PositionTracker) :
    (b.Accepts order tracker ∧
      returned b (.submit order tracker) = (b.sweep (taker order)).pass.fills ∧
      ((b.submit order tracker).2 = b.crossed order ∨
        0 < (b.sweep (taker order)).pass.taker.remaining ∧
        (b.submit order tracker).2 = (b.crossed order).rest (b.sweep (taker order)).pass.taker)) ∨
    (¬ b.Accepts order tracker ∧ returned b (.submit order tracker) = [] ∧
      ((b.submit order tracker).2 = b ∨ (b.submit order tracker).2 = b.crossed order)) := by
  simp only [Accepts, returned]
  rcases submit_cases b order tracker with ⟨e, hadm, hr⟩ | ⟨hadm, hcases⟩
  · rw [hr, hadm]
    exact Or.inr ⟨fun ha => by simp at ha, rfl, Or.inl rfl⟩
  -- an error is returned exactly when the order fails late, so each branch knows which it is
  have herr := submit_error_iff h hadm
  rcases hcases with ⟨e, -, hr⟩ | ⟨-, ⟨-, -, hr⟩ | ⟨-, -, hpos, hr⟩ | ⟨-, -, hr⟩⟩
  · rw [hr] at herr ⊢
    exact Or.inr ⟨fun ha => ha.2 (herr.mp ⟨e, rfl⟩), rfl, Or.inr rfl⟩
  · rw [hr] at herr ⊢
    exact Or.inr ⟨fun ha => ha.2 (herr.mp ⟨_, rfl⟩), rfl, Or.inr rfl⟩
  · rw [hr] at herr ⊢
    refine Or.inl ⟨⟨hadm, fun hf => ?_⟩, rfl, Or.inr ⟨hpos, rfl⟩⟩
    obtain ⟨e, he⟩ := herr.mpr hf
    simp at he
  · rw [hr] at herr ⊢
    refine Or.inl ⟨⟨hadm, fun hf => ?_⟩, rfl, Or.inl rfl⟩
    obtain ⟨e, he⟩ := herr.mpr hf
    simp at he

theorem restingQty_eq (b : Orderbook) (oid : OrderId) (side : Side) :
    b.restingQty oid = qtyOf oid (b.makers side)+qtyOf oid (b.makers side.opposite) := by
  cases side with
  | buy => rfl
  | sell => exact add_comm _ _

theorem makers_nonneg (h : b.Sane) (side : Side) : ∀ m ∈ b.makers side, 0 ≤ m.remaining := by
  intro m hm
  obtain ⟨l, hl, hm⟩ := List.mem_flatMap.mp hm
  exact (h side).nonneg l hl m hm

theorem restingQty_nonneg (h : b.Sane) (oid : OrderId) : 0 ≤ b.restingQty oid :=
  add_nonneg (qtyOf_nonneg (makers_nonneg h .buy)) (qtyOf_nonneg (makers_nonneg h .sell))

theorem crossed_restingQty (h : b.Sane) (order : Order) (oid : OrderId) :
    (b.crossed order).restingQty oid+madeQty oid (b.sweep (taker order)).pass.fills ≤
      b.restingQty oid := by
  obtain ⟨-, -, -, -, -, hopp, hown, -⟩ := cross_spec b (taker order)
  have hq := sweepLevels_qtyOf b.selfTrade b.market oid (b.pass (taker order))
    (h order.side.opposite).nonneg
  have hsame : (b.crossed order).makers order.side = b.makers order.side := by
    unfold makers
    exact congrArg _ hown
  have hlevels : (b.crossed order).makers order.side.opposite =
      (b.sweep (taker order)).levels.flatMap Prod.snd := by
    unfold makers
    exact congrArg _ hopp
  rw [restingQty_eq _ _ order.side, restingQty_eq _ _ order.side, hsame, hlevels]
  change qtyOf oid ((b.sweep (taker order)).levels.flatMap Prod.snd)+
    madeQty oid (b.sweep (taker order)).pass.fills ≤
      qtyOf oid (b.makers order.side.opposite)+0 at hq
  linarith

theorem rest_restingQty (b : Orderbook) (o : Order) (oid : OrderId) :
    (b.rest o).restingQty oid =
      b.restingQty oid+(if o.id = oid then o.remaining else 0) := by
  have hother : (b.rest o).makers o.side.opposite = b.makers o.side.opposite := by
    unfold makers
    rw [rest_levelsOf_other (Side.opposite_ne o.side)]
  rw [restingQty_eq _ _ o.side, restingQty_eq _ _ o.side, hother,
    qtyOf_perm (rest_makers_perm b o), qtyOf_cons]
  ring

theorem cancel_restingQty (h : b.Sane) (id : OrderId) (oid : OrderId) :
    ((b.cancel id).2).restingQty oid ≤ b.restingQty oid := by
  cases hid : b.byId id with
  | none => rw [cancel_unknown hid]
  | some s =>
    have hother : ((b.cancel id).2).makers s.opposite = b.makers s.opposite := by
      unfold makers
      rw [cancel_levelsOf_other hid (Side.opposite_ne s)]
    have hle := qtyOf_eraseP_le (makers_nonneg h s) (fun o => o.id = id) oid
    rw [restingQty_eq _ _ s, restingQty_eq _ _ s, hother, cancel_makers hid]
    linarith

theorem sweep_fill_mem {f : Fill} (hf : f ∈ (b.sweep (taker order)).pass.fills) :
    ∃ x ∈ draw Order.remaining order.qty (b.reach order), FillFor b.market order f x := by
  obtain ⟨hm, -⟩ := sweep_fills b order
  exact exists_of_forall₂_mem hm hf

theorem mem_draw {x : Order × ℚ} (h : b.Sane)
    (hx : x ∈ draw Order.remaining order.qty (b.reach order)) :
    ∃ front back, b.reach order = front++x.1 :: back ∧ sumRemaining front < order.qty ∧
      x.2 = min (order.qty-sumRemaining front) x.1.remaining := by
  obtain ⟨xs, ys, hsplit⟩ := List.append_of_mem hx
  obtain ⟨front, back, hreach, hlt, -, hx2⟩ :=
    (draw_eq_append_iff Order.remaining (reach_nonneg h order)).mp ⟨ys, hsplit⟩
  exact ⟨front, back, hreach, hlt, hx2⟩

theorem sweep_fill_nonneg (h : b.Sane) {f : Fill}
    (hf : f ∈ (b.sweep (taker order)).pass.fills) : 0 ≤ f.qty := by
  obtain ⟨x, hx, hfor⟩ := sweep_fill_mem hf
  obtain ⟨front, back, hreach, hlt, hx2⟩ := mem_draw h hx
  have hmem : x.1 ∈ b.reach order := by
    rw [hreach]
    exact List.mem_append_right _ List.mem_cons_self
  rw [hfor.qty, hx2]
  exact le_min (sub_pos.mpr hlt).le (reach_nonneg h order x.1 hmem)

/-- No maker that the order draws from is used up already. -/
def LiveReach (b : Orderbook) (order : Order) : Prop :=
  ∀ front m back, b.reach order = front++m :: back → sumRemaining front < order.qty →
    0 < m.remaining

theorem sweep_fills_pos_iff (h : b.Sane) (order : Order) :
    (∀ f ∈ (b.sweep (taker order)).pass.fills, 0 < f.qty) ↔ b.LiveReach order := by
  constructor
  · intro hpos front m back hreach hlt
    obtain ⟨ys, hsplit⟩ := (draw_eq_append_iff Order.remaining (reach_nonneg h order)).mpr
      ⟨front, back, hreach, hlt, rfl, rfl⟩
    obtain ⟨hm, -⟩ := sweep_fills b order
    rw [hsplit] at hm
    obtain ⟨f, hf, hfor⟩ := exists_of_forall₂_mem hm.flip
      (List.mem_append_right _ List.mem_cons_self)
    have hq := hpos f hf
    rw [hfor.qty] at hq
    exact (lt_min_iff.mp hq).2
  · intro hlive f hf
    obtain ⟨x, hx, hfor⟩ := sweep_fill_mem hf
    obtain ⟨front, back, hreach, hlt, hx2⟩ := mem_draw h hx
    rw [hfor.qty, hx2]
    exact lt_min (sub_pos.mpr hlt) (hlive front x.1 back hreach hlt)

/-- Outside of `Allow` the taker trades with others only. -/
theorem sweep_fill_not_self (hmode : b.selfTrade ≠ .allow) {f : Fill}
    (hf : f ∈ (b.sweep (taker order)).pass.fills) : f.makerUser ≠ f.takerUser := by
  obtain ⟨x, hx, hfor⟩ := sweep_fill_mem hf
  have hmem : x.1 ∈ tradable b.selfTrade order.owner (b.crossable order) := mem_of_mem_draw _ hx
  rw [hfor.makerUser, hfor.takerUser]
  cases hm : b.selfTrade with
  | allow => exact absurd hm hmode
  | cancelBoth =>
    rw [hm] at hmem
    simpa using (List.mem_filter.mp hmem).2
  | cancelNewest =>
    rw [hm] at hmem
    simpa using List.mem_takeWhile_imp hmem

/-- The fills and the remainder of an admitted order make up its quantity. -/
theorem sweep_total (b : Orderbook) (order : Order) :
    ((b.sweep (taker order)).pass.fills.map Fill.qty).sum =
      order.qty-(b.sweep (taker order)).pass.taker.remaining := by
  have h := sweepLevels_total b.selfTrade b.market (b.pass (taker order))
    (b.levelsOf order.side.opposite)
  change (b.sweep (taker order)).pass.taker.remaining+
    ((b.sweep (taker order)).pass.fills.map Fill.qty).sum = order.qty+0 at h
  linarith

end Orderbook

theorem madeQty_nonneg {oid : OrderId} {fs : List Fill} (h : ∀ f ∈ fs, 0 ≤ f.qty) :
    0 ≤ madeQty oid fs := by
  apply List.sum_nonneg
  intro x hx
  obtain ⟨f, hf, rfl⟩ := List.mem_map.mp hx
  split_ifs
  · exact h f hf
  · exact le_rfl

theorem filledQty_eq_madeQty {oid : OrderId} {fs : List Fill}
    (h : ∀ f ∈ fs, f.takerOrderId ≠ oid) : filledQty oid fs = madeQty oid fs := by
  unfold filledQty madeQty
  congr 1
  apply List.map_congr_left
  intro f hf
  simp [h f hf]

theorem filledQty_eq_total {oid : OrderId} {fs : List Fill}
    (h : ∀ f ∈ fs, f.takerOrderId = oid) : filledQty oid fs = (fs.map Fill.qty).sum := by
  unfold filledQty
  congr 1
  apply List.map_congr_left
  intro f hf
  simp [h f hf]

theorem submit_filledQty {b : Orderbook} (h : b.Sane) (order : Order)
    (tracker : PositionTracker) (oid : OrderId) :
    filledQty oid (returned b (.submit order tracker))+
        ((b.submit order tracker).2).restingQty oid ≤
      b.restingQty oid+(if order.id = oid then max order.qty 0 else 0) := by
  have hcross := Orderbook.crossed_restingQty h order oid
  have hmade : 0 ≤ madeQty oid (b.sweep (Orderbook.taker order)).pass.fills :=
    madeQty_nonneg fun f hf => Orderbook.sweep_fill_nonneg h hf
  have hmax : 0 ≤ (if order.id = oid then max order.qty 0 else 0) := by
    split_ifs
    · exact le_max_right _ _
    · exact le_rfl
  have htaker : ∀ f ∈ (b.sweep (Orderbook.taker order)).pass.fills,
      f.takerOrderId = order.id := by
    intro f hf
    obtain ⟨x, -, hfor⟩ := Orderbook.sweep_fill_mem hf
    exact hfor.takerOrderId
  rcases Orderbook.submit_returned h order tracker with
    ⟨hacc, hret, hbook⟩ | ⟨-, hret, hbook⟩
  · have hrem := sweepLevels_remaining_nonneg b.selfTrade b.market
      (b.pass (Orderbook.taker order)) (b.levelsOf order.side.opposite)
      (Orderbook.admission_qty_pos hacc.1).le
    change 0 ≤ (b.sweep (Orderbook.taker order)).pass.taker.remaining at hrem
    -- what rests of the order, if anything, is its remainder
    have hrest : ((b.submit order tracker).2).restingQty oid ≤
        (b.crossed order).restingQty oid+(if order.id = oid then
          (b.sweep (Orderbook.taker order)).pass.taker.remaining else 0) := by
      rcases hbook with hbook | ⟨-, hbook⟩
      · rw [hbook]
        split_ifs <;> linarith
      · have hid : (b.sweep (Orderbook.taker order)).pass.taker.id = order.id := by
          rw [Orderbook.sweep_taker]
        rw [hbook, Orderbook.rest_restingQty, hid]
    rw [hret]
    -- the account of the order itself is its quantity; any other is what it gets as maker
    by_cases hid : order.id = oid
    · have hfilled := filledQty_eq_total fun f hf => (htaker f hf).trans hid
      rw [hfilled, Orderbook.sweep_total]
      rw [if_pos hid] at hrest ⊢
      have hq := le_max_left order.qty 0
      linarith
    · have hfilled := filledQty_eq_madeQty fun f hf => htaker f hf ▸ hid
      rw [hfilled]
      rw [if_neg hid] at hrest ⊢
      linarith
  · have hzero : filledQty oid [] = 0 := rfl
    rw [hret, hzero]
    rcases hbook with hbook | hbook
    · rw [hbook]
      linarith
    · rw [hbook]
      linarith

/-- A call fills an order out of what rests under its id, and of the order it submits. -/
theorem step_filledQty {b : Orderbook} (h : b.Sane) {c : Cmd} {oid : OrderId}
    (hc : c.submitId ≠ some oid) :
    filledQty oid (returned b c)+(step b c).restingQty oid ≤ b.restingQty oid := by
  cases c with
  | submit order tracker =>
    have hid : order.id ≠ oid := fun he => hc (congrArg some he)
    have hs := submit_filledQty h order tracker oid
    rw [if_neg hid, add_zero] at hs
    exact hs
  | cancel id =>
    have hzero : filledQty oid (returned b (.cancel id)) = 0 := rfl
    rw [hzero, zero_add]
    exact Orderbook.cancel_restingQty h id oid

theorem run_filledQty {b : Orderbook} (h : b.Sane) {cmds : List Cmd} {oid : OrderId}
    (hcmds : ∀ c ∈ cmds, c.submitId ≠ some oid) :
    filledQty oid (ledger b cmds)+(run b cmds).restingQty oid ≤ b.restingQty oid := by
  induction cmds generalizing b with
  | nil => exact (zero_add _).le
  | cons c cmds ih =>
    have hstep := step_filledQty h (hcmds c List.mem_cons_self)
    have hrest := ih (step_sane h c) fun c' hc' => hcmds c' (List.mem_cons_of_mem _ hc')
    rw [ledger, filledQty_append]
    change _+(run (step b c) cmds).restingQty oid ≤ _
    linarith

theorem mem_ledger {b : Orderbook} {cmds : List Cmd} {f : Fill} :
    f ∈ ledger b cmds ↔ ∃ (pre : List Cmd) (c : Cmd), pre++[c] <+: cmds ∧
      f ∈ returned (run b pre) c := by
  constructor
  · intro hf
    induction cmds generalizing b with
    | nil => simp [ledger] at hf
    | cons c cmds ih =>
      rcases List.mem_append.mp hf with hf | hf
      · exact ⟨[], c, ⟨cmds, rfl⟩, hf⟩
      · obtain ⟨pre, c', hpre, hf⟩ := ih hf
        exact ⟨c :: pre, c', List.cons_prefix_cons.mpr ⟨rfl, hpre⟩, hf⟩
  · rintro ⟨pre, c, ⟨post, rfl⟩, hf⟩
    rw [List.append_assoc, ledger_append]
    exact List.mem_append_right _ (List.mem_append_left _ hf)

/-- Ids are submitted once, so the other calls leave an order's account alone. -/
theorem order_filledQty {b : Orderbook} (h : b.Sane) {cmds : List Cmd} {order : Order}
    {tracker : PositionTracker} (hids : (cmds.filterMap Cmd.submitId).Nodup)
    (hmem : Cmd.submit order tracker ∈ cmds) (hfresh : b.restingQty order.id = 0) :
    filledQty order.id (ledger b cmds) ≤ max order.qty 0 := by
  -- the run before the order, the order, and the run after it
  obtain ⟨pre, post, rfl⟩ := List.append_of_mem hmem
  have hcons : (Cmd.submit order tracker :: post).filterMap Cmd.submitId =
      order.id :: post.filterMap Cmd.submitId := rfl
  rw [List.filterMap_append, hcons] at hids
  obtain ⟨-, hpost, hdisj⟩ := List.nodup_append.mp hids
  have hnpre : ∀ c ∈ pre, c.submitId ≠ some order.id := fun c hc he =>
    hdisj order.id (List.mem_filterMap.mpr ⟨c, hc, he⟩) order.id List.mem_cons_self rfl
  have hnpost : ∀ c ∈ post, c.submitId ≠ some order.id := fun c hc he =>
    (List.nodup_cons.mp hpost).1 (List.mem_filterMap.mpr ⟨c, hc, he⟩)
  have hrun : (run b pre).Sane := h.run pre
  have hstep : (step (run b pre) (.submit order tracker)).Sane := step_sane hrun _
  have h1 := run_filledQty h hnpre
  have h2 := submit_filledQty hrun order tracker order.id
  have h3 := run_filledQty hstep hnpost
  have hend := Orderbook.restingQty_nonneg (hstep.run post) order.id
  rw [if_pos rfl] at h2
  change filledQty order.id (returned (run b pre) (.submit order tracker))+
    (step (run b pre) (.submit order tracker)).restingQty order.id ≤ _ at h2
  rw [ledger_append, filledQty_append, ledger, filledQty_append]
  linarith

namespace Orderbook

@[simp]
theorem rest_nextFillId (b : Orderbook) (o : Order) : (b.rest o).nextFillId = b.nextFillId := by
  unfold rest
  cases o.side <;> rfl

@[simp]
theorem rest_selfTrade (b : Orderbook) (o : Order) : (b.rest o).selfTrade = b.selfTrade := by
  unfold rest
  cases o.side <;> rfl

@[simp]
theorem rest_market (b : Orderbook) (o : Order) : (b.rest o).market = b.market := by
  unfold rest
  cases o.side <;> rfl

theorem cancel_counters (b : Orderbook) (id : OrderId) :
    ((b.cancel id).2).nextFillId = b.nextFillId ∧ ((b.cancel id).2).market = b.market ∧
      ((b.cancel id).2).selfTrade = b.selfTrade := by
  unfold cancel
  cases b.byId id with
  | none => exact ⟨rfl, rfl, rfl⟩
  | some s => cases s <;> exact ⟨rfl, rfl, rfl⟩

theorem crossed_counters (b : Orderbook) (order : Order) : (b.crossed order).nextFillId =
      b.nextFillId+(b.sweep (taker order)).pass.fills.length ∧
    (b.crossed order).market = b.market ∧ (b.crossed order).selfTrade = b.selfTrade := by
  obtain ⟨-, -, -, -, hn, -, -, hmarket, hmode⟩ := cross_spec b (taker order)
  obtain ⟨-, -, hcount⟩ := sweep_fills b order
  exact ⟨hn.trans hcount, hmarket, hmode⟩

end Orderbook

/-- The settings of a book never change. -/
theorem step_settings {b : Orderbook} (h : b.Sane) (c : Cmd) :
    (step b c).market = b.market ∧ (step b c).selfTrade = b.selfTrade := by
  cases c with
  | cancel id => exact (b.cancel_counters id).2
  | submit order tracker =>
    obtain ⟨-, hmarket, hmode⟩ := b.crossed_counters order
    rcases Orderbook.submit_returned h order tracker with
      ⟨-, -, hbook | ⟨-, hbook⟩⟩ | ⟨-, -, hbook | hbook⟩ <;>
      simp [step, hbook, hmarket, hmode]

/-- A call numbers the fills it returns from its counter on. -/
theorem step_fillIds {b : Orderbook} (h : b.Sane) (c : Cmd) :
    (returned b c).Pairwise (fun f g => f.id < g.id) ∧ b.nextFillId ≤ (step b c).nextFillId ∧
      ∀ f ∈ returned b c, b.nextFillId < f.id ∧ f.id ≤ (step b c).nextFillId := by
  cases c with
  | cancel id =>
    refine ⟨.nil, ((b.cancel_counters id).1).ge, ?_⟩
    intro f hf
    simp [returned] at hf
  | submit order tracker =>
    have hc := (b.crossed_counters order).1
    obtain ⟨-, hids, -⟩ := Orderbook.sweep_fills b order
    rcases Orderbook.submit_returned h order tracker with
      ⟨-, hret, hbook⟩ | ⟨-, hret, hbook⟩
    · have hnext : (step b (.submit order tracker)).nextFillId =
          b.nextFillId+(b.sweep (Orderbook.taker order)).pass.fills.length := by
        rcases hbook with hbook | ⟨-, hbook⟩ <;> simp [step, hbook, hc]
      rw [hret, hnext]
      refine ⟨?_, by omega, ?_⟩
      · -- the numbers of a call are an interval above the counter
        have hsorted := List.pairwise_lt_range' (s := b.nextFillId+1)
          (n := (b.sweep (Orderbook.taker order)).pass.fills.length)
        rw [← hids] at hsorted
        exact List.pairwise_map.mp hsorted
      · intro f hf
        have hmem := List.mem_map_of_mem (f := Fill.id) hf
        rw [hids, List.mem_range'_1] at hmem
        omega
    · rw [hret]
      refine ⟨.nil, ?_, fun f hf => by simp at hf⟩
      rcases hbook with hbook | hbook <;> simp [step, hbook, hc]

theorem ledger_fillIds {b : Orderbook} (h : b.Sane) (cmds : List Cmd) :
    (ledger b cmds).Pairwise (fun f g => f.id < g.id) ∧
      ∀ f ∈ ledger b cmds, b.nextFillId < f.id := by
  induction cmds generalizing b with
  | nil => exact ⟨.nil, fun f hf => by simp [ledger] at hf⟩
  | cons c cmds ih =>
    obtain ⟨hhead, hnext, hbound⟩ := step_fillIds h c
    obtain ⟨htail, hlater⟩ := ih (step_sane h c)
    constructor
    · refine List.pairwise_append.mpr ⟨hhead, htail, ?_⟩
      intro f hf g hg
      exact lt_of_le_of_lt (hbound f hf).2 (hlater g hg)
    · intro f hf
      rcases List.mem_append.mp hf with hf | hf
      · exact (hbound f hf).1
      · exact lt_of_le_of_lt hnext (hlater f hf)

theorem run_settings {b : Orderbook} (h : b.Sane) (cmds : List Cmd) :
    (run b cmds).market = b.market ∧ (run b cmds).selfTrade = b.selfTrade := by
  induction cmds generalizing b with
  | nil => exact ⟨rfl, rfl⟩
  | cons c cmds ih =>
    obtain ⟨hmarket, hmode⟩ := step_settings h c
    obtain ⟨hmarket', hmode'⟩ := ih (step_sane h c)
    exact ⟨hmarket'.trans hmarket, hmode'.trans hmode⟩

theorem returned_not_self {b : Orderbook} (h : b.Sane) (hmode : b.selfTrade ≠ .allow) {c : Cmd}
    {f : Fill} (hf : f ∈ returned b c) : f.makerUser ≠ f.takerUser := by
  cases c with
  | cancel id => simp [returned] at hf
  | submit order tracker =>
    rcases Orderbook.submit_returned h order tracker with ⟨-, hret, -⟩ | ⟨-, hret, -⟩
    · rw [hret] at hf
      exact Orderbook.sweep_fill_not_self hmode hf
    · simp [hret] at hf

/-- An accepted order of the call meets no maker that has nothing left. -/
def Cmd.Live (b : Orderbook) : Cmd → Prop
  | .submit order tracker => b.Accepts order tracker → b.LiveReach order
  | .cancel _ => True

theorem returned_pos_iff {b : Orderbook} (h : b.Sane) (c : Cmd) :
    (∀ f ∈ returned b c, 0 < f.qty) ↔ c.Live b := by
  cases c with
  | cancel id => simp [returned, Cmd.Live]
  | submit order tracker =>
    unfold Cmd.Live
    rcases Orderbook.submit_returned h order tracker with ⟨hacc, hret, -⟩ | ⟨hacc, hret, -⟩
    · rw [hret, Orderbook.sweep_fills_pos_iff h]
      exact ⟨fun hl _ => hl, fun hl => hl hacc⟩
    · rw [hret]
      exact ⟨fun _ ha => absurd ha hacc, fun _ f hf => by simp at hf⟩

/-- Along a run on rationals without repeated ids, every fill has a quantity, no order is filled
beyond its own, the numbers grow, and outside of `Allow` nobody trades with himself, if and only
if no accepted order meets a maker that has nothing left. -/
theorem ledger_along_iff (market : MarketId) (mode : SelfTradeMode) (cmds : List Cmd)
    (hids : (cmds.filterMap Cmd.submitId).Nodup) :
    ((∀ f ∈ ledger (start market mode) cmds, 0 < f.qty) ∧
      (∀ (order : Order) (tracker : PositionTracker), Cmd.submit order tracker ∈ cmds →
        filledQty order.id (ledger (start market mode) cmds) ≤ max order.qty 0) ∧
      (ledger (start market mode) cmds).Pairwise (fun f g => f.id < g.id) ∧
      (mode ≠ .allow → ∀ f ∈ ledger (start market mode) cmds, f.makerUser ≠ f.takerUser)) ↔
    ∀ (pre : List Cmd) (c : Cmd), pre++[c] <+: cmds → c.Live (run (start market mode) pre) := by
  have hsane := start_sane market mode
  have hpos : (∀ f ∈ ledger (start market mode) cmds, 0 < f.qty) ↔
      ∀ (pre : List Cmd) (c : Cmd), pre++[c] <+: cmds →
        c.Live (run (start market mode) pre) := by
    constructor
    · intro hall pre c hpre
      rw [← returned_pos_iff (hsane.run pre)]
      exact fun f hf => hall f (mem_ledger.mpr ⟨pre, c, hpre, hf⟩)
    · intro hall f hf
      obtain ⟨pre, c, hpre, hf⟩ := mem_ledger.mp hf
      exact (returned_pos_iff (hsane.run pre) c).mpr (hall pre c hpre) f hf
  have hempty (oid : OrderId) : (start market mode).restingQty oid = 0 := by
    simp [Orderbook.restingQty, Orderbook.makers, qtyOf]
  -- the other three parts hold in every run
  rw [hpos]
  refine and_iff_left ⟨?_, (ledger_fillIds hsane cmds).1, ?_⟩
  · exact fun order tracker hmem => order_filledQty hsane hids hmem (hempty order.id)
  · intro hmode f hf
    obtain ⟨pre, c, -, hf⟩ := mem_ledger.mp hf
    refine returned_not_self (hsane.run pre) ?_ hf
    rw [(run_settings hsane pre).2]
    exact hmode

namespace Decimal
variable (round : ℚ → ℚ)

/-- The fills a call returns. -/
def returned (b : Orderbook) : Cmd → List Fill
  | .submit order tracker =>
    match (submit round b order tracker).1 with
    | some (.ok outcome) => outcome.fills
    | _ => []
  | .cancel _ => []

/-- All fills returned along a run. -/
def ledger : Orderbook → List Cmd → List Fill
  | _, [] => []
  | b, c :: cmds => returned round b c++ledger (step round b c) cmds

variable {round} {b : Orderbook}

theorem returned_eq (hround : rustDecimal.IsRounding round) {c : Cmd} (h : c.Exact b) :
    returned round b c = Book.returned b c := by
  cases c with
  | cancel id => rfl
  | submit order tracker =>
    simp only [returned, Book.returned, submit_eq hround h]
    cases (b.submit order tracker).1 <;> rfl

theorem ExactRun.ledger_eq (hround : rustDecimal.IsRounding round) {cmds : List Cmd}
    (h : ExactRun round b cmds) : ledger round b cmds = Book.ledger b cmds := by
  induction cmds generalizing b with
  | nil => rfl
  | cons c cmds ih =>
    have hc : c.Exact b := h [] c (by simp)
    have hrest : ExactRun round (step round b c) cmds := fun pre c' hpre =>
      h (c :: pre) c' (by simpa using hpre)
    rw [ledger, Book.ledger, ih hrest, returned_eq hround hc, step_eq hround hc]

end Decimal

/-- Along a run without repeated ids whose amounts are of one scale, every fill has a quantity, no
order is filled beyond its own, the numbers grow, and outside of `Allow` nobody trades with
himself, if and only if no accepted order meets a maker that has nothing left. -/
theorem ledger_sound_iff {round : ℚ → ℚ} (hround : rustDecimal.IsRounding round)
    (market : MarketId) (mode : SelfTradeMode) (cmds : List Cmd)
    (hids : (cmds.filterMap Cmd.submitId).Nodup)
    (hexact : Decimal.ExactRun round (start market mode) cmds) :
    let fills := Decimal.ledger round (start market mode) cmds
    ((∀ f ∈ fills, 0 < f.qty) ∧
      (∀ (order : Order) (tracker : PositionTracker), Cmd.submit order tracker ∈ cmds →
        filledQty order.id fills ≤ max order.qty 0) ∧
      fills.Pairwise (fun f g => f.id < g.id) ∧
      (mode ≠ .allow → ∀ f ∈ fills, f.makerUser ≠ f.takerUser)) ↔
    ∀ (pre : List Cmd) (c : Cmd), pre++[c] <+: cmds →
      c.Live (Decimal.run round (start market mode) pre) := by
  intro fills
  have hfills : fills = ledger (start market mode) cmds := hexact.ledger_eq hround
  rw [hfills, ledger_along_iff market mode cmds hids]
  exact forall₃_congr fun pre c hpre => by rw [hexact.meets hround hpre]

theorem ledger_sound_iff_ask_then_buy :
    let cmds : List Cmd := [.submit restingAsk .new, .submit marketBuy .new]
    let fills := Decimal.ledger rustDecimal.halfEven (start 0 .cancelNewest) cmds
    (cmds.filterMap Cmd.submitId).Nodup ∧
      (((∀ f ∈ fills, 0 < f.qty) ∧
        (∀ (order : Order) (tracker : PositionTracker), Cmd.submit order tracker ∈ cmds →
          filledQty order.id fills ≤ max order.qty 0) ∧
        fills.Pairwise (fun f g => f.id < g.id) ∧
        (SelfTradeMode.cancelNewest ≠ .allow → ∀ f ∈ fills, f.makerUser ≠ f.takerUser)) ↔
      ∀ (pre : List Cmd) (c : Cmd), pre++[c] <+: cmds →
        c.Live (Decimal.run rustDecimal.halfEven (start 0 .cancelNewest) pre)) :=
  ⟨by decide, ledger_sound_iff rustDecimal.halfEven_isRounding 0 .cancelNewest _ (by decide)
    exactRun_ask_then_buy⟩

/-- User 3 buys a unit at 100. -/
def lateBuy : Order := ⟨4, 3, 0, .buy, .limit, 100, 1, 1, .gtc, false, false, 3⟩

/-- The maker stranded by a rejected order is met again and filled with nothing. -/
theorem stranded_maker_filled_with_nothing :
    let cmds : List Cmd := [.submit restingAsk .new, .submit ownAskBehind .new,
      .submit ownBuy .new, .submit lateBuy .new]
    (cmds.filterMap Cmd.submitId).Nodup ∧
      ∃ f ∈ Decimal.ledger rustDecimal.halfEven (start 0 .cancelNewest) cmds,
        f.makerOrderId = 1 ∧ f.qty = 0 := by
  refine ⟨by decide, ?_⟩
  decide +kernel

end Perplex.Book
