import Perplex.BookLadder
import Perplex.Dispatcher

/-! When the delta stream determines the book. A delta goes out for every level with a fill
and for the level an order rests at; the book also changes by cancels, by orders rejected
after they have crossed, and by the removal of own makers under `CancelBoth`. -/
namespace Perplex.Book

namespace EngineCmd

/-- The book after a command. -/
def exec (b : Orderbook) : EngineCmd → Orderbook
  | .submit order tracker => (b.submit order tracker).2
  | .cancel orderId => (b.cancel orderId).2
  | .top => b

/-- The levels a command sends a delta for. -/
def announced (b : Orderbook) : EngineCmd → List (Side × ℚ)
  | .submit order tracker =>
    match (b.submit order tracker).1 with
    | .ok out => out.fills.map (fun f => (order.side.opposite,f.price))++
        if out.resting.isSome then [(order.side,order.price)] else []
    | .error _ => []
  | .cancel _ => []
  | .top => []

/-- Every change a command makes to a level is announced: a cancel removes no quantity, an
order rejected after it has crossed has passed none, and an accepted one drops no level of
own makers under `CancelBoth`. -/
def Told (b : Orderbook) : EngineCmd → Prop
  | .submit order tracker => b.admission order tracker = none →
    (b.FailsLate order →
      sumRemaining (passed b.selfTrade order.owner (b.crossable order)) = 0) ∧
    (¬ b.FailsLate order → ¬ (b.selfTrade = .cancelBoth ∧
      dropsUnseen order.owner order.qty (b.crossedLevels order)))
  | .cancel orderId => ∀ side, b.byId orderId = some side →
    ∀ o, (b.makers side).find? (fun o => o.id = orderId) = some o → o.remaining = 0
  | .top => True

/-- An order that is rejected after crossing announces nothing. -/
theorem told_rejected_iff {b : Orderbook} (h : b.Sane) {order : Order} {tracker : PositionTracker}
    {e : SubmitError} (hadm : b.admission order tracker = none)
    (hr : b.submit order tracker = (.error e,b.crossed order))
    (hfail : (b.sweep (Orderbook.taker order)).err.isSome ∨
      0 < (b.sweep (Orderbook.taker order)).pass.taker.remaining) :
    (∀ side p, (side,p) ∉ announced b (.submit order tracker) →
      ((b.submit order tracker).2).levelQty side p = b.levelQty side p) ↔
      Told b (.submit order tracker) := by
  have hlate : b.FailsLate order :=
    (Orderbook.submit_error_iff h hadm).mp ⟨e, congrArg Prod.fst hr⟩
  have hiff := Orderbook.crossed_unfilled h hfail
  simp only [Told, announced, hr, List.not_mem_nil, not_false_eq_true, true_imp_iff]
  rw [hiff]
  exact ⟨fun hz _ => ⟨fun _ => hz, fun hn => absurd hlate hn⟩, fun ht => (ht hadm).1 hlate⟩

/-- An accepted order is told exactly when crossing is, whether or not a remainder rests. -/
theorem told_accepted_iff {b : Orderbook} (h : b.Sane) {order : Order}
    {tracker : PositionTracker} (hadm : b.admission order tracker = none)
    (hok : ∀ e, (b.submit order tracker).1 ≠ .error e)
    (he : (b.sweep (Orderbook.taker order)).err = none) : Told b (.submit order tracker) ↔
      ∀ p, (∀ f ∈ (b.sweep (Orderbook.taker order)).pass.fills, f.price ≠ p) →
        (b.crossed order).levelQty order.side.opposite p =
          b.levelQty order.side.opposite p := by
  have hlate : ¬ b.FailsLate order := by
    intro hf
    obtain ⟨e, he⟩ := (Orderbook.submit_error_iff h hadm).mpr hf
    exact hok e he
  rw [Orderbook.crossed_unannounced h he, Told]
  exact ⟨fun ht => (ht hadm).2 hlate, fun ht _ => ⟨fun hf => absurd hf hlate, fun _ => ht⟩⟩

/-- The level of a remainder is announced, and the other levels are those after crossing. -/
theorem told_resting_iff {b : Orderbook} {order : Order} {tracker : PositionTracker}
    {id : OrderId} {x : ℚ} (hr : b.submit order tracker =
      (.ok ⟨(b.sweep (Orderbook.taker order)).pass.fills, some id, x⟩,
        (b.crossed order).rest (b.sweep (Orderbook.taker order)).pass.taker)) :
    (∀ side p, (side,p) ∉ announced b (.submit order tracker) →
      ((b.submit order tracker).2).levelQty side p = b.levelQty side p) ↔
      ∀ p, (∀ f ∈ (b.sweep (Orderbook.taker order)).pass.fills, f.price ≠ p) →
        (b.crossed order).levelQty order.side.opposite p =
          b.levelQty order.side.opposite p := by
  have hopp : order.side.opposite ≠ order.side := Side.opposite_ne order.side
  have hside : (b.sweep (Orderbook.taker order)).pass.taker.side = order.side := by
    rw [Orderbook.sweep_taker]
  have hprice : (b.sweep (Orderbook.taker order)).pass.taker.price = order.price := by
    rw [Orderbook.sweep_taker]
  have hrest := Orderbook.rest_levelQty_same (b.crossed order)
    (b.sweep (Orderbook.taker order)).pass.taker
  rw [hside, hprice] at hrest
  have hother (p : ℚ) : ((b.crossed order).rest
      (b.sweep (Orderbook.taker order)).pass.taker).levelQty order.side.opposite p =
        (b.crossed order).levelQty order.side.opposite p :=
    Orderbook.rest_levelQty_other (hside.symm ▸ hopp) p
  simp only [announced, hr, Option.isSome_some, if_true, List.mem_append, List.mem_map,
    List.mem_singleton, Prod.mk.injEq, not_or, not_exists, not_and]
  constructor
  · intro hall p hp
    rw [← hother]
    exact hall _ p ⟨fun f hf _ => hp f hf, fun hs => absurd hs hopp⟩
  · intro hall side p hnot
    rcases Side.eq_or_eq_opposite side order.side with rfl | rfl
    · -- on its own side the order only adds at its price, and that level is announced
      rw [hrest, if_neg fun hp => hnot.2 rfl hp.symm, add_zero]
      exact Orderbook.crossed_levelQty_same b order p
    · rw [hother]
      exact hall p fun f hf => hnot.1 f hf rfl

theorem told_submit_iff {b : Orderbook} (h : b.Sane) (order : Order)
    (tracker : PositionTracker) :
    (∀ side p, (side,p) ∉ announced b (.submit order tracker) →
      ((b.submit order tracker).2).levelQty side p = b.levelQty side p) ↔
      Told b (.submit order tracker) := by
  rcases Orderbook.submit_cases b order tracker with ⟨e, hadm, hr⟩ | ⟨hadm, hcases⟩
  · simp [Told, announced, hr, hadm]
  rcases hcases with ⟨e, he, hr⟩ | ⟨he, ⟨-, hpos, hr⟩ | ⟨-, -, -, hr⟩ | ⟨-, -, hr⟩⟩
  · exact told_rejected_iff h hadm hr (Or.inl (by simp [he]))
  · exact told_rejected_iff h hadm hr (Or.inr hpos)
  · rw [told_accepted_iff h hadm (fun e => by simp [hr]) he]
    exact told_resting_iff hr
  · -- nothing rests: the own side is as it was, the other as crossing left it
    rw [told_accepted_iff h hadm (fun e => by simp [hr]) he]
    simp only [announced, hr, Option.isSome_none, Bool.false_eq_true, if_false, List.append_nil,
      List.mem_map, Prod.mk.injEq, not_exists, not_and]
    constructor
    · exact fun hall p hp => hall _ p fun f hf _ => hp f hf
    · intro hall side p hnot
      rcases Side.eq_or_eq_opposite side order.side with rfl | rfl
      · exact Orderbook.crossed_levelQty_same b order p
      · exact hall p fun f hf => hnot f hf rfl

theorem told_iff {b : Orderbook} (h : b.Sane) (c : EngineCmd) :
    (∀ side p, (side,p) ∉ c.announced b →
      (c.exec b).levelQty side p = b.levelQty side p) ↔ c.Told b := by
  cases c with
  | submit order tracker => exact told_submit_iff h order tracker
  | top => exact ⟨fun _ => trivial, fun _ _ _ _ => rfl⟩
  | cancel orderId =>
    simp only [announced, List.not_mem_nil, not_false_eq_true, true_imp_iff]
    cases hid : b.byId orderId with
    | none =>
      simp [exec, Told, hid, Orderbook.cancel_unknown hid]
    | some s =>
      have hiff := Orderbook.cancel_levelQty_iff hid
      simp only [exec, Told, hid, Option.some.injEq, forall_eq']
      exact hiff

theorem exec_sane {b : Orderbook} (h : b.Sane) (c : EngineCmd) : (c.exec b).Sane := by
  cases c with
  | submit order tracker => exact submit_sane h order tracker
  | cancel orderId => exact cancel_sane h orderId
  | top => exact h

end EngineCmd

namespace Worker

/-- A step runs the command on the book and then sends its deltas. -/
theorem step_emits (w : Worker) (c : EngineCmd) :
    Emits { w with book := c.exec w.book } (w.step c) (c.announced w.book) := by
  cases c with
  | cancel orderId => exact .refl _
  | top => exact .refl _
  | submit order tracker =>
    simp only [step, submit, EngineCmd.exec, EngineCmd.announced]
    rcases hsub : w.book.submit order tracker with ⟨res, book⟩
    cases res with
    | error e => exact .refl _
    | ok out =>
      have hfills := Emits.appendFills order out.fills { w with book := book }
      dsimp only
      split_ifs
      · exact hfills.trans (.emit _ order.side order.price order.tsNs)
      · rw [List.append_nil]
        exact hfills

theorem step_book (w : Worker) (c : EngineCmd) : (w.step c).book = c.exec w.book :=
  (step_emits w c).book

theorem step_inSync_iff {w : Worker} (hs : w.book.Sane) (hsync : w.InSync) (c : EngineCmd) :
    (w.step c).InSync ↔ c.Told w.book := by
  rw [← EngineCmd.told_iff hs]
  exact (step_emits w c).inSync_iff hsync

theorem new_inSync (market : MarketId) (mode : SelfTradeMode) : (new market mode).InSync := by
  intro side price
  rw [Orderbook.levelQty_eq]
  cases side <;> rfl

end Worker

theorem runMarketWorker_append (market : MarketId) (mode : SelfTradeMode)
    (cmds : List EngineCmd) (c : EngineCmd) : runMarketWorker market mode (cmds++[c]) =
      (runMarketWorker market mode cmds).step c := by
  simp [runMarketWorker]

/-- What holds of every worker whatever it is told. -/
theorem runMarketWorker_sane (market : MarketId) (mode : SelfTradeMode) (cmds : List EngineCmd) :
    (runMarketWorker market mode cmds).book.Sane ∧
      (runMarketWorker market mode cmds).Numbered := by
  induction cmds using List.reverseRecOn with
  | nil => exact ⟨start_sane market mode, rfl, rfl⟩
  | append_singleton cmds c ih =>
    rw [runMarketWorker_append, Worker.step_book]
    exact ⟨EngineCmd.exec_sane ih.1 c, (Worker.step_emits _ c).numbered ih.2⟩

/-- After each command of a run the deltas sent so far are numbered 1, 2, 3, ... and rebuild
every level of the book, if and only if every command of the run is told in the book it
meets. -/
theorem told_along_iff (market : MarketId) (mode : SelfTradeMode)
    (cmds : List EngineCmd) :
    (∀ pre, pre <+: cmds →
      (∀ side price, (replay (runMarketWorker market mode pre).deltas).qty side price =
        (runMarketWorker market mode pre).book.levelQty side price) ∧
      (runMarketWorker market mode pre).deltas.map BookDelta.sequence =
        List.range' 1 (runMarketWorker market mode pre).deltas.length) ↔
    ∀ (pre : List EngineCmd) (c : EngineCmd), pre++[c] <+: cmds →
      c.Told (runMarketWorker market mode pre).book := by
  constructor
  · intro hall pre c hpre
    have hs := (runMarketWorker_sane market mode pre).1
    have hsync : (runMarketWorker market mode pre).InSync :=
      (hall pre ((List.prefix_append pre [c]).trans hpre)).1
    -- in step before and after the command, so the command was told
    rw [← Worker.step_inSync_iff hs hsync, ← runMarketWorker_append]
    exact (hall _ hpre).1
  · intro hall pre
    have hsync : pre <+: cmds → (runMarketWorker market mode pre).InSync := by
      induction pre using List.reverseRecOn with
      | nil => exact fun _ => Worker.new_inSync market mode
      | append_singleton pre c ih =>
        intro hpre
        have hs := (runMarketWorker_sane market mode pre).1
        have hbefore := ih ((List.prefix_append pre [c]).trans hpre)
        rw [runMarketWorker_append, Worker.step_inSync_iff hs hbefore]
        exact hall pre c hpre
    exact fun hpre => ⟨hsync hpre, (runMarketWorker_sane market mode pre).2.1⟩

end Perplex.Book
