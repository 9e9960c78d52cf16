import Mathlib.Data.List.Perm.Lattice
import Perplex.BookCross

/-! Resting and cancelling, `submit` by cases, and what every sequence of calls keeps. -/
namespace Perplex.Book

/-- The orders resting on a side, in priority order. -/
def Orderbook.makers (b : Orderbook) (side : Side) : List Order :=
  (b.levelsOf side).flatMap Prod.snd

section Ladder
variable {K : Type} [LinearOrder K]

/-- A new order is put in at one place, and everything else stays in order. -/
theorem upsertList_flat_insert {β : Type} (f : K → Order → β) (k : K) (o : Order)
    (l : List (K × Queue)) : ∃ front back,
      l.flatMap (fun e => e.2.map (f e.1)) = front++back ∧
      (SortedMap.upsertList k [] (·++[o]) l).flatMap (fun e => e.2.map (f e.1)) =
        front++f k o :: back := by
  induction l with
  | nil => exact ⟨[], [], rfl, rfl⟩
  | cons e rest ih =>
    unfold SortedMap.upsertList
    split_ifs with hlt heq
    · exact ⟨[], _, rfl, rfl⟩
    · subst heq
      refine ⟨e.2.map (f e.1), rest.flatMap (fun e => e.2.map (f e.1)), rfl, ?_⟩
      simp
    · obtain ⟨front, back, hl, hins⟩ := ih
      refine ⟨e.2.map (f e.1)++front, back, ?_, ?_⟩
      · rw [List.flatMap_cons, hl, List.append_assoc]
      · rw [List.flatMap_cons, hins, List.append_assoc]

theorem upsertList_flat_perm (k : K) (o : Order) (l : List (K × Queue)) :
    ((SortedMap.upsertList k [] (·++[o]) l).flatMap Prod.snd).Perm
      (o :: l.flatMap Prod.snd) := by
  obtain ⟨front, back, hl, hins⟩ := upsertList_flat_insert (fun _ o => o) k o l
  simp only [List.map_id'] at hl hins
  change List.flatMap Prod.snd _ = _ at hl hins
  rw [hl, hins]
  exact List.perm_middle

/-- Removing an id edits one queue, at its first order with that id. -/
theorem removeFromSide_cases (map : SortedMap K Queue) (id : OrderId) :
    (Orderbook.removeFromSide map id = map ∧ ∀ e ∈ map.entries, ∀ o ∈ e.2, o.id ≠ id) ∨
    ∃ (pre : List (K × Queue)) (key : K) (q : Queue) (post : List (K × Queue)),
      map.entries = pre++(key,q) :: post ∧
      (∀ e ∈ pre, ∀ o ∈ e.2, o.id ≠ id) ∧ (∃ o ∈ q, o.id = id) ∧
      (Orderbook.removeFromSide map id).entries =
        if (q.eraseP (fun o => o.id = id)).isEmpty then pre++post
        else pre++(key,q.eraseP (fun o => o.id = id)) :: post := by
  unfold Orderbook.removeFromSide
  cases hf : map.entries.find? (fun e => e.2.any (fun o => o.id = id)) with
  | none =>
    refine Or.inl ⟨rfl, ?_⟩
    intro e he o ho
    have h := List.find?_eq_none.mp hf e he
    simp only [List.any_eq_true, decide_eq_true_eq, not_exists, not_and] at h
    exact h o ho
  | some e =>
    obtain ⟨key, q⟩ := e
    -- the search stops at the first queue that holds the id
    obtain ⟨hq, pre, post, hsplit, hpre⟩ := List.find?_eq_some_iff_append.mp hf
    refine Or.inr ⟨pre, key, q, post, hsplit, ?_, by simpa using hq, ?_⟩
    · intro e he o ho
      have h := hpre e he
      simp only [Bool.not_eq_true', List.any_eq_false, decide_eq_true_eq] at h
      exact h o ho
    · dsimp only
      split_ifs
      · exact SortedMap.erase_middle hsplit
      · exact SortedMap.adjust_middle _ hsplit

/-- In priority order, cancelling removes the first order with the id. -/
theorem removeFromSide_flat (map : SortedMap K Queue) (id : OrderId) :
    (Orderbook.removeFromSide map id).entries.flatMap Prod.snd =
      (map.entries.flatMap Prod.snd).eraseP (fun o => o.id = id) := by
  rcases removeFromSide_cases map id with ⟨h, hne⟩ | ⟨pre, key, q, post, hs, hpre, ⟨o, ho, hid⟩, h⟩
  · rw [h, List.eraseP_of_forall_not]
    intro o ho
    obtain ⟨e, he, ho⟩ := List.mem_flatMap.mp ho
    simpa using hne e he o ho
  · rw [h, hs, List.flatMap_append, List.flatMap_cons, List.eraseP_append_right,
      List.eraseP_append_left (by simpa using hid) _ ho]
    · split_ifs with he
      · rw [List.flatMap_append, List.isEmpty_iff.mp he, List.nil_append]
      · rw [List.flatMap_append, List.flatMap_cons]
    · intro o ho
      obtain ⟨e, he, ho⟩ := List.mem_flatMap.mp ho
      simpa using hpre e he o ho

end Ladder

namespace Orderbook

theorem rest_levelsOf_other {b : Orderbook} {o : Order} {side : Side} (h : side ≠ o.side) :
    (b.rest o).levelsOf side = b.levelsOf side := by
  unfold rest
  cases hs : o.side <;> cases side <;> simp_all [levelsOf]

theorem rest_mem_levelsOf {b : Orderbook} {o : Order} {l : ℚ × Queue}
    (h : l ∈ (b.rest o).levelsOf o.side) : l ∈ b.levelsOf o.side ∨ l = (o.price,[o]) ∨
      ∃ q, (o.price,q) ∈ b.levelsOf o.side ∧ l = (o.price,q++[o]) := by
  unfold rest at h
  cases hs : o.side with
  | sell =>
    simp only [hs, levelsOf] at h ⊢
    exact SortedMap.mem_upsertList h
  | buy =>
    simp only [hs, levelsOf, List.mem_map] at h ⊢
    obtain ⟨e, he, rfl⟩ := h
    rcases SortedMap.mem_upsertList he with he | rfl | ⟨v, hv, rfl⟩
    · exact Or.inl ⟨e, he, rfl⟩
    · exact Or.inr (Or.inl rfl)
    · exact Or.inr (Or.inr ⟨v, ⟨_, hv, rfl⟩, rfl⟩)

theorem rest_makers_perm (b : Orderbook) (o : Order) :
    ((b.rest o).makers o.side).Perm (o :: b.makers o.side) := by
  unfold rest makers
  cases hs : o.side with
  | sell =>
    simp only [levelsOf]
    exact upsertList_flat_perm o.price o b.asks.entries
  | buy =>
    simp only [levelsOf, List.flatMap_map]
    exact upsertList_flat_perm (OrderDual.toDual o.price) o b.bids.entries

theorem rest_byId (b : Orderbook) (o : Order) :
    (b.rest o).byId = Function.update b.byId o.id (some o.side) := by
  unfold rest
  cases o.side <;> rfl

theorem cancel_unknown {b : Orderbook} {id : OrderId} (h : b.byId id = none) :
    (b.cancel id).2 = b := by
  simp [cancel, h]

theorem cancel_byId {b : Orderbook} {id : OrderId} {s : Side} (h : b.byId id = some s) :
    ((b.cancel id).2).byId = Function.update b.byId id none := by
  unfold cancel
  cases s <;> simp [h]

theorem cancel_levelsOf_other {b : Orderbook} {id : OrderId} {s side : Side}
    (h : b.byId id = some s) (hne : side ≠ s) :
    ((b.cancel id).2).levelsOf side = b.levelsOf side := by
  unfold cancel
  cases s <;> cases side <;> simp_all [levelsOf]

theorem cancel_mem_levelsOf {b : Orderbook} {id : OrderId} {s : Side} {l : ℚ × Queue}
    (h : b.byId id = some s) (hl : l ∈ ((b.cancel id).2).levelsOf s) :
    l ∈ b.levelsOf s ∨ ∃ q, (l.1,q) ∈ b.levelsOf s ∧ l.2 ≠ [] ∧
      l.2 = q.eraseP (fun o => o.id = id) := by
  have key {K : Type} [LinearOrder K] (map : SortedMap K Queue) (e : K × Queue)
      (he : e ∈ (removeFromSide map id).entries) : e ∈ map.entries ∨
        ∃ q, (e.1,q) ∈ map.entries ∧ e.2 ≠ [] ∧ e.2 = q.eraseP (fun o => o.id = id) := by
    rcases removeFromSide_cases map id with ⟨h, -⟩ | ⟨pre, key, q, post, hs, -, -, h⟩
    · rw [h] at he
      exact Or.inl he
    · rw [h] at he
      rw [hs]
      split_ifs at he with hq
      · rcases List.mem_append.mp he with he | he
        · exact Or.inl (List.mem_append_left _ he)
        · exact Or.inl (List.mem_append_right _ (List.mem_cons_of_mem _ he))
      · rcases List.mem_append.mp he with he | he
        · exact Or.inl (List.mem_append_left _ he)
        · rcases List.mem_cons.mp he with rfl | he
          · exact Or.inr ⟨q, List.mem_append_right _ List.mem_cons_self,
              by simpa using hq, rfl⟩
          · exact Or.inl (List.mem_append_right _ (List.mem_cons_of_mem _ he))
  unfold cancel at hl
  cases s with
  | sell =>
    simp only [h, levelsOf] at hl ⊢
    exact key b.asks l hl
  | buy =>
    simp only [h, levelsOf, List.mem_map] at hl ⊢
    obtain ⟨e, he, rfl⟩ := hl
    rcases key b.bids e he with he | ⟨q, hq, hne, heq⟩
    · exact Or.inl ⟨e, he, rfl⟩
    · exact Or.inr ⟨q, ⟨_, hq, rfl⟩, hne, heq⟩

theorem cancel_makers {b : Orderbook} {id : OrderId} {s : Side} (h : b.byId id = some s) :
    ((b.cancel id).2).makers s = (b.makers s).eraseP (fun o => o.id = id) := by
  unfold cancel makers
  cases s with
  | sell =>
    simp only [h, levelsOf]
    exact removeFromSide_flat b.asks id
  | buy =>
    simp only [h, levelsOf, List.flatMap_map]
    exact removeFromSide_flat b.bids id

/-- The order as it starts to cross. -/
def taker (order : Order) : Order := { order with remaining := order.qty }

/-- The book after crossing, before the remainder rests. -/
def crossed (b : Orderbook) (order : Order) : Orderbook := (b.cross (taker order)).2.2.2

/-- Crossing changes nothing of the taker but its remaining quantity. -/
theorem sweep_taker (b : Orderbook) (order : Order) : (b.sweep (taker order)).pass.taker =
    { order with remaining := (b.sweep (taker order)).pass.taker.remaining } :=
  sweepLevels_taker b.selfTrade b.market (b.pass (taker order))
    (b.levelsOf (taker order).side.opposite)

theorem admission_qty_pos {b : Orderbook} {order : Order} {tracker : PositionTracker}
    (h : b.admission order tracker = none) : 0 < order.qty := by
  unfold admission at h
  split_ifs at h with h1
  exact not_le.mp h1

/-- Everything `submit` can do. -/
theorem submit_cases (b : Orderbook) (order : Order) (tracker : PositionTracker) :
    (∃ e, b.admission order tracker = some e ∧ b.submit order tracker = (.error e,b)) ∨
    b.admission order tracker = none ∧
    let r := b.sweep (taker order)
    ((∃ e, r.err = some e ∧ b.submit order tracker = (.error e,b.crossed order)) ∨
    r.err = none ∧
    ((order.orderType = .market ∧ 0 < r.pass.taker.remaining ∧
        b.submit order tracker = (.error .marketNoLiquidity,b.crossed order)) ∨
     (order.orderType = .limit ∧ order.timeInForce = .gtc ∧ 0 < r.pass.taker.remaining ∧
        b.submit order tracker = (.ok ⟨r.pass.fills, some order.id, r.pass.taker.remaining⟩,
          (b.crossed order).rest r.pass.taker)) ∨
     (¬ (order.orderType = .market ∧ 0 < r.pass.taker.remaining) ∧
        ¬ (0 < r.pass.taker.remaining ∧ order.orderType = .limit ∧ order.timeInForce = .gtc) ∧
        b.submit order tracker = (.ok ⟨r.pass.fills, none, r.pass.taker.remaining⟩,
          b.crossed order)))) := by
  unfold submit
  cases ha : b.admission order tracker with
  | some e => exact Or.inl ⟨e, rfl, rfl⟩
  | none =>
    refine Or.inr ⟨rfl, ?_⟩
    obtain ⟨h1, h2, h3, -⟩ := cross_spec b (taker order)
    have htype : (b.sweep (taker order)).pass.taker.orderType = order.orderType := by
      rw [sweep_taker]
    have htif : (b.sweep (taker order)).pass.taker.timeInForce = order.timeInForce := by
      rw [sweep_taker]
    have hid : (b.sweep (taker order)).pass.taker.id = order.id := by rw [sweep_taker]
    rw [show ({ order with remaining := order.qty } : Order) = taker order from rfl]
    unfold crossed
    generalize b.cross (taker order) = o at h1 h2 h3
    obtain ⟨err, t, fills, b'⟩ := o
    dsimp only at h1 h2 h3 ⊢
    subst h1 h2 h3
    cases he : (b.sweep (taker order)).err with
    | some e => exact Or.inl ⟨e, rfl, rfl⟩
    | none =>
      refine Or.inr ⟨rfl, ?_⟩
      dsimp only
      rw [htype, htif, hid]
      -- market remainder, resting remainder, nothing to do
      split_ifs with h1 h2
      · exact Or.inl ⟨h1.1, h1.2, rfl⟩
      · exact Or.inr (Or.inl ⟨h2.2.1, h2.2.2, h2.1, rfl⟩)
      · exact Or.inr (Or.inr ⟨h1, h2, rfl⟩)

/-- What a call that succeeds has done. -/
structure Returned (b : Orderbook) (order : Order) (tracker : PositionTracker)
    (out : SubmitOutcome) (b' : Orderbook) : Prop where
  admitted : b.admission order tracker = none
  swept : (b.sweep (taker order)).err = none
  fills : out.fills = (b.sweep (taker order)).pass.fills
  remaining : out.remaining = (b.sweep (taker order)).pass.taker.remaining
  market : order.orderType = .market → out.remaining ≤ 0
  book : out.resting = none ∧ b' = b.crossed order ∨ out.resting = some order.id ∧
    b' = (b.crossed order).rest { order with remaining := out.remaining }

theorem submit_ok {b b' : Orderbook} {order : Order} {tracker : PositionTracker}
    {out : SubmitOutcome} (h : b.submit order tracker = (.ok out,b')) :
    b.Returned order tracker out b' := by
  rcases submit_cases b order tracker with ⟨e, -, hr⟩ | ⟨hadm, ⟨e, -, hr⟩ | ⟨he, hcases⟩⟩
  · simp [hr] at h
  · simp [hr] at h
  rcases hcases with ⟨-, -, hr⟩ | ⟨hlimit, -, -, hr⟩ | ⟨hmarket, -, hr⟩
  · simp [hr] at h
  · rw [hr] at h
    obtain ⟨hout, rfl⟩ := Prod.mk.inj h
    obtain rfl := Except.ok.inj hout
    refine ⟨hadm, he, rfl, rfl, fun hm => by simp [hlimit] at hm, Or.inr ⟨rfl, ?_⟩⟩
    rw [sweep_taker]
  · rw [hr] at h
    obtain ⟨hout, rfl⟩ := Prod.mk.inj h
    obtain rfl := Except.ok.inj hout
    exact ⟨hadm, he, rfl, rfl, fun hm => not_lt.mp fun hpos => hmarket ⟨hm, hpos⟩,
      Or.inl ⟨rfl, rfl⟩⟩

/-- What the book has before the call, after crossing and after a remainder rests, it has
after the call, whichever way the call ends. -/
theorem submit_invariant {P : Orderbook → Prop} {b : Orderbook} {order : Order}
    {tracker : PositionTracker} (hb : P b)
    (hcrossed : b.admission order tracker = none → P (b.crossed order))
    (hrest : P (b.crossed order) → order.orderType = .limit →
      (b.sweep (taker order)).err = none → 0 < (b.sweep (taker order)).pass.taker.remaining →
      P ((b.crossed order).rest (b.sweep (taker order)).pass.taker)) :
    P (b.submit order tracker).2 := by
  rcases submit_cases b order tracker with ⟨e, -, hr⟩ | ⟨hadm, ⟨e, -, hr⟩ | ⟨he, hcases⟩⟩
  · rwa [hr]
  · rw [hr]
    exact hcrossed hadm
  rcases hcases with ⟨-, -, hr⟩ | ⟨hlimit, -, hpos, hr⟩ | ⟨-, -, hr⟩
  · rw [hr]
    exact hcrossed hadm
  · rw [hr]
    exact hrest (hcrossed hadm) hlimit he hpos
  · rw [hr]
    exact hcrossed hadm

end Orderbook

/-- Both sides of the book are in order. -/
def Orderbook.Sane (b : Orderbook) : Prop := ∀ side, LevelsOk (b.levelsOf side)

@[simp] theorem start_levelsOf (market : MarketId) (mode : SelfTradeMode) (side : Side) :
    (start market mode).levelsOf side = [] := by
  cases side <;> rfl

@[simp] theorem start_byId (market : MarketId) (mode : SelfTradeMode) (id : OrderId) :
    (start market mode).byId id = none := rfl

theorem start_sane (market : MarketId) (mode : SelfTradeMode) : (start market mode).Sane := by
  intro side
  constructor <;> simp

theorem Side.eq_or_eq_opposite (a b : Side) : a = b ∨ a = b.opposite := by
  cases a <;> cases b <;> decide

theorem Side.opposite_ne (a : Side) : a.opposite ≠ a := by
  cases a <;> decide

theorem crossed_sane {b : Orderbook} (h : b.Sane) (order : Order) : (b.crossed order).Sane := by
  obtain ⟨-, -, -, -, -, hopp, hown, -⟩ := cross_spec b (Orderbook.taker order)
  intro side
  rcases Side.eq_or_eq_opposite side order.side with rfl | rfl
  · rw [show (b.crossed order).levelsOf order.side = b.levelsOf order.side from hown]
    exact h order.side
  · rw [show (b.crossed order).levelsOf order.side.opposite = _ from hopp]
    exact sweepLevels_levelsOk _ _ _ (h order.side.opposite)

theorem rest_sane {b : Orderbook} (h : b.Sane) {o : Order} (ho : 0 ≤ o.remaining) :
    (b.rest o).Sane := by
  intro side
  by_cases hs : side = o.side
  · subst hs
    constructor
    · intro l hl
      rcases Orderbook.rest_mem_levelsOf hl with hl | rfl | ⟨q, -, rfl⟩
      · exact (h o.side).nonempty l hl
      · simp
      · simp
    · intro l hl x hx
      rcases Orderbook.rest_mem_levelsOf hl with hl | rfl | ⟨q, hq, rfl⟩
      · exact (h o.side).nonneg l hl x hx
      · obtain rfl : x = o := by simpa using hx
        exact ho
      · rcases List.mem_append.mp hx with hx | hx
        · exact (h o.side).nonneg _ hq x hx
        · obtain rfl : x = o := by simpa using hx
          exact ho
  · rw [Orderbook.rest_levelsOf_other hs]
    exact h side

theorem cancel_sane {b : Orderbook} (h : b.Sane) (id : OrderId) : ((b.cancel id).2).Sane := by
  cases hid : b.byId id with
  | none => rwa [Orderbook.cancel_unknown hid]
  | some s =>
    intro side
    by_cases hs : side = s
    · subst hs
      constructor
      · intro l hl
        rcases Orderbook.cancel_mem_levelsOf hid hl with hl | ⟨q, -, hne, -⟩
        · exact (h side).nonempty l hl
        · exact hne
      · intro l hl o ho
        rcases Orderbook.cancel_mem_levelsOf hid hl with hl | ⟨q, hq, -, heq⟩
        · exact (h side).nonneg l hl o ho
        · rw [heq] at ho
          exact (h side).nonneg _ hq o (List.mem_of_mem_eraseP ho)
    · rw [Orderbook.cancel_levelsOf_other hid hs]
      exact h side

theorem submit_sane {b : Orderbook} (h : b.Sane) (order : Order) (tracker : PositionTracker) :
    ((b.submit order tracker).2).Sane := by
  apply Orderbook.submit_invariant h
  · intro _
    exact crossed_sane h order
  · intro hc _ _ hpos
    exact rest_sane hc hpos.le

/-- The ids of the orders a command list submits. -/
def Cmd.submitId : Cmd → Option OrderId
  | .submit order _ => some order.id
  | .cancel _ => none

theorem run_append (b : Orderbook) (cmds : List Cmd) (c : Cmd) :
    run b (cmds++[c]) = step (run b cmds) c := by
  simp [run]

theorem step_sane {b : Orderbook} (h : b.Sane) (c : Cmd) : (step b c).Sane := by
  cases c with
  | submit order tracker => exact submit_sane h order tracker
  | cancel id => exact cancel_sane h id

/-- What every call keeps, whether it succeeds or not, is kept by every run. -/
theorem run_invariant {P : Orderbook → Prop}
    (hsubmit : ∀ b order tracker, P b → P (b.submit order tracker).2)
    (hcancel : ∀ b id, P b → P (b.cancel id).2) {b : Orderbook} (hb : P b)
    (cmds : List Cmd) : P (run b cmds) := by
  induction cmds generalizing b with
  | nil => exact hb
  | cons c cmds ih =>
    apply ih
    cases c with
    | submit order tracker => exact hsubmit b order tracker hb
    | cancel id => exact hcancel b id hb

theorem Orderbook.Sane.run {b : Orderbook} (h : b.Sane) (cmds : List Cmd) :
    (run b cmds).Sane := by
  apply run_invariant
  · exact fun b order tracker hb => submit_sane hb order tracker
  · exact fun b id hb => cancel_sane hb id
  · exact h

/-- No sequence of calls empties a queue in place or drives a quantity below zero. -/
theorem run_sane (market : MarketId) (mode : SelfTradeMode) (cmds : List Cmd) :
    (run (start market mode) cmds).Sane := (start_sane market mode).run cmds

end Perplex.Book
