import Perplex.BookInvariant

/-! The representation invariant along whole runs: it holds in every state reached exactly
when no accepted order strands makers. -/
namespace Perplex.Book

theorem start_repInv (market : MarketId) (mode : SelfTradeMode) :
    (start market mode).RepInv := by
  have hi (side : Side) : (start market mode).ids side = [] := by
    simp [Orderbook.ids, Orderbook.makers]
  refine ⟨?_, ?_, ?_, ?_⟩
  · intro side l h
    simp at h
  · intro side l h
    simp at h
  · simp [hi]
  · intro id side
    rw [hi]
    simp

theorem RestsAt.shrunk {side : Side} {price : ℚ} {m o : Order} (h : RestsAt side price m)
    (hs : Shrunk m o) : RestsAt side price o := by
  have he := hs.same
  refine ⟨?_, ?_, ?_, hs.pos h.pos, ?_⟩
  · rw [he]; exact h.side_eq
  · rw [he]; exact h.price_eq
  · rw [he]; exact h.limit
  · rw [show o.qty = m.qty by rw [he]]
    exact hs.le.trans h.le_qty

/-- Crossing keeps the invariant when it strands nothing. -/
theorem crossed_repInv {b : Orderbook} (h : b.RepInv) {order : Order}
    (hns : ¬ b.Strands order) : (b.crossed order).RepInv := by
  obtain ⟨-, -, -, hid, -, hopp, hown, -⟩ := cross_spec b (Orderbook.taker order)
  change (b.crossed order).byId = _ at hid
  change (b.crossed order).levelsOf order.side.opposite = _ at hopp
  change (b.crossed order).levelsOf order.side = b.levelsOf order.side at hown
  obtain ⟨⟨out, hids, hby⟩, hlev⟩ := sweepLevels_clean b.selfTrade b.market
    (b.pass (Orderbook.taker order)) (b.levelsOf order.side.opposite)
    (h.sane order.side.opposite) (fun hm hst => hns ⟨hm, hst⟩)
  change b.ids order.side.opposite = out++((b.sweep (Orderbook.taker order)).levels.flatMap
    Prod.snd).map Order.id at hids
  rw [← hopp] at hids
  change b.ids order.side.opposite = out++(b.crossed order).ids order.side.opposite at hids
  have hidsOwn : (b.crossed order).ids order.side = b.ids order.side := by
    simp [Orderbook.ids, Orderbook.makers, hown]
  -- the ids that left the opposite side are exactly those forgotten by the map
  have hby' : ∀ id, (b.crossed order).byId id = if id ∈ out then none else b.byId id := by
    intro id
    rw [hid]
    exact hby id
  have hnOpp := h.side_nodup order.side.opposite
  rw [hids] at hnOpp
  obtain ⟨-, hnKeep, hdisj⟩ := List.nodup_append.mp hnOpp
  have hiff : ∀ id side, (b.crossed order).byId id = some side ↔
      id ∈ (b.crossed order).ids side := by
    intro id side
    rw [hby']
    rcases Side.eq_or_eq_opposite side order.side with rfl | rfl
    · -- an id that left the opposite side cannot be one of the taker's own side
      rw [hidsOwn, ← h.byId_iff]
      split_ifs with ho
      · refine ⟨fun hc => by simp at hc, fun hc => ?_⟩
        have h1 : id ∈ b.ids order.side.opposite := by
          rw [hids]
          exact List.mem_append_left _ ho
        rw [(h.byId_iff id _).mpr h1] at hc
        exact absurd (Option.some.inj hc) (Side.opposite_ne order.side)
      · exact Iff.rfl
    · split_ifs with ho
      · exact ⟨fun hc => by simp at hc, fun hc => absurd rfl (hdisj id ho id hc)⟩
      · rw [h.byId_iff, hids, List.mem_append]
        exact ⟨fun hc => hc.resolve_left ho, Or.inr⟩
  -- the taker's own side is as before; the other keeps a part of its ids
  have hn : ∀ side, ((b.crossed order).ids side).Nodup := by
    intro side
    rcases Side.eq_or_eq_opposite side order.side with rfl | rfl
    · rw [hidsOwn]
      exact h.side_nodup order.side
    · exact hnKeep
  refine ⟨?_, ?_, Orderbook.ids_nodup_of_sides hn hiff, hiff⟩
  · intro side l hl
    rcases Side.eq_or_eq_opposite side order.side with rfl | rfl
    · rw [hown] at hl
      exact h.nonempty _ l hl
    · rw [hopp] at hl
      exact (hlev l hl).elim (fun _ hx => hx.2.2.1)
  · intro side l hl o ho
    rcases Side.eq_or_eq_opposite side order.side with rfl | rfl
    · rw [hown] at hl
      exact h.rests _ l hl o ho
    · rw [hopp] at hl
      obtain ⟨l0, hl0, hkey, -, hall⟩ := hlev l hl
      obtain ⟨m, hm, hs⟩ := hall o ho
      rw [hkey]
      exact (h.rests _ l0 hl0 m hm).shrunk hs

theorem rest_repInv {b : Orderbook} (h : b.RepInv) {o : Order}
    (hfresh : ∀ side, o.id ∉ b.ids side) (ho : RestsAt o.side o.price o) :
    (b.rest o).RepInv := by
  -- resting adds one id to one side
  have hperm : ((b.rest o).ids o.side).Perm (o.id :: b.ids o.side) :=
    (Orderbook.rest_makers_perm b o).map Order.id
  have hother : ∀ side, side ≠ o.side → (b.rest o).ids side = b.ids side := by
    intro side hs
    simp [Orderbook.ids, Orderbook.makers, Orderbook.rest_levelsOf_other hs]
  have hiff : ∀ id side, (b.rest o).byId id = some side ↔ id ∈ (b.rest o).ids side := by
    intro id side
    rw [Orderbook.rest_byId]
    by_cases hs : side = o.side
    · subst hs
      rw [hperm.mem_iff, List.mem_cons, ← h.byId_iff]
      by_cases hid : id = o.id <;> simp [hid]
    · rw [hother side hs, ← h.byId_iff]
      by_cases hid : id = o.id
      · subst hid
        have hno := (h.byId_iff o.id side).not.mpr (hfresh side)
        simp only [Function.update_self, Option.some.injEq, hno]
        exact ⟨fun hc => hs hc.symm, False.elim⟩
      · rw [Function.update_of_ne hid]
  have hn : ∀ side, ((b.rest o).ids side).Nodup := by
    intro side
    by_cases hs : side = o.side
    · subst hs
      exact hperm.nodup_iff.mpr (List.nodup_cons.mpr ⟨hfresh _, h.side_nodup _⟩)
    · rw [hother side hs]
      exact h.side_nodup side
  refine ⟨fun side => ((rest_sane h.sane ho.pos.le) side).nonempty, ?_,
    Orderbook.ids_nodup_of_sides hn hiff, hiff⟩
  intro side l hl x hx
  by_cases hs : side = o.side
  · subst hs
    rcases Orderbook.rest_mem_levelsOf hl with hl | rfl | ⟨q, hq, rfl⟩
    · exact h.rests _ l hl x hx
    · obtain rfl : x = o := by simpa using hx
      exact ho
    · rcases List.mem_append.mp hx with hx | hx
      · exact h.rests _ _ hq x hx
      · obtain rfl : x = o := by simpa using hx
        exact ho
  · rw [Orderbook.rest_levelsOf_other hs] at hl
    exact h.rests side l hl x hx

theorem cancel_repInv {b : Orderbook} (h : b.RepInv) (id : OrderId) :
    ((b.cancel id).2).RepInv := by
  cases hid : b.byId id with
  | none => rwa [Orderbook.cancel_unknown hid]
  | some s =>
    -- cancelling removes one id from one side
    have hids : ((b.cancel id).2).ids s = (b.ids s).erase id := by
      unfold Orderbook.ids
      rw [Orderbook.cancel_makers hid, List.erase_eq_eraseP, List.eraseP_map]
      congr 2
      funext o
      exact decide_eq_decide.mpr eq_comm
    have hother : ∀ side, side ≠ s → ((b.cancel id).2).ids side = b.ids side := by
      intro side hs
      simp [Orderbook.ids, Orderbook.makers, Orderbook.cancel_levelsOf_other hid hs]
    have hiff : ∀ x side, ((b.cancel id).2).byId x = some side ↔
        x ∈ ((b.cancel id).2).ids side := by
      intro x side
      rw [Orderbook.cancel_byId hid]
      by_cases hs : side = s
      · subst hs
        rw [hids, (h.side_nodup side).mem_erase_iff, ← h.byId_iff]
        by_cases hx : x = id <;> simp [hx]
      · rw [hother side hs, ← h.byId_iff]
        by_cases hx : x = id
        · subst hx
          rw [hid]
          simp only [Function.update_self, reduceCtorEq, Option.some.injEq, false_iff]
          exact fun hc => hs hc.symm
        · rw [Function.update_of_ne hx]
    have hn : ∀ side, (((b.cancel id).2).ids side).Nodup := by
      intro side
      by_cases hs : side = s
      · subst hs
        rw [hids]
        exact (h.side_nodup side).erase id
      · rw [hother side hs]
        exact h.side_nodup side
    refine ⟨fun side => (cancel_sane h.sane id side).nonempty, ?_,
      Orderbook.ids_nodup_of_sides hn hiff, hiff⟩
    intro side l hl o ho
    by_cases hs : side = s
    · subst hs
      rcases Orderbook.cancel_mem_levelsOf hid hl with hl | ⟨q, hq, -, heq⟩
      · exact h.rests side l hl o ho
      · rw [heq] at ho
        exact h.rests side _ hq o (List.mem_of_mem_eraseP ho)
    · rw [Orderbook.cancel_levelsOf_other hid hs] at hl
      exact h.rests side l hl o ho

/-- The order that rests after crossing. -/
theorem sweep_taker_restsAt {b : Orderbook} (h : b.RepInv) {order : Order}
    (hlimit : order.orderType = .limit)
    (he : (b.sweep (Orderbook.taker order)).err = none)
    (hpos : 0 < (b.sweep (Orderbook.taker order)).pass.taker.remaining) :
    let t := (b.sweep (Orderbook.taker order)).pass.taker
    t.id = order.id ∧ RestsAt t.side t.price t := by
  have ht := b.sweep_taker order
  have hs := spend_sweepLevels b.selfTrade b.market (b.pass (Orderbook.taker order))
    (b.levelsOf order.side.opposite)
  change spend b.selfTrade (Orderbook.taker order) order.qty (b.crossable order) =
    (if (b.sweep (Orderbook.taker order)).err.isSome then none
      else some (b.sweep (Orderbook.taker order)).pass.taker.remaining) at hs
  rw [he] at hs
  have hle := spend_le _ (Orderbook.crossable_nonneg h.sane order) _ _ hs
  refine ⟨by rw [ht], rfl, rfl, by rw [ht]; exact hlimit, hpos, ?_⟩
  have hqty : (b.sweep (Orderbook.taker order)).pass.taker.qty = order.qty := by rw [ht]
  rw [hqty]
  exact hle

/-- Crossing only forgets ids. -/
theorem crossed_byId_le {b : Orderbook} {order : Order} {id : OrderId} {side : Side}
    (h : (b.crossed order).byId id = some side) : b.byId id = some side := by
  obtain ⟨-, -, -, hby, -⟩ := cross_spec b (Orderbook.taker order)
  exact sweepLevels_byId_le b.selfTrade b.market (b.pass (Orderbook.taker order))
    (b.levelsOf order.side.opposite) id side ((congrFun hby id).symm.trans h)

/-- A step with a fresh id keeps the invariant unless the order is accepted and strands. -/
theorem submit_repInv {b : Orderbook} (h : b.RepInv) {order : Order}
    {tracker : PositionTracker} (hfresh : ∀ side, order.id ∉ b.ids side)
    (hns : ¬ (b.admission order tracker = none ∧ b.Strands order)) :
    ((b.submit order tracker).2).RepInv := by
  apply Orderbook.submit_invariant h
  · intro hadm
    exact crossed_repInv h (fun hst => hns ⟨hadm, hst⟩)
  · intro hc hlimit he hpos
    obtain ⟨hid, hrests⟩ := sweep_taker_restsAt h hlimit he hpos
    refine rest_repInv hc ?_ hrests
    intro side hmem
    rw [hid] at hmem
    -- the id would have been on the book before
    have hcid : (b.crossed order).byId order.id = some side := (hc.byId_iff _ _).mpr hmem
    exact hfresh side ((h.byId_iff _ _).mp (crossed_byId_le hcid))

/-- A stranding order leaves an order with nothing left on the book. -/
theorem submit_strands {b : Orderbook} (h : b.Sane) {order : Order}
    {tracker : PositionTracker} (hadm : b.admission order tracker = none)
    (hst : b.Strands order) : ¬ ((b.submit order tracker).2).RepInv := by
  obtain ⟨he, l, hl, o, ho, hz⟩ := sweepLevels_strands b.market (b.pass (Orderbook.taker order))
    (b.levelsOf order.side.opposite) (h order.side.opposite) hst.2
  rw [← hst.1] at he hl
  change (b.sweep (Orderbook.taker order)).err.isSome at he
  obtain ⟨-, -, -, -, -, hopp, -⟩ := cross_spec b (Orderbook.taker order)
  change (b.crossed order).levelsOf order.side.opposite = _ at hopp
  have hr : (b.submit order tracker).2 = b.crossed order := by
    rcases Orderbook.submit_cases b order tracker with
      ⟨e, ha, -⟩ | ⟨-, ⟨e, -, hr⟩ | ⟨hn, -⟩⟩
    · simp [hadm] at ha
    · rw [hr]
    · simp [hn] at he
  intro hinv
  rw [hr] at hinv
  have hpos := (hinv.rests order.side.opposite l (by rw [hopp]; exact hl) o ho).pos
  rw [hz] at hpos
  exact lt_irrefl _ hpos

/-- Ids on the book after a step were there before or were just submitted. -/
theorem step_ids_subset {b : Orderbook} (h : b.RepInv) {c : Cmd} (hc : (step b c).RepInv)
    {id : OrderId} {side : Side} (hid : id ∈ (step b c).ids side) :
    (∃ side, id ∈ b.ids side) ∨ c.submitId = some id := by
  have hby := (hc.byId_iff id side).mpr hid
  cases c with
  | cancel x =>
    left
    cases hx : b.byId x with
    | none =>
      change ((b.cancel x).2).byId id = some side at hby
      rw [Orderbook.cancel_unknown hx] at hby
      exact ⟨side, (h.byId_iff _ _).mp hby⟩
    | some s =>
      change ((b.cancel x).2).byId id = some side at hby
      rw [Orderbook.cancel_byId hx] at hby
      by_cases he : id = x
      · simp [he] at hby
      · rw [Function.update_of_ne he] at hby
        exact ⟨side, (h.byId_iff _ _).mp hby⟩
  | submit order tracker =>
    revert hby
    apply Orderbook.submit_invariant (P := fun b' => b'.byId id = some side →
      (∃ side, id ∈ b.ids side) ∨ (Cmd.submit order tracker).submitId = some id)
    · intro hb
      exact Or.inl ⟨side, (h.byId_iff _ _).mp hb⟩
    · intro _ hb
      exact Or.inl ⟨side, (h.byId_iff _ _).mp (crossed_byId_le hb)⟩
    · intro hcrossed hlimit he hpos hb
      have ht := (sweep_taker_restsAt h hlimit he hpos).1
      rw [Orderbook.rest_byId, ht] at hb
      by_cases hx : id = order.id
      · exact Or.inr (by simp [Cmd.submitId, hx])
      · rw [Function.update_of_ne hx] at hb
        exact hcrossed hb

/-- A command keeps the invariant unless it is a stranding order. -/
def Cmd.Clears (b : Orderbook) : Cmd → Prop
  | .submit order tracker => ¬ (b.admission order tracker = none ∧ b.Strands order)
  | .cancel _ => True

theorem step_repInv {b : Orderbook} (h : b.RepInv) {c : Cmd} (hc : c.Clears b)
    (hfresh : ∀ id, c.submitId = some id → ∀ side, id ∉ b.ids side) : (step b c).RepInv := by
  cases c with
  | submit order tracker => exact submit_repInv h (hfresh order.id rfl) hc
  | cancel id => exact cancel_repInv h id

/-- Along a run on rationals without repeated ids, the invariant holds in every state reached if
and only if no accepted order of the run strands makers in the state it meets. -/
theorem repInv_along_iff (market : MarketId) (mode : SelfTradeMode) (cmds : List Cmd)
    (hids : (cmds.filterMap Cmd.submitId).Nodup) :
    (∀ pre, pre <+: cmds → (run (start market mode) pre).RepInv) ↔
      ∀ (pre : List Cmd) (c : Cmd), pre++[c] <+: cmds → c.Clears (run (start market mode) pre) := by
  constructor
  · intro hall pre c hpre
    cases c with
    | cancel id => trivial
    | submit order tracker =>
      rintro ⟨hadm, hst⟩
      refine submit_strands (run_sane market mode pre) hadm hst ?_
      have h := hall _ hpre
      rw [run_append] at h
      exact h
  · intro hall
    -- along the run, the ids on the book are among those submitted so far
    have key : ∀ pre, pre <+: cmds → (run (start market mode) pre).RepInv ∧
        ∀ side, ∀ id ∈ (run (start market mode) pre).ids side,
          id ∈ pre.filterMap Cmd.submitId := by
      intro pre
      induction pre using List.reverseRecOn with
      | nil =>
        intro _
        refine ⟨start_repInv market mode, ?_⟩
        intro side id hid
        have hby := ((start_repInv market mode).byId_iff id side).mpr hid
        simp at hby
      | append_singleton pre c ih =>
        intro hpre
        obtain ⟨hinv, hsub⟩ := ih ((List.prefix_append pre [c]).trans hpre)
        have hnew : (step (run (start market mode) pre) c).RepInv := by
          refine step_repInv hinv (hall pre c hpre) ?_
          intro id hid side hmem
          obtain ⟨post, rfl⟩ := hpre
          rw [List.filterMap_append, List.filterMap_append] at hids
          have hd := (List.nodup_append.mp (List.nodup_append.mp hids).1).2.2
          exact hd id (hsub side id hmem) id (by simp [hid]) rfl
        rw [run_append]
        refine ⟨hnew, ?_⟩
        intro side id hid
        rw [List.filterMap_append, List.mem_append]
        rcases step_ids_subset hinv hnew hid with ⟨side, h⟩ | h
        · exact Or.inl (hsub side id h)
        · exact Or.inr (by simp [h])
    exact fun pre hpre => (key pre hpre).1

/-- Along a run without repeated ids whose amounts are of one scale, the invariant holds in every
state reached if and only if no accepted order of the run strands makers in the state it meets. -/
theorem run_repInv_iff {round : ℚ → ℚ} (hround : rustDecimal.IsRounding round) (market : MarketId)
    (mode : SelfTradeMode) (cmds : List Cmd) (hids : (cmds.filterMap Cmd.submitId).Nodup)
    (hexact : Decimal.ExactRun round (start market mode) cmds) :
    (∀ pre, pre <+: cmds → (Decimal.run round (start market mode) pre).RepInv) ↔
      ∀ (pre : List Cmd) (c : Cmd), pre++[c] <+: cmds →
        c.Clears (Decimal.run round (start market mode) pre) := by
  have hstates : (∀ pre, pre <+: cmds → (Decimal.run round (start market mode) pre).RepInv) ↔
      ∀ pre, pre <+: cmds → (run (start market mode) pre).RepInv :=
    forall₂_congr fun pre hpre => by rw [hexact.run_eq_of_prefix hround hpre]
  rw [hstates, repInv_along_iff market mode cmds hids]
  exact forall₃_congr fun pre c hpre => by rw [hexact.meets hround hpre]

/-- The hypotheses are met by a run that rests an ask and lifts it with a bid. -/
theorem run_repInv_ask_then_buy :
    let cmds : List Cmd := [.submit restingAsk .new, .submit marketBuy .new]
    (cmds.filterMap Cmd.submitId).Nodup ∧
      ((∀ pre, pre <+: cmds →
          (Decimal.run rustDecimal.halfEven (start 0 .cancelNewest) pre).RepInv) ↔
        ∀ (pre : List Cmd) (c : Cmd), pre++[c] <+: cmds →
          c.Clears (Decimal.run rustDecimal.halfEven (start 0 .cancelNewest) pre)) :=
  ⟨by decide, run_repInv_iff rustDecimal.halfEven_isRounding 0 .cancelNewest _ (by decide)
    exactRun_ask_then_buy⟩

/-- User 2 rests behind user 1 at the same price and then buys through both. -/
def ownAskBehind : Order := ⟨2, 2, 0, .sell, .limit, 100, 1, 1, .gtc, false, false, 1⟩

def ownBuy : Order := ⟨3, 2, 0, .buy, .limit, 100, 2, 2, .gtc, false, false, 2⟩

/-- Three distinct ids suffice: the taker is rejected at its own order, and the maker ahead
of it stays in the queue with nothing left and without an entry in the id map. -/
theorem self_trade_strands_maker :
    let cmds : List Cmd :=
      [.submit restingAsk .new, .submit ownAskBehind .new, .submit ownBuy .new]
    (cmds.filterMap Cmd.submitId).Nodup ∧
      ¬ (Decimal.run rustDecimal.halfEven (start 0 .cancelNewest) cmds).RepInv := by
  refine ⟨by decide, fun h => ?_⟩
  have hlev : (100,[{ restingAsk with remaining := 0 }, ownAskBehind]) ∈
      (Decimal.run rustDecimal.halfEven (start 0 .cancelNewest) [.submit restingAsk .new,
        .submit ownAskBehind .new, .submit ownBuy .new]).levelsOf .sell := by decide +kernel
  exact lt_irrefl _ (h.rests .sell _ hlev { restingAsk with remaining := 0 } (by simp)).pos

end Perplex.Book
