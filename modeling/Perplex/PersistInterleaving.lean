import Mathlib.Tactic.FinCases
import Perplex.EdgeNames
import Perplex.PersistRoundTrip

/-! The tables behind calls that run side by side. A mutator changes memory in one section and
queues its event in another, so memory and the channel may see two calls in different orders.
As long as a section that would leave the two apart is followed by one that brings them together
again, the tables hold what memory holds once all calls have returned. -/
namespace Perplex.Edge

/-- The balances, positions and open orders that the events so far amount to. -/
structure Told where
  vault : Address → Option ℚ
  positions : Address → List PositionInfo
  orders : Address → List OpenOrder

namespace Told

/-- What memory holds. -/
def of (d : DurableState) : Told := ⟨d.vault, d.state.positions, d.state.openOrders⟩

/-- One more event, an order that is upserted being a new one. -/
def tell (t : Told) : PersistEvent → Told
  | .upsertOrder address order =>
    { t with orders := Function.update t.orders address (t.orders address++[order]) }
  | .deleteOrder id => { t with orders := fun a => (t.orders a).filter fun o => o.id ≠ id }
  | .syncOrders address orders => { t with orders := Function.update t.orders address orders }
  | .syncPositions address positions =>
    { t with positions := Function.update t.positions address positions }
  | .upsertVault address amount =>
    { t with vault := Function.update t.vault address (some amount) }
  | .insertFill _ _ => t
  | .insertTrade _ => t

/-- All events of a channel that was empty when memory held `d`. -/
def after (d : DurableState) (sent : List PersistEvent) : Told := sent.foldl tell (of d)

theorem after_append (d : DurableState) (sent : List PersistEvent) (e : PersistEvent) :
    after d (sent++[e]) = (after d sent).tell e := by
  simp [after]

/-- The tables hold what the events say. -/
structure Holds (db : Db) (t : Told) : Prop where
  orders : HoldsLists OrderRow.id OrderRow.address OrderRow.order db.openOrders t.orders
  positions : HoldsLists PositionRow.key PositionRow.address PositionRow.position db.positions
    t.positions
  vault : HoldsValues VaultRow.address VaultRow.amount db.vaultBalances t.vault

/-- The order of an upsert is on no book. -/
def Fresh (t : Told) : PersistEvent → Prop
  | .upsertOrder _ order => ∀ a, ∀ o ∈ t.orders a, o.id ≠ order.id
  | _ => True

theorem Holds.apply {db db' : Db} {t : Told} (h : Holds db t) {e : PersistEvent}
    (hfresh : t.Fresh e) (hdb : db.apply e = some db') : Holds db' (t.tell e) := by
  cases e with
  | upsertOrder address order =>
    have hnew : (order.row address).id ∉ db.openOrders.map OrderRow.id := by
      intro hmem
      obtain ⟨r, hr, he⟩ := List.mem_map.mp hmem
      have ho : r.order ∈ t.orders r.address :=
        (h.orders.read r.address).mem_iff.mp ((mem_grouped _ _).mpr ⟨r, hr, rfl, rfl⟩)
      exact hfresh r.address r.order ho he
    simp only [Db.apply, Option.some.injEq] at hdb
    rw [insertOrUpdate_of_fresh hnew] at hdb
    subst hdb
    exact { h with orders := h.orders.push hnew }
  | deleteOrder id =>
    simp only [Db.apply, Option.some.injEq] at hdb
    subst hdb
    exact { h with orders := holdsLists_deleteOrder h.orders id }
  | syncOrders address orders =>
    simp only [Db.apply, Option.map_eq_some_iff] at hdb
    obtain ⟨rows, hrows, rfl⟩ := hdb
    have hnew := h.orders.replace (f := OpenOrder.row address) (fun _ => rfl) (fun _ => rfl) hrows
    exact { h with orders := hnew }
  | insertFill address fill =>
    simp only [Db.apply, Option.some.injEq] at hdb
    subst hdb
    exact ⟨h.orders, h.positions, h.vault⟩
  | syncPositions address positions =>
    simp only [Db.apply, Option.map_eq_some_iff] at hdb
    obtain ⟨rows, hrows, rfl⟩ := hdb
    have hnew := h.positions.replace (f := PositionInfo.row address) (fun _ => rfl)
      (fun _ => rfl) hrows
    exact { h with positions := hnew }
  | upsertVault address amount =>
    simp only [Db.apply, Option.some.injEq] at hdb
    subst hdb
    have hnew := h.vault.put (r := ⟨address, amount⟩) (u := fun r => { r with amount })
      (fun _ => rfl) (fun _ => rfl)
    exact { h with vault := hnew }
  | insertTrade trade =>
    simp only [Db.apply, Option.some.injEq] at hdb
    subst hdb
    exact ⟨h.orders, h.positions, h.vault⟩

theorem tell_orders_of_not_isOrder {e : PersistEvent} (h : e.isOrder = false) (t : Told) :
    (t.tell e).orders = t.orders := by
  cases e with
  | upsertOrder => simp [PersistEvent.isOrder] at h
  | deleteOrder => simp [PersistEvent.isOrder] at h
  | syncOrders => simp [PersistEvent.isOrder] at h
  | _ => rfl

end Told

section Orders
variable {ι : Type}

/-- A call of `match_taker` has still to queue the orders of the account. -/
def Section.owesOrders (a : Address) : Section → Prop
  | .share filled => a ∈ seen filled
  | .queueOrders b => b = a
  | _ => False

/-- What the events say of an account is what memory holds, together with the orders that are
announced and not yet on the book, and those that are off it and not yet deleted. -/
structure OrdersInStep (t : Address → List OpenOrder) (c : Pool ι Section (Shared ι))
    (a : Address) : Prop where
  booked : ∀ o ∈ c.shared.state.openOrders a, o ∈ t a
  announced : ∀ j env o, Section.pushOrder env a o ∈ c.pending j → o ∈ t a
  known : ∀ o ∈ t a, o ∈ c.shared.state.openOrders a ∨
    (∃ j env, Section.pushOrder env a o ∈ c.pending j) ∨
    ∃ j, Section.queueDelete o.id ∈ c.pending j

/-- The invariant of the open orders. -/
structure OrdersTold (t : Address → List OpenOrder) (c : Pool ι Section (Shared ι)) : Prop where
  named : Named c
  unannounced : ∀ i env a o, Section.call (.addOpenOrder env a o) ∈ c.pending i →
    ∀ b, ∀ x ∈ t b, x.id ≠ o.id
  gone : ∀ j id, Section.queueDelete id ∈ c.pending j → ¬ Coming c id ∧
    ∀ a, ∀ o ∈ c.shared.state.openOrders a, o.id ≠ id
  inStep : ∀ a, c.Awaits (Section.owesOrders a) ∨ OrdersInStep t c a

/-- The order of an account is announced and not yet on the book. -/
def Announced (c : Pool ι Section (Shared ι)) (a : Address) : Prop :=
  c.Awaits fun w => ∃ env o, w = .pushOrder env a o

/-- The orders of an account are queued when none is announced, and a market is matched when
none of its orders is spent, unless another call queues the account later on. -/
def OrdersInOrder (c : Pool ι Section (Shared ι)) (i : ι) : Section → Prop
  | .queueOrders a => ¬ Announced c a ∨ c.AwaitsBeside i (Section.owesOrders a)
  | .fill _ marketId _ _ => ∀ a,
    (∃ o ∈ c.shared.state.openOrders a, o.marketId = marketId ∧ o.remaining = 0) →
      c.AwaitsBeside i (Section.owesOrders a)
  | _ => True

section Step
variable {t t' : Address → List OpenOrder} {c : Pool ι Section (Shared ι)} {i : ι} {w : Section}
  {ws new : List Section} {s : Shared ι} [DecidableEq ι]

/-- A section that neither pushes nor deletes, of an account that it leaves alone. -/
theorem OrdersInStep.keep {a : Address} (h : OrdersInStep t c a) (hp : c.pending i = w :: ws)
    (ht : t' a = t a) (hbook : s.state.openOrders a = c.shared.state.openOrders a)
    (hpush : ∀ env o, w ≠ .pushOrder env a o) (hdelete : ∀ id, w ≠ .queueDelete id)
    (hnew : ∀ env o, Section.pushOrder env a o ∉ new) :
    OrdersInStep t' ⟨s, Function.update c.pending i (new++ws)⟩ a where
  booked := by
    rw [ht]
    dsimp only
    rw [hbook]
    exact h.booked
  announced := by
    intro j env o hj
    rw [ht]
    rcases Pool.mem_pending_update hp hj with hold | ⟨-, hin⟩
    · exact h.announced j env o hold
    · exact absurd hin (hnew env o)
  known := by
    intro o ho
    rw [ht] at ho
    dsimp only
    rw [hbook]
    rcases h.known o ho with hb | ⟨j, env, hj⟩ | ⟨j, hj⟩
    · exact Or.inl hb
    · exact Or.inr (Or.inl ⟨j, env, Pool.mem_pending_of_ne new hp hj fun _ =>
        (hpush env o).symm⟩)
    · exact Or.inr (Or.inr ⟨j, Pool.mem_pending_of_ne new hp hj fun _ => (hdelete o.id).symm⟩)

/-- Deletions that are still to be queued are of orders that are gone for good. -/
theorem gone_step {id : ℕ} (hp : c.pending i = w :: ws)
    (hadds : (new.flatMap Section.adds).Sublist w.adds)
    (hbook : ∀ a, ∀ o ∈ s.state.openOrders a, o.id = id →
      ∃ o₀ ∈ c.shared.state.openOrders a, o₀.id = id)
    (hgone : ¬ Coming c id ∧ ∀ a, ∀ o ∈ c.shared.state.openOrders a, o.id ≠ id) :
    ¬ Coming ⟨s, Function.update c.pending i (new++ws)⟩ id ∧
      ∀ a, ∀ o ∈ s.state.openOrders a, o.id ≠ id := by
  refine ⟨fun hcome => hgone.1 (coming_of_step hp hadds hcome), ?_⟩
  intro a o ho he
  obtain ⟨o₀, ho₀, he₀⟩ := hbook a o ho he
  exact hgone.2 a o₀ ho₀ he₀

/-- The books and the events are as they were, and no order is announced or taken off. -/
theorem OrdersTold.quiet (h : OrdersTold t c) (hp : c.pending i = w :: ws)
    (hs : OrderStep i c.shared w s new)
    (hbook : s.state.openOrders = c.shared.state.openOrders)
    (howes : ∀ a, w.owesOrders a → ∃ x ∈ new, x.owesOrders a)
    (hpush : ∀ env a o, w ≠ .pushOrder env a o) (hdelete : ∀ id, w ≠ .queueDelete id)
    (hnew : ∀ x ∈ new, (∀ env a o, x ≠ .pushOrder env a o) ∧ ∀ id, x ≠ .queueDelete id) :
    OrdersTold t ⟨s, Function.update c.pending i (new++ws)⟩ where
  named := h.named.step hp hs
  unannounced := fun j env a o hj => h.unannounced j env a o (hs.call_of_mem hp rfl hj)
  gone := by
    intro j id hj
    rcases Pool.mem_pending_update hp hj with hold | ⟨-, hin⟩
    · refine gone_step hp hs.adds_sublist ?_ (h.gone j id hold)
      intro a o ho he
      exact ⟨o, hbook ▸ ho, he⟩
    · exact absurd rfl ((hnew _ hin).2 id)
  inStep := by
    intro a
    rcases h.inStep a with hawait | hstep
    · left
      by_cases hw : w.owesOrders a
      · obtain ⟨x, hx, hx'⟩ := howes a hw
        exact Pool.Awaits.of_new hx hx'
      · exact hawait.keep hp hw
    · right
      refine hstep.keep hp rfl (by rw [hbook]) (fun env o => hpush env a o) hdelete ?_
      intro env o hin
      exact (hnew _ hin).1 env a o rfl

/-- An order is announced. -/
theorem OrdersTold.announce (h : OrdersTold t c) {env : Env} {a : Address} {o : OpenOrder}
    (hp : c.pending i = .call (.addOpenOrder env a o) :: ws) :
    OrdersTold (Function.update t a (t a++[o])) ⟨c.shared.send (.upsertOrder a o),
      Function.update c.pending i ([.pushOrder env a o]++ws)⟩ := by
  have hs : OrderStep i c.shared (.call (.addOpenOrder env a o))
      (c.shared.send (.upsertOrder a o)) [.pushOrder env a o] := .announce env a o
  have hnamed := h.named.step hp hs
  have hhead : (Function.update c.pending i ([.pushOrder env a o]++ws)) i =
      .pushOrder env a o :: ws := Function.update_self ..
  have hin {b : Address} {x : OpenOrder} (hx : x ∈ t b) :
      x ∈ Function.update t a (t a++[o]) b := by
    by_cases hb : b = a
    · subst hb
      rw [Function.update_self]
      exact List.mem_append_left _ hx
    · rwa [Function.update_of_ne hb]
  have hnew : o ∈ Function.update t a (t a++[o]) a := by
    rw [Function.update_self]
    exact List.mem_append_right _ List.mem_cons_self
  have hout {b : Address} {x : OpenOrder} (hx : x ∈ Function.update t a (t a++[o]) b) :
      x ∈ t b ∨ b = a ∧ x = o := by
    by_cases hb : b = a
    · subst hb
      rw [Function.update_self] at hx
      rcases List.mem_append.mp hx with hx | hx
      · exact Or.inl hx
      · exact Or.inr ⟨rfl, List.mem_singleton.mp hx⟩
    · rw [Function.update_of_ne hb] at hx
      exact Or.inl hx
  refine ⟨hnamed, ?_, ?_, ?_⟩
  · intro j env' b o' hj c' x hx he
    rcases hout hx with hx | ⟨rfl, rfl⟩
    · exact h.unannounced j env' b o' (hs.call_of_mem hp rfl hj) c' x hx he
    · -- the id now belongs to the push
      have honly := hnamed.only hhead hj (List.mem_cons_self : x.id ∈ [x.id])
        (by rw [he]; exact List.mem_cons_self)
      simp at honly
  · intro j id hj
    rcases Pool.mem_pending_update hp hj with hold | ⟨-, hin⟩
    · exact gone_step hp hs.adds_sublist (fun b x hx he => ⟨x, hx, he⟩) (h.gone j id hold)
    · simp at hin
  · intro b
    rcases h.inStep b with hawait | hstep
    · exact Or.inl (hawait.keep hp (by simp [Section.owesOrders]))
    · refine Or.inr ⟨fun x hx => hin (hstep.booked x hx), ?_, ?_⟩
      · intro j env' x hj
        rcases Pool.mem_pending_update hp hj with hold | ⟨-, hx⟩
        · exact hin (hstep.announced j env' x hold)
        · obtain ⟨-, rfl, rfl⟩ : env' = env ∧ b = a ∧ x = o := by simpa using hx
          exact hnew
      · intro x hx
        rcases hout hx with hx | ⟨rfl, rfl⟩
        · rcases hstep.known x hx with hb | ⟨j, env', hj⟩ | ⟨j, hj⟩
          · exact Or.inl hb
          · exact Or.inr (Or.inl ⟨j, env', Pool.mem_pending_of_ne _ hp hj (by simp)⟩)
          · exact Or.inr (Or.inr ⟨j, Pool.mem_pending_of_ne _ hp hj (by simp)⟩)
        · exact Or.inr (Or.inl ⟨i, env, Pool.mem_pending_new List.mem_cons_self⟩)

/-- An announced order goes on the book. -/
theorem OrdersTold.push (h : OrdersTold t c) {env : Env} {a : Address} {o : OpenOrder}
    (hp : c.pending i = .pushOrder env a o :: ws) :
    OrdersTold t ⟨c.shared.setOrders a (c.shared.state.openOrders a++[o]),
      Function.update c.pending i ([.readBook env o.marketId]++ws)⟩ := by
  have hs : OrderStep i c.shared (.pushOrder env a o)
      (c.shared.setOrders a (c.shared.state.openOrders a++[o])) [.readBook env o.marketId] :=
    .push env a o
  have hmem : Section.pushOrder env a o ∈ c.pending i := hp ▸ List.mem_cons_self
  have hcoming : Coming c o.id := ⟨i, _, hmem, List.mem_cons_self⟩
  have hstay {b : Address} {x : OpenOrder} (hx : x ∈ c.shared.state.openOrders b) : x ∈
      (c.shared.setOrders a (c.shared.state.openOrders a++[o])).state.openOrders b := by
    by_cases hb : b = a
    · subst hb
      simp only [Shared.setOrders, Function.update_self]
      exact List.mem_append_left _ hx
    · simpa only [Shared.setOrders, Function.update_of_ne hb] using hx
  refine ⟨h.named.step hp hs, ?_, ?_, ?_⟩
  · exact fun j env' b o' hj => h.unannounced j env' b o' (hs.call_of_mem hp rfl hj)
  · intro j id hj
    rcases Pool.mem_pending_update hp hj with hold | ⟨-, hin⟩
    · have hgone := h.gone j id hold
      -- an order whose deletion is owed cannot be one that is still to be pushed
      refine gone_step hp hs.adds_sublist ?_ hgone
      intro b x hx he
      rcases mem_setOrders_push hx with hx | ⟨-, rfl⟩
      · exact ⟨x, hx, he⟩
      · exact absurd (he ▸ hcoming) hgone.1
    · simp at hin
  · intro b
    rcases h.inStep b with hawait | hstep
    · exact Or.inl (hawait.keep hp (by simp [Section.owesOrders]))
    · refine Or.inr ⟨?_, ?_, ?_⟩
      · intro x hx
        rcases mem_setOrders_push hx with hx | ⟨rfl, rfl⟩
        · exact hstep.booked x hx
        · exact hstep.announced i env x hmem
      · intro j env' x hj
        rcases Pool.mem_pending_update hp hj with hold | ⟨-, hx⟩
        · exact hstep.announced j env' x hold
        · simp at hx
      · intro x hx
        rcases hstep.known x hx with hb | ⟨j, env', hj⟩ | ⟨j, hj⟩
        · exact Or.inl (hstay hb)
        · by_cases he : Section.pushOrder env' b x = .pushOrder env a o
          · obtain ⟨-, rfl, rfl⟩ : env' = env ∧ b = a ∧ x = o := by simpa using he
            left
            simp [Shared.setOrders]
          · exact Or.inr (Or.inl ⟨j, env', Pool.mem_pending_of_ne _ hp hj fun _ => he⟩)
        · exact Or.inr (Or.inr ⟨j, Pool.mem_pending_of_ne _ hp hj (by simp)⟩)

/-- An order is taken off the book, and its deletion is still to be queued. -/
theorem OrdersTold.remove (h : OrdersTold t c) {env : Env} {a : Address} {orderId : ℕ}
    {o : OpenOrder}
    (hfind : (c.shared.state.openOrders a).find? (fun o => o.id = orderId) = some o)
    (hp : c.pending i = .call (.cancelOrder env a orderId) :: ws) :
    OrdersTold t ⟨c.shared.setOrders a ((c.shared.state.openOrders a).filter fun o =>
      o.id ≠ orderId), Function.update c.pending i
        ([.queueDelete orderId, .readBook env o.marketId]++ws)⟩ := by
  have hs : OrderStep i c.shared (.call (.cancelOrder env a orderId))
      (c.shared.setOrders a ((c.shared.state.openOrders a).filter fun o => o.id ≠ orderId))
      [.queueDelete orderId, .readBook env o.marketId] := .remove env a orderId o hfind
  have ho : o ∈ c.shared.state.openOrders a := List.mem_of_find?_eq_some hfind
  have hid : o.id = orderId := by simpa using List.find?_some hfind
  have hstay {b : Address} {x : OpenOrder} (hx : x ∈ c.shared.state.openOrders b)
      (hne : x.id ≠ orderId) : x ∈ (c.shared.setOrders a ((c.shared.state.openOrders a).filter
        fun o => o.id ≠ orderId)).state.openOrders b := by
    by_cases hb : b = a
    · subst hb
      simpa [Shared.setOrders, hne] using hx
    · simpa only [Shared.setOrders, Function.update_of_ne hb] using hx
  refine ⟨h.named.step hp hs, ?_, ?_, ?_⟩
  · exact fun j env' b o' hj => h.unannounced j env' b o' (hs.call_of_mem hp rfl hj)
  · intro j id hj
    rcases Pool.mem_pending_update hp hj with hold | ⟨-, hin⟩
    · refine gone_step hp hs.adds_sublist ?_ (h.gone j id hold)
      exact fun b x hx he => ⟨x, mem_of_mem_setOrders_filter hx, he⟩
    · -- the order was on one book, and on that one only
      obtain rfl : id = orderId := by simpa using hin
      refine ⟨?_, ?_⟩
      · intro hcome
        exact h.named.fresh id (coming_of_step hp hs.adds_sublist hcome) a o ho hid
      · intro b x hx he
        obtain rfl := h.named.owner b a x (mem_of_mem_setOrders_filter hx) o ho
          (he.trans hid.symm)
        simp [Shared.setOrders, he] at hx
  · intro b
    rcases h.inStep b with hawait | hstep
    · exact Or.inl (hawait.keep hp (by simp [Section.owesOrders]))
    · refine Or.inr ⟨fun x hx => hstep.booked x (mem_of_mem_setOrders_filter hx), ?_, ?_⟩
      · intro j env' x hj
        rcases Pool.mem_pending_update hp hj with hold | ⟨-, hx⟩
        · exact hstep.announced j env' x hold
        · simp at hx
      · intro x hx
        rcases hstep.known x hx with hb | ⟨j, env', hj⟩ | ⟨j, hj⟩
        · by_cases hne : x.id = orderId
          · rw [hne]
            exact Or.inr (Or.inr ⟨i, Pool.mem_pending_new List.mem_cons_self⟩)
          · exact Or.inl (hstay hb hne)
        · exact Or.inr (Or.inl ⟨j, env', Pool.mem_pending_of_ne _ hp hj (by simp)⟩)
        · exact Or.inr (Or.inr ⟨j, Pool.mem_pending_of_ne _ hp hj (by simp)⟩)

/-- The deletion of an order is queued. -/
theorem OrdersTold.queueDelete (h : OrdersTold t c) {id : ℕ}
    (hp : c.pending i = .queueDelete id :: ws) :
    OrdersTold (fun a => (t a).filter fun o => o.id ≠ id)
      ⟨c.shared.send (.deleteOrder id), Function.update c.pending i ([]++ws)⟩ := by
  have hs : OrderStep i c.shared (.queueDelete id) (c.shared.send (.deleteOrder id)) [] :=
    .queueDelete id
  have hgone := h.gone i id (hp ▸ List.mem_cons_self)
  have hin {b : Address} {x : OpenOrder} (hx : x ∈ t b) (hne : x.id ≠ id) :
      x ∈ (t b).filter fun o => o.id ≠ id := List.mem_filter.mpr ⟨hx, by simpa using hne⟩
  refine ⟨h.named.step hp hs, ?_, ?_, ?_⟩
  · intro j env a o hj b x hx
    exact h.unannounced j env a o (hs.call_of_mem hp rfl hj) b x (List.mem_filter.mp hx).1
  · intro j id' hj
    rcases Pool.mem_pending_update hp hj with hold | ⟨-, hnew⟩
    · exact gone_step hp hs.adds_sublist (fun b x hx he => ⟨x, hx, he⟩) (h.gone j id' hold)
    · simp at hnew
  · intro b
    rcases h.inStep b with hawait | hstep
    · exact Or.inl (hawait.keep hp (by simp [Section.owesOrders]))
    · refine Or.inr ⟨fun x hx => hin (hstep.booked x hx) (hgone.2 b x hx), ?_, ?_⟩
      · intro j env x hj
        rcases Pool.mem_pending_update hp hj with hold | ⟨-, hnew⟩
        · refine hin (hstep.announced j env x hold) ?_
          rintro rfl
          exact hgone.1 ⟨j, _, hold, List.mem_cons_self⟩
        · simp at hnew
      · intro x hx
        obtain ⟨hx, hne⟩ := List.mem_filter.mp hx
        have hne : x.id ≠ id := by simpa using hne
        rcases hstep.known x hx with hb | ⟨j, env, hj⟩ | ⟨j, hj⟩
        · exact Or.inl hb
        · exact Or.inr (Or.inl ⟨j, env, Pool.mem_pending_of_ne _ hp hj (by simp)⟩)
        · exact Or.inr (Or.inr ⟨j, Pool.mem_pending_of_ne _ hp hj (by simp [hne])⟩)

omit [DecidableEq ι] in
/-- An account that a taker has not drawn from keeps its orders, unless some are spent. -/
theorem fillSection_of_not_seen {st : AppState} {env : Env} {marketId : String} {takerQty : ℚ}
    {cs : List Candidate} {a : Address}
    (ha : a ∉ seen (st.fillSection env marketId takerQty cs).1)
    (hspent : ¬ ∃ o ∈ st.openOrders a, o.marketId = marketId ∧ o.remaining = 0) :
    (st.fillSection env marketId takerQty cs).2.openOrders a = st.openOrders a := by
  have hnone : ∀ m ∈ (matchLoop env.now st.openOrders takerQty cs).1, m.makerAddress ≠ a :=
    fun m hm he => ha (mem_seen.mpr ⟨m, hm, he⟩)
  change reap marketId ((matchLoop env.now st.openOrders takerQty cs).2 a) = _
  rw [matchLoop_of_not_filled _ _ _ _ hnone]
  apply List.filter_eq_self.mpr
  intro o ho
  by_contra hout
  simp only [decide_eq_true_eq, not_or, not_not] at hout
  exact hspent ⟨o, ho, hout⟩

/-- A taker has still to queue the accounts that it has drawn from. -/
theorem OrdersTold.fill (h : OrdersTold t c) {env : Env} {marketId : String} {takerQty : ℚ}
    {cs : List Candidate} (hp : c.pending i = .fill env marketId takerQty cs :: ws)
    (hord : OrdersInOrder c i (.fill env marketId takerQty cs)) :
    OrdersTold t ⟨{ c.shared with
        state := (c.shared.state.fillSection env marketId takerQty cs).2
        matched := c.shared.matched++(c.shared.state.fillSection env marketId takerQty cs).1.map
          fun m => (i,m) },
      Function.update c.pending i ([.readBook env marketId,
        .share (c.shared.state.fillSection env marketId takerQty cs).1]++ws)⟩ := by
  have hs : OrderStep i c.shared (.fill env marketId takerQty cs) _ _ :=
    .fill env marketId takerQty cs
  refine ⟨h.named.step hp hs, ?_, ?_, ?_⟩
  · exact fun j env' b o' hj => h.unannounced j env' b o' (hs.call_of_mem hp rfl hj)
  · intro j id hj
    rcases Pool.mem_pending_update hp hj with hold | ⟨-, hnew⟩
    · refine gone_step hp hs.adds_sublist ?_ (h.gone j id hold)
      intro b x hx he
      obtain ⟨y, hy, hst⟩ := exists_of_mem_fillSection hx
      exact ⟨y, hy, (id_eq_of_static hst).trans he⟩
    · simp at hnew
  · intro b
    by_cases hb : b ∈ seen (c.shared.state.fillSection env marketId takerQty cs).1
    · exact Or.inl (Pool.Awaits.of_new (List.mem_cons_of_mem _ List.mem_cons_self) hb)
    by_cases hspent : ∃ o ∈ c.shared.state.openOrders b, o.marketId = marketId ∧ o.remaining = 0
    · exact Or.inl ((hord b hspent).keep hp)
    rcases h.inStep b with hawait | hstep
    · exact Or.inl (hawait.keep hp (by simp [Section.owesOrders]))
    · right
      exact hstep.keep hp rfl (fillSection_of_not_seen hb hspent) (by simp) (by simp) (by simp)

/-- The orders of an account are queued as they are. -/
theorem OrdersTold.queueOrders (h : OrdersTold t c) {a : Address}
    (hp : c.pending i = .queueOrders a :: ws) (hord : OrdersInOrder c i (.queueOrders a)) :
    OrdersTold (Function.update t a (c.shared.state.openOrders a))
      ⟨c.shared.send (.syncOrders a (c.shared.state.openOrders a)),
        Function.update c.pending i ([]++ws)⟩ := by
  have hs : OrderStep i c.shared (.queueOrders a)
      (c.shared.send (.syncOrders a (c.shared.state.openOrders a))) [] := .queueOrders a
  refine ⟨h.named.step hp hs, ?_, ?_, ?_⟩
  · intro j env b o hj b' x hx
    have hcall := hs.call_of_mem hp rfl hj
    by_cases hb : b' = a
    · subst hb
      rw [Function.update_self] at hx
      exact h.named.fresh o.id ⟨j, _, hcall, List.mem_cons_self⟩ b' x hx
    · rw [Function.update_of_ne hb] at hx
      exact h.unannounced j env b o hcall b' x hx
  · intro j id hj
    rcases Pool.mem_pending_update hp hj with hold | ⟨-, hnew⟩
    · exact gone_step hp hs.adds_sublist (fun b x hx he => ⟨x, hx, he⟩) (h.gone j id hold)
    · simp at hnew
  · intro b
    by_cases hb : b = a
    · subst hb
      rcases hord with hnone | hawait
      · refine Or.inr ⟨?_, ?_, ?_⟩
        · intro x hx
          rw [Function.update_self]
          exact hx
        · intro j env x hj
          rcases Pool.mem_pending_update hp hj with hold | ⟨-, hnew⟩
          · exact absurd ⟨j, _, hold, env, x, rfl⟩ hnone
          · simp at hnew
        · intro x hx
          rw [Function.update_self] at hx
          exact Or.inl hx
      · exact Or.inl (hawait.keep hp)
    · rcases h.inStep b with hawait | hstep
      · exact Or.inl (hawait.keep hp (by simpa [Section.owesOrders] using Ne.symm hb))
      · right
        exact hstep.keep hp (Function.update_of_ne hb _ _) rfl (by simp) (by simp) (by simp)

theorem OrdersTold.step {d : DurableState}
    (h : OrdersTold (Told.after d c.shared.sent).orders c) (hp : c.pending i = w :: ws)
    (hord : OrdersInOrder c i w) (hs : OrderStep i c.shared w s new) :
    OrdersTold (Told.after d s.sent).orders ⟨s, Function.update c.pending i (new++ws)⟩ := by
  cases hs with
  | announce env address order =>
    have hstep := h.announce hp
    change OrdersTold (Told.after d (c.shared.sent++[_])).orders _
    rw [Told.after_append]
    exact hstep
  | push env address order => exact h.push hp
  | remove env address orderId o hfind => exact h.remove hfind hp
  | absent env address orderId hfind =>
    -- nothing is filtered out
    refine h.quiet hp (.absent env address orderId hfind) ?_ (by simp [Section.owesOrders])
      (by simp) (by simp) (by simp)
    have hall : (c.shared.state.openOrders address).filter (fun o => o.id ≠ orderId) =
        c.shared.state.openOrders address := by
      apply List.filter_eq_self.mpr
      intro o ho
      simpa using List.find?_eq_none.mp hfind o ho
    simp only [Shared.setOrders, hall, Function.update_eq_self]
  | queueDelete id =>
    have hstep := h.queueDelete hp
    change OrdersTold (Told.after d (c.shared.sent++[_])).orders _
    rw [Told.after_append]
    exact hstep
  | collect env marketId takerSide takerPrice takerQty taker =>
    exact h.quiet hp (.collect env marketId takerSide takerPrice takerQty taker) rfl
      (by simp [Section.owesOrders]) (by simp) (by simp) (by simp)
  | fill env marketId takerQty cs => exact h.fill hp hord
  | share filled readers tail htail =>
    refine h.quiet hp (.share filled readers tail htail) rfl ?_ (by simp) (by simp) ?_
    · intro a ha
      exact ⟨.queueOrders a, List.mem_append_left _ (List.mem_map_of_mem ha), rfl⟩
    · intro x hx
      rcases List.mem_append.mp hx with hx | hx
      · obtain ⟨a, -, rfl⟩ := List.mem_map.mp hx
        simp
      · rcases htail with rfl | rfl
        · simp at hx
        · rw [List.mem_singleton.mp hx]
          simp
  | queueOrders address =>
    have hstep := h.queueOrders hp hord
    change OrdersTold (Told.after d (c.shared.sent++[_])).orders _
    rw [Told.after_append]
    exact hstep
  | readBook env marketId =>
    exact h.quiet hp (.readBook env marketId) rfl (by simp [Section.owesOrders]) (by simp)
      (by simp) (by simp)
  | storeBook marketId levels =>
    exact h.quiet hp (.storeBook marketId levels) rfl (by simp [Section.owesOrders]) (by simp)
      (by simp) (by simp)
  | other hw horders hbooks hmatched hsent hnew =>
    have htold : (Told.after d s.sent).orders = (Told.after d c.shared.sent).orders := by
      rcases hsent with he | ⟨e, he, hsent⟩
      · rw [he]
      · rw [hsent, Told.after_append, Told.tell_orders_of_not_isOrder he]
    rw [htold]
    refine h.quiet hp (.other hw horders hbooks hmatched hsent hnew) horders ?_ ?_ ?_ ?_
    · intro a ha
      unfold Section.owesOrders at ha
      unfold Section.isOrder at hw
      split at ha <;> simp_all
    · rintro env a o rfl
      simp [Section.isOrder] at hw
    · rintro id rfl
      simp [Section.isOrder] at hw
    · intro x hx
      have hx' := hnew x hx
      constructor
      · rintro env a o rfl
        simp [Section.isOrder] at hx'
      · rintro id rfl
        simp [Section.isOrder] at hx'

end Step

end Orders

section Accounts
variable {ι : Type}

/-- The section makes `mem` and `told`, the balance in memory and the one last queued, equal. -/
def Section.settlesVault (a : Address) (told mem : Option ℚ) : Section → Prop
  | .writeVault b v => b = a ∧ told = some v
  | .queueVault b v => b = a ∧ mem = some v
  | _ => False

/-- The section makes the positions in memory and those last queued equal, or leads to one that
does. -/
def Section.settlesPositions (a : Address) (told mem : List PositionInfo) : Section → Prop
  | .writePositions b ps => b = a ∧ ps = told
  | .copyPositions b => b = a
  | .queuePositions b ps => b = a ∧ ps = mem
  | _ => False

/-- Memory and the events agree on every account, or some call makes them agree. -/
structure AccountsTold (t : Told) (c : Pool ι Section (Shared ι)) : Prop where
  vault : ∀ a, t.vault a = c.shared.vault a ∨
    c.Awaits (Section.settlesVault a (t.vault a) (c.shared.vault a))
  positions : ∀ a, t.positions a = c.shared.state.positions a ∨
    c.Awaits (Section.settlesPositions a (t.positions a) (c.shared.state.positions a))

/-- A second half is run only if memory and the events agree after it, or if another call makes
them agree. -/
def AccountsInOrder (t : Told) (c : Pool ι Section (Shared ι)) (i : ι) : Section → Prop
  | .writeVault a v => t.vault a = some v ∨
    c.AwaitsBeside i (Section.settlesVault a (t.vault a) (some v))
  | .queueVault a v => some v = c.shared.vault a ∨
    c.AwaitsBeside i (Section.settlesVault a (some v) (c.shared.vault a))
  | .writePositions a ps => t.positions a = ps ∨
    c.AwaitsBeside i (Section.settlesPositions a (t.positions a) ps)
  | .queuePositions a ps => ps = c.shared.state.positions a ∨
    c.AwaitsBeside i (Section.settlesPositions a ps (c.shared.state.positions a))
  | _ => True

theorem Section.isHalf_of_settlesVault {a : Address} {told mem : Option ℚ} {w : Section}
    (h : w.settlesVault a told mem) : w.isHalf = true := by
  unfold settlesVault at h
  split at h
  · rfl
  · rfl
  · exact h.elim

theorem Section.isHalf_of_settlesPositions {a : Address} {told mem : List PositionInfo}
    {w : Section} (h : w.settlesPositions a told mem) : w.isHalf = true := by
  unfold settlesPositions at h
  split at h
  · rfl
  · rfl
  · rfl
  · exact h.elim

namespace Told

theorem tell_vault_of_not_isAccount {e : PersistEvent} (h : e.isAccount = false) (t : Told) :
    (t.tell e).vault = t.vault := by
  cases e with
  | upsertVault => simp [PersistEvent.isAccount] at h
  | _ => rfl

theorem tell_positions_of_not_isAccount {e : PersistEvent} (h : e.isAccount = false) (t : Told) :
    (t.tell e).positions = t.positions := by
  cases e with
  | syncPositions => simp [PersistEvent.isAccount] at h
  | _ => rfl

end Told

section Step
variable {t : Told} {c : Pool ι Section (Shared ι)} {i : ι} {w : Section}
  {ws new : List Section} {s : Shared ι} [DecidableEq ι]

/-- An account whose balance stays. -/
theorem AccountsTold.keepVault (h : AccountsTold t c) (hp : c.pending i = w :: ws) {a : Address}
    {told : Option ℚ} (ht : told = t.vault a) (hs : s.vault a = c.shared.vault a)
    (hw : ¬ w.settlesVault a (t.vault a) (c.shared.vault a)) : told = s.vault a ∨
      (⟨s, Function.update c.pending i (new++ws)⟩ : Pool ι Section (Shared ι)).Awaits
        (Section.settlesVault a told (s.vault a)) := by
  rw [ht, hs]
  rcases h.vault a with he | hawait
  · exact Or.inl he
  · exact Or.inr (hawait.keep hp hw)

/-- An account whose positions stay. -/
theorem AccountsTold.keepPositions (h : AccountsTold t c) (hp : c.pending i = w :: ws)
    {a : Address} {told : List PositionInfo} (ht : told = t.positions a)
    (hs : s.state.positions a = c.shared.state.positions a)
    (hw : ¬ w.settlesPositions a (t.positions a) (c.shared.state.positions a)) :
    told = s.state.positions a ∨
      (⟨s, Function.update c.pending i (new++ws)⟩ : Pool ι Section (Shared ι)).Awaits
        (Section.settlesPositions a told (s.state.positions a)) := by
  rw [ht, hs]
  rcases h.positions a with he | hawait
  · exact Or.inl he
  · exact Or.inr (hawait.keep hp hw)

omit [DecidableEq ι] in
@[simp]
theorem setVault_vault_self (s : Shared ι) (a : Address) (v : ℚ) :
    (s.setVault a v).vault a = some v := by
  simp [DurableState.vault, Shared.setVault]

omit [DecidableEq ι] in
theorem setVault_vault_of_ne (s : Shared ι) {a b : Address} (hb : b ≠ a) (v : ℚ) :
    (s.setVault a v).vault b = s.vault b := by
  simp [DurableState.vault, Shared.setVault, hb]

/-- What each half does to the balance of its account. -/
theorem AccountsTold.vault_step {d : DurableState}
    (h : AccountsTold (Told.after d c.shared.sent) c) (hp : c.pending i = w :: ws)
    (hord : AccountsInOrder (Told.after d c.shared.sent) c i w)
    (hs : AccountStep c.shared w s new) (a : Address) :
    (Told.after d s.sent).vault a = s.vault a ∨
      (⟨s, Function.update c.pending i (new++ws)⟩ : Pool ι Section (Shared ι)).Awaits
        (Section.settlesVault a ((Told.after d s.sent).vault a) (s.vault a)) := by
  cases hs with
  | sendVault b v =>
    -- the balance is told before it is written
    simp only [Shared.send, Told.after_append, Told.tell]
    by_cases hb : a = b
    · subst hb
      rw [Function.update_self]
      exact Or.inr (Pool.Awaits.of_new List.mem_cons_self ⟨rfl, rfl⟩)
    · exact h.keepVault hp (Function.update_of_ne hb _ _) rfl id
  | seed b =>
    by_cases hb : a = b
    · subst hb
      exact Or.inr (Pool.Awaits.of_new List.mem_cons_self ⟨rfl, setVault_vault_self ..⟩)
    · exact h.keepVault hp rfl (setVault_vault_of_ne _ hb _) id
  | writeVault b v =>
    -- this is what was told last, or another half of the account is still to come
    by_cases hb : a = b
    · subst hb
      rw [setVault_vault_self]
      rcases hord with he | hawait
      · exact Or.inl he
      · exact Or.inr (hawait.keep hp)
    · exact h.keepVault hp rfl (setVault_vault_of_ne _ hb _) fun hw => hb hw.1.symm
  | queueVault b v =>
    simp only [Shared.send, Told.after_append, Told.tell]
    by_cases hb : a = b
    · subst hb
      rw [Function.update_self]
      rcases hord with he | hawait
      · exact Or.inl he
      · exact Or.inr (hawait.keep hp)
    · exact h.keepVault hp (Function.update_of_ne hb _ _) rfl fun hw => hb hw.1.symm
  | sendPositions b ps =>
    simp only [Shared.send, Told.after_append]
    exact h.keepVault hp rfl rfl id
  | upsert => exact h.keepVault hp rfl rfl id
  | writePositions => exact h.keepVault hp rfl rfl id
  | copyPositions => exact h.keepVault hp rfl rfl id
  | queuePositions b ps =>
    simp only [Shared.send, Told.after_append]
    exact h.keepVault hp rfl rfl id
  | other hw hvault hpositions hsent =>
    have htold : (Told.after d s.sent).vault = (Told.after d c.shared.sent).vault := by
      rcases hsent with he | ⟨e, he, hsent⟩
      · rw [he]
      · rw [hsent, Told.after_append, Told.tell_vault_of_not_isAccount he]
    refine h.keepVault hp (by rw [htold]) (by rw [hvault]) ?_
    intro hsettles
    exact absurd (Section.isHalf_of_settlesVault hsettles) (by simp [hw])

/-- What each half does to the positions of its account. -/
theorem AccountsTold.positions_step {d : DurableState}
    (h : AccountsTold (Told.after d c.shared.sent) c) (hp : c.pending i = w :: ws)
    (hord : AccountsInOrder (Told.after d c.shared.sent) c i w)
    (hs : AccountStep c.shared w s new) (a : Address) :
    (Told.after d s.sent).positions a = s.state.positions a ∨
      (⟨s, Function.update c.pending i (new++ws)⟩ : Pool ι Section (Shared ι)).Awaits
        (Section.settlesPositions a ((Told.after d s.sent).positions a)
          (s.state.positions a)) := by
  cases hs with
  | sendVault b v =>
    simp only [Shared.send, Told.after_append]
    exact h.keepPositions hp rfl rfl id
  | seed => exact h.keepPositions hp rfl rfl id
  | writeVault => exact h.keepPositions hp rfl rfl id
  | queueVault b v =>
    simp only [Shared.send, Told.after_append]
    exact h.keepPositions hp rfl rfl id
  | sendPositions b ps =>
    simp only [Shared.send, Told.after_append, Told.tell]
    by_cases hb : a = b
    · subst hb
      rw [Function.update_self]
      exact Or.inr (Pool.Awaits.of_new List.mem_cons_self ⟨rfl, rfl⟩)
    · exact h.keepPositions hp (Function.update_of_ne hb _ _) rfl id
  | upsert now b marketId orderSide qty price =>
    -- the positions are copied for the event in a section of its own
    by_cases hb : a = b
    · subst hb
      exact Or.inr (Pool.Awaits.of_new List.mem_cons_self rfl)
    · exact h.keepPositions hp rfl (upsertPosition_positions_of_ne _ hb ..) id
  | writePositions b ps =>
    by_cases hb : a = b
    · subst hb
      simp only [AppState.setPositions, Function.update_self]
      rcases hord with he | hawait
      · exact Or.inl he
      · exact Or.inr (hawait.keep hp)
    · exact h.keepPositions hp rfl (Function.update_of_ne hb _ _) fun hw => hb hw.1.symm
  | copyPositions b =>
    by_cases hb : a = b
    · subst hb
      exact Or.inr (Pool.Awaits.of_new List.mem_cons_self ⟨rfl, rfl⟩)
    · exact h.keepPositions hp rfl rfl fun hw => hb (Eq.symm hw)
  | queuePositions b ps =>
    simp only [Shared.send, Told.after_append, Told.tell]
    by_cases hb : a = b
    · subst hb
      rw [Function.update_self]
      rcases hord with he | hawait
      · exact Or.inl he
      · exact Or.inr (hawait.keep hp)
    · exact h.keepPositions hp (Function.update_of_ne hb _ _) rfl fun hw => hb hw.1.symm
  | other hw hvault hpositions hsent =>
    have htold : (Told.after d s.sent).positions = (Told.after d c.shared.sent).positions := by
      rcases hsent with he | ⟨e, he, hsent⟩
      · rw [he]
      · rw [hsent, Told.after_append, Told.tell_positions_of_not_isAccount he]
    refine h.keepPositions hp (by rw [htold]) (by rw [hpositions]) ?_
    intro hsettles
    exact absurd (Section.isHalf_of_settlesPositions hsettles) (by simp [hw])

end Step

end Accounts

section Main
variable {ι : Type}

/-- What memory, the channel and the tables keep. -/
structure TablesTold (db₀ : Db) (c₀ c : Pool ι Section (Shared ι)) : Prop where
  orders : OrdersTold (Told.after c₀.shared.toDurableState c.shared.sent).orders c
  accounts : AccountsTold (Told.after c₀.shared.toDurableState c.shared.sent) c
  tables : ∀ db, db₀.applyAll c.shared.sent = some db →
    Told.Holds db (Told.after c₀.shared.toDurableState c.shared.sent)

/-- The next section of a call does not leave memory and the channel apart. -/
def InOrder (c₀ c : Pool ι Section (Shared ι)) (i : ι) : Prop :=
  ∀ w ws, c.pending i = w :: ws → OrdersInOrder c i w ∧
    AccountsInOrder (Told.after c₀.shared.toDurableState c.shared.sent) c i w

theorem inOrder_of_eq {c₀ c : Pool ι Section (Shared ι)} {i : ι} {w : Section}
    {ws : List Section} (hp : c.pending i = w :: ws) (h : OrdersInOrder c i w ∧
      AccountsInOrder (Told.after c₀.shared.toDurableState c.shared.sent) c i w) :
    InOrder c₀ c i := by
  intro w' ws' hp'
  obtain ⟨rfl, -⟩ := List.cons.inj (hp.symm.trans hp')
  exact h

/-- A section sends one event at most, and only an announcement upserts an order. -/
theorem OrderStep.sent_cases {i : ι} {s s' : Shared ι} {w : Section} {new : List Section}
    (hs : OrderStep i s w s' new) : s'.sent = s.sent ∨ ∃ e, s'.sent = s.sent++[e] ∧
      ((∃ env a o, w = .call (.addOpenOrder env a o) ∧ e = .upsertOrder a o) ∨
        ∀ t : Told, t.Fresh e) := by
  cases hs with
  | announce env address order =>
    exact Or.inr ⟨_, rfl, Or.inl ⟨env, address, order, rfl, rfl⟩⟩
  | queueDelete id => exact Or.inr ⟨_, rfl, Or.inr fun _ => trivial⟩
  | queueOrders address => exact Or.inr ⟨_, rfl, Or.inr fun _ => trivial⟩
  | other hw horders hbooks hmatched hsent hnew =>
    rcases hsent with he | ⟨e, he, hsent⟩
    · exact Or.inl he
    · refine Or.inr ⟨e, hsent, Or.inr ?_⟩
      intro t
      cases e with
      | upsertOrder => simp [PersistEvent.isOrder] at he
      | _ => trivial
  | _ => exact Or.inl rfl

theorem Opening.tablesTold {db₀ : Db} {c₀ : Pool ι Section (Shared ι)} (h : Opening c₀)
    (hsent : c₀.shared.sent = []) (hdb₀ : Told.Holds db₀ (Told.of c₀.shared.toDurableState)) :
    TablesTold db₀ c₀ c₀ := by
  have htold : Told.after c₀.shared.toDurableState c₀.shared.sent =
      Told.of c₀.shared.toDurableState := by rw [hsent]; rfl
  refine ⟨?_, ⟨fun a => Or.inl (by rw [htold]; rfl), fun a => Or.inl (by rw [htold]; rfl)⟩, ?_⟩
  · rw [htold]
    refine ⟨h.named, h.fresh, ?_, ?_⟩
    · intro j id hj
      have hcall := (h.isCall hj).1
      simp [Section.isCall] at hcall
    · intro a
      refine Or.inr ⟨fun _ ho => ho, ?_, fun _ ho => Or.inl ho⟩
      intro j env o hj
      have hcall := (h.isCall hj).1
      simp [Section.isCall] at hcall
  · intro db hdb
    rw [hsent, Db.applyAll, Option.some.injEq] at hdb
    rw [htold, ← hdb]
    exact hdb₀

variable {db₀ : Db} {c₀ c : Pool ι Section (Shared ι)}

theorem TablesTold.step [DecidableEq ι] (h : TablesTold db₀ c₀ c) {devSeed : Bool} {i : ι}
    {w : Section} {ws new : List Section} {s : Shared ι} (hord : InOrder c₀ c i)
    (hp : c.pending i = w :: ws) (hs : perform devSeed i w c.shared = some (s,new)) :
    TablesTold db₀ c₀ ⟨s, Function.update c.pending i (new++ws)⟩ := by
  obtain ⟨hord₁, hord₂⟩ := hord w ws hp
  have horder := perform_orderStep hs
  have haccount := perform_accountStep hs
  refine ⟨h.orders.step hp hord₁ horder, ⟨h.accounts.vault_step hp hord₂ haccount,
    h.accounts.positions_step hp hord₂ haccount⟩, ?_⟩
  intro db hdb
  rcases horder.sent_cases with he | ⟨e, he, hfresh⟩
  · dsimp only at hdb ⊢
    rw [he] at hdb ⊢
    exact h.tables db hdb
  · dsimp only at hdb ⊢
    rw [he, applyAll_append, Option.bind_eq_some_iff] at hdb
    obtain ⟨db₁, hdb₁, hdb⟩ := hdb
    rw [applyAll_singleton] at hdb
    rw [he, Told.after_append]
    refine (h.tables db₁ hdb₁).apply ?_ hdb
    rcases hfresh with ⟨env, a, o, rfl, rfl⟩ | hfresh
    · exact fun b x hx => h.orders.unannounced i env a o (hp ▸ List.mem_cons_self) b x hx
    · exact hfresh _

/-- Once nothing is on its way, what the events say is what memory holds. -/
theorem TablesTold.holds (h : TablesTold db₀ c₀ c) (hdone : c.Returned) {db : Db}
    (hdb : db₀.applyAll c.shared.sent = some db) :
    Told.Holds db (Told.of c.shared.toDurableState) := by
  have htables := h.tables db hdb
  have hvault : (Told.after c₀.shared.toDurableState c.shared.sent).vault = c.shared.vault := by
    funext a
    exact (h.accounts.vault a).resolve_right hdone.not_awaits
  have hpositions : (Told.after c₀.shared.toDurableState c.shared.sent).positions =
      c.shared.state.positions := by
    funext a
    exact (h.accounts.positions a).resolve_right hdone.not_awaits
  refine ⟨⟨htables.orders.keyed, ?_⟩, ?_, ?_⟩
  · intro a
    refine (htables.orders.read a).trans ?_
    have hstep := (h.orders.inStep a).resolve_left hdone.not_awaits
    -- both lists have distinct ids, so it is enough that they have the same orders
    have hids : (((Told.after c₀.shared.toDurableState c.shared.sent).orders a).map
        OpenOrder.id).Nodup := by
      refine (((htables.orders.read a).map OpenOrder.id).nodup_iff).mp ?_
      unfold grouped
      rw [List.map_map]
      exact htables.orders.keyed.sublist (List.filter_sublist.map _)
    refine (List.perm_ext_iff_of_nodup hids.of_map (h.orders.named.nodup a).of_map).mpr ?_
    intro o
    refine ⟨fun ho => ?_, hstep.booked o⟩
    rcases hstep.known o ho with hb | ⟨j, env, hj⟩ | ⟨j, hj⟩
    · exact hb
    · simp [hdone j] at hj
    · simp [hdone j] at hj
  · have hheld := htables.positions
    rwa [hpositions] at hheld
  · have hheld := htables.vault
    rwa [hvault] at hheld

/-- In every interleaving whose sections do not leave memory and the channel apart: when all
calls have returned and the writer has applied what they queued, the tables hold the balances,
the open orders and the positions that memory holds. -/
theorem run_tables_hold [DecidableEq ι] (devSeed : Bool) (h : Opening c₀)
    (hsent : c₀.shared.sent = []) (hdb₀ : Told.Holds db₀ (Told.of c₀.shared.toDurableState))
    (is : List ι)
    (hord : ∀ pre i, pre++[i] <+: is → InOrder c₀ (c₀.run (perform devSeed) pre) i)
    (hdone : (c₀.run (perform devSeed) is).Returned) (db : Db)
    (hdb : db₀.applyAll (c₀.run (perform devSeed) is).shared.sent = some db) :
    Told.Holds db (Told.of (c₀.run (perform devSeed) is).shared.toDurableState) := by
  have hrun : TablesTold db₀ c₀ (c₀.run (perform devSeed) is) :=
    Pool.run_invariant (R := InOrder c₀)
      (fun _ _ _ _ _ _ hc hR hp hs => hc.step hR hp hs) (h.tablesTold hsent hdb₀) hord
  exact hrun.holds hdone hdb

end Main

/-- Two deposits to account 1, and an offer of account 2, on an empty edge. -/
def twoDeposits : Pool (Fin 3) Section (Shared (Fin 3)) where
  shared :=
    { state := AppState.new
      hasVault := fun _ => false
      sent := []
      readers := 0
      matched := [] }
  pending := fun i => match i with
    | 0 => [.call (.setVaultBalance 1 10)]
    | 1 => [.call (.setVaultBalance 1 20)]
    | 2 => [.call (.addOpenOrder (twoAccounts 0) 2 (offer 0 1))]

theorem twoDeposits_opening : Opening twoDeposits := by
  refine ⟨?_, ?_, ?_, ?_, ?_⟩
  · intro i
    right
    fin_cases i
    · exact ⟨_, rfl, rfl⟩
    · exact ⟨_, rfl, rfl⟩
    · exact ⟨_, rfl, rfl⟩
  · exact fun a => List.nodup_nil
  · exact fun a b o ho => absurd ho (List.not_mem_nil)
  · exact fun i env a o _ b x hx => absurd hx (List.not_mem_nil)
  · intro i j env env' a b o o' h h' _
    fin_cases i <;> fin_cases j <;> simp_all [twoDeposits]

theorem twoDeposits_empty : Told.Holds Db.empty (Told.of twoDeposits.shared.toDurableState) where
  orders := ⟨by simp [Db.empty], fun _ => List.Perm.refl _⟩
  positions := ⟨by simp [Db.empty], fun _ => List.Perm.refl _⟩
  vault := ⟨by simp [Db.empty], rfl⟩

/-- The deposits overlap, but memory sees them in the order of the channel. -/
theorem run_tables_hold_twoDeposits : let is : List (Fin 3) := [2, 0, 1, 0, 2, 1, 2, 2]
    ∃ db, (twoDeposits.run (perform false) is).Returned ∧
      Db.empty.applyAll (twoDeposits.run (perform false) is).shared.sent = some db ∧
      db.vaultBalances = [⟨1, 20⟩] ∧
      Told.Holds db (Told.of (twoDeposits.run (perform false) is).shared.toDurableState) := by
  intro is
  have hdone : (twoDeposits.run (perform false) is).Returned := by
    intro i
    fin_cases i <;> rfl
  have hdb : Db.empty.applyAll (twoDeposits.run (perform false) is).shared.sent =
      some { Db.empty with
        openOrders := [(offer 0 1).row 2], vaultBalances := [⟨1, 20⟩] } := by decide +kernel
  refine ⟨_, hdone, hdb, rfl, ?_⟩
  refine run_tables_hold false twoDeposits_opening rfl twoDeposits_empty is ?_ hdone _ hdb
  refine forall_request_cons (P := fun pre => InOrder twoDeposits
    (twoDeposits.run (perform false) pre)) (inOrder_of_eq rfl ⟨trivial, trivial⟩) ?_
  refine forall_request_cons (inOrder_of_eq rfl ⟨trivial, trivial⟩) ?_
  refine forall_request_cons (inOrder_of_eq rfl ⟨trivial, trivial⟩) ?_
  refine forall_request_cons (inOrder_of_eq rfl ⟨trivial, Or.inr ?_⟩) ?_
  · -- the second deposit was queued last, and has still to be written
    exact ⟨1, by decide, .writeVault 1 20, List.mem_cons_self, rfl, rfl⟩
  refine forall_request_cons (inOrder_of_eq rfl ⟨trivial, trivial⟩) ?_
  refine forall_request_cons (inOrder_of_eq rfl ⟨trivial, Or.inl rfl⟩) ?_
  refine forall_request_cons (inOrder_of_eq rfl ⟨trivial, trivial⟩) ?_
  exact forall_request_cons (inOrder_of_eq rfl ⟨trivial, trivial⟩) forall_request_nil

/-- The first deposit is queued first and written last: memory has its amount, and the table
that of the second. -/
theorem deposits_swapped : let is : List (Fin 3) := [0, 1, 1, 0, 2, 2, 2, 2]
    ∃ db, Opening twoDeposits ∧
      Told.Holds Db.empty (Told.of twoDeposits.shared.toDurableState) ∧
      (twoDeposits.run (perform false) is).Returned ∧
      Db.empty.applyAll (twoDeposits.run (perform false) is).shared.sent = some db ∧
      (twoDeposits.run (perform false) is).shared.vault 1 = some 10 ∧
      db.vaultBalances = [⟨1, 20⟩] ∧
      ¬ Told.Holds db (Told.of (twoDeposits.run (perform false) is).shared.toDurableState) := by
  intro is
  have hdone : (twoDeposits.run (perform false) is).Returned := by
    intro i
    fin_cases i <;> rfl
  have hdb : Db.empty.applyAll (twoDeposits.run (perform false) is).shared.sent =
      some { Db.empty with
        openOrders := [(offer 0 1).row 2], vaultBalances := [⟨1, 20⟩] } := by decide +kernel
  have hmem : (twoDeposits.run (perform false) is).shared.vault 1 = some 10 := by decide +kernel
  refine ⟨_, twoDeposits_opening, twoDeposits_empty, hdone, hdb, hmem, rfl, ?_⟩
  intro hholds
  have hread := congrFun hholds.vault.read 1
  rw [show (Told.of (twoDeposits.run (perform false) is).shared.toDurableState).vault 1 = some 10
    from hmem] at hread
  exact absurd hread (by decide +kernel)

end Perplex.Edge
