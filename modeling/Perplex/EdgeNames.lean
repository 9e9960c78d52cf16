import Perplex.EdgeSections

/-! Ids while calls are in flight. An id is announced by one call, goes on the book of one
account, and never comes back: what a taker has collected still means the same order when it
gets the lock to fill it. -/
namespace Perplex.Edge

/-- An order without the quantity that matching decrements. -/
def OpenOrder.static (o : OpenOrder) : OpenOrder := { o with remaining := 0 }

theorem setRemaining_static (id : ℕ) (r : ℚ) (l : List OpenOrder) :
    (setRemaining id r l).map OpenOrder.static = l.map OpenOrder.static := by
  induction l with
  | nil => rfl
  | cons o rest ih =>
    unfold setRemaining
    split_ifs
    · rfl
    · rw [List.map_cons, List.map_cons, ih]

theorem matchLoop_static (now : ℕ) (cs : List Candidate) (orders : Address → List OpenOrder)
    (q : ℚ) (a : Address) :
    ((matchLoop now orders q cs).2 a).map OpenOrder.static =
      (orders a).map OpenOrder.static := by
  induction cs generalizing orders q with
  | nil => rfl
  | cons c cs ih =>
    unfold matchLoop
    split_ifs
    · rfl
    split
    · exact ih orders q
    · split_ifs
      · exact ih orders q
      · refine (ih _ _).trans ?_
        by_cases ha : a = c.address
        · subst ha
          rw [Function.update_self, setRemaining_static]
        · rw [Function.update_of_ne ha]

theorem id_eq_of_static {o o' : OpenOrder} (h : o.static = o'.static) : o.id = o'.id := by
  have hid := congrArg OpenOrder.id h
  exact hid

theorem marketId_eq_of_static {o o' : OpenOrder} (h : o.static = o'.static) :
    o.marketId = o'.marketId := by
  have hm := congrArg OpenOrder.marketId h
  exact hm

section FillSection
variable {s : AppState} {env : Env} {marketId : String} {q : ℚ} {cs : List Candidate}

theorem fillSection_static (a : Address) :
    (((s.fillSection env marketId q cs).2.openOrders a).map OpenOrder.static).Sublist
      ((s.openOrders a).map OpenOrder.static) := by
  rw [← matchLoop_static env.now cs s.openOrders q a]
  exact List.filter_sublist.map _

/-- What is on the book after the section was on it before, but for the quantity. -/
theorem exists_of_mem_fillSection {a : Address} {o : OpenOrder}
    (ho : o ∈ (s.fillSection env marketId q cs).2.openOrders a) :
    ∃ o₀ ∈ s.openOrders a, o₀.static = o.static := by
  have hmem := (fillSection_static a).subset (List.mem_map_of_mem ho)
  obtain ⟨o₀, ho₀, he⟩ := List.mem_map.mp hmem
  exact ⟨o₀, ho₀, he⟩

end FillSection

/-- Ids of the orders that a section is about to put on the book. -/
def Section.adds : Section → List ℕ
  | .call (.addOpenOrder _ _ order) => [order.id]
  | .pushOrder _ _ order => [order.id]
  | _ => []

theorem Section.adds_of_not_isOrder {w : Section} (h : w.isOrder = false) : w.adds = [] := by
  unfold Section.isOrder at h
  unfold Section.adds
  split <;> simp_all

/-- Sections that write the open orders, or that lead to one. -/
def Section.writesOrders : Section → Bool
  | .call (.addOpenOrder _ _ _) => true
  | .call (.cancelOrder _ _ _) => true
  | .call (.matchTaker _ _ _ _ _ _) => true
  | .pushOrder _ _ _ => true
  | .fill _ _ _ _ => true
  | _ => false

theorem Section.writesOrders_of_not_isOrder {w : Section} (h : w.isOrder = false) :
    w.writesOrders = false := by
  unfold Section.isOrder at h
  unfold Section.writesOrders
  split <;> simp_all

section Names
variable {ι : Type}

theorem mem_of_mem_setOrders_filter {s : Shared ι} {a b : Address} {p : OpenOrder → Bool}
    {o : OpenOrder} (h : o ∈ (s.setOrders b ((s.state.openOrders b).filter p)).state.openOrders a) :
    o ∈ s.state.openOrders a := by
  by_cases ha : a = b
  · subst ha
    simp only [Shared.setOrders, Function.update_self] at h
    exact (List.mem_filter.mp h).1
  · simpa only [Shared.setOrders, Function.update_of_ne ha] using h

theorem mem_setOrders_push {s : Shared ι} {a b : Address} {o x : OpenOrder}
    (h : o ∈ (s.setOrders b (s.state.openOrders b++[x])).state.openOrders a) :
    o ∈ s.state.openOrders a ∨ a = b ∧ o = x := by
  by_cases ha : a = b
  · subst ha
    simp only [Shared.setOrders, Function.update_self] at h
    rcases List.mem_append.mp h with h | h
    · exact Or.inl h
    · exact Or.inr ⟨rfl, List.mem_singleton.mp h⟩
  · exact Or.inl (by simpa only [Shared.setOrders, Function.update_of_ne ha] using h)

/-- Some call has still to put an order with this id on the book. -/
def Coming (c : Pool ι Section (Shared ι)) (id : ℕ) : Prop :=
  ∃ i, ∃ w ∈ c.pending i, id ∈ w.adds

/-- An id is on the book once, or is still to come from one call; and the candidates of a
taker are orders of its market as long as they are there. -/
structure Named (c : Pool ι Section (Shared ι)) : Prop where
  nodup : ∀ a, ((c.shared.state.openOrders a).map OpenOrder.id).Nodup
  owner : ∀ a b, ∀ o ∈ c.shared.state.openOrders a, ∀ o' ∈ c.shared.state.openOrders b,
    o.id = o'.id → a = b
  fresh : ∀ id, Coming c id → ∀ a, ∀ o ∈ c.shared.state.openOrders a, o.id ≠ id
  once : ∀ i, ((c.pending i).flatMap Section.adds).Nodup
  apart : ∀ i j, ∀ w ∈ c.pending i, ∀ w' ∈ c.pending j, ∀ id ∈ w.adds, id ∈ w'.adds → i = j
  candidates : ∀ i env marketId q cs, Section.fill env marketId q cs ∈ c.pending i →
    ∀ k ∈ cs, ¬ Coming c k.id ∧
      ∀ o ∈ c.shared.state.openOrders k.address, o.id = k.id → o.marketId = marketId

section Step
variable {c : Pool ι Section (Shared ι)} {i : ι} {w : Section} {ws new : List Section}
  {s : Shared ι}

/-- Of the sections that follow only a push and a fill write the open orders. -/
theorem OrderStep.mem_new {s₀ : Shared ι} (h : OrderStep i s₀ w s new) {x : Section}
    (hx : x ∈ new) :
    (∃ env a o, w = .call (.addOpenOrder env a o) ∧ x = .pushOrder env a o) ∨
      (∃ env marketId takerSide takerPrice takerQty taker,
        w = .call (.matchTaker env marketId takerSide takerPrice takerQty taker) ∧
        x = .fill env marketId takerQty
          (s₀.state.candidates env marketId takerSide takerPrice taker)) ∨
      x.writesOrders = false := by
  cases h with
  | announce env address order =>
    exact Or.inl ⟨env, address, order, rfl, List.mem_singleton.mp hx⟩
  | push env address order =>
    rw [List.mem_singleton.mp hx]
    exact Or.inr (Or.inr rfl)
  | remove env address orderId o h =>
    rcases List.mem_cons.mp hx with rfl | hx
    · exact Or.inr (Or.inr rfl)
    · rw [List.mem_singleton.mp hx]
      exact Or.inr (Or.inr rfl)
  | absent env address orderId h => simp at hx
  | queueDelete id => simp at hx
  | collect env marketId takerSide takerPrice takerQty taker =>
    exact Or.inr (Or.inl ⟨env, marketId, takerSide, takerPrice, takerQty, taker, rfl,
      List.mem_singleton.mp hx⟩)
  | fill =>
    rcases List.mem_cons.mp hx with rfl | hx
    · exact Or.inr (Or.inr rfl)
    · rw [List.mem_singleton.mp hx]
      exact Or.inr (Or.inr rfl)
  | share filled readers tail htail =>
    rcases List.mem_append.mp hx with hx | hx
    · obtain ⟨a, -, rfl⟩ := List.mem_map.mp hx
      exact Or.inr (Or.inr rfl)
    · rcases htail with rfl | rfl
      · simp at hx
      · rw [List.mem_singleton.mp hx]
        exact Or.inr (Or.inr rfl)
  | queueOrders => simp at hx
  | readBook =>
    rw [List.mem_singleton.mp hx]
    exact Or.inr (Or.inr rfl)
  | storeBook => simp at hx
  | other hw horders hbooks hmatched hsent hnew =>
    exact Or.inr (Or.inr (Section.writesOrders_of_not_isOrder (hnew x hx)))

/-- The ids of the sections that follow are among those of the section that is run. -/
theorem OrderStep.adds_sublist (h : OrderStep i c.shared w s new) :
    (new.flatMap Section.adds).Sublist w.adds := by
  cases h with
  | announce env address order => simp [Section.adds]
  | push env address order => simp [Section.adds]
  | remove env address orderId o h => simp [Section.adds]
  | absent env address orderId h => simp
  | queueDelete id => simp
  | collect => simp [Section.adds]
  | fill => simp [Section.adds]
  | share filled readers tail htail =>
    have hnone : ((seen filled).map Section.queueOrders++tail).flatMap Section.adds = [] := by
      rcases htail with rfl | rfl <;> simp [Section.adds, List.flatMap_map]
    rw [hnone]
    exact List.nil_sublist _
  | queueOrders => simp
  | readBook => simp [Section.adds]
  | storeBook => simp
  | other hw horders hbooks hmatched hsent hnew =>
    have hnone : new.flatMap Section.adds = [] :=
      List.flatMap_eq_nil_iff.mpr fun x hx => Section.adds_of_not_isOrder (hnew x hx)
    rw [hnone]
    exact List.nil_sublist _

variable [DecidableEq ι]

/-- A call that is about to write the open orders was waiting before. -/
theorem OrderStep.call_of_mem (hp : c.pending i = w :: ws) (hs : OrderStep i c.shared w s new)
    {j : ι} {m : Mutator} (hwrites : (Section.call m).writesOrders = true)
    (h : Section.call m ∈ Function.update c.pending i (new++ws) j) :
    Section.call m ∈ c.pending j := by
  rcases Pool.mem_pending_update hp h with hold | ⟨-, hin⟩
  · exact hold
  · rcases hs.mem_new hin with ⟨_, _, _, -, he⟩ | ⟨_, _, _, _, _, _, -, he⟩ | he
    · cases he
    · cases he
    · rw [hwrites] at he
      cases he

theorem coming_of_step (hp : c.pending i = w :: ws)
    (hadds : (new.flatMap Section.adds).Sublist w.adds) {id : ℕ}
    (h : Coming ⟨s, Function.update c.pending i (new++ws)⟩ id) : Coming c id := by
  obtain ⟨j, x, hx, hid⟩ := h
  rcases Pool.mem_pending_update hp hx with hold | ⟨rfl, hnew⟩
  · exact ⟨j, x, hold, hid⟩
  · refine ⟨j, w, hp ▸ List.mem_cons_self, ?_⟩
    exact hadds.subset (List.mem_flatMap.mpr ⟨x, hnew, hid⟩)

theorem Named.once_step (h : Named c) (hp : c.pending i = w :: ws)
    (hadds : (new.flatMap Section.adds).Sublist w.adds) (j : ι) :
    ((Function.update c.pending i (new++ws) j).flatMap Section.adds).Nodup := by
  by_cases hj : j = i
  · subst hj
    have hold := h.once j
    rw [hp, List.flatMap_cons] at hold
    rw [Function.update_self, List.flatMap_append]
    exact hold.sublist (hadds.append_right _)
  · rw [Function.update_of_ne hj]
    exact h.once j

theorem Named.apart_step (h : Named c) (hp : c.pending i = w :: ws)
    (hadds : (new.flatMap Section.adds).Sublist w.adds) (j j' : ι) :
    ∀ x ∈ Function.update c.pending i (new++ws) j,
      ∀ x' ∈ Function.update c.pending i (new++ws) j', ∀ id ∈ x.adds, id ∈ x'.adds → j = j' := by
  -- every section can be traced back to one that had the same ids
  have hback {j : ι} {x : Section} (hx : x ∈ Function.update c.pending i (new++ws) j) {id : ℕ}
      (hid : id ∈ x.adds) : ∃ y ∈ c.pending j, id ∈ y.adds := by
    rcases Pool.mem_pending_update hp hx with hold | ⟨rfl, hnew⟩
    · exact ⟨x, hold, hid⟩
    · exact ⟨w, hp ▸ List.mem_cons_self,
        hadds.subset (List.mem_flatMap.mpr ⟨x, hnew, hid⟩)⟩
  intro x hx x' hx' id hid hid'
  obtain ⟨y, hy, hyid⟩ := hback hx hid
  obtain ⟨y', hy', hyid'⟩ := hback hx' hid'
  exact h.apart j j' y hy y' hy' id hyid hyid'

/-- Names stay good when the books only lose orders and quantities. -/
theorem Named.shrink (h : Named c) (hp : c.pending i = w :: ws)
    (hadds : (new.flatMap Section.adds).Sublist w.adds)
    (hbook : ∀ a, ((s.state.openOrders a).map OpenOrder.static).Sublist
      ((c.shared.state.openOrders a).map OpenOrder.static))
    (hfill : ∀ env marketId q cs, Section.fill env marketId q cs ∈ new → ∀ k ∈ cs,
      ¬ Coming c k.id ∧ ∀ o ∈ c.shared.state.openOrders k.address, o.id = k.id →
        o.marketId = marketId) :
    Named ⟨s, Function.update c.pending i (new++ws)⟩ := by
  have hback {a : Address} {o : OpenOrder} (ho : o ∈ s.state.openOrders a) :
      ∃ o₀ ∈ c.shared.state.openOrders a, o₀.id = o.id ∧ o₀.marketId = o.marketId := by
    have hmem := (hbook a).subset (List.mem_map_of_mem ho)
    obtain ⟨o₀, ho₀, he⟩ := List.mem_map.mp hmem
    exact ⟨o₀, ho₀, id_eq_of_static he, marketId_eq_of_static he⟩
  refine ⟨?_, ?_, ?_, h.once_step hp hadds, h.apart_step hp hadds, ?_⟩
  · intro a
    have hids := (hbook a).map OpenOrder.id
    rw [List.map_map, List.map_map] at hids
    exact (h.nodup a).sublist hids
  · intro a b o ho o' ho' he
    obtain ⟨o₀, ho₀, hid, -⟩ := hback ho
    obtain ⟨o₁, ho₁, hid', -⟩ := hback ho'
    exact h.owner a b o₀ ho₀ o₁ ho₁ (hid.trans (he.trans hid'.symm))
  · intro id hid a o ho he
    obtain ⟨o₀, ho₀, hid₀, -⟩ := hback ho
    exact h.fresh id (coming_of_step hp hadds hid) a o₀ ho₀ (hid₀.trans he)
  · intro j env marketId q cs hj k hk
    have hold : ¬ Coming c k.id ∧ ∀ o ∈ c.shared.state.openOrders k.address, o.id = k.id →
        o.marketId = marketId := by
      rcases Pool.mem_pending_update hp hj with hold | ⟨rfl, hnew⟩
      · exact h.candidates j env marketId q cs hold k hk
      · exact hfill env marketId q cs hnew k hk
    refine ⟨fun hcome => hold.1 (coming_of_step hp hadds hcome), ?_⟩
    intro o ho he
    obtain ⟨o₀, ho₀, hid, hm⟩ := hback ho
    rw [← hm]
    exact hold.2 o₀ ho₀ (hid.trans he)

omit [DecidableEq ι] in
/-- An id has one section. -/
theorem Named.only (h : Named c) (hp : c.pending i = w :: ws) {j : ι} {x : Section}
    (hx : x ∈ c.pending j) {id : ℕ} (hid : id ∈ w.adds) (hid' : id ∈ x.adds) :
    j = i ∧ x = w := by
  obtain rfl := h.apart i j w (hp ▸ List.mem_cons_self) x hx id hid hid'
  refine ⟨rfl, ?_⟩
  have honce := h.once i
  rw [hp, List.flatMap_cons] at honce
  rw [hp] at hx
  rcases List.mem_cons.mp hx with hx | hx
  · exact hx
  · exact absurd rfl ((List.nodup_append.mp honce).2.2 id hid id
      (List.mem_flatMap.mpr ⟨x, hx, hid'⟩))

/-- Once an order is on the book, its id does not come again. -/
theorem Named.not_coming_pushed (h : Named c) {env : Env} {a : Address} {o : OpenOrder}
    (hp : c.pending i = .pushOrder env a o :: ws) :
    ¬ Coming ⟨s, Function.update c.pending i ([.readBook env o.marketId]++ws)⟩ o.id := by
  rintro ⟨j, x, hx, hid⟩
  have hread : o.id ∉ (Section.readBook env o.marketId).adds := by simp [Section.adds]
  have hws : ∀ y ∈ ws, o.id ∉ y.adds := by
    intro y hy hid'
    have honce := h.once i
    rw [hp, List.flatMap_cons] at honce
    exact (List.nodup_append.mp honce).2.2 o.id List.mem_cons_self o.id
      (List.mem_flatMap.mpr ⟨y, hy, hid'⟩) rfl
  rcases Pool.mem_pending_update hp hx with hold | ⟨-, hnew⟩
  · obtain ⟨rfl, -⟩ := h.only hp hold (List.mem_cons_self : o.id ∈ [o.id]) hid
    have hmem : x ∈ Function.update c.pending j ([.readBook env o.marketId]++ws) j := hx
    rw [Function.update_self] at hmem
    rcases List.mem_append.mp hmem with hhead | htail
    · exact hread (List.mem_singleton.mp hhead ▸ hid)
    · exact hws x htail hid
  · exact hread (List.mem_singleton.mp hnew ▸ hid)

theorem Named.push (h : Named c) {env : Env} {a : Address} {o : OpenOrder}
    (hp : c.pending i = .pushOrder env a o :: ws) :
    Named ⟨c.shared.setOrders a (c.shared.state.openOrders a++[o]),
      Function.update c.pending i ([.readBook env o.marketId]++ws)⟩ := by
  have hadds : (List.flatMap Section.adds [.readBook env o.marketId]).Sublist
      (Section.pushOrder env a o).adds := by simp [Section.adds]
  have hcoming : Coming c o.id := ⟨i, _, hp ▸ List.mem_cons_self, List.mem_cons_self⟩
  have hnew := h.fresh o.id hcoming
  refine ⟨?_, ?_, ?_, h.once_step hp hadds, h.apart_step hp hadds, ?_⟩
  · intro b
    by_cases hb : b = a
    · subst hb
      simp only [Shared.setOrders, Function.update_self]
      refine nodup_append_fresh (h.nodup b) ?_
      intro hmem
      obtain ⟨x, hx, he⟩ := List.mem_map.mp hmem
      exact hnew b x hx he
    · simp only [Shared.setOrders, Function.update_of_ne hb]
      exact h.nodup b
  · intro b b' x hx x' hx' he
    rcases mem_setOrders_push hx with hold | ⟨rfl, rfl⟩
    · rcases mem_setOrders_push hx' with hold' | ⟨rfl, rfl⟩
      · exact h.owner b b' x hold x' hold' he
      · exact absurd he (hnew b x hold)
    · rcases mem_setOrders_push hx' with hold' | ⟨rfl, -⟩
      · exact absurd he.symm (hnew b' x' hold')
      · rfl
  · intro id hid b x hx
    rcases mem_setOrders_push hx with hold | ⟨rfl, rfl⟩
    · exact h.fresh id (coming_of_step hp hadds hid) b x hold
    · rintro rfl
      exact h.not_coming_pushed hp hid
  · intro j env' marketId q cs hj k hk
    rcases Pool.mem_pending_update hp hj with hold | ⟨-, hread⟩
    · obtain ⟨hk₁, hk₂⟩ := h.candidates j env' marketId q cs hold k hk
      refine ⟨fun hcome => hk₁ (coming_of_step hp hadds hcome), ?_⟩
      intro x hx he
      rcases mem_setOrders_push hx with hold | ⟨-, rfl⟩
      · exact hk₂ x hold he
      · exact absurd (he ▸ hcoming) hk₁
    · simp at hread

/-- No section of any call spoils the names. -/
theorem Named.step (h : Named c) (hp : c.pending i = w :: ws)
    (hs : OrderStep i c.shared w s new) :
    Named ⟨s, Function.update c.pending i (new++ws)⟩ := by
  have hadds := hs.adds_sublist
  have hsame (a : Address) : ((c.shared.state.openOrders a).map OpenOrder.static).Sublist
      ((c.shared.state.openOrders a).map OpenOrder.static) := List.Sublist.refl _
  have hfilter (a : Address) (orderId : ℕ) (b : Address) :
      (((c.shared.setOrders a ((c.shared.state.openOrders a).filter fun o =>
        o.id ≠ orderId)).state.openOrders b).map OpenOrder.static).Sublist
        ((c.shared.state.openOrders b).map OpenOrder.static) := by
    by_cases hb : b = a
    · subst hb
      simp only [Shared.setOrders, Function.update_self]
      exact List.filter_sublist.map _
    · simp only [Shared.setOrders, Function.update_of_ne hb]
      exact List.Sublist.refl _
  cases hs with
  | announce env address order => exact h.shrink hp hadds hsame (by simp)
  | push env address order => exact h.push hp
  | remove env address orderId o hfind =>
    exact h.shrink hp hadds (hfilter address orderId) (by simp)
  | absent env address orderId hfind =>
    exact h.shrink hp hadds (hfilter address orderId) (by simp)
  | queueDelete id => exact h.shrink hp hadds hsame (by simp)
  | collect env marketId takerSide takerPrice takerQty taker =>
    refine h.shrink hp hadds hsame ?_
    intro env' marketId' q cs hmem k hk
    obtain ⟨rfl, rfl, rfl, rfl⟩ : env' = env ∧ marketId' = marketId ∧ q = takerQty ∧
        cs = c.shared.state.candidates env marketId takerSide takerPrice taker := by
      simpa using hmem
    -- the candidate is an order of the market, and no other order has its id
    obtain ⟨-, o, ho, hmaker, he⟩ := AppState.mem_candidates hk
    have hid : k.id = o.id := by rw [he]
    refine ⟨fun hcome => h.fresh k.id hcome _ o ho hid.symm, ?_⟩
    intro o' ho' he'
    obtain rfl := List.inj_on_of_nodup_map (h.nodup _) ho' ho (he'.trans hid)
    simp only [OpenOrder.isMaker, decide_eq_true_eq] at hmaker
    exact hmaker.1
  | fill env marketId takerQty cs =>
    exact h.shrink hp hadds (fun a => fillSection_static a) (by simp)
  | share filled readers tail htail =>
    refine h.shrink hp hadds hsame ?_
    intro env marketId q cs hmem
    rcases htail with rfl | rfl <;> simp at hmem
  | queueOrders address => exact h.shrink hp hadds hsame (by simp)
  | readBook env marketId => exact h.shrink hp hadds hsame (by simp)
  | storeBook marketId levels => exact h.shrink hp hadds hsame (by simp)
  | other hw horders hbooks hmatched hsent hnew =>
    refine h.shrink hp hadds (fun a => by rw [horders]) ?_
    intro env marketId q cs hmem
    exact absurd (hnew _ hmem) (by simp [Section.isOrder])

end Step

/-- Sections that a call begins with. -/
def Section.isCall : Section → Bool
  | .call _ => true
  | .adjustVault _ _ => true
  | _ => false

/-- One call each, or none, and distinct ids on the book and in the calls that add to it. -/
structure Opening (c : Pool ι Section (Shared ι)) : Prop where
  calls : ∀ i, c.pending i = [] ∨ ∃ w, w.isCall = true ∧ c.pending i = [w]
  nodup : ∀ a, ((c.shared.state.openOrders a).map OpenOrder.id).Nodup
  owner : ∀ a b, ∀ o ∈ c.shared.state.openOrders a, ∀ o' ∈ c.shared.state.openOrders b,
    o.id = o'.id → a = b
  fresh : ∀ i env a o, Section.call (.addOpenOrder env a o) ∈ c.pending i →
    ∀ b, ∀ x ∈ c.shared.state.openOrders b, x.id ≠ o.id
  apart : ∀ i j env env' a b o o', Section.call (.addOpenOrder env a o) ∈ c.pending i →
    Section.call (.addOpenOrder env' b o') ∈ c.pending j → o.id = o'.id → i = j

theorem Opening.isCall {c : Pool ι Section (Shared ι)} (h : Opening c) {i : ι} {w : Section}
    (hw : w ∈ c.pending i) : w.isCall = true ∧ c.pending i = [w] := by
  rcases h.calls i with hp | ⟨w', hcall, hp⟩
  · simp [hp] at hw
  · rw [hp, List.mem_singleton] at hw
    subst hw
    exact ⟨hcall, hp⟩

theorem Opening.adds {c : Pool ι Section (Shared ι)} (h : Opening c) {i : ι} {w : Section}
    (hw : w ∈ c.pending i) {id : ℕ} (hid : id ∈ w.adds) :
    ∃ env a o, w = .call (.addOpenOrder env a o) ∧ o.id = id := by
  have hcall := (h.isCall hw).1
  unfold Section.adds at hid
  split at hid
  · next env a o => exact ⟨env, a, o, rfl, (List.mem_singleton.mp hid).symm⟩
  · simp [Section.isCall] at hcall
  · simp at hid

theorem Opening.named {c : Pool ι Section (Shared ι)} (h : Opening c) : Named c where
  nodup := h.nodup
  owner := h.owner
  fresh := by
    rintro id ⟨i, w, hw, hid⟩ a o ho
    obtain ⟨env, b, o', rfl, rfl⟩ := h.adds hw hid
    exact h.fresh i env b o' hw a o ho
  once := by
    intro i
    rcases h.calls i with hp | ⟨w, -, hp⟩
    · simp [hp]
    · rw [hp, List.flatMap_singleton]
      unfold Section.adds
      split <;> simp
  apart := by
    intro i j w hw w' hw' id hid hid'
    obtain ⟨env, a, o, rfl, rfl⟩ := h.adds hw hid
    obtain ⟨env', b, o', rfl, he⟩ := h.adds hw' hid'
    exact h.apart i j env env' a b o o' hw hw' he.symm
  candidates := by
    intro i env marketId q cs hmem
    have hcall := (h.isCall hmem).1
    simp [Section.isCall] at hcall

end Names

end Perplex.Edge
