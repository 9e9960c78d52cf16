import Perplex.EdgeNames

/-! Takers that race each other and the owners of the orders they meet. A taker collects its
makers under one lock and fills them under another, but what it fills is what the order has
left by then: no order is filled for more than it was added with. -/
namespace Perplex.Edge

/-- What the order with this id has left; nothing when it is not in the list. -/
def remainingOf (l : List OpenOrder) (id : ℕ) : ℚ :=
  ((l.find? fun o => o.id = id).map OpenOrder.remaining).getD 0

/-- The fills that name an order. -/
def fillsOf (a : Address) (id : ℕ) (fs : List MatchedFill) : List MatchedFill :=
  fs.filter fun m => m.makerAddress = a ∧ m.makerOrderId = id

def filledOf (a : Address) (id : ℕ) (fs : List MatchedFill) : ℚ :=
  ((fillsOf a id fs).map MatchedFill.qty).sum

theorem filledOf_append (a : Address) (id : ℕ) (fs gs : List MatchedFill) :
    filledOf a id (fs++gs) = filledOf a id fs+filledOf a id gs := by
  simp [filledOf, fillsOf]

theorem filledOf_cons (a : Address) (id : ℕ) (m : MatchedFill) (fs : List MatchedFill) :
    filledOf a id (m :: fs) =
      (if m.makerAddress = a ∧ m.makerOrderId = id then m.qty else 0)+filledOf a id fs := by
  unfold filledOf fillsOf
  by_cases h : m.makerAddress = a ∧ m.makerOrderId = id
  · rw [List.filter_cons_of_pos (by simpa using h), if_pos h, List.map_cons, List.sum_cons]
  · rw [List.filter_cons_of_neg (by simpa using h), if_neg h, zero_add]

theorem remainingOf_of_absent {l : List OpenOrder} {id : ℕ} (h : ∀ o ∈ l, o.id ≠ id) :
    remainingOf l id = 0 := by
  have hnone : l.find? (fun o => o.id = id) = none := by
    rw [List.find?_eq_none]
    intro o ho
    simpa using h o ho
  simp [remainingOf, hnone]

theorem remainingOf_of_mem {l : List OpenOrder} (hnd : (l.map OpenOrder.id).Nodup)
    {o : OpenOrder} (ho : o ∈ l) : remainingOf l o.id = o.remaining := by
  simp [remainingOf, find?_id_of_mem hnd ho]

theorem remainingOf_setRemaining {l : List OpenOrder} {id : ℕ} {o : OpenOrder}
    (h : l.find? (fun o => o.id = id) = some o) (r : ℚ) :
    remainingOf (setRemaining id r l) id = r := by
  induction l with
  | nil => simp at h
  | cons x rest ih =>
    unfold setRemaining
    by_cases hx : x.id = id
    · simp [remainingOf, hx]
    · simp only [List.find?_cons, hx, decide_false] at h
      have hrest := ih h
      unfold remainingOf at *
      simpa [hx] using hrest

theorem remainingOf_setRemaining_of_ne {id id' : ℕ} (hne : id' ≠ id) (r : ℚ)
    (l : List OpenOrder) : remainingOf (setRemaining id r l) id' = remainingOf l id' := by
  unfold remainingOf
  rw [find?_setRemaining_of_ne hne]

theorem remainingOf_filter_of_ne {id id' : ℕ} (hne : id' ≠ id) (l : List OpenOrder) :
    remainingOf (l.filter fun o => o.id ≠ id) id' = remainingOf l id' := by
  have hpred : (fun x : OpenOrder => decide (x.id ≠ id) && decide (x.id = id')) =
      fun x => decide (x.id = id') := by
    funext x
    by_cases hx : x.id = id'
    · simp [hx, hne]
    · simp [hx]
  unfold remainingOf
  rw [List.find?_filter]
  simp only [Bool.decide_and, Bool.decide_eq_true, hpred]

/-- What the loop fills of an order is what it takes from it, whatever the candidates are. -/
theorem matchLoop_filledOf (now : ℕ) (cs : List Candidate) (orders : Address → List OpenOrder)
    (q : ℚ) (a : Address) (id : ℕ) :
    filledOf a id (matchLoop now orders q cs).1 =
      remainingOf (orders a) id-remainingOf ((matchLoop now orders q cs).2 a) id := by
  induction cs generalizing orders q with
  | nil => simp [matchLoop, filledOf, fillsOf]
  | cons c cs ih =>
    unfold matchLoop
    split_ifs
    · simp [filledOf, fillsOf]
    cases hfind : (orders c.address).find? (fun o => o.id = c.id) with
    | none => exact ih orders q
    | some o =>
      dsimp only
      split_ifs with hspent
      · exact ih orders q
      · have hleft : remainingOf (orders c.address) c.id = o.remaining := by
          simp [remainingOf, hfind]
        rw [filledOf_cons, ih]
        by_cases hm : c.address = a ∧ c.id = id
        · -- this fill takes the quantity from the order itself
          obtain ⟨rfl, rfl⟩ := hm
          rw [if_pos ⟨rfl, rfl⟩, Function.update_self, remainingOf_setRemaining hfind, hleft]
          ring
        · rw [if_neg hm, zero_add]
          congr 1
          by_cases ha : a = c.address
          · subst ha
            have hid : id ≠ c.id := fun he => hm ⟨rfl, he.symm⟩
            rw [Function.update_self, remainingOf_setRemaining_of_ne hid]
          · rw [Function.update_of_ne ha]

/-- A fill names an order that is there. -/
theorem matchLoop_named (now : ℕ) (cs : List Candidate) (orders : Address → List OpenOrder)
    (q : ℚ) : ∀ m ∈ (matchLoop now orders q cs).1,
      m.makerOrderId ∈ (orders m.makerAddress).map OpenOrder.id := by
  induction cs generalizing orders q with
  | nil => simp [matchLoop]
  | cons c cs ih =>
    unfold matchLoop
    split_ifs
    · simp
    cases hfind : (orders c.address).find? (fun o => o.id = c.id) with
    | none => exact ih orders q
    | some o =>
      dsimp only
      split_ifs
      · exact ih orders q
      · intro m hm
        rcases List.mem_cons.mp hm with rfl | hm
        · have hid : o.id = c.id := by simpa using List.find?_some hfind
          exact List.mem_map.mpr ⟨o, List.mem_of_find?_eq_some hfind, hid⟩
        · have hrest := ih _ _ m hm
          by_cases ha : m.makerAddress = c.address
          · rw [ha, Function.update_self, AppState.setRemaining_ids] at hrest
            rw [ha]
            exact hrest
          · rw [Function.update_of_ne ha] at hrest
            exact hrest

/-- An order that is not on the book is not named. -/
theorem fillsOf_fillSection_eq_nil {st : AppState} {a : Address} {id : ℕ}
    (hgone : ∀ x ∈ st.openOrders a, x.id ≠ id) (env : Env) (marketId : String) (q : ℚ)
    (cs : List Candidate) : fillsOf a id (st.fillSection env marketId q cs).1 = [] := by
  apply List.filter_eq_nil_iff.mpr
  intro m hm hnamed
  obtain ⟨rfl, hid⟩ : m.makerAddress = a ∧ m.makerOrderId = id := by simpa using hnamed
  obtain ⟨x, hx, he⟩ := List.mem_map.mp (matchLoop_named _ _ _ _ m hm)
  exact hgone x hx (he.trans hid)

/-- A taker never gets more than it asked for, and no order goes below zero. -/
theorem matchLoop_bounded (now : ℕ) (cs : List Candidate) {orders : Address → List OpenOrder}
    {q : ℚ} (hq : 0 ≤ q) (hpos : ∀ a, ∀ o ∈ orders a, 0 ≤ o.remaining) :
    (∀ a, ∀ o ∈ (matchLoop now orders q cs).2 a, 0 ≤ o.remaining) ∧
      ((matchLoop now orders q cs).1.map MatchedFill.qty).sum ≤ q := by
  induction cs generalizing orders q with
  | nil => simpa [matchLoop] using ⟨hpos, hq⟩
  | cons c cs ih =>
    unfold matchLoop
    split_ifs
    · simpa using ⟨hpos, hq⟩
    cases hfind : (orders c.address).find? (fun o => o.id = c.id) with
    | none => exact ih hq hpos
    | some o =>
      dsimp only
      split_ifs
      · exact ih hq hpos
      · have ho := hpos _ o (List.mem_of_find?_eq_some hfind)
        have hq' : 0 ≤ q-min q o.remaining := sub_nonneg.mpr (min_le_left _ _)
        have hpos' : ∀ a, ∀ x ∈ Function.update orders c.address
            (setRemaining c.id (o.remaining-min q o.remaining) (orders c.address)) a,
            0 ≤ x.remaining := by
          intro a x hx
          by_cases ha : a = c.address
          · rw [ha, Function.update_self] at hx
            rcases mem_setRemaining hx with hx | ⟨x₀, -, -, rfl⟩
            · exact hpos _ x hx
            · exact sub_nonneg.mpr (min_le_right _ _)
          · rw [Function.update_of_ne ha] at hx
            exact hpos a x hx
        obtain ⟨hleft, hsum⟩ := ih hq' hpos'
        refine ⟨hleft, ?_⟩
        rw [List.map_cons, List.sum_cons]
        dsimp only
        linarith

theorem remainingOf_reap {marketId : String} {l : List OpenOrder}
    (hnd : (l.map OpenOrder.id).Nodup) (id : ℕ) :
    remainingOf (reap marketId l) id = remainingOf l id := by
  by_cases h : ∃ o ∈ l, o.id = id
  · obtain ⟨o, ho, rfl⟩ := h
    rw [remainingOf_of_mem hnd ho]
    by_cases hkeep : o.marketId ≠ marketId ∨ o.remaining ≠ 0
    · have hmem : o ∈ reap marketId l := List.mem_filter.mpr ⟨ho, by simpa using hkeep⟩
      exact remainingOf_of_mem (hnd.sublist (List.filter_sublist.map _)) hmem
    · -- a reaped order has nothing left
      have hzero : o.remaining = 0 := by
        by_contra hne
        exact hkeep (Or.inr hne)
      rw [hzero]
      apply remainingOf_of_absent
      intro x hx he
      obtain ⟨hxl, hkept⟩ := List.mem_filter.mp hx
      obtain rfl := List.inj_on_of_nodup_map hnd hxl ho he
      exact hkeep (by simpa using hkept)
  · have habsent : ∀ o ∈ l, o.id ≠ id := fun o ho he => h ⟨o, ho, he⟩
    rw [remainingOf_of_absent habsent]
    exact remainingOf_of_absent fun o ho => habsent o (List.mem_filter.mp ho).1

section Runs
variable {ι : Type}

/-- All fills that the takers have made. -/
def allFills (c : Pool ι Section (Shared ι)) : List MatchedFill := c.shared.matched.map Prod.snd

/-- The fills of one call. -/
def callFills [DecidableEq ι] (c : Pool ι Section (Shared ι)) (i : ι) : List MatchedFill :=
  (c.shared.matched.filter fun x => x.1 = i).map Prod.snd

/-- The order is in the book at the start, or a call adds it. -/
def Added (c : Pool ι Section (Shared ι)) (a : Address) (o : OpenOrder) : Prop :=
  o ∈ c.shared.state.openOrders a ∨
    ∃ i env, Section.call (.addOpenOrder env a o) ∈ c.pending i

/-- No fills yet, and positive quantities. -/
structure PositiveOpening (c : Pool ι Section (Shared ι)) : Prop extends Opening c where
  matched : c.shared.matched = []
  orders : ∀ a o, Added c a o → 0 < o.remaining
  takers : ∀ i env marketId takerSide takerPrice takerQty taker,
    Section.call (.matchTaker env marketId takerSide takerPrice takerQty taker) ∈ c.pending i →
      0 < takerQty

/-- The order has still to be pushed onto the book. -/
def InFlight (c : Pool ι Section (Shared ι)) (a : Address) (o : OpenOrder) : Prop :=
  ∃ i env, Section.call (.addOpenOrder env a o) ∈ c.pending i ∨
    Section.pushOrder env a o ∈ c.pending i

theorem InFlight.coming {c : Pool ι Section (Shared ι)} {a : Address} {o : OpenOrder}
    (h : InFlight c a o) : Coming c o.id := by
  obtain ⟨i, env, hw | hw⟩ := h
  · exact ⟨i, _, hw, List.mem_cons_self⟩
  · exact ⟨i, _, hw, List.mem_cons_self⟩

/-- Some call cancels the order. -/
def CancelledIn (c : Pool ι Section (Shared ι)) (a : Address) (id : ℕ) : Prop :=
  ∃ i env, Section.call (.cancelOrder env a id) ∈ c.pending i

/-- The order is still to be pushed and nothing is filled; or what is filled and what is left
make up what it was added with; or it was cancelled. -/
inductive Accounted (c₀ c : Pool ι Section (Shared ι)) (a : Address) (o : OpenOrder) : Prop where
  | pending (hfly : InFlight c a o) (hnone : fillsOf a o.id (allFills c) = [])
  | live (hpushed : ¬ Coming c o.id) (hsum : filledOf a o.id (allFills c)+
      remainingOf (c.shared.state.openOrders a) o.id = o.remaining)
  | cancelled (hpushed : ¬ Coming c o.id) (hgone : ∀ x ∈ c.shared.state.openOrders a, x.id ≠ o.id)
      (hle : filledOf a o.id (allFills c) ≤ o.remaining) (hcancel : CancelledIn c₀ a o.id)

/-- What the calls keep. -/
structure FillInv (c₀ c : Pool ι Section (Shared ι)) : Prop where
  named : Named c
  nonneg : ∀ a, ∀ o ∈ c.shared.state.openOrders a, 0 ≤ o.remaining
  flying : ∀ a o, InFlight c a o → 0 ≤ o.remaining
  takers : ∀ i env marketId takerSide takerPrice takerQty taker,
    Section.call (.matchTaker env marketId takerSide takerPrice takerQty taker) ∈ c.pending i →
      0 ≤ takerQty
  fills : ∀ i env marketId takerQty cs,
    Section.fill env marketId takerQty cs ∈ c.pending i → 0 ≤ takerQty
  cancels : ∀ i env a id, Section.call (.cancelOrder env a id) ∈ c.pending i →
    CancelledIn c₀ a id
  accounted : ∀ a o, Added c₀ a o → Accounted c₀ c a o

theorem PositiveOpening.fillInv {c : Pool ι Section (Shared ι)} (h : PositiveOpening c) :
    FillInv c c where
  named := h.named
  nonneg := fun a o ho => (h.orders a o (Or.inl ho)).le
  flying := by
    rintro a o ⟨i, env, hw | hw⟩
    · exact (h.orders a o (Or.inr ⟨i, env, hw⟩)).le
    · have hcall := (h.isCall hw).1
      simp [Section.isCall] at hcall
  takers := fun i env mk sd p q t hw => (h.takers i env mk sd p q t hw).le
  fills := by
    intro i env mk q cs hw
    have hcall := (h.isCall hw).1
    simp [Section.isCall] at hcall
  cancels := fun i env a id hw => ⟨i, env, hw⟩
  accounted := by
    intro a o hadd
    have hnone : fillsOf a o.id (allFills c) = [] := by simp [fillsOf, allFills, h.matched]
    rcases hadd with ho | ⟨i, env, hw⟩
    · refine .live (fun hcome => h.named.fresh o.id hcome a o ho rfl) ?_
      rw [remainingOf_of_mem (h.nodup a) ho]
      simp [filledOf, hnone]
    · exact .pending ⟨i, env, Or.inl hw⟩ hnone

section Step
variable [DecidableEq ι] {c₀ c : Pool ι Section (Shared ι)} {i : ι} {w : Section}
  {ws new : List Section} {s : Shared ι} {a : Address} {o : OpenOrder}

/-- An order in flight stays so unless its own section is run. -/
theorem InFlight.step (h : InFlight c a o) (hp : c.pending i = w :: ws) (hid : o.id ∉ w.adds) :
    InFlight ⟨s, Function.update c.pending i (new++ws)⟩ a o := by
  obtain ⟨j, env, hx | hx⟩ := h
  · refine ⟨j, env, Or.inl (Pool.mem_pending_of_ne new hp hx ?_)⟩
    rintro - rfl
    exact hid List.mem_cons_self
  · refine ⟨j, env, Or.inr (Pool.mem_pending_of_ne new hp hx ?_)⟩
    rintro - rfl
    exact hid List.mem_cons_self

theorem InFlight.back (hp : c.pending i = w :: ws) (hs : OrderStep i c.shared w s new)
    (h : InFlight ⟨s, Function.update c.pending i (new++ws)⟩ a o) : InFlight c a o := by
  obtain ⟨j, env, hx | hx⟩ := h
  · exact ⟨j, env, Or.inl (hs.call_of_mem hp rfl hx)⟩
  · rcases Pool.mem_pending_update hp hx with hold | ⟨rfl, hnew⟩
    · exact ⟨j, env, Or.inr hold⟩
    · rcases hs.mem_new hnew with ⟨env', a', o', rfl, h'⟩ | ⟨_, _, _, _, _, _, -, h'⟩ | h'
      · obtain ⟨rfl, rfl, rfl⟩ : env = env' ∧ a = a' ∧ o = o' := by simpa using h'
        exact ⟨j, env, Or.inl (hp ▸ List.mem_cons_self)⟩
      · simp at h'
      · simp [Section.writesOrders] at h'

omit [DecidableEq ι] in
/-- A step that neither fills the order nor moves it. -/
theorem Accounted.keep {c' : Pool ι Section (Shared ι)} (h : Accounted c₀ c a o)
    (hfly : InFlight c a o → InFlight c' a o) (hcome : Coming c' o.id → Coming c o.id)
    (hfills : fillsOf a o.id (allFills c') = fillsOf a o.id (allFills c))
    (hrem : remainingOf (c'.shared.state.openOrders a) o.id =
      remainingOf (c.shared.state.openOrders a) o.id)
    (hback : ∀ x ∈ c'.shared.state.openOrders a, x.id = o.id →
      ∃ y ∈ c.shared.state.openOrders a, y.id = o.id) : Accounted c₀ c' a o := by
  have hsum : filledOf a o.id (allFills c') = filledOf a o.id (allFills c) := by
    unfold filledOf
    rw [hfills]
  cases h with
  | pending h hnone => exact .pending (hfly h) (hfills.trans hnone)
  | live hpushed h =>
    refine .live (fun hc => hpushed (hcome hc)) ?_
    rw [hsum, hrem]
    exact h
  | cancelled hpushed hgone hle hcancel =>
    refine .cancelled (fun hc => hpushed (hcome hc)) ?_ (hsum ▸ hle) hcancel
    intro x hx he
    obtain ⟨y, hy, hey⟩ := hback x hx he
    exact hgone y hy hey

theorem Accounted.push (h : Accounted c₀ c a o) (hn : Named c) {env : Env} {b : Address}
    {x : OpenOrder} (hp : c.pending i = .pushOrder env b x :: ws) :
    Accounted c₀ ⟨c.shared.setOrders b (c.shared.state.openOrders b++[x]),
      Function.update c.pending i ([.readBook env x.marketId]++ws)⟩ a o := by
  have hadds : (List.flatMap Section.adds [.readBook env x.marketId]).Sublist
      (Section.pushOrder env b x).adds := by simp [Section.adds]
  have hcomex : Coming c x.id := ⟨i, _, hp ▸ List.mem_cons_self, List.mem_cons_self⟩
  by_cases hid : o.id = x.id
  · -- the id is announced, so the order is the one that is pushed
    have hfly : InFlight c a o ∧ fillsOf a o.id (allFills c) = [] := by
      cases h with
      | pending hf hnone => exact ⟨hf, hnone⟩
      | live hpushed _ => exact absurd (hid ▸ hcomex) hpushed
      | cancelled hpushed _ _ _ => exact absurd (hid ▸ hcomex) hpushed
    obtain ⟨⟨j, env', hx⟩, hnone⟩ := hfly
    have hself : x.id ∈ (Section.pushOrder env b x).adds := List.mem_cons_self
    have hsame : a = b ∧ o = x := by
      rcases hx with hx | hx
      · obtain ⟨-, he⟩ := hn.only hp hx hself (hid ▸ List.mem_cons_self)
        simp at he
      · obtain ⟨-, he⟩ := hn.only hp hx hself (hid ▸ List.mem_cons_self)
        obtain ⟨-, rfl, rfl⟩ : env' = env ∧ a = b ∧ o = x := by simpa using he
        exact ⟨rfl, rfl⟩
    obtain ⟨rfl, rfl⟩ := hsame
    have hnd := (hn.push hp).nodup a
    refine .live (hn.not_coming_pushed hp) ?_
    rw [remainingOf_of_mem hnd (by simp [Shared.setOrders])]
    have hzero : filledOf a o.id (allFills ⟨c.shared.setOrders a
        (c.shared.state.openOrders a++[o]), Function.update c.pending i
          ([.readBook env o.marketId]++ws)⟩) = 0 := by
      change ((fillsOf a o.id (allFills c)).map MatchedFill.qty).sum = 0
      rw [hnone]
      rfl
    rw [hzero, zero_add]
  · have hnot : o.id ∉ (Section.pushOrder env b x).adds := by simpa [Section.adds] using hid
    refine h.keep (fun hf => hf.step hp hnot) (coming_of_step hp hadds) rfl ?_ ?_
    · by_cases hb : a = b
      · subst hb
        simp [Shared.setOrders, remainingOf, List.find?_append, Ne.symm hid]
      · simp [Shared.setOrders, Function.update_of_ne hb]
    · intro y hy he
      rcases mem_setOrders_push hy with hy | ⟨-, rfl⟩
      · exact ⟨y, hy, he⟩
      · exact absurd he.symm hid

theorem Accounted.remove (h : Accounted c₀ c a o) (hpos : ∀ x ∈ c.shared.state.openOrders a,
      0 ≤ x.remaining) {env : Env} {b : Address} {id : ℕ}
    (hp : c.pending i = .call (.cancelOrder env b id) :: ws) (hc : CancelledIn c₀ b id)
    (hadds : (new.flatMap Section.adds).Sublist
      (Section.call (.cancelOrder env b id)).adds) :
    Accounted c₀ ⟨c.shared.setOrders b ((c.shared.state.openOrders b).filter fun o => o.id ≠ id),
      Function.update c.pending i (new++ws)⟩ a o := by
  have hnot : o.id ∉ (Section.call (.cancelOrder env b id)).adds := by simp [Section.adds]
  by_cases hmine : a = b ∧ o.id = id
  · obtain ⟨rfl, rfl⟩ := hmine
    have hgone : ∀ x ∈ (c.shared.setOrders a ((c.shared.state.openOrders a).filter fun x =>
        x.id ≠ o.id)).state.openOrders a, x.id ≠ o.id := by
      intro x hx
      simp only [Shared.setOrders, Function.update_self] at hx
      simpa using (List.mem_filter.mp hx).2
    cases h with
    | pending hf hnone => exact .pending (hf.step hp hnot) hnone
    | live hpushed hsum =>
      refine .cancelled (fun hcome => hpushed (coming_of_step hp hadds hcome)) hgone ?_ hc
      -- what the order had left is given up
      have hleft : 0 ≤ remainingOf (c.shared.state.openOrders a) o.id := by
        unfold remainingOf
        cases hfind : (c.shared.state.openOrders a).find? (fun x => x.id = o.id) with
        | none => simp
        | some x => simpa using hpos x (List.mem_of_find?_eq_some hfind)
      change filledOf a o.id (allFills c) ≤ o.remaining
      linarith
    | cancelled hpushed _ hle hcancel =>
      exact .cancelled (fun hcome => hpushed (coming_of_step hp hadds hcome)) hgone hle hcancel
  · refine h.keep (fun hf => hf.step hp hnot) (coming_of_step hp hadds) rfl ?_ ?_
    · by_cases hb : a = b
      · subst hb
        have hid : o.id ≠ id := fun he => hmine ⟨rfl, he⟩
        simp only [Shared.setOrders, Function.update_self]
        exact remainingOf_filter_of_ne hid _
      · simp [Shared.setOrders, Function.update_of_ne hb]
    · intro y hy he
      exact ⟨y, mem_of_mem_setOrders_filter hy, he⟩

/-- The write section of a taker fills each order for what it takes from it. -/
theorem Accounted.fill (h : Accounted c₀ c a o) (hn : Named c) {env : Env} {marketId : String}
    {q : ℚ} {cs : List Candidate} (hp : c.pending i = .fill env marketId q cs :: ws) :
    Accounted c₀ ⟨{ c.shared with
      state := (c.shared.state.fillSection env marketId q cs).2
      matched := c.shared.matched++(c.shared.state.fillSection env marketId q cs).1.map
        fun m => (i,m) }, Function.update c.pending i ([.readBook env marketId,
          .share (c.shared.state.fillSection env marketId q cs).1]++ws)⟩ a o := by
  set filled := (c.shared.state.fillSection env marketId q cs).1 with hfilled
  have hadds : (List.flatMap Section.adds [.readBook env marketId, .share filled]).Sublist
      (Section.fill env marketId q cs).adds := by simp [Section.adds]
  have hnot : o.id ∉ (Section.fill env marketId q cs).adds := by simp [Section.adds]
  have hall : (c.shared.matched++filled.map fun m => (i,m)).map Prod.snd =
      allFills c++filled := by
    simp [allFills, Function.comp_def]
  have hnone (hgone : ∀ x ∈ c.shared.state.openOrders a, x.id ≠ o.id) :
      fillsOf a o.id (allFills c++filled) = fillsOf a o.id (allFills c) := by
    have hempty := fillsOf_fillSection_eq_nil hgone env marketId q cs
    have happ : fillsOf a o.id (allFills c++filled) =
        fillsOf a o.id (allFills c)++fillsOf a o.id filled := List.filter_append ..
    rw [happ, hempty, List.append_nil]
  have hback : ∀ x ∈ (c.shared.state.fillSection env marketId q cs).2.openOrders a,
      x.id = o.id → ∃ y ∈ c.shared.state.openOrders a, y.id = o.id := by
    intro x hx he
    obtain ⟨y, hy, hs⟩ := exists_of_mem_fillSection hx
    exact ⟨y, hy, (id_eq_of_static hs).trans he⟩
  cases h with
  | pending hf hzero =>
    -- no fill names an order that is not there yet
    refine .pending (hf.step hp hnot) ?_
    unfold allFills
    rw [hall, hnone (hn.fresh o.id hf.coming a)]
    exact hzero
  | live hpushed hsum =>
    -- the fills report what the loop takes, and only spent orders are reaped
    refine .live (fun hcome => hpushed (coming_of_step hp hadds hcome)) ?_
    have htaken := matchLoop_filledOf env.now cs c.shared.state.openOrders q a o.id
    have hreaped : remainingOf ((c.shared.state.fillSection env marketId q cs).2.openOrders a)
        o.id = remainingOf ((matchLoop env.now c.shared.state.openOrders q cs).2 a) o.id := by
      refine remainingOf_reap ?_ o.id
      rw [AppState.matchLoop_ids]
      exact hn.nodup a
    unfold allFills
    dsimp only
    rw [hall, filledOf_append, hreaped]
    change filledOf a o.id (allFills c)+
      filledOf a o.id (matchLoop env.now c.shared.state.openOrders q cs).1+_ = _
    rw [htaken]
    linarith
  | cancelled hpushed hgone hle hcancel =>
    -- nor does one name an order that has gone
    refine .cancelled (fun hcome => hpushed (coming_of_step hp hadds hcome)) ?_ ?_ hcancel
    · intro x hx he
      obtain ⟨y, hy, hey⟩ := hback x hx he
      exact hgone y hy hey
    · unfold allFills filledOf
      rw [hall, hnone hgone]
      exact hle

theorem Accounted.step (h : Accounted c₀ c a o) (hinv : FillInv c₀ c)
    (hp : c.pending i = w :: ws) (hs : OrderStep i c.shared w s new) :
    Accounted c₀ ⟨s, Function.update c.pending i (new++ws)⟩ a o := by
  have hadds := hs.adds_sublist
  -- sections that leave orders and fills alone
  have hquiet (hw : o.id ∉ w.adds) (ho : s.state.openOrders = c.shared.state.openOrders)
      (hm : s.matched = c.shared.matched) :
      Accounted c₀ ⟨s, Function.update c.pending i (new++ws)⟩ a o := by
    refine h.keep (fun hf => hf.step hp hw) (coming_of_step hp hadds) ?_ ?_ ?_
    · simp only [allFills, hm]
    · simp only [ho]
    · intro x hx he
      simp only [ho] at hx
      exact ⟨x, hx, he⟩
  cases hs with
  | announce env address order =>
    by_cases hid : o.id = order.id
    · -- the order in flight moves on to its push
      refine h.keep ?_ (coming_of_step hp hadds) rfl rfl (fun x hx he => ⟨x, hx, he⟩)
      rintro ⟨j, env', hx⟩
      have hself : order.id ∈ (Section.call (.addOpenOrder env address order)).adds :=
        List.mem_cons_self
      rcases hx with hx | hx
      · obtain ⟨-, he⟩ := hinv.named.only hp hx hself (hid ▸ List.mem_cons_self)
        obtain ⟨rfl, rfl, rfl⟩ : env' = env ∧ a = address ∧ o = order := by simpa using he
        exact ⟨i, env', Or.inr (Pool.mem_pending_new List.mem_cons_self)⟩
      · obtain ⟨-, he⟩ := hinv.named.only hp hx hself (hid ▸ List.mem_cons_self)
        simp at he
    · exact hquiet (by simpa [Section.adds] using hid) rfl rfl
  | push env address order => exact h.push hinv.named hp
  | remove env address orderId o' hfind =>
    exact h.remove (hinv.nonneg a) hp
      (hinv.cancels i env address orderId (hp ▸ List.mem_cons_self)) hadds
  | absent env address orderId hfind =>
    exact h.remove (hinv.nonneg a) hp
      (hinv.cancels i env address orderId (hp ▸ List.mem_cons_self)) hadds
  | queueDelete id => exact hquiet (by simp [Section.adds]) rfl rfl
  | collect => exact hquiet (by simp [Section.adds]) rfl rfl
  | fill env marketId takerQty cs => exact h.fill hinv.named hp
  | share => exact hquiet (by simp [Section.adds]) rfl rfl
  | queueOrders => exact hquiet (by simp [Section.adds]) rfl rfl
  | readBook => exact hquiet (by simp [Section.adds]) rfl rfl
  | storeBook => exact hquiet (by simp [Section.adds]) rfl rfl
  | other hw horders hbooks hmatched hsent hnew =>
    exact hquiet (by simp [Section.adds_of_not_isOrder hw]) horders hmatched

omit [DecidableEq ι] in
theorem FillInv.nonneg_step (h : FillInv c₀ c) (hp : c.pending i = w :: ws)
    (hs : OrderStep i c.shared w s new) :
    ∀ a, ∀ o ∈ s.state.openOrders a, 0 ≤ o.remaining := by
  cases hs with
  | announce => exact h.nonneg
  | push env address order =>
    intro a o ho
    rcases mem_setOrders_push ho with ho | ⟨rfl, rfl⟩
    · exact h.nonneg a o ho
    · exact h.flying a o ⟨i, env, Or.inr (hp ▸ List.mem_cons_self)⟩
  | remove env address orderId o' hfind =>
    exact fun a o ho => h.nonneg a o (mem_of_mem_setOrders_filter ho)
  | absent env address orderId hfind =>
    exact fun a o ho => h.nonneg a o (mem_of_mem_setOrders_filter ho)
  | queueDelete => exact h.nonneg
  | collect => exact h.nonneg
  | fill env marketId takerQty cs =>
    have hq := h.fills i env marketId takerQty cs (hp ▸ List.mem_cons_self)
    intro a o ho
    exact (matchLoop_bounded env.now cs hq h.nonneg).1 a o (List.mem_filter.mp ho).1
  | share => exact h.nonneg
  | queueOrders => exact h.nonneg
  | readBook => exact h.nonneg
  | storeBook => exact h.nonneg
  | other hw horders hbooks hmatched hsent hnew =>
    rw [horders]
    exact h.nonneg

theorem FillInv.step (h : FillInv c₀ c) (hp : c.pending i = w :: ws)
    (hs : OrderStep i c.shared w s new) :
    FillInv c₀ ⟨s, Function.update c.pending i (new++ws)⟩ where
  named := h.named.step hp hs
  nonneg := h.nonneg_step hp hs
  flying := fun a o hf => h.flying a o (hf.back hp hs)
  takers := fun j env mk sd p q t hx => h.takers j env mk sd p q t (hs.call_of_mem hp rfl hx)
  fills := by
    intro j env mk q cs hx
    rcases Pool.mem_pending_update hp hx with hold | ⟨rfl, hnew⟩
    · exact h.fills j env mk q cs hold
    · rcases hs.mem_new hnew with ⟨_, _, _, -, h'⟩ | ⟨env', mk', sd, p, q', t, rfl, h'⟩ | h'
      · simp at h'
      · obtain ⟨-, -, rfl, -⟩ : env = env' ∧ mk = mk' ∧ q = q' ∧ cs =
            c.shared.state.candidates env' mk' sd p t := by simpa using h'
        exact h.takers j env' mk' sd p q t (hp ▸ List.mem_cons_self)
      · simp [Section.writesOrders] at h'
  cancels := fun j env a id hx => h.cancels j env a id (hs.call_of_mem hp rfl hx)
  accounted := fun a o hadd => (h.accounted a o hadd).step h hp hs

/-- Off the book and not to come. -/
def Gone (c : Pool ι Section (Shared ι)) (a : Address) (id : ℕ) : Prop :=
  ¬ Coming c id ∧ ∀ o ∈ c.shared.state.openOrders a, o.id ≠ id

theorem Gone.step {id : ℕ} (h : Gone c a id) (hp : c.pending i = w :: ws)
    (hs : OrderStep i c.shared w s new) :
    Gone ⟨s, Function.update c.pending i (new++ws)⟩ a id ∧
      fillsOf a id (s.matched.map Prod.snd) = fillsOf a id (allFills c) := by
  obtain ⟨hcome, hgone⟩ := h
  have hcome' : ¬ Coming ⟨s, Function.update c.pending i (new++ws)⟩ id :=
    fun hc => hcome (coming_of_step hp hs.adds_sublist hc)
  cases hs with
  | announce => exact ⟨⟨hcome', hgone⟩, rfl⟩
  | push env address order =>
    refine ⟨⟨hcome', ?_⟩, rfl⟩
    intro o ho
    rcases mem_setOrders_push ho with ho | ⟨-, rfl⟩
    · exact hgone o ho
    · rintro rfl
      exact hcome ⟨i, _, hp ▸ List.mem_cons_self, List.mem_cons_self⟩
  | remove env address orderId o' hfind =>
    exact ⟨⟨hcome', fun o ho => hgone o (mem_of_mem_setOrders_filter ho)⟩, rfl⟩
  | absent env address orderId hfind =>
    exact ⟨⟨hcome', fun o ho => hgone o (mem_of_mem_setOrders_filter ho)⟩, rfl⟩
  | queueDelete => exact ⟨⟨hcome', hgone⟩, rfl⟩
  | collect => exact ⟨⟨hcome', hgone⟩, rfl⟩
  | fill env marketId takerQty cs =>
    refine ⟨⟨hcome', ?_⟩, ?_⟩
    · intro o ho he
      obtain ⟨y, hy, hst⟩ := exists_of_mem_fillSection ho
      exact hgone y hy ((id_eq_of_static hst).trans he)
    · have hempty := fillsOf_fillSection_eq_nil hgone env marketId takerQty cs
      dsimp only
      rw [List.map_append, List.map_map]
      unfold fillsOf at *
      rw [List.filter_append]
      simpa [Function.comp_def, allFills] using hempty
  | share => exact ⟨⟨hcome', hgone⟩, rfl⟩
  | queueOrders => exact ⟨⟨hcome', hgone⟩, rfl⟩
  | readBook => exact ⟨⟨hcome', hgone⟩, rfl⟩
  | storeBook => exact ⟨⟨hcome', hgone⟩, rfl⟩
  | other hw horders hbooks hmatched hsent hnew =>
    refine ⟨⟨hcome', ?_⟩, ?_⟩
    · simp only [horders]
      exact hgone
    · rw [hmatched]
      rfl

/-- A taker that has not filled yet has its whole quantity to go, and one that has filled will
not do so again. -/
inductive TakerInv (c : Pool ι Section (Shared ι)) (i : ι) (q : ℚ) : Prop where
  | entering {env : Env} {marketId : String} {takerSide : Side} {takerPrice : Option ℚ}
      {taker : Address}
      (hp : c.pending i = [.call (.matchTaker env marketId takerSide takerPrice q taker)])
      (hnone : callFills c i = [])
  | collected {env : Env} {marketId : String} {cs : List Candidate}
      (hp : c.pending i = [.fill env marketId q cs]) (hnone : callFills c i = [])
  | filled (hp : ∀ w ∈ c.pending i, w.writesOrders = false)
      (hle : ((callFills c i).map MatchedFill.qty).sum ≤ q)

omit [DecidableEq ι] in
/-- Only the write section of a taker makes fills. -/
theorem OrderStep.matched_cases (hs : OrderStep i c.shared w s new) :
    s.matched = c.shared.matched ∨ ∃ env marketId q cs, w = .fill env marketId q cs ∧
      s.matched = c.shared.matched++(c.shared.state.fillSection env marketId q cs).1.map
        fun m => (i,m) := by
  cases hs with
  | fill env marketId takerQty cs => exact Or.inr ⟨env, marketId, takerQty, cs, rfl, rfl⟩
  | other hw horders hbooks hmatched hsent hnew => exact Or.inl hmatched
  | _ => exact Or.inl rfl

theorem TakerInv.step {j : ι} {q : ℚ} (h : TakerInv c j q) (hinv : FillInv c₀ c)
    (hp : c.pending i = w :: ws) (hs : OrderStep i c.shared w s new) :
    TakerInv ⟨s, Function.update c.pending i (new++ws)⟩ j q := by
  by_cases hj : j = i
  · subst hj
    cases h with
    | @entering env marketId takerSide takerPrice taker hq hnone =>
      obtain ⟨rfl, rfl⟩ := List.cons.inj (hp.symm.trans hq)
      cases hs with
      | collect => exact .collected (Function.update_self ..) hnone
      | other hw => simp [Section.isOrder] at hw
    | @collected env marketId cs hq hnone =>
      obtain ⟨rfl, rfl⟩ := List.cons.inj (hp.symm.trans hq)
      have hpos := hinv.fills j env marketId q cs (hq ▸ List.mem_cons_self)
      cases hs with
      | fill =>
        refine .filled ?_ ?_
        · intro x hx
          simp only [Function.update_self, List.append_nil, List.mem_cons, List.not_mem_nil,
            or_false] at hx
          rcases hx with rfl | rfl <;> rfl
        · -- these are the first fills of the call
          have hmine : callFills ⟨{ c.shared with
              state := (c.shared.state.fillSection env marketId q cs).2
              matched := c.shared.matched++
                (c.shared.state.fillSection env marketId q cs).1.map fun m => (j,m) },
              Function.update c.pending j ([.readBook env marketId,
                .share (c.shared.state.fillSection env marketId q cs).1]++[])⟩ j =
              callFills c j++(c.shared.state.fillSection env marketId q cs).1 := by
            simp [callFills, List.filter_map, Function.comp_def]
          rw [hmine, hnone, List.nil_append]
          exact (matchLoop_bounded env.now cs hpos hinv.nonneg).2
      | other hw => simp [Section.isOrder] at hw
    | filled hq hle =>
      -- after its fills a call writes no orders any more
      have hw : w.writesOrders = false := hq w (hp ▸ List.mem_cons_self)
      refine .filled ?_ ?_
      · intro x hx
        rcases Pool.mem_pending_update hp hx with hold | ⟨-, hnew⟩
        · exact hq x hold
        · rcases hs.mem_new hnew with ⟨_, _, _, rfl, -⟩ | ⟨_, _, _, _, _, _, rfl, -⟩ | h'
          · simp [Section.writesOrders] at hw
          · simp [Section.writesOrders] at hw
          · exact h'
      · rcases hs.matched_cases with hm | ⟨_, _, _, _, rfl, -⟩
        · unfold callFills
          rw [hm]
          exact hle
        · simp [Section.writesOrders] at hw
  · -- the section of another call
    have hmine : callFills ⟨s, Function.update c.pending i (new++ws)⟩ j = callFills c j := by
      unfold callFills
      dsimp only
      rcases hs.matched_cases with hm | ⟨_, _, _, _, -, hm⟩
      · rw [hm]
      · rw [hm, List.filter_append]
        simp [List.filter_map, Function.comp_def, Ne.symm hj]
    have hsame : (⟨s, Function.update c.pending i (new++ws)⟩ :
        Pool ι Section (Shared ι)).pending j = c.pending j := Function.update_of_ne hj _ _
    cases h with
    | entering hq hnone => exact .entering (hsame.trans hq) (hmine.trans hnone)
    | collected hq hnone => exact .collected (hsame.trans hq) (hmine.trans hnone)
    | filled hq hle => exact .filled (hsame ▸ hq) (hmine ▸ hle)

end Step

section Exact
variable {c₀ c : Pool ι Section (Shared ι)} {a : Address} {o : OpenOrder}

theorem FillInv.remainingOf_nonneg (h : FillInv c₀ c) (a : Address) (id : ℕ) :
    0 ≤ remainingOf (c.shared.state.openOrders a) id := by
  unfold remainingOf
  cases hfind : (c.shared.state.openOrders a).find? (fun x => x.id = id) with
  | none => simp
  | some x => simpa using h.nonneg a x (List.mem_of_find?_eq_some hfind)

/-- An order on the book is filled for what it has lost, one that has left it uncancelled for all
it had, and no order for more. -/
theorem FillInv.exact (h : FillInv c₀ c) (hadd : Added c₀ a o) :
    (∀ x ∈ c.shared.state.openOrders a, x.id = o.id →
      filledOf a o.id (allFills c) = o.remaining-x.remaining) ∧
    (Gone c a o.id → ¬ CancelledIn c₀ a o.id →
      filledOf a o.id (allFills c) = o.remaining) ∧
    filledOf a o.id (allFills c) ≤ o.remaining := by
  have hleft := h.remainingOf_nonneg a o.id
  cases h.accounted a o hadd with
  | pending hf hnone =>
    have hzero : filledOf a o.id (allFills c) = 0 := by simp [filledOf, hnone]
    refine ⟨?_, ?_, ?_⟩
    · exact fun x hx he => absurd he (h.named.fresh o.id hf.coming a x hx)
    · exact fun hgone _ => absurd hf.coming hgone.1
    · rw [hzero]
      exact h.flying a o hf
  | live hpushed hsum =>
    refine ⟨?_, ?_, ?_⟩
    · intro x hx he
      rw [← he, remainingOf_of_mem (h.named.nodup a) hx, he] at hsum
      linarith
    · intro hgone _
      rw [remainingOf_of_absent hgone.2, add_zero] at hsum
      exact hsum
    · linarith
  | cancelled hpushed hgone hle hcancel =>
    exact ⟨fun x hx he => absurd he (hgone x hx), fun _ hnot => absurd hcancel hnot, hle⟩

theorem TakerInv.le {i : ι} {q : ℚ} [DecidableEq ι] (h : TakerInv c i q) (hq : 0 ≤ q) :
    ((callFills c i).map MatchedFill.qty).sum ≤ q := by
  cases h with
  | entering _ hnone => simpa [hnone] using hq
  | collected _ hnone => simpa [hnone] using hq
  | filled _ hle => exact hle

end Exact

end Runs

end Perplex.Edge
