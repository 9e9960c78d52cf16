import Mathlib.Algebra.BigOperators.Group.List.Basic
import Mathlib.Algebra.Order.BigOperators.Group.List
import Mathlib.Data.List.Sort
import Perplex.EdgeModel

/-! What matching does to the resting orders: the candidates are live orders of others, a
positive taker fills them in order up to what they hold, and only the filled makers
change. -/
namespace Perplex.Edge

/-- Two orders of the same keys, without those that hold nothing, list the same things. -/
theorem flatMap_perm_of_covers {κ α : Type} [DecidableEq κ] [DecidableEq α] {f : κ → List α}
    {keys keys' : List κ} (hn : keys.Nodup) (hn' : keys'.Nodup) (h : ∀ a, f a ≠ [] → a ∈ keys)
    (h' : ∀ a, f a ≠ [] → a ∈ keys') : (keys.flatMap f).Perm (keys'.flatMap f) := by
  have hskip (keys : List κ) : keys.flatMap f = (keys.filter fun a => f a ≠ []).flatMap f := by
    induction keys with
    | nil => rfl
    | cons a keys ih =>
      by_cases ha : f a = []
      · simp [ha, ih]
      · simp [ha, ih]
  have hkeys : (keys.filter fun a => f a ≠ []).Perm (keys'.filter fun a => f a ≠ []) := by
    refine (List.perm_ext_iff_of_nodup (hn.filter _) (hn'.filter _)).mpr ?_
    intro a
    simp only [List.mem_filter, decide_eq_true_eq]
    exact ⟨fun ha => ⟨h' a ha.2, ha.2⟩, fun ha => ⟨h a ha.2, ha.2⟩⟩
  rw [hskip keys, hskip keys']
  exact hkeys.flatMap_right _

/-- Nor do the keys that are left out matter. -/
theorem flatMap_filter_perm_of_covers {κ α : Type} [DecidableEq κ] [DecidableEq α]
    {f : κ → List α} {keys keys' : List κ} (hn : keys.Nodup) (hn' : keys'.Nodup)
    (h : ∀ a, f a ≠ [] → a ∈ keys) (h' : ∀ a, f a ≠ [] → a ∈ keys') (p : κ → Bool) :
    ((keys.filter p).flatMap f).Perm ((keys'.filter p).flatMap f) := by
  have hskip (keys : List κ) :
      (keys.filter p).flatMap f = keys.flatMap fun a => if p a then f a else [] := by
    induction keys with
    | nil => rfl
    | cons a keys ih =>
      by_cases ha : p a = true
      · simp [ha, ih]
      · simp [ha, ih]
  have hne {a : κ} (ha : (if p a then f a else []) ≠ []) : f a ≠ [] := by
    rintro h0
    simp [h0] at ha
  rw [hskip keys, hskip keys']
  exact flatMap_perm_of_covers hn hn' (fun a ha => h a (hne ha)) fun a ha => h' a (hne ha)

/-- Quantity resting on one side of a market. -/
def resting (marketId : String) (side : Side) (l : List OpenOrder) : ℚ :=
  (l.map fun o => if o.marketId = marketId ∧ o.side = side then o.remaining else 0).sum

/-- The order of the book after matching: only its remaining quantity may have shrunk, and
only in the matched market. -/
structure Decremented (marketId : String) (o o' : OpenOrder) : Prop where
  same : o' = { o with remaining := o'.remaining }
  nonneg : 0 ≤ o.remaining → 0 ≤ o'.remaining
  le : o'.remaining ≤ o.remaining
  elsewhere : o.marketId ≠ marketId → o' = o

theorem Decremented.refl (marketId : String) (o : OpenOrder) : Decremented marketId o o :=
  ⟨rfl, id, le_rfl, fun _ => rfl⟩

theorem Decremented.trans {marketId : String} {a b c : OpenOrder}
    (hab : Decremented marketId a b) (hbc : Decremented marketId b c) :
    Decremented marketId a c where
  same := by
    rw [hbc.same, hab.same]
  nonneg := fun h => hbc.nonneg (hab.nonneg h)
  le := hbc.le.trans hab.le
  elsewhere := by
    intro h
    have hb := hab.elsewhere h
    have hmarket : b.marketId ≠ marketId := by
      rw [hb]
      exact h
    rw [hbc.elsewhere hmarket, hb]

theorem decremented_trans {marketId : String} {as bs cs : List OpenOrder}
    (hab : List.Forall₂ (Decremented marketId) as bs)
    (hbc : List.Forall₂ (Decremented marketId) bs cs) :
    List.Forall₂ (Decremented marketId) as cs := by
  induction hab generalizing cs with
  | nil => exact hbc
  | cons h _ ih =>
    cases hbc with
    | cons h' hbc => exact .cons (h.trans h') (ih hbc)

section SetRemaining
variable {id : ℕ} {l : List OpenOrder} {o : OpenOrder}

theorem find?_setRemaining_of_ne {id' : ℕ} (hne : id' ≠ id) (r : ℚ) (l : List OpenOrder) :
    (setRemaining id r l).find? (fun o => o.id = id') = l.find? (fun o => o.id = id') := by
  induction l with
  | nil => rfl
  | cons x rest ih =>
    unfold setRemaining
    split_ifs with hx
    · have hx' : ¬ x.id = id' := fun h => hne (h.symm.trans hx)
      simp [hx']
    · simp only [List.find?_cons, ih]

/-- An order of the new list is an old one, or the one that has changed. -/
theorem mem_setRemaining {r : ℚ} (h : o ∈ setRemaining id r l) :
    o ∈ l ∨ ∃ o₀ ∈ l, o₀.id = id ∧ o = { o₀ with remaining := r } := by
  induction l with
  | nil => exact Or.inl h
  | cons x rest ih =>
    unfold setRemaining at h
    split_ifs at h with hx
    · rcases List.mem_cons.mp h with rfl | h
      · exact Or.inr ⟨x, List.mem_cons_self, hx, rfl⟩
      · exact Or.inl (List.mem_cons_of_mem _ h)
    · rcases List.mem_cons.mp h with rfl | h
      · exact Or.inl List.mem_cons_self
      · rcases ih h with h | ⟨o₀, h₀, hid, rfl⟩
        · exact Or.inl (List.mem_cons_of_mem _ h)
        · exact Or.inr ⟨o₀, List.mem_cons_of_mem _ h₀, hid, rfl⟩

theorem resting_setRemaining (h : l.find? (fun o => o.id = id) = some o) (r : ℚ)
    (marketId : String) (side : Side) :
    resting marketId side (setRemaining id r l) = resting marketId side l-
      (if o.marketId = marketId ∧ o.side = side then o.remaining-r else 0) := by
  induction l with
  | nil => simp at h
  | cons x rest ih =>
    unfold setRemaining
    by_cases hx : x.id = id
    · simp only [List.find?_cons, hx, decide_true, Option.some.injEq] at h
      subst h
      simp only [hx, if_true, resting, List.map_cons, List.sum_cons]
      split_ifs
      · ring
      · ring
    · simp only [List.find?_cons, hx, decide_false] at h
      have hrest := ih h
      unfold resting at *
      simp only [hx, if_false, List.map_cons, List.sum_cons, hrest]
      ring

theorem setRemaining_decremented {marketId : String} {r : ℚ}
    (h : l.find? (fun o => o.id = id) = some o) (hm : o.marketId = marketId)
    (h0 : 0 ≤ r) (hle : r ≤ o.remaining) :
    List.Forall₂ (Decremented marketId) l (setRemaining id r l) := by
  induction l with
  | nil => simp at h
  | cons x rest ih =>
    unfold setRemaining
    by_cases hx : x.id = id
    · simp only [List.find?_cons, hx, decide_true, Option.some.injEq] at h
      subst h
      rw [if_pos hx]
      refine .cons ⟨rfl, fun _ => h0, hle, fun hne => absurd hm hne⟩ ?_
      exact List.forall₂_same.mpr (fun y _ => Decremented.refl marketId y)
    · simp only [List.find?_cons, hx, decide_false] at h
      rw [if_neg hx]
      exact .cons (Decremented.refl marketId x) (ih h)

variable {orders : Address → List OpenOrder} {address : Address} {marketId : String}

/-- One decrement changes what its account rests in that market and on that side. -/
theorem resting_update {side : Side}
    (h : (orders address).find? (fun o => o.id = id) = some o) (hm : o.marketId = marketId)
    (hs : o.side = side) (r : ℚ) (mk : String) (sd : Side) (a : Address) :
    resting mk sd (Function.update orders address (setRemaining id r (orders address)) a) =
      resting mk sd (orders a)-
        (if a = address ∧ mk = marketId ∧ sd = side then o.remaining-r else 0) := by
  by_cases ha : a = address
  · subst ha
    rw [Function.update_self, resting_setRemaining h, hm, hs]
    by_cases hms : marketId = mk ∧ side = sd
    · obtain ⟨rfl, rfl⟩ := hms
      simp
    · have hms' : ¬ (mk = marketId ∧ sd = side) := fun h => hms ⟨h.1.symm, h.2.symm⟩
      simp [hms, hms']
  · rw [Function.update_of_ne ha]
    simp [ha]

theorem update_decremented {r : ℚ}
    (h : (orders address).find? (fun o => o.id = id) = some o) (hm : o.marketId = marketId)
    (h0 : 0 ≤ r) (hle : r ≤ o.remaining) (a : Address) :
    List.Forall₂ (Decremented marketId) (orders a)
      (Function.update orders address (setRemaining id r (orders address)) a) := by
  by_cases ha : a = address
  · subst ha
    rw [Function.update_self]
    exact setRemaining_decremented h hm h0 hle
  · rw [Function.update_of_ne ha]
    exact List.forall₂_same.mpr (fun x _ => Decremented.refl marketId x)

end SetRemaining

/-- The candidates are distinct live orders of one side of the market, with the quantity
they were collected with. -/
structure Live (orders : Address → List OpenOrder) (marketId : String) (side : Side)
    (cs : List Candidate) : Prop where
  distinct : cs.Pairwise fun a b => ¬ (a.address = b.address ∧ a.id = b.id)
  stored : ∀ c ∈ cs, ∃ o, (orders c.address).find? (fun o => o.id = c.id) = some o ∧
    o.marketId = marketId ∧ o.side = side ∧ o.remaining = c.rem

theorem Live.tail {orders : Address → List OpenOrder} {marketId : String} {side : Side}
    {c : Candidate} {cs : List Candidate} (h : Live orders marketId side (c :: cs)) (r : ℚ) :
    Live (Function.update orders c.address (setRemaining c.id r (orders c.address)))
      marketId side cs where
  distinct := (List.pairwise_cons.mp h.distinct).2
  stored := by
    intro c' hc'
    obtain ⟨o, ho, hrest⟩ := h.stored c' (List.mem_cons_of_mem _ hc')
    refine ⟨o, ?_, hrest⟩
    have hdiff := (List.pairwise_cons.mp h.distinct).1 c' hc'
    by_cases ha : c'.address = c.address
    · have hid : c'.id ≠ c.id := fun he => hdiff ⟨ha.symm, he.symm⟩
      rw [ha, Function.update_self, find?_setRemaining_of_ne hid, ← ha]
      exact ho
    · rw [Function.update_of_ne ha]
      exact ho

/-- Every fill is with a maker among the candidates. -/
theorem matchLoop_makers (now : ℕ) (cs : List Candidate) (orders : Address → List OpenOrder)
    (q : ℚ) : ∀ m ∈ (matchLoop now orders q cs).1, ∃ c ∈ cs, m.makerAddress = c.address := by
  induction cs generalizing orders q with
  | nil => simp [matchLoop]
  | cons c cs ih =>
    have hlift {m : MatchedFill} (h : ∃ c' ∈ cs, m.makerAddress = c'.address) :
        ∃ c' ∈ c :: cs, m.makerAddress = c'.address := by
      obtain ⟨c', hc', he⟩ := h
      exact ⟨c', List.mem_cons_of_mem _ hc', he⟩
    unfold matchLoop
    split_ifs
    · simp
    split
    · exact fun m hm => hlift (ih _ _ m hm)
    · split_ifs
      · exact fun m hm => hlift (ih _ _ m hm)
      · intro m hm
        rcases List.mem_cons.mp hm with rfl | hm
        · exact ⟨c, List.mem_cons_self, rfl⟩
        · exact hlift (ih _ _ m hm)

/-- What an account was filled for as maker. -/
def makerFilled (address : Address) (filled : List MatchedFill) : ℚ :=
  (filled.map fun m => if m.makerAddress = address then m.qty else 0).sum

/-- What the loop does for a taker of positive quantity. -/
structure LoopResult (marketId : String) (side : Side) (cs : List Candidate) (q : ℚ)
    (orders : Address → List OpenOrder) (filled : List MatchedFill)
    (orders' : Address → List OpenOrder) : Prop where
  positive : ∀ m ∈ filled, 0 < m.qty
  total : (filled.map MatchedFill.qty).sum = min q (cs.map Candidate.rem).sum
  shrunk : ∀ a, List.Forall₂ (Decremented marketId) (orders a) (orders' a)
  rest_same : ∀ a mk sd, ¬ (mk = marketId ∧ sd = side) →
    resting mk sd (orders' a) = resting mk sd (orders a)
  rest_filled : ∀ a, resting marketId side (orders' a) =
    resting marketId side (orders a)-makerFilled a filled

theorem LoopResult.none {marketId : String} {side : Side} {cs : List Candidate} {q : ℚ}
    {orders : Address → List OpenOrder} (h : min q (cs.map Candidate.rem).sum = 0) :
    LoopResult marketId side cs q orders [] orders where
  positive := by simp
  total := by simp [h]
  shrunk := fun _ => List.forall₂_same.mpr (fun o _ => Decremented.refl marketId o)
  rest_same := fun _ _ _ _ => rfl
  rest_filled := fun _ => by simp [makerFilled]

/-- By induction along the candidates: each step takes the smaller of what the taker and
the maker have left. -/
theorem matchLoop_spec {marketId : String} {side : Side} {now : ℕ} {cs : List Candidate}
    {orders : Address → List OpenOrder} {q : ℚ} (hq : 0 ≤ q)
    (hlive : Live orders marketId side cs) (hrem : ∀ c ∈ cs, 0 < c.rem) :
    LoopResult marketId side cs q orders (matchLoop now orders q cs).1
      (matchLoop now orders q cs).2 := by
  induction cs generalizing orders q with
  | nil =>
    refine LoopResult.none ?_
    simpa using hq
  | cons c cs ih =>
    have hsum : 0 ≤ (cs.map Candidate.rem).sum := by
      apply List.sum_nonneg
      intro x hx
      obtain ⟨c', hc', rfl⟩ := List.mem_map.mp hx
      exact (hrem c' (List.mem_cons_of_mem _ hc')).le
    have hc := hrem c List.mem_cons_self
    unfold matchLoop
    by_cases h0 : q = 0
    · rw [if_pos h0]
      refine LoopResult.none ?_
      rw [h0]
      simp only [List.map_cons, List.sum_cons]
      exact min_eq_left (by linarith)
    rw [if_neg h0]
    obtain ⟨o, ho, hm, hs, hr⟩ := hlive.stored c List.mem_cons_self
    have hrpos : 0 < o.remaining := hr ▸ hc
    simp only [ho, if_neg hrpos.ne']
    -- the step takes `f` from both, and the rest of the loop sees the smaller taker
    set f := min q o.remaining with hf
    have hfpos : 0 < f := lt_min (lt_of_le_of_ne hq (Ne.symm h0)) hrpos
    have hfq : f ≤ q := min_le_left _ _
    have hfr : f ≤ o.remaining := min_le_right _ _
    have hrec := ih (sub_nonneg.mpr hfq) (hlive.tail (o.remaining-f))
      (fun c' hc' => hrem c' (List.mem_cons_of_mem _ hc'))
    set orders₁ := Function.update orders c.address
      (setRemaining c.id (o.remaining-f) (orders c.address)) with horders
    have hrest (mk : String) (sd : Side) (a : Address) : resting mk sd (orders₁ a) =
        resting mk sd (orders a)-
          (if a = c.address ∧ mk = marketId ∧ sd = side then f else 0) := by
      rw [horders, resting_update ho hm hs]
      ring_nf
    refine ⟨?_, ?_, ?_, ?_, ?_⟩
    · exact List.forall_mem_cons.mpr ⟨hfpos, hrec.positive⟩
    · simp only [List.map_cons, List.sum_cons, hrec.total]
      rw [← hr]
      -- either the taker ends here, or the maker does and the loop goes on
      rcases le_total q o.remaining with hle | hle
      · have hfe : f = q := min_eq_left hle
        rw [hfe, sub_self, min_eq_left hsum, min_eq_left (by linarith), add_zero]
      · have hfe : f = o.remaining := min_eq_right hle
        rw [hfe, ← min_add_add_left]
        congr 1
        ring
    · intro a
      refine decremented_trans ?_ (hrec.shrunk a)
      exact update_decremented ho hm (by linarith) (by linarith) a
    · intro a mk sd hne
      rw [hrec.rest_same a mk sd hne, hrest, if_neg (fun h => hne h.2), sub_zero]
    · intro a
      rw [hrec.rest_filled a, hrest]
      simp only [makerFilled, List.map_cons, List.sum_cons, and_true]
      by_cases ha : a = c.address
      · subst ha
        simp only [if_true]
        ring
      · simp only [ha, if_false, Ne.symm ha]
        ring

/-- A negative taker meets its first maker with the whole of its quantity, and stops. -/
theorem matchLoop_negative {marketId : String} {side : Side} {now : ℕ} {c : Candidate}
    {cs : List Candidate} {orders : Address → List OpenOrder} {q : ℚ} (hq : q < 0)
    (hlive : Live orders marketId side (c :: cs)) (hrem : 0 < c.rem) :
    (matchLoop now orders q (c :: cs)).1 = [⟨c.address, c.id, c.price, q, now⟩] := by
  obtain ⟨o, ho, -, -, hr⟩ := hlive.stored c List.mem_cons_self
  have hrpos : 0 < o.remaining := hr ▸ hrem
  have hmin : min q o.remaining = q := min_eq_left (by linarith)
  have hstop (orders : Address → List OpenOrder) : matchLoop now orders 0 cs = ([],orders) := by
    cases cs <;> simp [matchLoop]
  unfold matchLoop
  simp only [if_neg hq.ne, ho, if_neg hrpos.ne', hmin, sub_self, hstop]

/-- What `match_taker` leaves of a list once its loop is done. -/
def reap (marketId : String) (l : List OpenOrder) : List OpenOrder :=
  l.filter fun o => o.marketId ≠ marketId ∨ o.remaining ≠ 0

/-- What every state keeps about the ids of the open orders. -/
structure AppState.Indexed (s : AppState) : Prop where
  nodup : ∀ a, ((s.openOrders a).map OpenOrder.id).Nodup
  below : ∀ a, ∀ o ∈ s.openOrders a, o.id < s.nextUlid

theorem find?_id_of_mem {l : List OpenOrder} (h : (l.map OpenOrder.id).Nodup) {o : OpenOrder}
    (ho : o ∈ l) : l.find? (fun x => x.id = o.id) = some o := by
  induction l with
  | nil => simp at ho
  | cons x rest ih =>
    obtain ⟨hx, hrest⟩ := List.nodup_cons.mp h
    -- an earlier order has another id
    rcases List.mem_cons.mp ho with rfl | ho
    · simp
    · have hne : ¬ x.id = o.id := fun he => hx (List.mem_map.mpr ⟨o, ho, he.symm⟩)
      simpa [hne] using ih hrest ho

namespace AppState
variable (s : AppState) (env : Env) (marketId : String) (takerSide : Side)
  (takerPrice : Option ℚ) (taker : Address)

/-- The orders of others that a taker can meet. -/
def makers : List OpenOrder :=
  (env.keys.filter (· ≠ taker)).flatMap fun addr =>
    (s.openOrders addr).filter fun o => o.isMaker marketId takerSide takerPrice

theorem candidates_rem_perm :
    ((s.candidates env marketId takerSide takerPrice taker).map Candidate.rem).Perm
      ((s.makers env marketId takerSide takerPrice taker).map OpenOrder.remaining) := by
  refine ((List.perm_insertionSort _ _).map _).trans ?_
  unfold makers
  rw [List.map_flatMap, List.map_flatMap]
  simp only [List.map_map]
  exact List.Perm.refl _

theorem candidates_eq_nil_iff : s.candidates env marketId takerSide takerPrice taker = [] ↔
    s.makers env marketId takerSide takerPrice taker = [] := by
  have h := (s.candidates_rem_perm env marketId takerSide takerPrice taker).length_eq
  simp only [List.length_map] at h
  rw [← List.length_eq_zero_iff, h, List.length_eq_zero_iff]

variable {s env marketId takerSide takerPrice taker}

theorem mem_candidates {c : Candidate}
    (h : c ∈ s.candidates env marketId takerSide takerPrice taker) :
    c.address ≠ taker ∧ ∃ o ∈ s.openOrders c.address,
      o.isMaker marketId takerSide takerPrice ∧
        c = ⟨c.address, o.id, o.price, o.remaining, o.tsNs⟩ := by
  have hmem := (List.perm_insertionSort _ _).mem_iff.mp h
  obtain ⟨addr, haddr, hc⟩ := List.mem_flatMap.mp hmem
  obtain ⟨o, ho, rfl⟩ := List.mem_map.mp hc
  obtain ⟨ho, hmaker⟩ := List.mem_filter.mp ho
  have hne : addr ≠ taker := by simpa using (List.mem_filter.mp haddr).2
  exact ⟨hne, o, ho, hmaker, rfl⟩

/-- Candidates are told apart by account and id, whatever order the sort puts them in. -/
theorem candidates_distinct (h : ∀ a, ((s.openOrders a).map OpenOrder.id).Nodup) :
    (s.candidates env marketId takerSide takerPrice taker).Pairwise
      fun a b => ¬ (a.address = b.address ∧ a.id = b.id) := by
  refine ((List.perm_insertionSort _ _).pairwise_iff
    (fun hab hba => hab ⟨hba.1.symm, hba.2.symm⟩)).mpr ?_
  rw [List.pairwise_flatMap]
  refine ⟨?_, ?_⟩
  · intro addr _
    rw [List.pairwise_map]
    have hids := List.pairwise_map.mp (h addr)
    refine (hids.sublist List.filter_sublist).imp ?_
    intro a b hab he
    exact hab he.2
  · refine (env.nodup.sublist List.filter_sublist).imp ?_
    intro a b hab x hx y hy he
    obtain ⟨_, _, rfl⟩ := List.mem_map.mp hx
    obtain ⟨_, _, rfl⟩ := List.mem_map.mp hy
    exact hab he.1

theorem candidates_live (h : ∀ a, ((s.openOrders a).map OpenOrder.id).Nodup) :
    Live s.openOrders marketId takerSide.opposite
      (s.candidates env marketId takerSide takerPrice taker) where
  distinct := candidates_distinct h
  stored := by
    intro c hc
    obtain ⟨-, o, ho, hmaker, he⟩ := mem_candidates hc
    simp only [OpenOrder.isMaker, decide_eq_true_eq] at hmaker
    refine ⟨o, ?_, hmaker.1, hmaker.2.1, ?_⟩
    · rw [he]
      exact find?_id_of_mem (h c.address) ho
    · rw [he]

theorem candidates_rem_pos (hpos : ∀ a, ∀ o ∈ s.openOrders a, 0 < o.remaining) :
    ∀ c ∈ s.candidates env marketId takerSide takerPrice taker, 0 < c.rem := by
  intro c hc
  obtain ⟨_, o, ho, _, he⟩ := mem_candidates hc
  rw [he]
  exact hpos c.address o ho

theorem resting_reap (marketId : String) (side : Side) (mk : String) (l : List OpenOrder) :
    resting mk side (l.filter fun o => o.marketId ≠ marketId ∨ o.remaining ≠ 0) =
      resting mk side l := by
  induction l with
  | nil => rfl
  | cons o rest ih =>
    unfold resting at *
    rw [List.filter_cons]
    split_ifs with h
    · simp only [List.map_cons, List.sum_cons, ih]
    · have hz : o.remaining = 0 := by
        by_contra hne
        exact h (by simp [hne])
      rw [ih, List.map_cons, List.sum_cons, hz]
      simp

theorem exists_related_of_mem {α : Type} {R : α → α → Prop} {l l' : List α}
    (h : List.Forall₂ R l l') {b : α} (hb : b ∈ l') : ∃ a ∈ l, R a b := by
  induction h with
  | nil => simp at hb
  | cons hab _ ih =>
    rcases List.mem_cons.mp hb with rfl | hb
    · exact ⟨_, List.mem_cons_self, hab⟩
    · obtain ⟨a, ha, hr⟩ := ih hb
      exact ⟨a, List.mem_cons_of_mem _ ha, hr⟩

/-- Matching a positive taker: positive fills with others, for as much as they hold. -/
structure Matched (s : AppState) (env : Env) (marketId : String) (takerSide : Side)
    (takerPrice : Option ℚ) (takerQty : ℚ) (taker : Address) (filled : List MatchedFill)
    (s' : AppState) : Prop where
  positive : ∀ m ∈ filled, 0 < m.qty
  others : ∀ m ∈ filled, m.makerAddress ≠ taker
  total : (filled.map MatchedFill.qty).sum = min takerQty
    ((s.makers env marketId takerSide takerPrice taker).map OpenOrder.remaining).sum
  kept : ∀ a, ∀ o' ∈ s'.openOrders a, ∃ o ∈ s.openOrders a,
    o' = { o with remaining := o'.remaining } ∧ 0 < o'.remaining ∧ o'.remaining ≤ o.remaining
  rest_same : ∀ a mk sd, ¬ (mk = marketId ∧ sd = takerSide.opposite) →
    resting mk sd (s'.openOrders a) = resting mk sd (s.openOrders a)
  rest_filled : ∀ a, resting marketId takerSide.opposite (s'.openOrders a) =
    resting marketId takerSide.opposite (s.openOrders a)-makerFilled a filled

theorem matchTaker_spec {takerQty : ℚ} (h : s.Indexed)
    (hpos : ∀ a, ∀ o ∈ s.openOrders a, 0 < o.remaining) (hq : 0 ≤ takerQty) :
    Matched s env marketId takerSide takerPrice takerQty taker
      (s.matchTaker env marketId takerSide takerPrice takerQty taker).1
      (s.matchTaker env marketId takerSide takerPrice takerQty taker).2 := by
  set cs := s.candidates env marketId takerSide takerPrice taker with hcs
  have hlive : Live s.openOrders marketId takerSide.opposite cs := candidates_live h.nodup
  have hr : LoopResult marketId takerSide.opposite cs takerQty s.openOrders
      (matchLoop env.now s.openOrders takerQty cs).1
      (matchLoop env.now s.openOrders takerQty cs).2 :=
    matchLoop_spec hq hlive (candidates_rem_pos hpos)
  refine ⟨hr.positive, ?_, ?_, ?_, ?_, ?_⟩
  · intro m hm
    obtain ⟨c, hc, hma⟩ := matchLoop_makers _ _ _ _ m hm
    rw [hma]
    exact (mem_candidates hc).1
  · have hsum : (cs.map Candidate.rem).sum =
        ((s.makers env marketId takerSide takerPrice taker).map OpenOrder.remaining).sum :=
      (s.candidates_rem_perm env marketId takerSide takerPrice taker).sum_eq
    rw [← hsum]
    exact hr.total
  · intro a o' ho'
    obtain ⟨ho', hkeep⟩ := List.mem_filter.mp ho'
    obtain ⟨o, ho, hdec⟩ := exists_related_of_mem (hr.shrunk a) ho'
    refine ⟨o, ho, hdec.same, ?_, hdec.le⟩
    -- an order of another market is untouched; one of this market was not reaped
    by_cases hmk : o.marketId = marketId
    · have hmk' : o'.marketId = marketId := by rw [hdec.same]; exact hmk
      have hne : o'.remaining ≠ 0 := by simpa [hmk'] using hkeep
      exact lt_of_le_of_ne (hdec.nonneg (hpos a o ho).le) hne.symm
    · rw [hdec.elsewhere hmk]
      exact hpos a o ho
  · intro a mk sd hne
    exact (resting_reap marketId sd mk _).trans (hr.rest_same a mk sd hne)
  · intro a
    exact (resting_reap marketId takerSide.opposite marketId _).trans (hr.rest_filled a)

/-- A negative taker that meets a maker is filled once, for its negative quantity. -/
theorem matchTaker_negative {takerQty : ℚ} (h : s.Indexed)
    (hpos : ∀ a, ∀ o ∈ s.openOrders a, 0 < o.remaining) (hq : takerQty < 0)
    (hne : s.makers env marketId takerSide takerPrice taker ≠ []) :
    ∃ m, (s.matchTaker env marketId takerSide takerPrice takerQty taker).1 = [m] ∧
      m.qty = takerQty := by
  have hlive : Live s.openOrders marketId takerSide.opposite
    (s.candidates env marketId takerSide takerPrice taker) := candidates_live h.nodup
  have hrem : ∀ c ∈ s.candidates env marketId takerSide takerPrice taker, 0 < c.rem :=
    candidates_rem_pos hpos
  cases hc : s.candidates env marketId takerSide takerPrice taker with
  | nil => exact absurd ((s.candidates_eq_nil_iff ..).mp hc) hne
  | cons c cs =>
    rw [hc] at hlive hrem
    refine ⟨⟨c.address, c.id, c.price, takerQty, env.now⟩, ?_, rfl⟩
    change (matchLoop env.now s.openOrders takerQty
      (s.candidates env marketId takerSide takerPrice taker)).1 = _
    rw [hc]
    exact matchLoop_negative hq hlive (hrem c List.mem_cons_self)

/-- Without makers nothing is filled and every order stays. -/
theorem matchTaker_no_makers {takerQty : ℚ}
    (hpos : ∀ a, ∀ o ∈ s.openOrders a, 0 < o.remaining)
    (hnil : s.makers env marketId takerSide takerPrice taker = []) :
    (s.matchTaker env marketId takerSide takerPrice takerQty taker).1 = [] ∧
      (s.matchTaker env marketId takerSide takerPrice takerQty taker).2.openOrders =
        s.openOrders := by
  have hc : s.candidates env marketId takerSide takerPrice taker = [] :=
    (s.candidates_eq_nil_iff ..).mpr hnil
  unfold matchTaker
  rw [hc]
  refine ⟨rfl, ?_⟩
  funext a
  apply List.filter_eq_self.mpr
  intro o ho
  simp [(hpos a o ho).ne']

end AppState

end Perplex.Edge
