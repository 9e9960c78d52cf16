import Perplex.EdgeGates
import Perplex.EdgeSections

/-! Matching in the arithmetic of `Decimal`. Where the remaining quantities and that of the taker
are of one scale, the loop of `match_taker` and the probe neither round nor panic; where the sums of
the levels are too, neither does the book that is rebuilt. -/
namespace Perplex.Edge

/-- What the orders at a price have left. -/
def restingAt (l : List OpenOrder) (price : ℚ) : ℚ :=
  ((l.filter fun o => o.price = price).map OpenOrder.remaining).sum

@[simp]
theorem restingAt_cons_self (o : OpenOrder) (l : List OpenOrder) :
    restingAt (o :: l) o.price = o.remaining+restingAt l o.price := by
  simp [restingAt]

theorem restingAt_cons_of_ne {o : OpenOrder} {price : ℚ} (h : o.price ≠ price)
    (l : List OpenOrder) : restingAt (o :: l) price = restingAt l price := by
  simp [restingAt, h]

namespace Decimal

section Model
variable (round : ℚ → ℚ)

/-- Phase 2 of `match_taker`. A panic leaves the orders as they are then. -/
def fillSection (s : AppState) (env : Env) (marketId : String) (takerQty : ℚ)
    (candidates : List Candidate) : Except AppState (List MatchedFill × AppState) :=
  match matchLoop round env.now s.openOrders takerQty candidates with
  | .error (_,orders) => .error { s with openOrders := orders }
  | .ok (filled,orders) =>
    let reaped := fun addr => (orders addr).filter fun o =>
      o.marketId ≠ marketId ∨ o.remaining ≠ 0
    .ok (filled,{ s with openOrders := reaped })

/-- `match_taker`. -/
def matchTaker (s : AppState) (env : Env) (marketId : String) (takerSide : Side)
    (takerPrice : Option ℚ) (takerQty : ℚ) (taker : Address) :
    Except AppState (List MatchedFill × AppState) := do
  let filled ← fillSection round s env marketId takerQty
    (s.candidates env marketId takerSide takerPrice taker)
  let s' ← rebuildOrderbook round filled.2 env marketId
  return (filled.1,s')

end Model

/-- `R` says what an order of a market may have left. -/
def Leaves (R : String → ℚ → Prop) (orders : Address → List OpenOrder) : Prop :=
  ∀ a, ∀ o ∈ orders a, R o.marketId o.remaining

/-- Every open order of a market is of scale `k`. -/
def OnGrid (k : ℕ) (marketId : String) (orders : Address → List OpenOrder) : Prop :=
  Leaves (fun m x => m = marketId → rustDecimal.Grid k x) orders

/-- So is what the orders of the market have left at each price of a side. -/
def LevelsOnGrid (k : ℕ) (s : AppState) (env : Env) (marketId : String) : Prop :=
  ∀ side price, rustDecimal.Grid k (restingAt (s.restingOrders env marketId side) price)

/-- The orders that the candidates name, as far as they are there, are of one market. -/
def NamedIn (marketId : String) (orders : Address → List OpenOrder) (cs : List Candidate) : Prop :=
  ∀ c ∈ cs, ∀ o ∈ orders c.address, o.id = c.id → o.marketId = marketId

/-- What the orders of one kind have left. -/
def leftOf (p : OpenOrder → Bool) (l : List OpenOrder) : ℚ :=
  ((l.filter p).map OpenOrder.remaining).sum

/-- A kind that does not depend on what is left. -/
def Fixed (p : OpenOrder → Bool) : Prop :=
  ∀ (o : OpenOrder) (r : ℚ), p { o with remaining := r } = p o

variable {round : ℚ → ℚ} {k : ℕ}

theorem abs_lt_of_grid {x : ℚ} (h : rustDecimal.Grid k x) : Fits x := by
  have hlt := h.abs_lt
  unfold Fits
  exact_mod_cast hlt

theorem result_of_grid {σ : Type} (hround : rustDecimal.IsRounding round) {x : ℚ}
    (h : rustDecimal.Grid k x) (left : σ) : result round left x = .ok x := by
  rw [result_of_fits (abs_lt_of_grid h), h.round_eq hround]

theorem leftOf_cons (p : OpenOrder → Bool) (o : OpenOrder) (l : List OpenOrder) :
    leftOf p (o :: l) = (if p o then o.remaining else 0)+leftOf p l := by
  unfold leftOf
  rw [List.filter_cons]
  split_ifs <;> simp

/-- Orders with nothing left do not count. -/
theorem leftOf_congr {p q : OpenOrder → Bool} {l : List OpenOrder}
    (h : ∀ o ∈ l, o.remaining ≠ 0 → p o = q o) : leftOf p l = leftOf q l := by
  induction l with
  | nil => rfl
  | cons o rest ih =>
    obtain ⟨ho, hrest⟩ := List.forall_mem_cons.mp h
    rw [leftOf_cons, leftOf_cons, ih hrest]
    by_cases hz : o.remaining = 0
    · simp [hz]
    · rw [ho hz]

theorem leftOf_filter (p q : OpenOrder → Bool) (l : List OpenOrder) :
    leftOf p (l.filter q) = leftOf (fun o => p o && q o) l := by
  unfold leftOf
  rw [List.filter_filter]

theorem leftOf_setRemaining_le {p : OpenOrder → Bool} (hp : Fixed p) {id : ℕ} {r : ℚ}
    {l : List OpenOrder} {o : OpenOrder} (ho : l.find? (fun o => o.id = id) = some o)
    (hr : r ≤ o.remaining) : leftOf p (setRemaining id r l) ≤ leftOf p l := by
  induction l with
  | nil => simp at ho
  | cons x rest ih =>
    unfold setRemaining
    by_cases hx : x.id = id
    · obtain rfl : x = o := by simpa [hx] using ho
      rw [if_pos hx, leftOf_cons, leftOf_cons, hp]
      apply add_le_add_left
      split_ifs
      · exact hr
      · exact le_rfl
    · rw [if_neg hx, leftOf_cons, leftOf_cons]
      exact add_le_add_right (ih (by simpa [hx] using ho)) _

section Loop
variable {R : String → ℚ → Prop} {marketId : String}
  (hround : rustDecimal.IsRounding round) (hR : ∀ x, R marketId x ↔ rustDecimal.Grid k x)
include hround hR

/-- One maker is drawn on: what is left of it and of the taker is of the scale, and the maker's list
is the only one that changes. -/
theorem drawOn_of_grid {orders : Address → List OpenOrder} {remaining : ℚ} {c : Candidate}
    {cs : List Candidate} {o : OpenOrder} (hq : rustDecimal.Grid k remaining)
    (h : Leaves R orders) (hcs : NamedIn marketId orders (c :: cs))
    (ho : (orders c.address).find? (fun o => o.id = c.id) = some o) :
    ∃ next, drawOn round orders remaining c o = .ok (remaining-min remaining o.remaining,next) ∧
      next = Function.update orders c.address
        (setRemaining c.id (o.remaining-min remaining o.remaining) (orders c.address)) ∧
      rustDecimal.Grid k (remaining-min remaining o.remaining) ∧
      Leaves R next ∧ NamedIn marketId next cs ∧
      ∀ p, Fixed p → ∀ a, leftOf p (next a) ≤ leftOf p (orders a) := by
  obtain ⟨hnamed, hcs⟩ := List.forall_mem_cons.mp hcs
  have hmem := List.mem_of_find?_eq_some ho
  have hmaker : rustDecimal.Grid k o.remaining := by
    have hleft := h c.address o hmem
    rw [hnamed o hmem (by simpa using List.find?_some ho)] at hleft
    exact (hR _).mp hleft
  have hleft := hq.sub_min_right hmaker
  -- an order after the draw is one before it, or the maker with what is left of it
  have hback {a : Address} {x : OpenOrder} (hx : x ∈ Function.update orders c.address
      (setRemaining c.id (o.remaining-min remaining o.remaining) (orders c.address)) a) :
      ∃ x₀ ∈ orders a, x₀.id = x.id ∧ x₀.marketId = x.marketId ∧
        (x₀ = x ∨ x.marketId = marketId ∧ x.remaining = o.remaining-min remaining o.remaining) := by
    by_cases ha : a = c.address
    · subst ha
      rw [Function.update_self] at hx
      rcases mem_setRemaining hx with hx | ⟨x₀, h₀, hid, rfl⟩
      · exact ⟨x, hx, rfl, rfl, Or.inl rfl⟩
      · exact ⟨x₀, h₀, rfl, rfl, Or.inr ⟨hnamed x₀ h₀ hid, rfl⟩⟩
    · rw [Function.update_of_ne ha] at hx
      exact ⟨x, hx, rfl, rfl, Or.inl rfl⟩
  refine ⟨_, ?_, rfl, hq.sub_min_left hmaker, ?_, ?_, ?_⟩
  · unfold drawOn
    dsimp only
    rw [result_of_grid hround hleft]
    change (do
      let remaining ← result round _ (remaining-min remaining o.remaining)
      return (remaining,_)) = _
    rw [result_of_grid hround (hq.sub_min_left hmaker)]
    rfl
  · intro a x hx
    obtain ⟨x₀, h₀, -, -, rfl | ⟨hmarket, hrem⟩⟩ := hback hx
    · exact h a x₀ h₀
    · rw [hmarket, hrem]
      exact (hR _).mpr hleft
  · intro c' hc' x hx hid
    obtain ⟨x₀, h₀, hid₀, hmarket, -⟩ := hback hx
    rw [← hmarket]
    exact hcs c' hc' x₀ h₀ (hid₀.trans hid)
  · intro p hp a
    by_cases ha : a = c.address
    · subst ha
      rw [Function.update_self]
      exact leftOf_setRemaining_le hp ho (by linarith [(hq.min hmaker).nonneg])
    · rw [Function.update_of_ne ha]

/-- The loop draws on amounts of one scale, and leaves such, and no more of them. -/
theorem matchLoop_of_grid (now : ℕ) {cs : List Candidate} {orders : Address → List OpenOrder}
    {remaining : ℚ} (hq : rustDecimal.Grid k remaining) (h : Leaves R orders)
    (hcs : NamedIn marketId orders cs) :
    matchLoop round now orders remaining cs = .ok (Edge.matchLoop now orders remaining cs) ∧
      Leaves R (Edge.matchLoop now orders remaining cs).2 ∧
      ∀ p, Fixed p → ∀ a,
        leftOf p ((Edge.matchLoop now orders remaining cs).2 a) ≤ leftOf p (orders a) := by
  induction cs generalizing orders remaining with
  | nil => exact ⟨rfl, h, fun p hp a => le_rfl⟩
  | cons c rest ih =>
    have hrest : NamedIn marketId orders rest := (List.forall_mem_cons.mp hcs).2
    unfold matchLoop Edge.matchLoop
    by_cases hz : remaining = 0
    · rw [if_pos hz, if_pos hz]
      exact ⟨rfl, h, fun p hp a => le_rfl⟩
    rw [if_neg hz, if_neg hz]
    cases ho : (orders c.address).find? (fun o => o.id = c.id) with
    | none => exact ih hq h hrest
    | some o =>
      dsimp only
      by_cases hr : o.remaining = 0
      · rw [if_pos hr, if_pos hr]
        exact ih hq h hrest
      rw [if_neg hr, if_neg hr]
      -- the rest starts from orders and a taker that are of the scale again
      obtain ⟨next, hdraw, rfl, hleft, hnext, hnamed, hless⟩ :=
        drawOn_of_grid hround hR hq h hcs ho
      obtain ⟨heq, hleaves, hsum⟩ := ih hleft hnext hnamed
      rw [hdraw]
      change pushFill _ (matchLoop round now _ _ rest) = _ ∧ _
      rw [heq]
      exact ⟨rfl, hleaves, fun p hp a => (hsum p hp a).trans (hless p hp a)⟩

/-- What is reaped has nothing left. -/
theorem fillSection_of_grid {s : AppState} (env : Env) {takerQty : ℚ} (cs : List Candidate)
    (hq : rustDecimal.Grid k takerQty) (h : Leaves R s.openOrders)
    (hcs : NamedIn marketId s.openOrders cs) :
    fillSection round s env marketId takerQty cs =
        .ok (s.fillSection env marketId takerQty cs) ∧
      Leaves R (s.fillSection env marketId takerQty cs).2.openOrders ∧
      ∀ p, Fixed p → ∀ a, leftOf p ((s.fillSection env marketId takerQty cs).2.openOrders a) ≤
        leftOf p (s.openOrders a) := by
  obtain ⟨heq, hleaves, hsum⟩ := matchLoop_of_grid hround hR env.now hq h hcs
  unfold fillSection AppState.fillSection
  rw [heq]
  refine ⟨rfl, fun a o ho => hleaves a o (List.mem_filter.mp ho).1, fun p hp a => ?_⟩
  dsimp only
  rw [leftOf_filter]
  refine (leftOf_congr fun o _ hz => ?_).trans_le (hsum p hp a)
  simp [hz]

end Loop

theorem restingAt_scale {l : List OpenOrder} (h : ∀ o ∈ l, OnScale k o.remaining) (price : ℚ) :
    OnScale k (restingAt l price) := by
  refine OnScale.sum fun x hx => ?_
  obtain ⟨o, ho, rfl⟩ := List.mem_map.mp hx
  exact h o (List.mem_filter.mp ho).1

/-- Every level fits once the orders are added to it. -/
structure LevelsFit (k : ℕ) (levels : SortedMap ℚ ℚ) (orders : List OpenOrder) : Prop where
  mem : ∀ o ∈ orders, OnScale k o.remaining
  scale : ∀ price, OnScale k ((levels.get? price).getD 0)
  fits : ∀ price, rustDecimal.Grid k ((levels.get? price).getD 0+restingAt orders price)

namespace LevelsFit
variable {levels : SortedMap ℚ ℚ} {o : OpenOrder} {rest : List OpenOrder}

theorem get?_addLevel_self (levels : SortedMap ℚ ℚ) (o : OpenOrder) :
    ((Edge.addLevel levels o).get? o.price).getD 0 =
      (levels.get? o.price).getD 0+o.remaining := by
  rw [Edge.addLevel, SortedMap.get?_upsert_self, Option.getD_some]

/-- The level of an order grows by what it has left, the others are as they were. -/
theorem tail (h : LevelsFit k levels (o :: rest)) :
    LevelsFit k (Edge.addLevel levels o) rest := by
  obtain ⟨ho, hrest⟩ := List.forall_mem_cons.mp h.mem
  refine ⟨hrest, fun price => ?_, fun price => ?_⟩
  · by_cases hp : o.price = price
    · subst hp
      rw [get?_addLevel_self]
      exact (h.scale _).add ho
    · rw [Edge.addLevel, SortedMap.get?_upsert_of_ne _ (Ne.symm hp)]
      exact h.scale price
  · have hfits := h.fits price
    by_cases hp : o.price = price
    · subst hp
      rw [restingAt_cons_self, ← add_assoc] at hfits
      rwa [get?_addLevel_self]
    · rw [restingAt_cons_of_ne hp] at hfits
      rwa [Edge.addLevel, SortedMap.get?_upsert_of_ne _ (Ne.symm hp)]

theorem addLevel_eq {σ : Type} (hround : rustDecimal.IsRounding round)
    (h : LevelsFit k levels (o :: rest)) (left : σ) :
    addLevel round left levels o = .ok (Edge.addLevel levels o) := by
  obtain ⟨ho, hrest⟩ := List.forall_mem_cons.mp h.mem
  unfold addLevel Edge.addLevel
  cases hv : levels.get? o.price with
  | none =>
    apply congrArg Except.ok
    apply SortedMap.upsert_congr
    simp [hv]
  | some v =>
    have hscale := h.scale o.price
    have hsum := h.fits o.price
    rw [hv, Option.getD_some] at hscale hsum
    rw [restingAt_cons_self, ← add_assoc] at hsum
    have hfits : rustDecimal.Grid k (v+o.remaining) :=
      hsum.of_le (hscale.add ho) (by linarith [(restingAt_scale hrest o.price).nonneg])
    dsimp only
    rw [result_of_grid hround hfits]
    apply congrArg Except.ok
    apply SortedMap.upsert_congr
    simp [hv]

/-- A side that fits in every price. -/
theorem of_empty {orders : List OpenOrder} (h : ∀ o ∈ orders, OnScale k o.remaining)
    (hfits : ∀ price, rustDecimal.Grid k (restingAt orders price)) :
    LevelsFit k SortedMap.empty orders := by
  have hnone (price : ℚ) : ((SortedMap.empty (K := ℚ) (V := ℚ)).get? price).getD 0 = 0 := rfl
  refine ⟨h, fun price => ?_, fun price => ?_⟩
  · rw [hnone]
    exact .zero k
  · rw [hnone, zero_add]
    exact hfits price

end LevelsFit

/-- Levels whose sums are of one scale are added up without rounding. -/
theorem addLevels_of_grid {σ : Type} (hround : rustDecimal.IsRounding round) (left : σ)
    {orders : List OpenOrder} {levels : SortedMap ℚ ℚ} (h : LevelsFit k levels orders) :
    orders.foldlM (addLevel round left) levels = .ok (orders.foldl Edge.addLevel levels) := by
  induction orders generalizing levels with
  | nil => rfl
  | cons o rest ih =>
    rw [List.foldlM_cons, h.addLevel_eq hround, List.foldl_cons]
    exact ih h.tail

/-- An order that a level takes in, whatever it has left. -/
def atLevel (marketId : String) (side : Side) (price : ℚ) (o : OpenOrder) : Bool :=
  o.marketId = marketId ∧ o.orderType = .limit ∧ o.price ≠ 0 ∧ o.side = side ∧ o.price = price

theorem restingAt_restingOrders (s : AppState) (env : Env) (marketId : String) (side : Side)
    (price : ℚ) : restingAt (s.restingOrders env marketId side) price =
      (env.keys.map fun a => leftOf (atLevel marketId side price) (s.openOrders a)).sum := by
  have hall : restingAt (s.restingOrders env marketId side) price =
      leftOf (atLevel marketId side price) (env.keys.flatMap s.openOrders) := by
    change leftOf _ ((env.keys.flatMap s.openOrders).filter _) = _
    rw [leftOf_filter]
    refine leftOf_congr fun o _ hz => ?_
    simp only [atLevel, ← Bool.decide_and]
    apply decide_eq_decide.mpr
    tauto
  rw [hall]
  unfold leftOf
  rw [List.filter_flatMap, List.map_flatMap, List.flatMap, List.sum_flatten, List.map_map]
  rfl

theorem OnGrid.resting {s : AppState} {marketId : String} (h : OnGrid k marketId s.openOrders)
    (env : Env) (side : Side) :
    ∀ o ∈ s.restingOrders env marketId side, rustDecimal.Grid k o.remaining := by
  intro o ho
  obtain ⟨hmem, hrests⟩ := List.mem_filter.mp ho
  obtain ⟨a, -, ha⟩ := List.mem_flatMap.mp hmem
  exact h a o ha (by simpa using (of_decide_eq_true hrests).1)

/-- Levels fit where the side as a whole does. -/
theorem LevelsOnGrid.of_sides {s : AppState} {env : Env} {marketId : String}
    (h : OnGrid k marketId s.openOrders) (hsides : ∀ side, rustDecimal.Grid k
      ((s.restingOrders env marketId side).map OpenOrder.remaining).sum) :
    LevelsOnGrid k s env marketId := by
  intro side price
  have horders := h.resting env side
  refine (hsides side).of_le (restingAt_scale (fun o ho => (horders o ho).mem) price) ?_
  apply (List.filter_sublist.map _).sum_le_sum
  intro x hx
  obtain ⟨o, ho, rfl⟩ := List.mem_map.mp hx
  exact (horders o ho).nonneg

/-- Levels that fit keep fitting when every account has less at each price. -/
theorem LevelsOnGrid.of_le {s s' : AppState} {env : Env} {marketId : String}
    (h : LevelsOnGrid k s env marketId) (hs' : OnGrid k marketId s'.openOrders)
    (hle : ∀ p, Fixed p → ∀ a, leftOf p (s'.openOrders a) ≤ leftOf p (s.openOrders a)) :
    LevelsOnGrid k s' env marketId := by
  intro side price
  refine (h side price).of_le
    (restingAt_scale (fun o ho => (hs'.resting env side o ho).mem) price) ?_
  rw [restingAt_restingOrders, restingAt_restingOrders]
  exact List.sum_le_sum fun a _ => hle _ (fun _ _ => rfl) a

theorem rebuildOrderbook_of_grid (hround : rustDecimal.IsRounding round) {s : AppState}
    {env : Env} {marketId : String} (h : OnGrid k marketId s.openOrders)
    (hfits : LevelsOnGrid k s env marketId) :
    rebuildOrderbook round s env marketId = .ok (s.rebuildOrderbook env marketId) := by
  have hside (side : Side) : (s.restingOrders env marketId side).foldlM (addLevel round s)
      SortedMap.empty = .ok ((s.restingOrders env marketId side).foldl Edge.addLevel
        SortedMap.empty) :=
    addLevels_of_grid hround s
      (.of_empty (fun o ho => (h.resting env side o ho).mem) (hfits side))
  unfold rebuildOrderbook
  rw [hside .buy, hside .sell]
  rfl

section Taker
variable {s : AppState} {env : Env} {marketId : String} {takerSide : Side}
  {takerPrice : Option ℚ} {takerQty : ℚ} {taker : Address}

/-- The ids of an account tell its orders apart. -/
theorem namedIn_candidates (hids : ∀ a, ((s.openOrders a).map OpenOrder.id).Nodup) :
    NamedIn marketId s.openOrders (s.candidates env marketId takerSide takerPrice taker) := by
  intro c hc o ho hid
  obtain ⟨-, o', ho', hmaker, he⟩ := AppState.mem_candidates hc
  have hsame : o.id = o'.id := hid.trans (congrArg Candidate.id he)
  rw [List.inj_on_of_nodup_map (hids c.address) ho ho' hsame]
  simp only [OpenOrder.isMaker, decide_eq_true_eq] at hmaker
  exact hmaker.1

/-- `match_taker`, where the levels of the market fit. -/
theorem matchTaker_of_grid (hround : rustDecimal.IsRounding round)
    (hids : ∀ a, ((s.openOrders a).map OpenOrder.id).Nodup)
    (hq : rustDecimal.Grid k takerQty) (h : OnGrid k marketId s.openOrders)
    (hfits : LevelsOnGrid k s env marketId) :
    matchTaker round s env marketId takerSide takerPrice takerQty taker =
      .ok (s.matchTaker env marketId takerSide takerPrice takerQty taker) := by
  obtain ⟨hfill, hgrid, hsum⟩ := fillSection_of_grid hround (fun x => by simp) env
    (s.candidates env marketId takerSide takerPrice taker) hq h (namedIn_candidates hids)
  unfold matchTaker
  rw [hfill]
  change (do
    let s' ← rebuildOrderbook round _ env marketId
    return (_,s')) = _
  rw [rebuildOrderbook_of_grid hround hgrid (hfits.of_le hgrid hsum)]
  rfl

/-- If it returns, it returns the fills made on rationals, whether or not the levels fit. -/
theorem matchTaker_fills (hround : rustDecimal.IsRounding round)
    (hids : ∀ a, ((s.openOrders a).map OpenOrder.id).Nodup) {s' : AppState}
    {filled : List MatchedFill} (hq : rustDecimal.Grid k takerQty)
    (h : OnGrid k marketId s.openOrders)
    (hmatch : matchTaker round s env marketId takerSide takerPrice takerQty taker =
      .ok (filled,s')) :
    filled = (s.matchTaker env marketId takerSide takerPrice takerQty taker).1 := by
  obtain ⟨hfill, -⟩ := fillSection_of_grid hround (fun x => by simp) env
    (s.candidates env marketId takerSide takerPrice taker) hq h (namedIn_candidates hids)
  unfold matchTaker at hmatch
  simp only [hfill, chain_ok_iff, Except.ok.injEq, exists_eq_left'] at hmatch
  obtain ⟨s₁, -, he⟩ := hmatch
  rw [← (Prod.mk.inj (Except.ok.inj he)).1]
  rfl

end Taker

/-- The probe fills at most the quantity it is asked for. -/
theorem probe_of_grid {σ : Type} (hround : rustDecimal.IsRounding round) (left : σ)
    {makers : List OpenOrder} {acc : ℚ × ℚ} (hmakers : ∀ o ∈ makers,
      rustDecimal.Grid k o.remaining) (hremaining : rustDecimal.Grid k acc.1)
    (hfilled : OnScale k acc.2) (htotal : rustDecimal.Grid k (acc.1+acc.2)) :
    makers.foldlM (probeOrder round left) acc = .ok (makers.foldl (fun (acc : ℚ × ℚ) o =>
      if acc.1 = 0 then acc
      else (acc.1-min acc.1 o.remaining,acc.2+min acc.1 o.remaining)) acc) := by
  induction makers generalizing acc with
  | nil => rfl
  | cons o rest ih =>
    obtain ⟨ho, hrest⟩ := List.forall_mem_cons.mp hmakers
    rw [List.foldlM_cons, List.foldl_cons]
    unfold probeOrder
    by_cases hz : acc.1 = 0
    · rw [if_pos hz, if_pos hz]
      exact ih hrest hremaining hfilled htotal
    · have htake := hremaining.min ho
      have hnext : rustDecimal.Grid k (acc.2+min acc.1 o.remaining) :=
        htotal.of_le (hfilled.add htake.mem) (by linarith [min_le_left acc.1 o.remaining])
      rw [if_neg hz, if_neg hz, result_of_grid hround hnext]
      change ((do
        let remaining ← result round left (acc.1-min acc.1 o.remaining)
        return (remaining,_)) >>= _) = _
      rw [result_of_grid hround (hremaining.sub_min_left ho)]
      refine ih hrest (hremaining.sub_min_left ho) hnext.mem ?_
      have hsame : acc.1-min acc.1 o.remaining+(acc.2+min acc.1 o.remaining) = acc.1+acc.2 := by
        ring
      rw [hsame]
      exact htotal

theorem matchTakerProbe_of_grid {σ : Type} (hround : rustDecimal.IsRounding round) (left : σ)
    {s : AppState} {env : Env} {marketId : String} {takerSide : Side} {takerPrice : Option ℚ}
    {takerQty : ℚ} {taker : Address} (hq : rustDecimal.Grid k takerQty)
    (h : OnGrid k marketId s.openOrders) :
    matchTakerProbe round left s env marketId takerSide takerPrice takerQty taker =
      .ok (s.matchTakerProbe env marketId takerSide takerPrice takerQty taker) := by
  have hmakers : ∀ o ∈ (env.keys.filter (· ≠ taker)).flatMap (fun addr =>
      (s.openOrders addr).filter fun o => o.isMaker marketId takerSide takerPrice),
      rustDecimal.Grid k o.remaining := by
    intro o ho
    obtain ⟨a, -, ha⟩ := List.mem_flatMap.mp ho
    obtain ⟨hmem, hmaker⟩ := List.mem_filter.mp ha
    simp only [OpenOrder.isMaker, decide_eq_true_eq] at hmaker
    exact h a o hmem hmaker.1
  unfold matchTakerProbe
  dsimp only
  rw [probe_of_grid hround left hmakers hq (.zero k) (by simpa using hq)]
  rfl

end Decimal

end Perplex.Edge
