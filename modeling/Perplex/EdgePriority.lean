import Mathlib.Data.Prod.Lex
import Perplex.EdgeGrid
import Perplex.EdgeOverfill
import Perplex.EdgeReduceOnly
import Perplex.RankedDraw

/-! Price-time priority at the edge. The open orders come out of a map in some order; what a
taker is filled with depends on that order only where makers tie in price and time. -/
namespace Perplex.Edge

/-- The iteration lists every account that has orders. -/
def Env.Iterates (env : Env) (s : AppState) : Prop := ∀ a, s.openOrders a ≠ [] → a ∈ env.keys

/-- A better price, or an older order at the same price. -/
def OpenOrder.Ahead (takerSide : Side) (o o' : OpenOrder) : Prop :=
  match takerSide with
  | .buy => o.price < o'.price ∨ o.price = o'.price ∧ o.tsNs < o'.tsNs
  | .sell => o'.price < o.price ∨ o.price = o'.price ∧ o.tsNs < o'.tsNs

/-- An order that the taker can be filled with. -/
structure AppState.Eligible (s : AppState) (marketId : String) (takerSide : Side)
    (takerPrice : Option ℚ) (taker a : Address) (o : OpenOrder) : Prop where
  open_ : o ∈ s.openOrders a
  other : a ≠ taker
  market : o.marketId = marketId
  side : o.side = takerSide.opposite
  limit : o.orderType = .limit
  crosses : crosses takerSide takerPrice o.price = true

/-- The fill is with the order. -/
def AppState.Makes (s : AppState) (m : MatchedFill) (o : OpenOrder) : Prop :=
  o ∈ s.openOrders m.makerAddress ∧ o.id = m.makerOrderId

/-- Timestamp of the order a fill is with. -/
def AppState.makerTs (s : AppState) (m : MatchedFill) : ℕ :=
  (((s.openOrders m.makerAddress).find? fun o => o.id = m.makerOrderId).map OpenOrder.tsNs).getD 0

/-- What matching may do: fill eligible orders in price-time priority, completely before any
order behind them, for as much as the taker asks and the orders hold, and take the fills from
the orders and nothing else. -/
structure Prioritised (s : AppState) (env : Env) (marketId : String) (takerSide : Side)
    (takerPrice : Option ℚ) (takerQty : ℚ) (taker : Address) (filled : List MatchedFill)
    (s' : AppState) : Prop where
  eligible : ∀ m ∈ filled, ∃ o, s.Makes m o ∧
    s.Eligible marketId takerSide takerPrice taker m.makerAddress o ∧ m.price = o.price ∧
      0 < m.qty ∧ m.qty ≤ o.remaining
  once : (filled.map fun m => (m.makerAddress,m.makerOrderId)).Nodup
  sorted : filled.Pairwise fun m m' => ∀ o o', s.Makes m o → s.Makes m' o' →
    ¬ o'.Ahead takerSide o
  ahead : ∀ m ∈ filled, ∀ o, s.Makes m o → ∀ a o',
    s.Eligible marketId takerSide takerPrice taker a o' → o'.Ahead takerSide o →
      filledOf a o'.id filled = o'.remaining
  total : (filled.map MatchedFill.qty).sum = min takerQty
    ((s.makers env marketId takerSide takerPrice taker).map OpenOrder.remaining).sum
  orders : ∀ a, s'.openOrders a = ((s.openOrders a).map fun o =>
    { o with remaining := o.remaining-filledOf a o.id filled }).filter fun o => o.remaining ≠ 0

/-- Quantity filled at one price with orders of one timestamp. -/
def AppState.filledAt (s : AppState) (price : ℚ) (ts : ℕ) (filled : List MatchedFill) : ℚ :=
  ((filled.filter fun m => m.price = price ∧ s.makerTs m = ts).map MatchedFill.qty).sum

/-- The place of a candidate in the priority; the best price comes first on either side. -/
def Candidate.rank (takerSide : Side) (c : Candidate) : ℚ ×ₗ ℕ :=
  toLex (takerSide.sign*c.price,c.tsNs)

theorem before_iff_rank {takerSide : Side} {a b : Candidate} :
    Candidate.before takerSide a b ↔ a.rank takerSide ≤ b.rank takerSide := by
  unfold Candidate.rank
  rw [Prod.Lex.toLex_le_toLex]
  cases takerSide with
  | buy => simp [Candidate.before, Side.sign]
  | sell => simp [Candidate.before, Side.sign]

/-- The candidate of an order. -/
def OpenOrder.candidate (a : Address) (o : OpenOrder) : Candidate :=
  ⟨a, o.id, o.price, o.remaining, o.tsNs⟩

theorem ahead_iff_rank {takerSide : Side} {o o' : OpenOrder} (a a' : Address) :
    o.Ahead takerSide o' ↔ (o.candidate a).rank takerSide < (o'.candidate a').rank takerSide := by
  unfold Candidate.rank OpenOrder.candidate
  rw [Prod.Lex.toLex_lt_toLex]
  cases takerSide with
  | buy => simp [OpenOrder.Ahead, Side.sign]
  | sell => simp [OpenOrder.Ahead, Side.sign]

theorem filledOf_of_absent {fs : List MatchedFill} {a : Address} {id : ℕ}
    (h : (a,id) ∉ fs.map fun m => (m.makerAddress,m.makerOrderId)) : filledOf a id fs = 0 := by
  have hnone : fillsOf a id fs = [] := by
    rw [fillsOf, List.filter_eq_nil_iff]
    intro m hm he
    exact h (List.mem_map.mpr ⟨m, hm, Prod.ext_iff.mpr (by simpa using he)⟩)
  simp [filledOf, hnone]

/-- With one fill an order, it is filled for the quantity of that fill. -/
theorem filledOf_of_mem {fs : List MatchedFill}
    (h : (fs.map fun m => (m.makerAddress,m.makerOrderId)).Nodup) {m : MatchedFill}
    (hm : m ∈ fs) : filledOf m.makerAddress m.makerOrderId fs = m.qty := by
  induction fs with
  | nil => simp at hm
  | cons x fs ih =>
    obtain ⟨hx, hrest⟩ := List.nodup_cons.mp h
    rw [filledOf_cons]
    rcases List.mem_cons.mp hm with rfl | hm
    · rw [if_pos ⟨rfl, rfl⟩, filledOf_of_absent hx, add_zero]
    · rw [if_neg ?_, zero_add, ih hrest hm]
      intro he
      exact hx (List.mem_map.mpr ⟨m, hm, Prod.ext he.1.symm he.2.symm⟩)

theorem tied_of_not_ahead {takerSide : Side} {o o' : OpenOrder} (h : ¬ o.Ahead takerSide o')
    (h' : ¬ o'.Ahead takerSide o) : o.price = o'.price ∧ o.tsNs = o'.tsNs := by
  have hrank := le_antisymm (not_lt.mp fun hlt => h' ((ahead_iff_rank 0 0).mpr hlt))
    (not_lt.mp fun hlt => h ((ahead_iff_rank 0 0).mpr hlt))
  simpa [Candidate.rank, OpenOrder.candidate, takerSide.sign_ne_zero] using hrank

/-- Lists that differ in remaining quantities only. -/
theorem eq_map_remainingOf {l l' : List OpenOrder}
    (h : l'.map OpenOrder.static = l.map OpenOrder.static)
    (hids : (l'.map OpenOrder.id).Nodup) :
    l' = l.map fun o => { o with remaining := remainingOf l' o.id } := by
  have hset (l : List OpenOrder) : (l.map fun o => { o with remaining := remainingOf l' o.id }) =
      (l.map OpenOrder.static).map fun o => { o with remaining := remainingOf l' o.id } := by
    rw [List.map_map]
    rfl
  rw [hset l, ← h, ← hset l']
  have hkeep : l'.map (fun o => { o with remaining := remainingOf l' o.id }) = l'.map id := by
    apply List.map_congr_left
    intro o ho
    rw [remainingOf_of_mem hids ho]
    rfl
  rw [hkeep, List.map_id]

/-- The loop takes what it fills from each order and nothing else. -/
theorem matchLoop_orders {orders : Address → List OpenOrder} {a : Address}
    (hids : ((orders a).map OpenOrder.id).Nodup) (now : ℕ) (cs : List Candidate) (q : ℚ) :
    (matchLoop now orders q cs).2 a = (orders a).map fun o =>
      { o with remaining := o.remaining-filledOf a o.id (matchLoop now orders q cs).1 } := by
  have hids' : (((matchLoop now orders q cs).2 a).map OpenOrder.id).Nodup := by
    rw [AppState.matchLoop_ids]
    exact hids
  refine (eq_map_remainingOf (matchLoop_static now cs orders q a) hids').trans ?_
  apply List.map_congr_left
  intro o ho
  rw [matchLoop_filledOf, remainingOf_of_mem hids ho, sub_sub_cancel]

namespace AppState
variable {s : AppState} {env : Env} {marketId : String} {takerSide : Side}
  {takerPrice : Option ℚ} {taker : Address}

theorem candidates_sorted :
    (s.candidates env marketId takerSide takerPrice taker).Pairwise
      fun a b => a.rank takerSide ≤ b.rank takerSide := by
  have htotal : Std.Total (Candidate.before takerSide) :=
    ⟨fun a b => by simpa only [before_iff_rank] using le_total _ _⟩
  have htrans : IsTrans Candidate (Candidate.before takerSide) :=
    ⟨fun a b c => by simpa only [before_iff_rank] using le_trans⟩
  exact (List.pairwise_insertionSort (Candidate.before takerSide) _).imp before_iff_rank.mp

section Eligible
variable (hposPrice : ∀ a, ∀ o ∈ s.openOrders a, 0 < o.price)
  (hpos : ∀ a, ∀ o ∈ s.openOrders a, 0 < o.remaining)
include hposPrice hpos

theorem isMaker_iff {a : Address} {o : OpenOrder} (ho : o ∈ s.openOrders a) (hne : a ≠ taker) :
    o.isMaker marketId takerSide takerPrice = true ↔
      s.Eligible marketId takerSide takerPrice taker a o := by
  simp only [OpenOrder.isMaker, decide_eq_true_eq]
  constructor
  · rintro ⟨hm, hs, hl, -, -, hc⟩
    exact ⟨ho, hne, hm, hs, hl, hc⟩
  · intro h
    exact ⟨h.market, h.side, h.limit, (hposPrice a o ho).ne', (hpos a o ho).ne', h.crosses⟩

/-- The candidates are the eligible orders, whatever the iteration. -/
theorem mem_candidates_iff (henv : env.Iterates s) {c : Candidate} :
    c ∈ s.candidates env marketId takerSide takerPrice taker ↔
      ∃ o, s.Eligible marketId takerSide takerPrice taker c.address o ∧
        c = o.candidate c.address := by
  constructor
  · intro h
    obtain ⟨hne, o, ho, hmaker, he⟩ := mem_candidates h
    exact ⟨o, (isMaker_iff hposPrice hpos ho hne).mp hmaker, he⟩
  · rintro ⟨o, ho, he⟩
    have hmaker := (isMaker_iff hposPrice hpos ho.open_ ho.other).mpr ho
    refine (List.perm_insertionSort _ _).mem_iff.mpr (List.mem_flatMap.mpr ⟨c.address, ?_, ?_⟩)
    · have hkey := henv c.address (List.ne_nil_of_mem ho.open_)
      exact List.mem_filter.mpr ⟨hkey, by simpa using ho.other⟩
    · exact List.mem_map.mpr ⟨o, List.mem_filter.mpr ⟨ho.open_, hmaker⟩, he.symm⟩

end Eligible

/-- Two iterations collect the same candidates. -/
theorem candidates_perm {env' : Env} (henv : env.Iterates s) (henv' : env'.Iterates s) :
    (s.candidates env marketId takerSide takerPrice taker).Perm
      (s.candidates env' marketId takerSide takerPrice taker) := by
  have hne {a : Address} {f : OpenOrder → Candidate} {p : OpenOrder → Bool}
      (h : ((s.openOrders a).filter p).map f ≠ []) : s.openOrders a ≠ [] := by
    rintro h0
    simp [h0] at h
  refine (List.perm_insertionSort _ _).trans (.trans ?_ (List.perm_insertionSort _ _).symm)
  exact flatMap_filter_perm_of_covers env.nodup env'.nodup (fun a ha => henv a (hne ha))
    (fun a ha => henv' a (hne ha)) _

/-- What is drawn from the candidates. -/
def draws (s : AppState) (env : Env) (marketId : String) (takerSide : Side)
    (takerPrice : Option ℚ) (takerQty : ℚ) (taker : Address) : List (Candidate × ℚ) :=
  draw Candidate.rem takerQty (s.candidates env marketId takerSide takerPrice taker)

variable {takerQty : ℚ} {x : Candidate × ℚ}

section Ids
variable (hids : ∀ a, ((s.openOrders a).map OpenOrder.id).Nodup)
include hids

theorem draws_once : ((s.draws env marketId takerSide takerPrice takerQty taker).map
    fun x => (x.1.address,x.1.id)).Nodup := by
  refine List.pairwise_map.mpr ?_
  refine (draw_pairwise Candidate.rem (candidates_distinct hids) takerQty).imp ?_
  exact fun hab he => hab (Prod.mk.inj he)

/-- The order that a fill is with is the one of its candidate. -/
theorem makes_iff (hx : x ∈ s.draws env marketId takerSide takerPrice takerQty taker) (now : ℕ)
    {o : OpenOrder} : s.Makes (x.1.fill now x.2) o ↔
      o ∈ s.openOrders x.1.address ∧ x.1 = o.candidate x.1.address := by
  constructor
  · rintro ⟨ho, hid⟩
    obtain ⟨-, o', ho', -, he⟩ := mem_candidates (mem_of_mem_draw Candidate.rem hx)
    have hsame : o.id = o'.id := by
      rw [hid, he]
      rfl
    obtain rfl := List.inj_on_of_nodup_map (hids x.1.address) ho ho' hsame
    exact ⟨ho, he⟩
  · rintro ⟨ho, he⟩
    refine ⟨ho, ?_⟩
    rw [he]
    rfl

theorem makerTs_fill (hx : x ∈ s.draws env marketId takerSide takerPrice takerQty taker)
    (now : ℕ) : s.makerTs (x.1.fill now x.2) = x.1.tsNs := by
  obtain ⟨-, o, ho, -, he⟩ := mem_candidates (mem_of_mem_draw Candidate.rem hx)
  have hid : (x.1.fill now x.2).makerOrderId = o.id := congrArg Candidate.id he
  have hfind : (s.openOrders (x.1.fill now x.2).makerAddress).find? (fun y => y.id = o.id) =
      some o := find?_id_of_mem (hids x.1.address) ho
  rw [makerTs, hid, hfind]
  exact (congrArg Candidate.tsNs he).symm

variable (hpos : ∀ a, ∀ o ∈ s.openOrders a, 0 < o.remaining) (hq : 0 ≤ takerQty)
include hpos hq

theorem matchTaker_eq_draws : (s.matchTaker env marketId takerSide takerPrice takerQty taker).1 =
    (s.draws env marketId takerSide takerPrice takerQty taker).map
      fun x => x.1.fill env.now x.2 := by
  rw [matchTaker_eq_drain hids,
    drain_eq_draw Candidate.rem (fun c hc => (candidates_rem_pos hpos c hc).le) hq]
  rfl

theorem matchTaker_once :
    ((s.matchTaker env marketId takerSide takerPrice takerQty taker).1.map
      fun m => (m.makerAddress,m.makerOrderId)).Nodup := by
  rw [matchTaker_eq_draws hids hpos hq, List.map_map]
  exact draws_once hids

/-- Of two fills the first is not with an order behind the order of the second. -/
theorem matchTaker_sorted :
    (s.matchTaker env marketId takerSide takerPrice takerQty taker).1.Pairwise fun m m' =>
      ∀ o o', s.Makes m o → s.Makes m' o' → ¬ o'.Ahead takerSide o := by
  rw [matchTaker_eq_draws hids hpos hq, List.pairwise_map]
  refine (draw_pairwise Candidate.rem candidates_sorted takerQty).imp_of_mem ?_
  intro x y hx hy hle o o' ho ho' hahead
  obtain ⟨-, hox⟩ := (makes_iff hids hx env.now).mp ho
  obtain ⟨-, hoy⟩ := (makes_iff hids hy env.now).mp ho'
  rw [ahead_iff_rank y.1.address x.1.address, ← hox, ← hoy] at hahead
  exact hle.not_gt hahead

theorem mem_matchTaker {m : MatchedFill} :
    m ∈ (s.matchTaker env marketId takerSide takerPrice takerQty taker).1 ↔
      ∃ x ∈ s.draws env marketId takerSide takerPrice takerQty taker,
        x.1.fill env.now x.2 = m := by
  rw [matchTaker_eq_draws hids hpos hq, List.mem_map]

theorem matchTaker_total : ((s.matchTaker env marketId takerSide takerPrice takerQty taker).1.map
    MatchedFill.qty).sum = min takerQty
      ((s.makers env marketId takerSide takerPrice taker).map OpenOrder.remaining).sum := by
  rw [← (s.candidates_rem_perm env marketId takerSide takerPrice taker).sum_eq,
    ← draw_total Candidate.rem (fun c hc => (candidates_rem_pos hpos c hc).le) hq,
    matchTaker_eq_draws hids hpos hq, List.map_map]
  rfl

/-- What is filled at one price and timestamp is what is drawn at that rank. -/
theorem filledAt_eq (price : ℚ) (ts : ℕ) : s.filledAt price ts
    (s.matchTaker env marketId takerSide takerPrice takerQty taker).1 =
      (((s.draws env marketId takerSide takerPrice takerQty taker).filter fun x =>
        x.1.rank takerSide = toLex (takerSide.sign*price,ts)).map Prod.snd).sum := by
  rw [matchTaker_eq_draws hids hpos hq, filledAt, List.filter_map, List.map_map]
  congr 2
  apply List.filter_congr
  intro x hx
  simp only [Function.comp_apply, makerTs_fill hids hx, Candidate.rank,
    EmbeddingLike.apply_eq_iff_eq, Prod.mk.injEq, mul_eq_mul_left_iff, takerSide.sign_ne_zero,
    or_false]
  rfl

variable (hposPrice : ∀ a, ∀ o ∈ s.openOrders a, 0 < o.price)
include hposPrice

theorem matchTaker_eligible : ∀ m ∈
    (s.matchTaker env marketId takerSide takerPrice takerQty taker).1, ∃ o, s.Makes m o ∧
      s.Eligible marketId takerSide takerPrice taker m.makerAddress o ∧ m.price = o.price ∧
        0 < m.qty ∧ m.qty ≤ o.remaining := by
  intro m hm
  obtain ⟨x, hx, rfl⟩ := (mem_matchTaker hids hpos hq).mp hm
  obtain ⟨hne, o, ho, hmaker, he⟩ := mem_candidates (mem_of_mem_draw Candidate.rem hx)
  obtain ⟨hpos', hle⟩ := draw_pos Candidate.rem (candidates_rem_pos hpos) hx
  refine ⟨o, (makes_iff hids hx env.now).mpr ⟨ho, he⟩,
    (isMaker_iff hposPrice hpos ho hne).mp hmaker, ?_, hpos', ?_⟩
  · exact congrArg Candidate.price he
  · exact hle.trans_eq (congrArg Candidate.rem he)

/-- An eligible order ahead of a filled one is filled completely. -/
theorem matchTaker_ahead (henv : env.Iterates s) : ∀ m ∈
    (s.matchTaker env marketId takerSide takerPrice takerQty taker).1, ∀ o, s.Makes m o →
      ∀ a o', s.Eligible marketId takerSide takerPrice taker a o' → o'.Ahead takerSide o →
        filledOf a o'.id (s.matchTaker env marketId takerSide takerPrice takerQty taker).1 =
          o'.remaining := by
  intro m hm o ho a o' ho' hahead
  obtain ⟨x, hx, rfl⟩ := (mem_matchTaker hids hpos hq).mp hm
  obtain ⟨-, he⟩ := (makes_iff hids hx env.now).mp ho
  have hc : o'.candidate a ∈ s.candidates env marketId takerSide takerPrice taker :=
    (mem_candidates_iff hposPrice hpos henv).mpr ⟨o', ho', rfl⟩
  rw [ahead_iff_rank a x.1.address, ← he] at hahead
  have hdrawn := mem_draw_of_rank_lt Candidate.rem (Candidate.rank takerSide) candidates_sorted
    (fun c hc => (candidates_rem_pos hpos c hc).le) hq hx hc hahead
  exact filledOf_of_mem (matchTaker_once hids hpos hq)
    ((mem_matchTaker hids hpos hq).mpr ⟨_, hdrawn, rfl⟩)

end Ids

theorem matchTaker_openOrders (s : AppState) (env : Env) (marketId : String) (takerSide : Side)
    (takerPrice : Option ℚ) (takerQty : ℚ) (taker a : Address) :
    (s.matchTaker env marketId takerSide takerPrice takerQty taker).2.openOrders a =
      reap marketId ((matchLoop env.now s.openOrders takerQty
        (s.candidates env marketId takerSide takerPrice taker)).2 a) := rfl

section Left
variable (hids : ∀ a, ((s.openOrders a).map OpenOrder.id).Nodup)
  (hposPrice : ∀ a, ∀ o ∈ s.openOrders a, 0 < o.price)
  (hpos : ∀ a, ∀ o ∈ s.openOrders a, 0 < o.remaining) (hq : 0 ≤ takerQty)
include hids hposPrice hpos hq

/-- Orders of other markets are not filled. -/
theorem filledOf_elsewhere {a : Address} {o : OpenOrder} (ho : o ∈ s.openOrders a)
    (hm : o.marketId ≠ marketId) : filledOf a o.id
      (s.matchTaker env marketId takerSide takerPrice takerQty taker).1 = 0 := by
  apply filledOf_of_absent
  intro h
  obtain ⟨m, hmem, he⟩ := List.mem_map.mp h
  obtain ⟨rfl, hid⟩ := Prod.mk.inj he
  obtain ⟨o', hmakes, helig, -⟩ := matchTaker_eligible hids hpos hq hposPrice m hmem
  obtain rfl := List.inj_on_of_nodup_map (hids m.makerAddress) ho hmakes.1
    (hid.symm.trans hmakes.2.symm)
  exact hm helig.market

theorem matchTaker_orders (a : Address) :
    (s.matchTaker env marketId takerSide takerPrice takerQty taker).2.openOrders a =
      ((s.openOrders a).map fun o => { o with
        remaining := o.remaining-filledOf a o.id
          (s.matchTaker env marketId takerSide takerPrice takerQty taker).1 }).filter
            fun o => o.remaining ≠ 0 := by
  rw [matchTaker_openOrders, matchLoop_orders (hids a)]
  apply List.filter_congr
  intro o' ho'
  obtain ⟨o, ho, rfl⟩ := List.mem_map.mp ho'
  by_cases hm : o.marketId = marketId
  · simp [hm]
  · -- an order of another market is not used up
    have hzero : filledOf a o.id (matchLoop env.now s.openOrders takerQty
        (s.candidates env marketId takerSide takerPrice taker)).1 = 0 :=
      filledOf_elsewhere hids hposPrice hpos hq ho hm
    have hne := (hpos a o ho).ne'
    simp [hm, hzero, hne]

end Left

/-- Matching keeps to price-time priority. The iteration matters to ties only: what is filled at
each price and timestamp does not depend on it, and without ties neither do the fills. -/
theorem matchTaker_keeps_priority (henv : env.Iterates s)
    (hids : ∀ a, ((s.openOrders a).map OpenOrder.id).Nodup)
    (hposPrice : ∀ a, ∀ o ∈ s.openOrders a, 0 < o.price)
    (hpos : ∀ a, ∀ o ∈ s.openOrders a, 0 < o.remaining) (hq : 0 < takerQty) :
    Prioritised s env marketId takerSide takerPrice takerQty taker
        (s.matchTaker env marketId takerSide takerPrice takerQty taker).1
        (s.matchTaker env marketId takerSide takerPrice takerQty taker).2 ∧
      ∀ env' : Env, env'.Iterates s → env'.now = env.now →
        (∀ price ts,
          s.filledAt price ts (s.matchTaker env marketId takerSide takerPrice takerQty taker).1 =
          s.filledAt price ts
            (s.matchTaker env' marketId takerSide takerPrice takerQty taker).1) ∧
        ((∀ a o a' o', s.Eligible marketId takerSide takerPrice taker a o →
          s.Eligible marketId takerSide takerPrice taker a' o' → o.price = o'.price →
            o.tsNs = o'.tsNs → a = a' ∧ o = o') →
          (s.matchTaker env marketId takerSide takerPrice takerQty taker).1 =
            (s.matchTaker env' marketId takerSide takerPrice takerQty taker).1) := by
  refine ⟨?_, ?_⟩
  · exact ⟨matchTaker_eligible hids hpos hq.le hposPrice, matchTaker_once hids hpos hq.le,
      matchTaker_sorted hids hpos hq.le, matchTaker_ahead hids hpos hq.le hposPrice henv,
      matchTaker_total hids hpos hq.le, matchTaker_orders hids hposPrice hpos hq.le⟩
  intro env' henv' hnow
  have hperm : (s.candidates env marketId takerSide takerPrice taker).Perm
      (s.candidates env' marketId takerSide takerPrice taker) := candidates_perm henv henv'
  refine ⟨?_, ?_⟩
  · intro price ts
    rw [filledAt_eq hids hpos hq.le, filledAt_eq hids hpos hq.le]
    exact draw_rank_sum_perm Candidate.rem (Candidate.rank takerSide) candidates_sorted
      (fun c hc => (candidates_rem_pos hpos c hc).le) hq.le hperm candidates_sorted _
  · intro htie
    have hsame : s.candidates env marketId takerSide takerPrice taker =
        s.candidates env' marketId takerSide takerPrice taker := by
      refine hperm.eq_of_pairwise ?_ candidates_sorted candidates_sorted
      intro c c' hc hc' hle hge
      obtain ⟨o, ho, he⟩ := (mem_candidates_iff hposPrice hpos henv).mp hc
      obtain ⟨o', ho', he'⟩ := (mem_candidates_iff hposPrice hpos henv').mp hc'
      -- neither is ahead of the other, so they tie
      have htied : ¬ o.Ahead takerSide o' ∧ ¬ o'.Ahead takerSide o := by
        rw [ahead_iff_rank c.address c'.address, ahead_iff_rank c'.address c.address, ← he, ← he']
        exact ⟨hge.not_gt, hle.not_gt⟩
      obtain ⟨hprice, hts⟩ := tied_of_not_ahead htied.1 htied.2
      obtain ⟨ha, rfl⟩ := htie _ o _ o' ho ho' hprice hts
      rw [he, he', ha]
    rw [matchTaker_eq_draws hids hpos hq.le, matchTaker_eq_draws hids hpos hq.le, draws, draws,
      hsame, hnow]

/-- So it does in the arithmetic of `Decimal`, where the quantities in the market and that of the
taker are of one scale. -/
theorem matchTaker_prioritised {round : ℚ → ℚ} (hround : rustDecimal.IsRounding round) {k : ℕ}
    (hgrid : Decimal.OnGrid k marketId s.openOrders)
    (hfits : Decimal.LevelsOnGrid k s env marketId)
    (hqty : rustDecimal.Grid k takerQty) (henv : env.Iterates s)
    (hids : ∀ a, ((s.openOrders a).map OpenOrder.id).Nodup)
    (hposPrice : ∀ a, ∀ o ∈ s.openOrders a, 0 < o.price)
    (hpos : ∀ a, ∀ o ∈ s.openOrders a, 0 < o.remaining) (hq : 0 < takerQty) :
    ∃ filled s', Decimal.matchTaker round s env marketId takerSide takerPrice takerQty taker =
        .ok (filled,s') ∧
      Prioritised s env marketId takerSide takerPrice takerQty taker filled s' ∧
      ∀ env' : Env, env'.Iterates s → env'.now = env.now → ∀ filled' s'',
        Decimal.matchTaker round s env' marketId takerSide takerPrice takerQty taker =
          .ok (filled',s'') →
        (∀ price ts, s.filledAt price ts filled = s.filledAt price ts filled') ∧
        ((∀ a o a' o', s.Eligible marketId takerSide takerPrice taker a o →
          s.Eligible marketId takerSide takerPrice taker a' o' → o.price = o'.price →
            o.tsNs = o'.tsNs → a = a' ∧ o = o') → filled = filled') := by
  have hmatch := @Decimal.matchTaker_of_grid round k s env marketId takerSide takerPrice takerQty
    taker hround hids hqty hgrid hfits
  obtain ⟨hprior, hother⟩ := @matchTaker_keeps_priority s env marketId takerSide takerPrice taker
    takerQty henv hids hposPrice hpos hq
  refine ⟨_, _, hmatch, hprior, fun env' henv' hnow filled' s'' hmatch' => ?_⟩
  obtain rfl := Decimal.matchTaker_fills hround hids hqty hgrid hmatch'
  exact hother env' henv' hnow

end AppState

/-- Asks of two accounts, the last one at the best price. -/
def threeAsks : AppState :=
  { AppState.new with
    openOrders := fun a =>
      if a = 1 then [⟨1, "btc-usd", .sell, .limit, 100, 2, 2, 1, none⟩]
      else if a = 2 then [⟨2, "btc-usd", .sell, .limit, 100, 3, 3, 2, none⟩,
        ⟨3, "btc-usd", .sell, .limit, 99, 1, 1, 3, none⟩]
      else [] }

theorem mem_threeAsks {a : Address} {o : OpenOrder} (h : o ∈ threeAsks.openOrders a) :
    (a = 1 ∨ a = 2) ∧ 0 < o.price ∧ 0 < o.remaining := by
  simp only [threeAsks] at h
  split_ifs at h with h1 h2
  · obtain rfl := List.mem_singleton.mp h
    exact ⟨Or.inl h1, by norm_num, by norm_num⟩
  · simp only [List.mem_cons, List.not_mem_nil, or_false] at h
    rcases h with rfl | rfl
    · exact ⟨Or.inr h2, by norm_num, by norm_num⟩
    · exact ⟨Or.inr h2, by norm_num, by norm_num⟩
  · simp at h

theorem threeAsks_ids (a : Address) : ((threeAsks.openOrders a).map OpenOrder.id).Nodup := by
  simp only [threeAsks]
  split_ifs
  · simp
  · simp
  · simp

theorem iterates_threeAsks {env : Env} (h1 : 1 ∈ env.keys) (h2 : 2 ∈ env.keys) :
    env.Iterates threeAsks := by
  intro a ha
  obtain ⟨o, ho⟩ := List.exists_mem_of_ne_nil _ ha
  rcases (mem_threeAsks ho).1 with rfl | rfl
  · exact h1
  · exact h2

theorem threeAsks_grid (marketId : String) : Decimal.OnGrid 0 marketId threeAsks.openOrders := by
  intro a o ho _
  simp only [threeAsks] at ho
  split_ifs at ho
  · obtain rfl := List.mem_singleton.mp ho
    decide +kernel
  · simp only [List.mem_cons, List.not_mem_nil, or_false] at ho
    rcases ho with rfl | rfl
    · decide +kernel
    · decide +kernel
  · simp at ho

theorem matchTaker_prioritised_threeAsks :
    ∃ filled s', Decimal.matchTaker rustDecimal.halfEven threeAsks (twoAccounts 9) "btc-usd" .buy
        (some 100) 4 3 = .ok (filled,s') ∧
      Prioritised threeAsks (twoAccounts 9) "btc-usd" .buy (some 100) 4 3 filled s' := by
  have hfits : Decimal.LevelsOnGrid 0 threeAsks (twoAccounts 9) "btc-usd" :=
    .of_sides (threeAsks_grid _) fun side => by cases side <;> decide +kernel
  obtain ⟨filled, s', hmatch, hprior, -⟩ := @AppState.matchTaker_prioritised threeAsks
    (twoAccounts 9) "btc-usd" .buy (some 100) 3 4 rustDecimal.halfEven
    rustDecimal.halfEven_isRounding 0 (threeAsks_grid _) hfits (by decide +kernel)
    (iterates_threeAsks (by decide) (by decide)) threeAsks_ids
    (fun a o ho => (mem_threeAsks ho).2.1) (fun a o ho => (mem_threeAsks ho).2.2) (by norm_num)
  exact ⟨filled, s', hmatch, hprior⟩

/-- Account 1 offers four units of the last decimal place, and account 2 ten whole ones. -/
def dustAsk : AppState :=
  { AppState.new with
    openOrders := fun a =>
      if a = 1 then [⟨1, "btc-usd", .sell, .limit, 100, 4/10^28, 4/10^28, 1, none⟩]
      else if a = 2 then [⟨2, "btc-usd", .sell, .limit, 100, 10, 10, 2, none⟩]
      else [] }

theorem dustAsk_orders {a : Address} {o : OpenOrder} (ho : o ∈ dustAsk.openOrders a) :
    0 < o.price ∧ 0 < o.remaining := by
  simp only [dustAsk] at ho
  split_ifs at ho
  · obtain rfl := List.mem_singleton.mp ho
    norm_num
  · obtain rfl := List.mem_singleton.mp ho
    norm_num
  · simp at ho

theorem dustAsk_ids (a : Address) : ((dustAsk.openOrders a).map OpenOrder.id).Nodup := by
  simp only [dustAsk]
  split_ifs <;> simp

/-- Ten less the dust is rounded to ten, so a taker of ten gets the dust and then ten more. -/
theorem dustAsk_overfills : ∃ filled s', Decimal.matchTaker rustDecimal.halfEven dustAsk
    (twoAccounts 9) "btc-usd" .buy (some 100) 10 3 = .ok (filled,s') ∧
      (filled.map MatchedFill.qty).sum = 10+4/10^28 := by
  have hsome : (Decimal.matchTaker rustDecimal.halfEven dustAsk (twoAccounts 9) "btc-usd" .buy
      (some 100) 10 3).toOption.isSome = true := by decide +kernel
  obtain ⟨x, hx⟩ := Option.isSome_iff_exists.mp hsome
  have hsum : ∀ x ∈ (Decimal.matchTaker rustDecimal.halfEven dustAsk (twoAccounts 9) "btc-usd"
      .buy (some 100) 10 3).toOption, (x.1.map MatchedFill.qty).sum = 10+4/10^28 := by
    decide +kernel
  exact ⟨x.1, x.2, Decimal.toOption_eq_some.mp hx, hsum x hx⟩

/-- So the fills of a taker need not add up to its quantity. -/
theorem dust_overfills_taker_at_edge :
    (∀ a, ∀ o ∈ dustAsk.openOrders a, 0 < o.price ∧ 0 < o.remaining) ∧
      (∀ a, ((dustAsk.openOrders a).map OpenOrder.id).Nodup) ∧
      ∃ filled s', Decimal.matchTaker rustDecimal.halfEven dustAsk (twoAccounts 9) "btc-usd" .buy
          (some 100) 10 3 = .ok (filled,s') ∧
        (filled.map MatchedFill.qty).sum ≠ min 10
          ((dustAsk.makers (twoAccounts 9) "btc-usd" .buy (some 100) 3).map
            OpenOrder.remaining).sum := by
  obtain ⟨filled, s', hmatch, hsum⟩ := dustAsk_overfills
  refine ⟨fun a o => dustAsk_orders, dustAsk_ids, filled, s', hmatch, ?_⟩
  have hmin : min 10 ((dustAsk.makers (twoAccounts 9) "btc-usd" .buy (some 100) 3).map
      OpenOrder.remaining).sum = 10 := by decide +kernel
  rw [hsum, hmin]
  norm_num

end Perplex.Edge
