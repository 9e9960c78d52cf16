import Perplex.EdgePanics
import Perplex.EdgePriority
import Perplex.EdgeTimeInForce

/-! The probe of post-only orders. It walks the makers as the map hands them out and stops when
the quantity is used up; matching sorts them first. Both come to the smaller of the quantity and
what the makers hold, as long as nothing is rounded on the way. -/
namespace Perplex.Edge

/-- The probe adds up what is drawn from the makers. -/
theorem probe_eq_drain (l : List OpenOrder) (q filled : ℚ) :
    l.foldl (fun (acc : ℚ × ℚ) o =>
      if acc.1 = 0 then acc
      else (acc.1-min acc.1 o.remaining,acc.2+min acc.1 o.remaining)) (q,filled) =
    (q-((drain OpenOrder.remaining q l).map Prod.snd).sum,
      filled+((drain OpenOrder.remaining q l).map Prod.snd).sum) := by
  induction l generalizing q filled with
  | nil => simp [drain]
  | cons o l ih =>
    rw [List.foldl_cons]
    by_cases hq : q = 0
    · rw [if_pos hq, ih, drain, if_pos hq, hq]
      have hnone : drain OpenOrder.remaining 0 l = [] := by
        cases l <;> simp [drain]
      rw [hnone]
    · rw [if_neg hq, ih, drain, if_neg hq, List.map_cons, List.sum_cons, sub_sub, add_assoc]

namespace AppState
variable {s : AppState} {env env' : Env}

theorem makers_perm (henv : env.Iterates s) (henv' : env'.Iterates s) (marketId : String)
    (takerSide : Side) (takerPrice : Option ℚ) (taker : Address) :
    (s.makers env marketId takerSide takerPrice taker).Perm
      (s.makers env' marketId takerSide takerPrice taker) := by
  have hne {a : Address} {p : OpenOrder → Bool} (h : (s.openOrders a).filter p ≠ []) :
      s.openOrders a ≠ [] := by
    rintro h0
    simp [h0] at h
  exact flatMap_filter_perm_of_covers env.nodup env'.nodup (fun a ha => henv a (hne ha))
    (fun a ha => henv' a (hne ha)) _

section Positive
variable (hids : ∀ a, ((s.openOrders a).map OpenOrder.id).Nodup)
  (hpos : ∀ a, ∀ o ∈ s.openOrders a, 0 < o.remaining)
include hpos

theorem matchTakerProbe_eq {takerQty : ℚ} (hq : 0 ≤ takerQty) (env : Env) (marketId : String)
    (takerSide : Side) (takerPrice : Option ℚ) (taker : Address) :
    s.matchTakerProbe env marketId takerSide takerPrice takerQty taker = min takerQty
      ((s.makers env marketId takerSide takerPrice taker).map OpenOrder.remaining).sum := by
  have hnonneg : ∀ o ∈ s.makers env marketId takerSide takerPrice taker, 0 ≤ o.remaining := by
    intro o ho
    obtain ⟨a, -, ho⟩ := List.mem_flatMap.mp ho
    exact (hpos a o (List.mem_filter.mp ho).1).le
  rw [← draw_total OpenOrder.remaining hnonneg hq, ← drain_eq_draw OpenOrder.remaining hnonneg hq]
  exact (congrArg Prod.snd (probe_eq_drain _ takerQty 0)).trans (zero_add _)

include hids

/-- A post-only order that the probe lets through meets a maker only if its quantity is
negative. -/
theorem postOnly_unfilled_iff {user : Address} {t : Taker} (hpost : t.postOnly = true)
    (hq : t.qty ≠ 0) (hguard : s.postOnlyGuard env user t = .ok ()) (henv : env.Iterates s)
    (henv' : env'.Iterates s) : (s.matched env' user t).1 = [] ↔
      0 < t.qty ∨ s.makers env' t.marketId t.side t.price user = [] := by
  rw [matched_eq_nil_iff hids hq]
  refine ⟨Or.inr, ?_⟩
  rintro (hq | hnil)
  · by_contra hne
    -- the makers hold something, and the probe sees it whatever their order is
    have hsum := (s.makers_perm henv henv' t.marketId t.side t.price user).map OpenOrder.remaining
    have hprobe : ¬ 0 < s.matchTakerProbe env t.marketId t.side t.price t.qty user :=
      (ensure_eq_ok.mp hguard).1 hpost
    rw [matchTakerProbe_eq hpos hq.le, hsum.sum_eq] at hprobe
    refine hprobe (lt_min hq (List.sum_pos _ ?_ (by simpa using hne)))
    intro x hx
    obtain ⟨o, ho, rfl⟩ := List.mem_map.mp hx
    obtain ⟨a, -, ho⟩ := List.mem_flatMap.mp ho
    exact hpos a o (List.mem_filter.mp ho).1
  · exact hnil

end Positive

/-- The probe finds what matching fills, whatever order either gets the accounts in. -/
theorem probe_finds_matched (henv : env.Iterates s) (henv' : env'.Iterates s)
    (hids : ∀ a, ((s.openOrders a).map OpenOrder.id).Nodup)
    (hpos : ∀ a, ∀ o ∈ s.openOrders a, 0 < o.remaining) {takerQty : ℚ} (hq : 0 ≤ takerQty)
    (marketId : String) (takerSide : Side) (takerPrice : Option ℚ) (taker : Address) :
    s.matchTakerProbe env marketId takerSide takerPrice takerQty taker =
      ((s.matchTaker env' marketId takerSide takerPrice takerQty taker).1.map
        MatchedFill.qty).sum := by
  rw [matchTakerProbe_eq hpos hq, matchTaker_total hids hpos hq,
    ((s.makers_perm henv henv' marketId takerSide takerPrice taker).map _).sum_eq]

end AppState

namespace Decimal
variable {round : ℚ → ℚ} {k : ℕ} {s s' : AppState} {env env' : Env} {user : Address} {t : Taker}

/-- An order without fills rests, and leaves no record of a fill. -/
theorem finish_records_of_unfilled {orderId : ℕ} {r : PlaceOrderResponse × AppState}
    (h : finish round env orderId user t [] s = .ok r) :
    r.2.fills = s.fills ∧ r.2.publicTrades = s.publicTrades := by
  unfold finish at h
  simp only [chain_ok_iff] at h
  obtain ⟨s₁, hs₁, -, -, remaining, -, m, -, s₂, hs₂, s₃, hs₃, he⟩ := h
  obtain rfl := Except.ok.inj hs₂
  obtain rfl := Except.ok.inj he
  dsimp only
  rw [(restRemainder_frame hs₃).1, rebuildOrderbook_frame hs₁]
  exact ⟨rfl, rfl⟩

theorem execute_records_of_unfilled (hround : rustDecimal.IsRounding round)
    (hids : ∀ a, ((s.openOrders a).map OpenOrder.id).Nodup)
    (hgrid : OnGrid k t.marketId s.openOrders) (hqty : rustDecimal.Grid k t.qty)
    (hnone : (s.matched env user t).1 = []) {r : PlaceOrderResponse × AppState}
    (h : execute round s env user t = .ok r) :
    r.2.fills = s.fills ∧ r.2.publicTrades = s.publicTrades := by
  have hnamed : NamedIn t.marketId s.drawn.openOrders
      (s.drawn.candidates env t.marketId t.side t.price user) := namedIn_candidates hids
  have hloop : matchLoop round env.now s.drawn.openOrders t.qty
      (s.drawn.candidates env t.marketId t.side t.price user) =
      .ok (Edge.matchLoop env.now s.drawn.openOrders t.qty
        (s.drawn.candidates env t.marketId t.side t.price user)) :=
    (matchLoop_of_grid hround (fun x => by simp) env.now hqty hgrid hnamed).1
  have hfilled : (Edge.matchLoop env.now s.drawn.openOrders t.qty
      (s.drawn.candidates env t.marketId t.side t.price user)).1 = [] := hnone
  unfold execute decrementMakers at h
  rw [hloop] at h
  dsimp only at h
  rw [hfilled] at h
  have hrecords := finish_records_of_unfilled h
  exact hrecords

/-- A post-only order that is placed finds no maker. -/
theorem postOnlyGuard_of_grid (hround : rustDecimal.IsRounding round)
    (hgrid : OnGrid k t.marketId s.openOrders) (hqty : rustDecimal.Grid k t.qty)
    (hpost : t.postOnly = true)
    (h : postOnlyGuard round s env user t = .ok (.ok ())) :
    s.postOnlyGuard env user t = .ok () := by
  unfold postOnlyGuard at h
  rw [if_pos hpost, matchTakerProbe_of_grid hround s hqty hgrid] at h
  have hprobe : ¬ 0 < s.matchTakerProbe env t.marketId t.side t.price t.qty user :=
    (ensure_eq_ok.mp (Except.ok.inj h)).1
  exact ensure_of (fun _ => hprobe) _ _

end Decimal

/-- In the arithmetic of `Decimal` the probe finds what matching fills, where the quantities in the
market and that of the taker are of one scale. A post-only order that is placed is then not
filled. -/
theorem AppState.matchTakerProbe_eq_matchTaker {round : ℚ → ℚ}
    (hround : rustDecimal.IsRounding round) {s : AppState} {env env' : Env}
    (henv : env.Iterates s) (henv' : env'.Iterates s)
    (hids : ∀ a, ((s.openOrders a).map OpenOrder.id).Nodup)
    (hpos : ∀ a, ∀ o ∈ s.openOrders a, 0 < o.remaining) :
    (∀ k marketId takerSide takerPrice takerQty taker, 0 < takerQty →
      Decimal.OnGrid k marketId s.openOrders → Decimal.LevelsOnGrid k s env' marketId →
      rustDecimal.Grid k takerQty → ∃ filled s',
        Decimal.matchTaker round s env' marketId takerSide takerPrice takerQty taker =
          .ok (filled,s') ∧
        Decimal.matchTakerProbe round s s env marketId takerSide takerPrice takerQty taker =
          .ok (filled.map MatchedFill.qty).sum) ∧
    ∀ k user req r s', req.postOnly = true → Decimal.OnGrid k req.marketId s.openOrders →
      (∀ q, req.qty = some q → 0 < q ∧ rustDecimal.Grid k q) →
      Decimal.placed round s env user req = some (r,s') →
        s'.fills = s.fills ∧ s'.publicTrades = s.publicTrades := by
  refine ⟨?_, ?_⟩
  · intro k marketId takerSide takerPrice takerQty taker hq hgrid hfits hqty
    have hmatch := @Decimal.matchTaker_of_grid round k s env' marketId takerSide takerPrice takerQty
      taker hround hids hqty hgrid hfits
    refine ⟨_, _, hmatch, ?_⟩
    rw [Decimal.matchTakerProbe_of_grid hround s hqty hgrid,
      probe_finds_matched henv henv' hids hpos hq.le]
    rfl
  · intro k user req r s' hpost hgrid hreq hplaced
    -- the guard has seen what matching would fill, and that is nothing
    obtain ⟨t, hv, hguard, hexec⟩ := Decimal.placed_stages hplaced
    obtain ⟨hsent, hpost'⟩ := validate_request hv
    rw [← validate_marketId hv] at hgrid
    obtain ⟨hq, hqty⟩ := hreq _ hsent
    have hpassed := Decimal.postOnlyGuard_of_grid hround hgrid hqty (hpost'.trans hpost) hguard
    have hnone := (postOnly_unfilled_iff hids hpos (hpost'.trans hpost) hq.ne' hpassed henv
      henv).mpr (Or.inl hq)
    exact Decimal.execute_records_of_unfilled hround hids hgrid hqty hnone hexec

/-- Two iterations, and an order below the asks. -/
theorem matchTakerProbe_eq_matchTaker_threeAsks :
    let env : Env := ⟨9, [2, 1], by decide⟩
    let req := { btcOrder "buy" "limit" (some 98) 1 with postOnly := true, reduceOnly := true }
    (∃ filled s', Decimal.matchTaker rustDecimal.halfEven threeAsks (twoAccounts 9) "btc-usd" .buy
        (some 100) 4 3 = .ok (filled,s') ∧
      Decimal.matchTakerProbe rustDecimal.halfEven threeAsks threeAsks env "btc-usd" .buy (some 100)
        4 3 = .ok (filled.map MatchedFill.qty).sum) ∧
    ∃ r s', Decimal.placed rustDecimal.halfEven threeAsks env 3 req = some (r,s') ∧
      s'.fills = threeAsks.fills := by
  intro env req
  have henv : env.Iterates threeAsks := iterates_threeAsks (by decide) (by decide)
  have henv' : (twoAccounts 9).Iterates threeAsks := iterates_threeAsks (by decide) (by decide)
  have hfits : Decimal.LevelsOnGrid 0 threeAsks (twoAccounts 9) "btc-usd" :=
    .of_sides (threeAsks_grid _) fun side => by cases side <;> decide +kernel
  obtain ⟨hprobe, hplace⟩ := AppState.matchTakerProbe_eq_matchTaker
    rustDecimal.halfEven_isRounding henv henv' threeAsks_ids
    (fun a o ho => (mem_threeAsks ho).2.2)
  refine ⟨hprobe 0 "btc-usd" .buy (some 100) 4 3 (by norm_num) (threeAsks_grid _) hfits
    (by decide +kernel), ?_⟩
  have hsome : (Decimal.placed rustDecimal.halfEven threeAsks env 3 req).isSome = true := by
    decide +kernel
  obtain ⟨⟨r, s'⟩, hplaced⟩ := Option.isSome_iff_exists.mp hsome
  refine ⟨r, s', hplaced, (hplace 0 3 req r s' rfl (threeAsks_grid _) ?_ hplaced).1⟩
  intro q hq
  obtain rfl := Option.some.inj hq
  exact ⟨by norm_num, by decide +kernel⟩

/-- Met before the dust, the ten are all that the probe sees; matching fills the dust as well. -/
theorem probe_misses_dust :
    let env : Env := ⟨9, [2, 1], by decide⟩
    env.Iterates dustAsk ∧ (twoAccounts 9).Iterates dustAsk ∧
      (∀ a, ∀ o ∈ dustAsk.openOrders a, 0 < o.remaining) ∧
      (∀ a, ((dustAsk.openOrders a).map OpenOrder.id).Nodup) ∧
      Decimal.matchTakerProbe rustDecimal.halfEven dustAsk dustAsk env "btc-usd" .buy (some 100) 10
        3 = .ok 10 ∧
      ∃ filled s', Decimal.matchTaker rustDecimal.halfEven dustAsk (twoAccounts 9) "btc-usd" .buy
        (some 100) 10 3 = .ok (filled,s') ∧ (filled.map MatchedFill.qty).sum ≠ 10 := by
  intro env
  obtain ⟨filled, s', hmatch, hsum⟩ := dustAsk_overfills
  have hkeys (a : Address) (ha : dustAsk.openOrders a ≠ []) : a = 1 ∨ a = 2 := by
    by_contra hother
    simp only [not_or] at hother
    simp [dustAsk, hother] at ha
  refine ⟨?_, ?_, fun a o ho => (dustAsk_orders ho).2, dustAsk_ids, ?_, filled, s', hmatch, ?_⟩
  · intro a ha
    rcases hkeys a ha with rfl | rfl <;> decide
  · intro a ha
    rcases hkeys a ha with rfl | rfl <;> decide
  · exact Decimal.toOption_eq_some.mp (by decide +kernel)
  · rw [hsum]
    norm_num

end Perplex.Edge
