import Perplex.EdgeGates

/-! Requests on which rounding does not show: they return, and they return what they do without
rounding. Such a request is answered as it is on rationals, at each of its stages. -/
namespace Perplex.Edge.Decimal

section Model
variable (round : ℚ → ℚ)

/-- The fills of an order, and the state behind them with the book rebuilt. -/
def matched (s : AppState) (env : Env) (user : Address) (t : Taker) :
    Option (List MatchedFill × AppState) :=
  match decrementMakers round s.drawn env user t with
  | .error _ => none
  | .ok (filled,s') => (rebuildOrderbook round s' env t.marketId).toOption.map fun s' => (filled,s')

/-- The state in which the first `n` of them are settled. -/
def settled (s : AppState) (env : Env) (user : Address) (t : Taker) (n : ℕ) : Option AppState :=
  (matched round s env user t).bind fun m =>
    ((m.1.take n).foldlM (settleMatch round env.now s.nextUlid user t (s.feeBps t.marketId).1
      (s.feeBps t.marketId).2) m.2).toOption

/-- The answer to a request that is accepted and returns, and the state behind it. -/
def placed (s : AppState) (env : Env) (user : Address) (req : PlaceOrderRequest) :
    Option (PlaceOrderResponse × AppState) :=
  match placeOrder round s env user req with
  | .ok (.ok r) => some r
  | _ => none

/-- The request passes every check and is placed as `t`. -/
def Accepts (s : AppState) (env : Env) (user : Address) (req : PlaceOrderRequest)
    (t : Taker) : Prop :=
  s.validate req = .ok t ∧ (placed round s env user req).isSome

instance (s : AppState) (env : Env) (user : Address) (req : PlaceOrderRequest) (t : Taker) :
    Decidable (Accepts round s env user req t) := inferInstanceAs (Decidable (_ ∧ _))

/-- The computation returns, and rounding does not show in what it returns. -/
def Unrounded {α : Type} (f : (ℚ → ℚ) → Option α) : Prop := ∃ x, f round = some x ∧ f id = some x

/-- Rounding does not show in the answer to an order, in its fills, or between them. -/
structure OrderExact (s : AppState) (env : Env) (user : Address) (req : PlaceOrderRequest) :
    Prop where
  answer : Unrounded round fun ρ => (placeOrder ρ s env user req).toOption
  matching : ∀ t, Accepts round s env user req t → Unrounded round fun ρ => matched ρ s env user t
  settling : ∀ t, Accepts round s env user req t →
    ∀ n, Unrounded round fun ρ => settled ρ s env user t n

def CmdExact (s : AppState) : Cmd → Prop
  | .placeOrder env user req => OrderExact round s env user req
  | .cancelOrder env user orderId =>
    Unrounded round fun ρ => (cancelOrder ρ s env user orderId).toOption
  | _ => True

/-- So does no request of a run. -/
def ExactRun (s : AppState) (cs : List Cmd) : Prop :=
  ∀ (pre : List Cmd) (c : Cmd), pre++[c] <+: cs → CmdExact round (serveAll round s pre) c

end Model

variable {round : ℚ → ℚ} {s s' : AppState} {env : Env} {user : Address}
  {req : PlaceOrderRequest} {t : Taker}

/-- What no rounding shows in is what it is on rationals. -/
theorem Unrounded.eq {α : Type} {f : (ℚ → ℚ) → Option α} {y : α} (h : Unrounded round f)
    (hexact : ∀ x, f id = some x → x = y) : f round = some y := by
  obtain ⟨x, hx, hid⟩ := h
  rw [hx, hexact x hid]

theorem cancelOrder_exact {address : Address} {orderId : ℕ}
    (h : cancelOrder id s env address orderId = .ok s') :
    s' = s.cancelOrder env address orderId := by
  unfold cancelOrder at h
  unfold AppState.cancelOrder
  cases hf : (s.openOrders address).find? (fun o => o.id = orderId) with
  | none =>
    rw [hf] at h
    exact (Except.ok.inj h).symm
  | some o =>
    rw [hf] at h
    exact rebuildOrderbook_exact h

theorem matched_exact {m : List MatchedFill × AppState} (h : matched id s env user t = some m) :
    m = s.matched env user t := by
  unfold matched decrementMakers at h
  cases hloop : matchLoop id env.now s.drawn.openOrders t.qty
      (s.drawn.candidates env t.marketId t.side t.price user) with
  | error e => simp [hloop] at h
  | ok x =>
    rw [hloop] at h
    obtain ⟨s₁, hs₁, rfl⟩ := Option.map_eq_some_iff.mp h
    obtain rfl := rebuildOrderbook_exact (toOption_eq_some.mp hs₁)
    unfold AppState.matched AppState.matchTaker
    rw [← matchLoop_exact hloop]

theorem settled_exact {n : ℕ} (h : settled id s env user t n = some s') :
    s' = ((s.matched env user t).1.take n).foldl (s.settling env user t)
      (s.matched env user t).2 := by
  obtain ⟨m, hm, h⟩ := Option.bind_eq_some_iff.mp h
  obtain rfl := matched_exact hm
  exact foldlM_eq_foldl (fun _ _ _ => settleMatch_exact) (toOption_eq_some.mp h)

theorem placed_eq_some {r : PlaceOrderResponse × AppState} :
    placed round s env user req = some r ↔ placeOrder round s env user req = .ok (.ok r) := by
  unfold placed
  rcases placeOrder round s env user req with e | (e | r') <;> simp

namespace OrderExact
variable (h : OrderExact round s env user req)
include h

theorem placeOrder_eq : placeOrder round s env user req = .ok (s.placeOrder env user req) :=
  toOption_eq_some.mp (h.answer.eq fun _ hx => placeOrder_exact (toOption_eq_some.mp hx))

theorem placed_iff {r : PlaceOrderResponse × AppState} :
    placed round s env user req = some r ↔ s.placeOrder env user req = .ok r := by
  rw [placed_eq_some, h.placeOrder_eq, Except.ok.injEq]

theorem accepts_iff : Accepts round s env user req t ↔ s.Accepts env user req t := by
  unfold Accepts
  simp only [Option.isSome_iff_exists, h.placed_iff]
  constructor
  · rintro ⟨hv, ⟨r, s'⟩, hr⟩
    obtain ⟨t', ht', -⟩ := AppState.placeOrder_eq_ok.mp hr
    obtain rfl : t' = t := Except.ok.inj (ht'.valid.symm.trans hv)
    exact ht'
  · exact fun ht => ⟨ht.valid, _, AppState.placeOrder_eq_ok.mpr ⟨t, ht, rfl⟩⟩

theorem matched_eq (ht : s.Accepts env user req t) :
    matched round s env user t = some (s.matched env user t) :=
  (h.matching t (h.accepts_iff.mpr ht)).eq fun _ => matched_exact

theorem settled_eq (ht : s.Accepts env user req t) (n : ℕ) :
    settled round s env user t n = some (((s.matched env user t).1.take n).foldl
      (s.settling env user t) (s.matched env user t).2) :=
  (h.settling t (h.accepts_iff.mpr ht) n).eq fun _ => settled_exact

end OrderExact

/-- A command on which rounding does not show does what it does on rationals. -/
theorem serve_eq {c : Cmd} (h : CmdExact round s c) :
    serve round s c = .ok (attempt exec s c) := by
  cases c with
  | placeOrder env user req =>
    have hanswer := OrderExact.placeOrder_eq h
    simp only [serve, hanswer, attempt, exec]
    cases s.placeOrder env user req <;> rfl
  | cancelOrder env user orderId =>
    have hc : Unrounded round fun ρ => (cancelOrder ρ s env user orderId).toOption := h
    exact toOption_eq_some.mp (hc.eq fun _ hx => cancelOrder_exact (toOption_eq_some.mp hx))
  | setVaultBalance address amount => rfl
  | setOraclePrice marketId priceX18 => rfl

namespace ExactRun
variable {cs pre : List Cmd}

theorem mono (h : ExactRun round s cs) (hpre : pre <+: cs) : ExactRun round s pre :=
  fun p c hp => h p c (hp.trans hpre)

theorem tail {c : Cmd} (h : ExactRun round s (c :: cs)) :
    ExactRun round (attempt exec s c) cs := by
  intro pre c' hpre
  have hhead := serve_eq (h [] c (by simp))
  have hrest := h (c :: pre) c' (by simpa using hpre)
  change serve round s c = _ at hhead
  change CmdExact round (serveAll round (final id (serve round s c)) pre) c' at hrest
  rwa [hhead] at hrest

theorem run_eq (h : ExactRun round s cs) : serveAll round s cs = runAll exec s cs :=
  foldl_eq_of_reached fun pre c hpre => by
    have hc := serve_eq (h pre c hpre)
    unfold serveAll at hc
    rw [hc]
    rfl

theorem run_eq_of_prefix (h : ExactRun round s cs) (hpre : pre <+: cs) :
    serveAll round s pre = runAll exec s pre := (h.mono hpre).run_eq

/-- Every command of such a run meets the state that it meets on rationals. -/
theorem meets (h : ExactRun round s cs) {c : Cmd} (hpre : pre++[c] <+: cs) :
    serveAll round s pre = runAll exec s pre ∧ CmdExact round (runAll exec s pre) c := by
  have hrun := h.run_eq_of_prefix ((List.prefix_append pre [c]).trans hpre)
  exact ⟨hrun, hrun ▸ h pre c hpre⟩

/-- What is asked of every command in the state that it meets. -/
theorem forall_iff (h : ExactRun round s cs) {P Q : AppState → Cmd → Prop}
    (hpq : ∀ s c, CmdExact round s c → (P s c ↔ Q s c)) :
    (∀ (pre : List Cmd) (c : Cmd), pre++[c] <+: cs → P (serveAll round s pre) c) ↔
      ∀ (pre : List Cmd) (c : Cmd), pre++[c] <+: cs → Q (runAll exec s pre) c := by
  refine forall₃_congr fun pre c hpre => ?_
  obtain ⟨hrun, hc⟩ := h.meets hpre
  rw [hrun]
  exact hpq _ c hc

/-- What is asked of every state reached. -/
theorem forall_state_iff (h : ExactRun round s cs) {P : AppState → Prop} :
    (∀ pre, pre <+: cs → P (serveAll round s pre)) ↔
      ∀ pre, pre <+: cs → P (runAll exec s pre) :=
  forall₂_congr fun _ hpre => by rw [h.run_eq_of_prefix hpre]

end ExactRun

section Fills
variable {m : MatchedFill} {s₁ s₂ : AppState}

/-- A fill is made on a candidate. -/
theorem matchLoop_makers {now : ℕ} {cs : List Candidate} {orders left : Address → List OpenOrder}
    {q : ℚ} {filled : List MatchedFill}
    (h : matchLoop round now orders q cs = .ok (filled,left)) :
    ∀ m ∈ filled, ∃ c ∈ cs, m.makerAddress = c.address := by
  induction cs generalizing orders q filled with
  | nil =>
    obtain ⟨rfl, -⟩ := Prod.mk.inj (Except.ok.inj h)
    simp
  | cons c rest ih =>
    have hlater {filled : List MatchedFill} {orders : Address → List OpenOrder} {q : ℚ}
        (h : matchLoop round now orders q rest = .ok (filled,left)) :
        ∀ m ∈ filled, ∃ c' ∈ c :: rest, m.makerAddress = c'.address := by
      intro m hm
      obtain ⟨c', hc', he⟩ := ih h m hm
      exact ⟨c', List.mem_cons_of_mem _ hc', he⟩
    unfold matchLoop at h
    split_ifs at h with hz
    · obtain ⟨rfl, -⟩ := Prod.mk.inj (Except.ok.inj h)
      simp
    cases ho : (orders c.address).find? (fun o => o.id = c.id) with
    | none =>
      rw [ho] at h
      exact hlater h
    | some o =>
      simp only [ho] at h
      split_ifs at h with hr
      · exact hlater h
      · obtain ⟨next, -, h⟩ := chain_ok_iff.mp h
        cases hrest : matchLoop round now next.2 next.1 rest with
        | error e => simp [hrest, pushFill] at h
        | ok x =>
          obtain ⟨filled', left'⟩ := x
          rw [hrest] at h
          obtain ⟨rfl, rfl⟩ := Prod.mk.inj (Except.ok.inj h)
          exact List.forall_mem_cons.mpr ⟨⟨c, List.mem_cons_self, rfl⟩, hlater hrest⟩

theorem matched_others {filled : List MatchedFill}
    (h : matched round s env user t = some (filled,s')) :
    ∀ m ∈ filled, m.makerAddress ≠ user := by
  unfold matched decrementMakers at h
  cases hloop : matchLoop round env.now s.drawn.openOrders t.qty
      (s.drawn.candidates env t.marketId t.side t.price user) with
  | error e => simp [hloop] at h
  | ok x =>
    rw [hloop] at h
    obtain ⟨s₁, -, he⟩ := Option.map_eq_some_iff.mp h
    obtain ⟨rfl, -⟩ := Prod.mk.inj he
    intro m hm
    obtain ⟨c, hc, hmaker⟩ := matchLoop_makers hloop m hm
    rw [hmaker]
    exact (AppState.mem_candidates hc).1

/-- The fills of an order are settled one after the other. -/
theorem settled_succ {pre post : List MatchedFill}
    (hm : matched round s env user t = some (pre++m :: post,s')) :
    settled round s env user t (pre.length+1) =
      (settled round s env user t pre.length).bind fun s₁ =>
        (settleMatch round env.now s.nextUlid user t (s.feeBps t.marketId).1
          (s.feeBps t.marketId).2 s₁ m).toOption := by
  have hpre : (pre++m :: post).take pre.length = pre := by simp
  have hnext : (pre++m :: post).take (pre.length+1) = pre++[m] := by
    simp [List.take_append]
  unfold settled
  rw [hm, Option.bind_some, Option.bind_some]
  dsimp only
  rw [hpre, hnext, List.foldlM_append]
  cases pre.foldlM (settleMatch round env.now s.nextUlid user t (s.feeBps t.marketId).1
      (s.feeBps t.marketId).2) s' with
  | error e => rfl
  | ok s₁ =>
    simp only [List.foldlM_cons, List.foldlM_nil, bind_pure]
    rfl

variable (round) in
/-- The fill `m` of an order is settled in the state `s₁` and leaves `s₂`, and rounding does not
show in it. -/
structure Settles (s : AppState) (env : Env) (user : Address) (t : Taker) (m : MatchedFill)
    (s₁ s₂ : AppState) : Prop where
  fill : ∃ pre post s', matched round s env user t = some (pre++m :: post,s') ∧
    settled round s env user t pre.length = some s₁ ∧
    settled round s env user t (pre.length+1) = some s₂
  unrounded : Unrounded round fun ρ => (settleMatch ρ env.now s.nextUlid user t
    (s.feeBps t.marketId).1 (s.feeBps t.marketId).2 s₁ m).toOption

namespace Settles

theorem others (h : Settles round s env user t m s₁ s₂) : m.makerAddress ≠ user := by
  obtain ⟨pre, post, s', hm, -⟩ := h.fill
  exact matched_others hm m (by simp)

/-- It does what it does on rationals. -/
theorem eq (h : Settles round s env user t m s₁ s₂) : s₂ = s.settling env user t s₁ m := by
  obtain ⟨pre, post, s', hm, h₁, h₂⟩ := h.fill
  rw [settled_succ hm, h₁, Option.bind_some,
    h.unrounded.eq fun _ hx => settleMatch_exact (toOption_eq_some.mp hx)] at h₂
  exact (Option.some.inj h₂).symm

/-- Where nothing is rounded it is enough that the fill is settled. -/
theorem of_id {pre post : List MatchedFill}
    (hm : (matched id s env user t).map Prod.fst = some (pre++m :: post))
    (hsome : (settled id s env user t (pre.length+1)).isSome) :
    ∃ s₁ s₂, settled id s env user t pre.length = some s₁ ∧ Settles id s env user t m s₁ s₂ := by
  obtain ⟨⟨filled, s'⟩, hmatched, rfl⟩ := Option.map_eq_some_iff.mp hm
  obtain ⟨s₂, h₂⟩ := Option.isSome_iff_exists.mp hsome
  have hsettle := h₂
  rw [settled_succ hmatched] at hsettle
  obtain ⟨s₁, h₁, hsettle⟩ := Option.bind_eq_some_iff.mp hsettle
  exact ⟨s₁, s₂, h₁, ⟨pre, post, s', hmatched, h₁, h₂⟩, s₂, hsettle, hsettle⟩

end Settles

end Fills

section Returns

/-- An order that is carried through has passed every stage. -/
theorem matched_of_execute {r : PlaceOrderResponse × AppState}
    (h : execute round s env user t = .ok r) (n : ℕ) :
    (matched round s env user t).isSome ∧ (settled round s env user t n).isSome := by
  unfold execute at h
  cases hd : decrementMakers round s.drawn env user t with
  | error e => simp [hd] at h
  | ok x =>
    obtain ⟨filled, s'⟩ := x
    rw [hd] at h
    unfold finish at h
    simp only [chain_ok_iff] at h
    obtain ⟨s₁, hs₁, -, -, -, -, m, hm, s₂, hs₂, -⟩ := h
    have hmatched : matched round s env user t = some (filled,s₁) := by
      simp only [matched, hd, hs₁]
      rfl
    refine ⟨by rw [hmatched]; rfl, ?_⟩
    -- the fees are those of the market before the order
    have hfees : feeSchedule m = s.feeBps t.marketId := by
      obtain rfl := market_eq hm
      unfold rebuildOrderbook at hs₁
      simp only [chain_ok_iff] at hs₁
      obtain ⟨bids, -, asks, -, he⟩ := hs₁
      unfold decrementMakers at hd
      cases hloop : matchLoop round env.now s.drawn.openOrders t.qty
          (s.drawn.candidates env t.marketId t.side t.price user) with
      | error e => simp [hloop] at hd
      | ok x =>
        rw [hloop] at hd
        rw [← Except.ok.inj he, ← (Prod.mk.inj (Except.ok.inj hd)).2]
        rfl
    rw [hfees, ← List.take_append_drop n filled, List.foldlM_append] at hs₂
    obtain ⟨s₃, hs₃, -⟩ := chain_ok_iff.mp hs₂
    unfold settled
    rw [hmatched, Option.bind_some]
    simp only [hs₃]
    rfl

/-- An order that is placed has passed the checks and is carried through. -/
theorem placed_stages {r : PlaceOrderResponse × AppState}
    (h : placed round s env user req = some r) : ∃ t, s.validate req = .ok t ∧
      postOnlyGuard round s env user t = .ok (.ok ()) ∧ execute round s env user t = .ok r := by
  rw [placed_eq_some] at h
  unfold placeOrder at h
  simp only [chain_ok_iff] at h
  obtain ⟨-, -, h⟩ := h
  cases hv : s.validate req with
  | error e => simp [hv, pure, Except.pure] at h
  | ok t =>
    simp only [hv, chain_ok_iff] at h
    obtain ⟨risk, -, h⟩ := h
    cases risk with
    | error e => simp [pure, Except.pure] at h
    | ok u =>
      simp only [chain_ok_iff] at h
      obtain ⟨guard, hguard, h⟩ := h
      cases guard with
      | error e => simp [pure, Except.pure] at h
      | ok u =>
        simp only [chain_ok_iff] at h
        obtain ⟨x, hx, he⟩ := h
        obtain rfl : x = r := by simpa [pure, Except.pure] using he
        exact ⟨t, rfl, hguard, hx⟩

theorem Accepts.execute (h : Accepts round s env user req t) :
    ∃ r, execute round s env user t = .ok r := by
  obtain ⟨hv, hsome⟩ := h
  obtain ⟨r, hr⟩ := Option.isSome_iff_exists.mp hsome
  obtain ⟨t', hv', -, hx⟩ := placed_stages hr
  obtain rfl : t' = t := Except.ok.inj (hv'.symm.trans hv)
  exact ⟨r, hx⟩

theorem unrounded_id {α : Type} {f : (ℚ → ℚ) → Option α} (h : (f id).isSome) :
    Unrounded id f := by
  obtain ⟨x, hx⟩ := Option.isSome_iff_exists.mp h
  exact ⟨x, hx, hx⟩

/-- Where nothing is rounded it is enough that the request returns. -/
theorem OrderExact.of_id (h : (placeOrder id s env user req).toOption.isSome) :
    OrderExact id s env user req := by
  refine ⟨unrounded_id h, fun t ht => ?_, fun t ht n => ?_⟩
  · obtain ⟨r, hr⟩ := ht.execute
    exact unrounded_id (matched_of_execute hr 0).1
  · obtain ⟨r, hr⟩ := ht.execute
    exact unrounded_id (matched_of_execute hr n).2

/-- The opening trade returns, with nothing to round. -/
theorem openTrade_exact : ExactRun id AppState.new openTrade :=
  forall_request_cons trivial (forall_request_cons trivial
    (forall_request_cons (.of_id (by decide +kernel))
      (forall_request_cons (.of_id (by decide +kernel)) forall_request_nil)))

end Returns

end Perplex.Edge.Decimal
