import Perplex.EdgeReduceOnly

/-! Time in force at the edge. `place_order` checks the flag and never looks at it again, so
an order that should not rest is kept off the book only by the makers that use it up, and an
order that should be filled in full or not at all only by meeting no maker. -/
namespace Perplex.Edge

namespace AppState
variable {s s' : AppState} {env : Env} {user : Address} {t : Taker}

/-- What others offer within the limit of an order. -/
def crossingLiquidity (s : AppState) (env : Env) (user : Address) (t : Taker) : ℚ :=
  ((s.makers env t.marketId t.side t.price user).map OpenOrder.remaining).sum

/-- The makers that an order meets, taken in their priority, cover its quantity. -/
def UsedUp (s : AppState) (env : Env) (user : Address) (t : Taker) : Prop :=
  ∃ front : List Candidate, front ≠ [] ∧ front <+: s.met env user t ∧
    t.qty ≤ (front.map Candidate.rem).sum

theorem unfilled_eq_zero_iff (h : s.Indexed) (hq : t.qty ≠ 0) (env : Env) (user : Address) :
    s.unfilled env user t = 0 ↔ s.UsedUp env user t := by
  have hqty : ((s.matched env user t).1.map MatchedFill.qty).sum =
      ((drain Candidate.rem t.qty (s.met env user t)).map Prod.snd).sum := by
    rw [matched_eq_drain h.nodup, List.map_map]
    rfl
  have hleft := drain_left_ne_zero_iff Candidate.rem (r := t.qty) (l := s.met env user t)
  unfold unfilled UsedUp
  rw [hqty, ← not_outlasts_iff Candidate.rem hq, ← hleft, not_not]

/-- An order with a quantity is filled by the first maker it meets. -/
theorem matched_eq_nil_iff (h : ∀ a, ((s.openOrders a).map OpenOrder.id).Nodup)
    (hq : t.qty ≠ 0) (env : Env) (user : Address) :
    (s.matched env user t).1 = [] ↔ s.makers env t.marketId t.side t.price user = [] := by
  rw [matched_eq_drain h, List.map_eq_nil_iff, ← candidates_eq_nil_iff]
  change drain Candidate.rem t.qty (s.met env user t) = [] ↔ s.met env user t = []
  cases s.met env user t with
  | nil => simp [drain]
  | cons c cs => simp [drain, hq]

/-- The stores that an order can write, the public book apart. -/
structure Untouched (s s' : AppState) : Prop where
  openOrders : s'.openOrders = s.openOrders
  fills : s'.fills = s.fills
  publicTrades : s'.publicTrades = s.publicTrades
  positions : s'.positions = s.positions
  vaultBalances : s'.vaultBalances = s.vaultBalances

/-- No order of the market waits to be reaped. -/
def NoSpent (s : AppState) (marketId : String) : Prop :=
  ∀ a, ∀ o ∈ s.openOrders a, o.marketId = marketId → o.remaining ≠ 0

theorem matched_openOrders_of_no_makers
    (hnil : s.makers env t.marketId t.side t.price user = []) (a : Address) :
    (s.matched env user t).2.openOrders a =
      (s.openOrders a).filter fun o => o.marketId ≠ t.marketId ∨ o.remaining ≠ 0 := by
  have hc : s.drawn.candidates env t.marketId t.side t.price user = [] :=
    (s.candidates_eq_nil_iff ..).mpr hnil
  unfold matched matchTaker
  rw [hc]
  rfl

/-- The order with the id just drawn is the remainder, if there is one. -/
theorem remainder_rests_iff (h : s.Indexed) (env : Env) (user : Address) (t : Taker) :
    (∃ a, ∃ o ∈ (s.execute env user t).2.openOrders a, o.id = s.nextUlid) ↔
      s.unfilled env user t ≠ 0 ∧ t.orderType = .limit := by
  constructor
  · rintro ⟨a, o, ho, hid⟩
    rw [execute_openOrders] at ho
    rcases List.mem_append.mp ho with ho | ho
    · -- whatever was on the book has an older id
      have hold := (s.matched_ids env user t a).subset (List.mem_map_of_mem ho)
      obtain ⟨o₀, ho₀, he⟩ := List.mem_map.mp hold
      have hlt := h.below a o₀ ho₀
      omega
    · split_ifs at ho with hc
      · exact hc.2
      · simp at ho
  · intro hrest
    refine ⟨user, s.remainder env user t, ?_, rfl⟩
    rw [execute_openOrders, if_pos ⟨rfl, hrest⟩]
    simp

/-- An order that meets no maker leaves everything as it was exactly when nothing of it rests
and nothing is reaped. -/
theorem untouched_iff (h : s.Indexed) (hq : t.qty ≠ 0)
    (hnil : s.makers env t.marketId t.side t.price user = []) :
    Untouched s (s.execute env user t).2 ↔ t.orderType = .market ∧ s.NoSpent t.marketId := by
  have hfill : (s.matched env user t).1 = [] := (matched_eq_nil_iff h.nodup hq env user).mpr hnil
  have hleft : s.unfilled env user t = t.qty := by simp [unfilled, hfill]
  have hsettled : s.settled env user t = (s.matched env user t).2 := by
    simp [settled, hfill]
  have hbook := matched_openOrders_of_no_makers hnil
  constructor
  · intro hu
    have hmarket : t.orderType = .market := by
      cases ho : t.orderType with
      | market => rfl
      | limit =>
        -- the remainder would be a new order
        obtain ⟨a, o, hmem, hid⟩ := (remainder_rests_iff h env user t).mpr
          ⟨by rw [hleft]; exact hq, ho⟩
        rw [hu.openOrders] at hmem
        exact absurd hid (h.below a o hmem).ne
    refine ⟨hmarket, ?_⟩
    intro a o ho hm
    have hsame := congrFun hu.openOrders a
    rw [execute_openOrders, hbook, hmarket] at hsame
    simp only [reduceCtorEq, and_false, if_false, List.append_nil] at hsame
    have hkept := List.filter_eq_self.mp hsame o ho
    simpa [hm] using hkept
  · rintro ⟨hmarket, hspent⟩
    have hexec : (s.execute env user t).2 = (s.matched env user t).2 := by
      rw [execute_eq, if_neg (by simp [hmarket]), hsettled]
    rw [hexec]
    refine ⟨?_, rfl, rfl, rfl, rfl⟩
    funext a
    rw [hbook]
    apply List.filter_eq_self.mpr
    intro o ho
    by_cases hm : o.marketId = t.marketId
    · simp [hspent a o ho hm]
    · simp [hm]

end AppState

/-- The id has been drawn, and no open order has it. -/
def Retired (id : ℕ) (s : AppState) : Prop :=
  id < s.nextUlid ∧ ∀ a, ∀ o ∈ s.openOrders a, o.id ≠ id

theorem exec_retired {id : ℕ} {s s' : AppState} {c : Cmd} (h : Retired id s)
    (hok : exec s c = .ok s') : Retired id s' := by
  obtain ⟨hlt, habsent⟩ := h
  cases c with
  | placeOrder env user req =>
    obtain ⟨t, -, rfl⟩ := AppState.exec_placeOrder_eq_ok.mp hok
    have hnext : s.nextUlid+1 ≤ (s.execute env user t).2.nextUlid := by
      rw [AppState.execute_frame]
      exact (s.settled_frame env user t).2.2.2
    refine ⟨by omega, ?_⟩
    intro a o ho
    rw [AppState.execute_openOrders] at ho
    rcases List.mem_append.mp ho with ho | ho
    · have hold := (s.matched_ids env user t a).subset (List.mem_map_of_mem ho)
      obtain ⟨o₀, ho₀, he⟩ := List.mem_map.mp hold
      rw [← he]
      exact habsent a o₀ ho₀
    · split_ifs at ho with hc
      · obtain rfl : o = s.remainder env user t := by simpa using ho
        exact hlt.ne'
      · simp at ho
  | cancelOrder env user orderId =>
    obtain rfl := Except.ok.inj hok
    refine ⟨?_, ?_⟩
    · rw [AppState.cancelOrder_frame]
      exact hlt
    · intro a o ho
      exact habsent a o ((s.cancelOrder_sublist env user orderId a).subset ho)
  | setVaultBalance address amount =>
    obtain rfl := Except.ok.inj hok
    exact ⟨hlt, habsent⟩
  | setOraclePrice marketId price =>
    obtain rfl := Except.ok.inj hok
    exact ⟨hlt, habsent⟩

/-- Ids are not drawn twice. -/
theorem retired_run {id : ℕ} {s : AppState} (h : Retired id s) (es : List Event) :
    Retired id (runAll handle s es) := by
  have hstep : ∀ s e s', Retired id s → True → handle s e = .ok s' → Retired id s' := by
    intro s e s' hs _ hok
    cases e with
    | request c => exact exec_retired hs hok
    | setPositions address positions =>
      obtain rfl := Except.ok.inj hok
      exact hs
  exact runAll_invariant hstep h (fun _ _ => trivial)

/-- No order with this id is open, now or whatever happens later. -/
def NeverOpen (id : ℕ) (s : AppState) : Prop :=
  ∀ (es : List Event) (a : Address), ∀ o ∈ (runAll handle s es).openOrders a, o.id ≠ id

/-- An id that has been drawn stays off the book if it is not on it. -/
theorem neverOpen_iff {id : ℕ} {s : AppState} (hlt : id < s.nextUlid) :
    NeverOpen id s ↔ ¬ ∃ a, ∃ o ∈ s.openOrders a, o.id = id := by
  constructor
  · rintro hn ⟨a, o, ho, he⟩
    exact hn [] a o ho he
  · intro hn es
    exact (retired_run ⟨hlt, fun a o ho he => hn ⟨a, o, ho, he⟩⟩ es).2

/-- An immediate order stays off the book for good, and one that cannot be filled in full is
not filled at all. -/
structure HonoursTimeInForce (s : AppState) (env : Env) (user : Address)
    (req : PlaceOrderRequest) (t : Taker) (orderId : ℕ) (s' : AppState) : Prop where
  immediate : req.timeInForce = "ioc" ∨ req.timeInForce = "fok" → NeverOpen orderId s'
  fillOrKill : req.timeInForce = "fok" → s.crossingLiquidity env user t < t.qty →
    (s.matched env user t).1 = [] ∧ AppState.Untouched s s'

/-- The flag of an accepted order is honoured if and only if nothing is left of it to rest,
and a `fok` order short of liquidity is a market order that meets no maker. -/
theorem honours_iff {s : AppState} (h : s.Indexed) {env : Env} {user : Address}
    {req : PlaceOrderRequest} {t : Taker} {r : PlaceOrderResponse} {s' : AppState}
    (hv : s.validate req = .ok t) (hok : s.placeOrder env user req = .ok (r,s')) :
    HonoursTimeInForce s env user req t r.orderId s' ↔
      (req.timeInForce = "ioc" ∨ req.timeInForce = "fok" →
        t.orderType = .market ∨ s.UsedUp env user t) ∧
      (req.timeInForce = "fok" → s.crossingLiquidity env user t < t.qty →
        t.orderType = .market ∧ s.makers env t.marketId t.side t.price user = [] ∧
          s.NoSpent t.marketId) := by
  obtain ⟨t', ht, hex⟩ := AppState.placeOrder_eq_ok.mp hok
  obtain rfl := ht.eq hv
  have hq := ht.order.1
  have hr : (s.execute env user t').1 = r := congrArg Prod.fst hex
  have hid : r.orderId = s.nextUlid := by
    rw [← hr]
    rfl
  have hs' : (s.execute env user t').2 = s' := congrArg Prod.snd hex
  -- the id is open only as the remainder, and a drawn id does not come back
  have hrest : NeverOpen r.orderId s' ↔ t'.orderType = .market ∨ s.UsedUp env user t' := by
    have hopen := AppState.remainder_rests_iff h env user t'
    rw [hs', ← hid] at hopen
    have hnone : NeverOpen r.orderId s' ↔
        ¬ ∃ a, ∃ o ∈ s'.openOrders a, o.id = r.orderId := by
      apply neverOpen_iff
      have hnext : s.nextUlid+1 ≤ (s.execute env user t').2.nextUlid := by
        rw [AppState.execute_frame]
        exact (s.settled_frame env user t').2.2.2
      rw [hs'] at hnext
      omega
    rw [hnone, hopen, not_and_or, not_not, AppState.unfilled_eq_zero_iff h hq]
    have htype : ¬ t'.orderType = .limit ↔ t'.orderType = .market := by
      cases t'.orderType <;> simp
    rw [htype, or_comm]
  have hkill : (s.matched env user t').1 = [] ∧ AppState.Untouched s s' ↔
      t'.orderType = .market ∧ s.makers env t'.marketId t'.side t'.price user = [] ∧
        s.NoSpent t'.marketId := by
    rw [AppState.matched_eq_nil_iff h.nodup hq, ← hs']
    constructor
    · rintro ⟨hnil, hu⟩
      obtain ⟨hm, hspent⟩ := (AppState.untouched_iff h hq hnil).mp hu
      exact ⟨hm, hnil, hspent⟩
    · rintro ⟨hm, hnil, hspent⟩
      exact ⟨hnil, (AppState.untouched_iff h hq hnil).mpr ⟨hm, hspent⟩⟩
  constructor
  · intro hh
    exact ⟨fun hf => hrest.mp (hh.immediate hf), fun hf hl => hkill.mp (hh.fillOrKill hf hl)⟩
  · rintro ⟨hi, hf⟩
    exact ⟨fun hx => hrest.mpr (hi hx), fun hx hl => hkill.mpr (hf hx hl)⟩

/-- The id of the answer has been drawn. -/
theorem placeOrder_orderId_lt {s s' : AppState} {env : Env} {user : Address}
    {req : PlaceOrderRequest} {r : PlaceOrderResponse}
    (hok : s.placeOrder env user req = .ok (r,s')) : r.orderId < s'.nextUlid := by
  obtain ⟨t, -, hex⟩ := AppState.placeOrder_eq_ok.mp hok
  have hnext : s.nextUlid+1 ≤ (s.execute env user t).2.nextUlid := by
    rw [AppState.execute_frame]
    exact (s.settled_frame env user t).2.2.2
  have hid : (s.execute env user t).1.orderId = s.nextUlid := rfl
  rw [hex] at hnext hid
  change s.nextUlid+1 ≤ s'.nextUlid at hnext
  change r.orderId = s.nextUlid at hid
  omega

namespace Decimal

section Model
variable (round : ℚ → ℚ)

/-- No order with this id is open, now or whatever happens later without rounding. -/
def NeverOpen (orderId : ℕ) (s : AppState) : Prop :=
  ∀ es, ExactEvents round s es →
    ∀ a, ∀ o ∈ (serveEvents round s es).openOrders a, o.id ≠ orderId

/-- An immediate order stays off the book for good, and one that cannot be filled in full is
not filled at all. -/
structure HonoursTimeInForce (s : AppState) (env : Env) (user : Address)
    (req : PlaceOrderRequest) (t : Taker) (r : PlaceOrderResponse × AppState) : Prop where
  immediate : req.timeInForce = "ioc" ∨ req.timeInForce = "fok" →
    NeverOpen round r.1.orderId r.2
  fillOrKill : req.timeInForce = "fok" → s.crossingLiquidity env user t < t.qty →
    (∀ m, matched round s env user t = some m → m.1 = []) ∧ AppState.Untouched s r.2

end Model

variable {round : ℚ → ℚ} {s : AppState} {env : Env} {user : Address} {req : PlaceOrderRequest}
  {t : Taker}

theorem neverOpen_iff {orderId : ℕ} (hlt : orderId < s.nextUlid) :
    NeverOpen round orderId s ↔ Edge.NeverOpen orderId s := by
  constructor
  · intro hn
    rw [Edge.neverOpen_iff hlt]
    rintro ⟨a, o, ho, he⟩
    exact hn [] (fun pre e hpre => by simp at hpre) a o ho he
  · intro hn es hes
    rw [hes.run_eq]
    exact hn es

theorem OrderExact.honours_iff (h : OrderExact round s env user req)
    {r : PlaceOrderResponse × AppState} (hv : s.validate req = .ok t)
    (hok : placed round s env user req = some r) :
    HonoursTimeInForce round s env user req t r ↔
      Edge.HonoursTimeInForce s env user req t r.1.orderId r.2 := by
  have hplain := h.placed_iff.mp hok
  have ht : s.Accepts env user req t := h.accepts_iff.mp ⟨hv, by rw [hok]; rfl⟩
  have hfills : (∀ m, matched round s env user t = some m → m.1 = []) ↔
      (s.matched env user t).1 = [] := by
    simp only [h.matched_eq ht, Option.some.injEq, forall_eq']
  have hnever : NeverOpen round r.1.orderId r.2 ↔ Edge.NeverOpen r.1.orderId r.2 :=
    neverOpen_iff (placeOrder_orderId_lt hplain)
  constructor
  · rintro ⟨hi, hf⟩
    refine ⟨fun hx => hnever.mp (hi hx), fun hx hl => ?_⟩
    exact ⟨hfills.mp (hf hx hl).1, (hf hx hl).2⟩
  · rintro ⟨hi, hf⟩
    refine ⟨fun hx => hnever.mpr (hi hx), fun hx hl => ?_⟩
    exact ⟨hfills.mpr (hf hx hl).1, (hf hx hl).2⟩

end Decimal

end Perplex.Edge
