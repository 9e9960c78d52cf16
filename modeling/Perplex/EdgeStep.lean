import Perplex.EdgeMatch

/-! `place_order` in stages: what an accepted request has passed, what settling its fills
changes and what it leaves resting. -/
namespace Perplex.Edge

/-- Buying adds to a signed position, selling takes away. -/
def Side.sign : Side → ℚ
  | .buy => 1
  | .sell => -1

def PositionSide.sign : PositionSide → ℚ
  | .long => 1
  | .short => -1

@[simp]
theorem sign_position (side : Side) : side.position.sign = side.sign := by
  cases side <;> rfl

theorem sign_of_ne_position {side : Side} {x : PositionSide} (h : x ≠ side.position) :
    x.sign = -side.sign := by
  cases side <;> cases x <;> simp_all [Side.position, Side.sign, PositionSide.sign]

@[simp]
theorem sign_opposite (side : Side) : side.opposite.sign = -side.sign := by
  cases side <;> simp [Side.opposite, Side.sign]

theorem Side.sign_mul_self (side : Side) : side.sign*side.sign = 1 := by
  cases side <;> norm_num [Side.sign]

theorem Side.sign_ne_zero (side : Side) : side.sign ≠ 0 := by
  cases side <;> simp [Side.sign]

theorem Side.abs_sign (side : Side) : |side.sign| = 1 := by
  cases side <;> simp [Side.sign]

namespace AppState

/-- The request passes every check and is placed as `t`. -/
structure Accepts (s : AppState) (env : Env) (user : Address) (req : PlaceOrderRequest)
    (t : Taker) : Prop where
  valid : s.validate req = .ok t
  gate : s.riskGate user t = .ok ()
  guard : s.postOnlyGuard env user t = .ok ()

variable {s s' : AppState} {env : Env} {user : Address} {req : PlaceOrderRequest} {t : Taker}

theorem placeOrder_eq_ok {r : PlaceOrderResponse} :
    s.placeOrder env user req = .ok (r,s') ↔
      ∃ t, s.Accepts env user req t ∧ s.execute env user t = (r,s') := by
  unfold placeOrder
  simp only [chain_ok_iff]
  constructor
  · rintro ⟨t, hv, ⟨⟩, hg, ⟨⟩, hp, he⟩
    exact ⟨t, ⟨hv, hg, hp⟩, Except.ok.inj he⟩
  · rintro ⟨t, h, he⟩
    exact ⟨t, h.valid, (), h.gate, (), h.guard, congrArg Except.ok he⟩

/-- The only way a request changes the state is by being accepted. -/
theorem exec_placeOrder_eq_ok : exec s (.placeOrder env user req) = .ok s' ↔
    ∃ t, s.Accepts env user req t ∧ (s.execute env user t).2 = s' := by
  unfold exec
  simp only [chain_ok_iff, Prod.exists]
  constructor
  · rintro ⟨r, s₁, h, he⟩
    obtain ⟨t, ht, hex⟩ := placeOrder_eq_ok.mp h
    refine ⟨t, ht, ?_⟩
    rw [hex]
    exact Except.ok.inj he
  · rintro ⟨t, ht, rfl⟩
    exact ⟨_, _, placeOrder_eq_ok.mpr ⟨t, ht, rfl⟩, rfl⟩

/-- The order is determined by the request. -/
theorem Accepts.eq {t' : Taker} (h : s.Accepts env user req t) (hv : s.validate req = .ok t') :
    t = t' := Except.ok.inj (h.valid.symm.trans hv)

/-- What validation says about the order that is placed. -/
theorem Accepts.order (h : s.Accepts env user req t) : t.qty ≠ 0 ∧
    (t.orderType = .limit → t.price.isSome) ∧ (t.orderType = .market → t.price = none) ∧
    (s.market t.marketId).isSome := by
  have hv := h.valid
  unfold validate at hv
  simp only [chain_ok_iff, ensure_eq_ok, and_true, exists_const] at hv
  obtain ⟨hm, -, -, -, -, -, -, hq, hprice, he⟩ := hv
  obtain rfl := Except.ok.inj he
  refine ⟨hq, ?_, ?_, hm⟩
  · intro hl
    by_cases ho : req.orderType = "limit"
    · simpa [ho] using hprice ho
    · simp [ho] at hl
  · intro hl
    by_cases ho : req.orderType = "limit"
    · simp [ho] at hl
    · simp [ho]

/-- What the order takes over from the request. -/
theorem validate_request (hv : s.validate req = .ok t) :
    req.qty = some t.qty ∧ t.postOnly = req.postOnly := by
  unfold validate at hv
  simp only [chain_ok_iff, ensure_eq_ok, and_true, exists_const] at hv
  obtain ⟨-, -, -, -, -, -, hsome, -, -, he⟩ := hv
  obtain rfl := Except.ok.inj he
  obtain ⟨q, hq⟩ := Option.isSome_iff_exists.mp hsome
  simp [hq]

theorem validate_marketId (hv : s.validate req = .ok t) : t.marketId = req.marketId := by
  unfold validate at hv
  simp only [chain_ok_iff, ensure_eq_ok, and_true, exists_const] at hv
  obtain ⟨-, -, -, -, -, -, -, -, -, he⟩ := hv
  obtain rfl := Except.ok.inj he
  rfl

/-- The state in which the order is matched. -/
def drawn (s : AppState) : AppState := { s with nextUlid := s.nextUlid+1 }

/-- The fills of an accepted order and the state they leave. -/
def matched (s : AppState) (env : Env) (user : Address) (t : Taker) :
    List MatchedFill × AppState :=
  s.drawn.matchTaker env t.marketId t.side t.price t.qty user

def unfilled (s : AppState) (env : Env) (user : Address) (t : Taker) : ℚ :=
  t.qty-((s.matched env user t).1.map MatchedFill.qty).sum

/-- Fee and rebate of a market in basis points. -/
def feeBps (s : AppState) (marketId : String) : ℕ × ℤ :=
  match s.market marketId with
  | some m => (m.takerFeeBps,m.makerRebateBps)
  | none => (0,0)

/-- One pass of the fill loop of this order. -/
def settling (s : AppState) (env : Env) (user : Address) (t : Taker) :
    AppState → MatchedFill → AppState :=
  settleMatch env.now s.nextUlid user t (s.feeBps t.marketId).1 (s.feeBps t.marketId).2

/-- The state after every fill is settled. -/
def settled (s : AppState) (env : Env) (user : Address) (t : Taker) : AppState :=
  (s.matched env user t).1.foldl (s.settling env user t) (s.matched env user t).2

/-- The order that rests when something is left. -/
def remainder (s : AppState) (env : Env) (user : Address) (t : Taker) : OpenOrder :=
  ⟨s.nextUlid, t.marketId, t.side, t.orderType, t.price.getD 0, t.qty, s.unfilled env user t,
    env.now, t.clientOrderId⟩

theorem execute_eq (s : AppState) (env : Env) (user : Address) (t : Taker) :
    (s.execute env user t).2 =
      if s.unfilled env user t ≠ 0 ∧ t.orderType = .limit then
        (s.settled env user t).addOpenOrder env user (s.remainder env user t)
      else s.settled env user t := rfl

/-- Fees touch the vault balances only. -/
theorem adjustVault_frame (s : AppState) (address : Address) (d : ℚ) :
    s.adjustVault address d =
      { s with vaultBalances := (s.adjustVault address d).vaultBalances } := by
  unfold adjustVault
  split_ifs <;> rfl

section AdjustVault
variable (s : AppState) (address : Address) (d : ℚ)

@[simp]
theorem adjustVault_markets : (s.adjustVault address d).markets = s.markets := by
  rw [adjustVault_frame]

@[simp]
theorem adjustVault_openOrders : (s.adjustVault address d).openOrders = s.openOrders := by
  rw [adjustVault_frame]

@[simp]
theorem adjustVault_positions : (s.adjustVault address d).positions = s.positions := by
  rw [adjustVault_frame]

@[simp]
theorem adjustVault_fills : (s.adjustVault address d).fills = s.fills := by
  rw [adjustVault_frame]

@[simp]
theorem adjustVault_publicTrades : (s.adjustVault address d).publicTrades = s.publicTrades := by
  rw [adjustVault_frame]

@[simp]
theorem adjustVault_oraclePrices : (s.adjustVault address d).oraclePrices = s.oraclePrices := by
  rw [adjustVault_frame]

end AdjustVault

theorem recordFill_fills (s : AppState) (address : Address) (fill : FillInfo) (a : Address) :
    (s.recordFill address fill).fills a = s.fills a++if a = address then [fill] else [] := by
  rcases eq_or_ne a address with rfl | ha
  · simp [recordFill]
  · simp [recordFill, ha]

section Settle
variable (now orderId : ℕ) (user : Address) (t : Taker) (takerFeeBps : ℕ) (makerRebateBps : ℤ)

/-- Settling a fill writes neither the orders nor the prices. -/
theorem settleMatch_frame (s : AppState) (m : MatchedFill) :
    let s' := settleMatch now orderId user t takerFeeBps makerRebateBps s m
    s'.openOrders = s.openOrders ∧ s'.markets = s.markets ∧ s'.oraclePrices = s.oraclePrices ∧
      s'.nextUlid = s.nextUlid+3 := by
  simp [settleMatch, upsertPosition, recordTrade, recordFill]

theorem settleAll_frame (filled : List MatchedFill) (s : AppState) :
    let s' := filled.foldl (settleMatch now orderId user t takerFeeBps makerRebateBps) s
    s'.openOrders = s.openOrders ∧ s'.markets = s.markets ∧ s'.oraclePrices = s.oraclePrices ∧
      s.nextUlid ≤ s'.nextUlid := by
  induction filled generalizing s with
  | nil => exact ⟨rfl, rfl, rfl, le_rfl⟩
  | cons m rest ih =>
    obtain ⟨h1, h2, h3, h4⟩ :=
      settleMatch_frame now orderId user t takerFeeBps makerRebateBps s m
    obtain ⟨k1, k2, k3, k4⟩ := ih (settleMatch now orderId user t takerFeeBps makerRebateBps s m)
    refine ⟨k1.trans h1, k2.trans h2, k3.trans h3, ?_⟩
    rw [List.foldl_cons]
    omega

end Settle

theorem settled_frame (s : AppState) (env : Env) (user : Address) (t : Taker) :
    (s.settled env user t).openOrders = (s.matched env user t).2.openOrders ∧
      (s.settled env user t).markets = s.markets ∧
      (s.settled env user t).oraclePrices = s.oraclePrices ∧
      s.nextUlid+1 ≤ (s.settled env user t).nextUlid :=
  settleAll_frame ..

/-- The open orders after an accepted request. -/
theorem execute_openOrders (s : AppState) (env : Env) (user : Address) (t : Taker)
    (a : Address) :
    (s.execute env user t).2.openOrders a = (s.matched env user t).2.openOrders a++
      (if a = user ∧ s.unfilled env user t ≠ 0 ∧ t.orderType = .limit
        then [s.remainder env user t] else []) := by
  -- settling leaves the orders, so they are those of matching and the remainder
  have hf := (s.settled_frame env user t).1
  rw [execute_eq]
  by_cases hrest : s.unfilled env user t ≠ 0 ∧ t.orderType = .limit
  · rw [if_pos hrest]
    change Function.update (s.settled env user t).openOrders user
      ((s.settled env user t).openOrders user++[s.remainder env user t]) a = _
    rw [hf]
    by_cases ha : a = user
    · subst ha
      rw [Function.update_self, if_pos ⟨rfl, hrest⟩]
    · rw [Function.update_of_ne ha, if_neg (fun h => ha h.1), List.append_nil]
  · rw [if_neg hrest, if_neg (fun h => hrest h.2), List.append_nil, hf]

/-- Resting the remainder writes the orders and the public book only. -/
theorem execute_frame (s : AppState) (env : Env) (user : Address) (t : Taker) :
    let s' := (s.execute env user t).2
    s' = { s.settled env user t with
      openOrders := s'.openOrders, orderbooks := s'.orderbooks } := by
  rw [execute_eq]
  split_ifs <;> rfl

theorem setRemaining_ids (id : ℕ) (r : ℚ) (l : List OpenOrder) :
    (setRemaining id r l).map OpenOrder.id = l.map OpenOrder.id := by
  induction l with
  | nil => rfl
  | cons o rest ih =>
    unfold setRemaining
    split_ifs
    · rfl
    · rw [List.map_cons, List.map_cons, ih]

theorem matchLoop_ids (now : ℕ) (cs : List Candidate) (orders : Address → List OpenOrder)
    (q : ℚ) (a : Address) :
    ((matchLoop now orders q cs).2 a).map OpenOrder.id = (orders a).map OpenOrder.id := by
  induction cs generalizing orders q with
  | nil => rfl
  | cons c cs ih =>
    unfold matchLoop
    split_ifs
    · rfl
    split
    · exact ih orders q
    · next o ho =>
      split_ifs
      · exact ih orders q
      · refine (ih _ _).trans ?_
        by_cases ha : a = c.address
        · subst ha
          rw [Function.update_self, setRemaining_ids]
        · rw [Function.update_of_ne ha]

/-- Matching drops orders and keeps the ids of the others. -/
theorem matchTaker_ids (s : AppState) (env : Env) (marketId : String) (takerSide : Side)
    (takerPrice : Option ℚ) (takerQty : ℚ) (taker a : Address) :
    (((s.matchTaker env marketId takerSide takerPrice takerQty taker).2.openOrders a).map
      OpenOrder.id).Sublist ((s.openOrders a).map OpenOrder.id) := by
  rw [← matchLoop_ids env.now (s.candidates env marketId takerSide takerPrice taker)
    s.openOrders takerQty a]
  exact List.filter_sublist.map _

theorem matched_ids (s : AppState) (env : Env) (user : Address) (t : Taker) (a : Address) :
    (((s.matched env user t).2.openOrders a).map OpenOrder.id).Sublist
      ((s.openOrders a).map OpenOrder.id) :=
  s.drawn.matchTaker_ids env t.marketId t.side t.price t.qty user a

/-- No account trades with itself. -/
theorem matched_others (s : AppState) (env : Env) (user : Address) (t : Taker) :
    ∀ m ∈ (s.matched env user t).1, m.makerAddress ≠ user := by
  intro m hm
  obtain ⟨c, hc, he⟩ := matchLoop_makers _ _ _ _ m hm
  rw [he]
  exact (mem_candidates hc).1

theorem execute_indexed (h : s.Indexed) (env : Env) (user : Address) (t : Taker) :
    (s.execute env user t).2.Indexed := by
  -- ids on the book were drawn before this request, and the request draws the next one
  have hold (a : Address) : ∀ o ∈ (s.matched env user t).2.openOrders a, o.id < s.nextUlid := by
    intro o ho
    have hid := (s.matched_ids env user t a).subset (List.mem_map_of_mem ho)
    obtain ⟨o₀, ho₀, he⟩ := List.mem_map.mp hid
    rw [← he]
    exact h.below a o₀ ho₀
  have hnext : s.nextUlid+1 ≤ (s.execute env user t).2.nextUlid := by
    rw [execute_frame]
    exact (s.settled_frame env user t).2.2.2
  constructor
  · intro a
    rw [execute_openOrders, List.map_append]
    refine List.nodup_append.mpr ⟨(h.nodup a).sublist (s.matched_ids env user t a), ?_, ?_⟩
    · split_ifs <;> simp
    · intro x hx y hy
      obtain ⟨o, ho, rfl⟩ := List.mem_map.mp hx
      have hlt := hold a o ho
      split_ifs at hy with hc
      · have hy : y = s.nextUlid := by simpa [remainder] using hy
        omega
      · simp at hy
  · intro a o ho
    rw [execute_openOrders] at ho
    rcases List.mem_append.mp ho with ho | ho
    · have hlt := hold a o ho
      omega
    · split_ifs at ho with hc
      · obtain rfl : o = s.remainder env user t := by simpa using ho
        change s.nextUlid < _
        omega
      · simp at ho

theorem makers_sum_nonneg (hpos : ∀ a, ∀ o ∈ s.openOrders a, 0 < o.remaining) (env : Env)
    (mk : String) (side : Side) (price : Option ℚ) (user : Address) :
    0 ≤ ((s.makers env mk side price user).map OpenOrder.remaining).sum := by
  apply List.sum_nonneg
  intro x hx
  obtain ⟨o, ho, rfl⟩ := List.mem_map.mp hx
  obtain ⟨a, -, ho⟩ := List.mem_flatMap.mp ho
  exact (hpos a o (List.mem_filter.mp ho).1).le

theorem drawn_indexed (h : s.Indexed) : s.drawn.Indexed :=
  ⟨h.nodup, fun a o ho => (h.below a o ho).trans (Nat.lt_succ_self _)⟩

/-- The matching of a positive order. -/
theorem matched_spec (hi : s.Indexed) (hpos : ∀ a, ∀ o ∈ s.openOrders a, 0 < o.remaining)
    (hq : 0 ≤ t.qty) (env : Env) (user : Address) :
    Matched s env t.marketId t.side t.price t.qty user (s.matched env user t).1
      (s.matched env user t).2 := by
  have h : Matched s.drawn env t.marketId t.side t.price t.qty user (s.matched env user t).1
    (s.matched env user t).2 := matchTaker_spec (drawn_indexed hi) hpos hq
  exact ⟨h.positive, h.others, h.total, h.kept, h.rest_same, h.rest_filled⟩

/-- What a positive order leaves to rest. -/
theorem unfilled_eq (hi : s.Indexed) (hpos : ∀ a, ∀ o ∈ s.openOrders a, 0 < o.remaining)
    (hq : 0 ≤ t.qty) (env : Env) (user : Address) :
    s.unfilled env user t = max 0 (t.qty-
      ((s.makers env t.marketId t.side t.price user).map OpenOrder.remaining).sum) := by
  unfold unfilled
  rw [(matched_spec hi hpos hq env user).total]
  rcases le_total t.qty
    ((s.makers env t.marketId t.side t.price user).map OpenOrder.remaining).sum with h | h
  · rw [min_eq_left h, max_eq_left (by linarith), sub_self]
  · rw [min_eq_right h, max_eq_right (by linarith)]

theorem unfilled_nonneg (hi : s.Indexed) (hpos : ∀ a, ∀ o ∈ s.openOrders a, 0 < o.remaining)
    (hq : 0 ≤ t.qty) (env : Env) (user : Address) : 0 ≤ s.unfilled env user t := by
  rw [unfilled_eq hi hpos hq env user]
  exact le_max_left _ _

theorem cancelOrder_openOrders (s : AppState) (env : Env) (address : Address) (orderId : ℕ)
    (a : Address) :
    (s.cancelOrder env address orderId).openOrders a =
      if a = address then (s.openOrders a).filter (fun o => o.id ≠ orderId)
      else s.openOrders a := by
  have he : (s.cancelOrder env address orderId).openOrders = Function.update s.openOrders address
      ((s.openOrders address).filter fun o => o.id ≠ orderId) := by
    unfold cancelOrder
    dsimp only
    split <;> rfl
  rw [he]
  by_cases ha : a = address
  · subst ha
    rw [Function.update_self, if_pos rfl]
  · rw [Function.update_of_ne ha, if_neg ha]

/-- Cancelling writes the orders and the public book only. -/
theorem cancelOrder_frame (s : AppState) (env : Env) (address : Address) (orderId : ℕ) :
    let s' := s.cancelOrder env address orderId
    s' = { s with openOrders := s'.openOrders, orderbooks := s'.orderbooks } := by
  unfold cancelOrder
  dsimp only
  split <;> rfl

theorem cancelOrder_sublist (s : AppState) (env : Env) (address : Address) (orderId : ℕ)
    (a : Address) :
    ((s.cancelOrder env address orderId).openOrders a).Sublist (s.openOrders a) := by
  rw [cancelOrder_openOrders]
  split_ifs
  · exact List.filter_sublist
  · exact List.Sublist.refl _

end AppState

open AppState

/-- Ids stay distinct and below the counter whatever is requested. -/
theorem exec_indexed {s s' : AppState} {c : Cmd} (h : s.Indexed) (hok : exec s c = .ok s') :
    s'.Indexed := by
  cases c with
  | placeOrder env user req =>
    obtain ⟨t, -, rfl⟩ := exec_placeOrder_eq_ok.mp hok
    exact execute_indexed h env user t
  | cancelOrder env user orderId =>
    obtain rfl := Except.ok.inj hok
    have hsub := s.cancelOrder_sublist env user orderId
    refine ⟨fun a => (h.nodup a).sublist ((hsub a).map _), ?_⟩
    intro a o ho
    rw [cancelOrder_frame]
    exact h.below a o ((hsub a).subset ho)
  | setVaultBalance address amount =>
    obtain rfl := Except.ok.inj hok
    exact ⟨h.nodup, h.below⟩
  | setOraclePrice marketId price =>
    obtain rfl := Except.ok.inj hok
    exact ⟨h.nodup, h.below⟩

theorem new_indexed : AppState.new.Indexed := by
  constructor
  · intro a
    exact List.nodup_nil
  · intro a o ho
    simp [AppState.new] at ho

theorem AppState.Indexed.run {s : AppState} (h : s.Indexed) (cs : List Cmd) :
    (runAll exec s cs).Indexed := by
  have hstep : ∀ s c s', s.Indexed → True → exec s c = .ok s' → s'.Indexed :=
    fun _ _ _ h _ hok => exec_indexed h hok
  exact runAll_invariant hstep h (fun _ _ => trivial)

theorem run_indexed (cs : List Cmd) : (runAll exec AppState.new cs).Indexed :=
  new_indexed.run cs

/-- A plain order for bitcoin with a signature of the right shape. -/
def btcOrder (side orderType : String) (price : Option ℚ) (qty : ℚ) : PlaceOrderRequest where
  marketId := "btc-usd"
  side := side
  orderType := orderType
  price := price.map some
  qty := some qty
  timeInForce := "gtc"
  reduceOnly := false
  postOnly := false
  clientOrderId := none
  signature := "0x"++String.ofList (List.replicate 130 '1')

/-- The clock at `now`, with accounts 1 and 2 to iterate. -/
def twoAccounts (now : ℕ) : Env := ⟨now, [1, 2], by decide⟩

/-- Account 2 offers a contract at the index price and account 1 takes it. -/
def openTrade : List Cmd :=
  [.setVaultBalance 1 (10^12), .setVaultBalance 2 (10^12),
    .placeOrder (twoAccounts 0) 2 (btcOrder "sell" "limit" (some 100000) 1),
    .placeOrder (twoAccounts 1) 1 (btcOrder "buy" "limit" (some 100000) 1)]

end Perplex.Edge
