import Mathlib.Tactic.LinearCombination
import Perplex.EdgeExact

/-! Leverage along whole runs. The exposure of an account on a side of a market is its
signed position with its own orders resting there; fills move it between the two parts, and
only an accepted order raises it. -/
namespace Perplex.Edge

/-- Signed size of the positions of a market. -/
def netSize (marketId : String) (l : List PositionInfo) : ℚ :=
  (l.map fun p => if p.marketId = marketId then p.side.sign*p.size else 0).sum

theorem netSize_cons (marketId : String) (p : PositionInfo) (l : List PositionInfo) :
    netSize marketId (p :: l) =
      (if p.marketId = marketId then p.side.sign*p.size else 0)+netSize marketId l := by
  simp [netSize]

/-- A fill moves the signed size of its market by its signed quantity, whichever branch it
takes. -/
theorem netSize_applyPositionFill (now : ℕ) (marketId : String) (side : Side) (qty price : ℚ)
    (mk : String) (l : List PositionInfo) :
    netSize mk (applyPositionFill now marketId side qty price l) =
      netSize mk l+(if marketId = mk then side.sign*qty else 0) := by
  induction l with
  | nil => simp [applyPositionFill, netSize]
  | cons p rest ih =>
    unfold applyPositionFill
    by_cases hm : p.marketId = marketId
    · rw [if_neg (by simpa using hm)]
      subst hm
      by_cases hside : p.side = side.position
      · rw [if_pos hside]
        simp only [netSize_cons, hside, sign_position]
        by_cases hmk : p.marketId = mk
        · simp only [if_pos hmk]
          ring
        · simp only [if_neg hmk]
          ring
      · -- a fill on the other side reduces, closes or flips; by sign the three are one
        have hsign := sign_of_ne_position hside
        rw [if_neg hside]
        by_cases hmk : p.marketId = mk
        · split_ifs with hlt heq
          · simp only [netSize_cons, hsign, if_pos hmk]
            ring
          · simp only [netSize_cons, hsign, if_pos hmk, heq]
            ring
          · simp only [netSize_cons, sign_position, hsign, if_pos hmk]
            ring
        · split_ifs <;> simp only [netSize_cons, if_neg hmk, zero_add, add_zero]
    · rw [if_pos hm, netSize_cons, ih, netSize_cons]
      ring

/-- A position is touched, removed, or the first of its market. -/
theorem applyPositionFill_markets (now : ℕ) (marketId : String) (side : Side) (qty price : ℚ)
    (l : List PositionInfo) :
    let l' := applyPositionFill now marketId side qty price l
    (∀ x ∈ l'.map PositionInfo.marketId, x ∈ l.map PositionInfo.marketId ∨ x = marketId) ∧
      ((l.map PositionInfo.marketId).Nodup → (l'.map PositionInfo.marketId).Nodup) := by
  induction l with
  | nil => simp [applyPositionFill]
  | cons p rest ih =>
    unfold applyPositionFill
    by_cases hm : p.marketId = marketId
    · rw [if_neg (by simpa using hm)]
      dsimp only
      split_ifs <;> simp +contextual [List.nodup_cons]
    · obtain ⟨hsub, hnd⟩ := ih
      rw [if_pos hm]
      simp only [List.map_cons, List.mem_cons, List.nodup_cons]
      refine ⟨?_, ?_⟩
      · rintro x (rfl | hx)
        · exact Or.inl (Or.inl rfl)
        · exact (hsub x hx).imp_left Or.inr
      · rintro ⟨hp, hrest⟩
        refine ⟨?_, hnd hrest⟩
        intro hmem
        rcases hsub _ hmem with h | h
        · exact hp h
        · exact hm h

/-- With one position in the market, its size is the size of the account there. -/
theorem netSize_of_mem {l : List PositionInfo} (h : (l.map PositionInfo.marketId).Nodup)
    {p : PositionInfo} (hp : p ∈ l) : netSize p.marketId l = p.side.sign*p.size := by
  have hzero {l : List PositionInfo} {mk : String} (h : mk ∉ l.map PositionInfo.marketId) :
      netSize mk l = 0 := by
    apply List.sum_eq_zero
    intro x hx
    obtain ⟨p, hp, rfl⟩ := List.mem_map.mp hx
    rw [if_neg (fun he => h (List.mem_map.mpr ⟨p, hp, he⟩))]
  induction l with
  | nil => simp at hp
  | cons x rest ih =>
    obtain ⟨hx, hrest⟩ := List.nodup_cons.mp h
    rw [netSize_cons]
    rcases List.mem_cons.mp hp with rfl | hp
    · rw [if_pos rfl, hzero hx, add_zero]
    · have hne : x.marketId ≠ p.marketId := fun he => hx (List.mem_map.mpr ⟨p, hp, he.symm⟩)
      rw [if_neg hne, ih hrest hp, zero_add]

theorem abs_sign_mul (x : PositionSide) (size : ℚ) : |x.sign*size| = |size| := by
  cases x <;> simp [PositionSide.sign]

theorem Side.opposite_ne (side : Side) : side.opposite ≠ side := by
  cases side <;> decide

theorem Side.eq_or_eq_opposite (x side : Side) : x = side ∨ x = side.opposite := by
  cases x <;> cases side <;> decide

namespace AppState

section Settle
variable (now orderId : ℕ) (user : Address) (t : Taker) (takerFeeBps : ℕ) (makerRebateBps : ℤ)

theorem upsertPosition_netSize (s : AppState) (address : Address) (marketId : String)
    (side : Side) (qty price : ℚ) (mk : String) (a : Address) :
    netSize mk ((s.upsertPosition now address marketId side qty price).positions a) =
      netSize mk (s.positions a)+
        (if a = address ∧ marketId = mk then side.sign*qty else 0) := by
  unfold upsertPosition
  by_cases ha : a = address
  · subst ha
    simp [Function.update_self, netSize_applyPositionFill]
  · simp [ha]

theorem upsertPosition_single {s : AppState}
    (h : ∀ a, ((s.positions a).map PositionInfo.marketId).Nodup) (address : Address)
    (marketId : String) (side : Side) (qty price : ℚ) (a : Address) :
    (((s.upsertPosition now address marketId side qty price).positions a).map
      PositionInfo.marketId).Nodup := by
  unfold upsertPosition
  by_cases ha : a = address
  · subst ha
    simp only [Function.update_self]
    exact (applyPositionFill_markets ..).2 (h a)
  · simp only [Function.update_of_ne ha]
    exact h a

/-- The positions after a settled fill are those after the two upserts. -/
theorem settleMatch_positions (s : AppState) (m : MatchedFill) :
    (settleMatch now orderId user t takerFeeBps makerRebateBps s m).positions =
      ((s.upsertPosition now user t.marketId t.side m.qty m.price).upsertPosition now
        m.makerAddress t.marketId t.side.opposite m.qty m.price).positions := by
  simp [settleMatch, upsertPosition, recordTrade, recordFill]

theorem settleAll_netSize (filled : List MatchedFill) (s : AppState) (mk : String)
    (a : Address) :
    netSize mk ((filled.foldl (settleMatch now orderId user t takerFeeBps makerRebateBps)
        s).positions a) = netSize mk (s.positions a)+
      (if t.marketId = mk then t.side.sign*((if a = user then (filled.map MatchedFill.qty).sum
        else 0)-makerFilled a filled) else 0) := by
  induction filled generalizing s with
  | nil => simp [makerFilled]
  | cons m rest ih =>
    -- each fill moves the taker one way and its maker the other
    rw [List.foldl_cons, ih, settleMatch_positions, upsertPosition_netSize, upsertPosition_netSize]
    simp only [makerFilled, List.map_cons, List.sum_cons, sign_opposite]
    by_cases hmk : t.marketId = mk
    · simp only [hmk, and_true, if_true]
      by_cases hu : a = user
      · by_cases hm : a = m.makerAddress
        · simp only [if_pos hu, if_pos hm, if_pos hm.symm]
          ring
        · simp only [if_pos hu, if_neg hm, if_neg (Ne.symm hm)]
          ring
      · by_cases hm : a = m.makerAddress
        · simp only [if_neg hu, if_pos hm, if_pos hm.symm]
          ring
        · simp only [if_neg hu, if_neg hm, if_neg (Ne.symm hm)]
          ring
    · simp [hmk]

theorem settleAll_single (filled : List MatchedFill) {s : AppState}
    (h : ∀ a, ((s.positions a).map PositionInfo.marketId).Nodup) (a : Address) :
    (((filled.foldl (settleMatch now orderId user t takerFeeBps makerRebateBps)
      s).positions a).map PositionInfo.marketId).Nodup := by
  induction filled generalizing s with
  | nil => exact h a
  | cons m rest ih =>
    rw [List.foldl_cons]
    apply ih
    intro b
    rw [settleMatch_positions]
    exact upsertPosition_single now (fun x => upsertPosition_single now h _ _ _ _ _ x) _ _ _ _ _ b

end Settle

/-- What the account would hold on a side if its orders resting there were all filled. -/
def exposure (s : AppState) (marketId : String) (side : Side) (a : Address) : ℚ :=
  side.sign*netSize marketId (s.positions a)+resting marketId side (s.openOrders a)

theorem resting_append (mk : String) (side : Side) (l l' : List OpenOrder) :
    resting mk side (l++l') = resting mk side l+resting mk side l' := by
  simp [resting]

theorem resting_nonneg {l : List OpenOrder} (h : ∀ o ∈ l, 0 < o.remaining) (mk : String)
    (side : Side) : 0 ≤ resting mk side l := by
  apply List.sum_nonneg
  intro x hx
  obtain ⟨o, ho, rfl⟩ := List.mem_map.mp hx
  split_ifs
  · exact (h o ho).le
  · exact le_rfl

theorem resting_filter_le {l : List OpenOrder} (h : ∀ o ∈ l, 0 < o.remaining) (mk : String)
    (side : Side) (p : OpenOrder → Bool) : resting mk side (l.filter p) ≤ resting mk side l := by
  induction l with
  | nil => exact le_rfl
  | cons o rest ih =>
    have hrest := ih (fun x hx => h x (List.mem_cons_of_mem _ hx))
    have hone : 0 ≤ resting mk side [o] := resting_nonneg (by simp [h o]) mk side
    have hcons (l : List OpenOrder) : resting mk side (o :: l) =
        resting mk side [o]+resting mk side l := resting_append mk side [o] l
    rw [List.filter_cons, hcons]
    split_ifs
    · rw [hcons]
      linarith
    · linarith

theorem makerFilled_nonneg {filled : List MatchedFill} (h : ∀ m ∈ filled, 0 < m.qty)
    (a : Address) : 0 ≤ makerFilled a filled := by
  apply List.sum_nonneg
  intro x hx
  obtain ⟨m, hm, rfl⟩ := List.mem_map.mp hx
  split_ifs
  · exact (h m hm).le
  · exact le_rfl

theorem makerFilled_eq_zero {filled : List MatchedFill} {a : Address}
    (h : ∀ m ∈ filled, m.makerAddress ≠ a) : makerFilled a filled = 0 := by
  apply List.sum_eq_zero
  intro x hx
  obtain ⟨m, hm, rfl⟩ := List.mem_map.mp hx
  rw [if_neg (h m hm)]

section Execute
variable {s : AppState} {env : Env} {user : Address} {t : Taker}

theorem execute_netSize (s : AppState) (env : Env) (user : Address) (t : Taker) (mk : String)
    (a : Address) :
    netSize mk ((s.execute env user t).2.positions a) = netSize mk (s.positions a)+
      (if t.marketId = mk then t.side.sign*((if a = user then
        ((s.matched env user t).1.map MatchedFill.qty).sum else 0)-
          makerFilled a (s.matched env user t).1) else 0) := by
  rw [execute_frame]
  exact settleAll_netSize ..

theorem execute_single (h : ∀ a, ((s.positions a).map PositionInfo.marketId).Nodup)
    (env : Env) (user : Address) (t : Taker) (a : Address) :
    (((s.execute env user t).2.positions a).map PositionInfo.marketId).Nodup := by
  rw [execute_frame]
  exact settleAll_single _ _ _ _ _ _ _ (s := (s.matched env user t).2) h a

/-- The orders resting after a positive order are positive. -/
theorem execute_remaining (hi : s.Indexed)
    (hpos : ∀ a, ∀ o ∈ s.openOrders a, 0 < o.remaining) (hq : 0 < t.qty) (env : Env)
    (user : Address) : ∀ a, ∀ o ∈ (s.execute env user t).2.openOrders a, 0 < o.remaining := by
  intro a o ho
  rw [execute_openOrders] at ho
  rcases List.mem_append.mp ho with ho | ho
  · obtain ⟨-, -, -, hrem, -⟩ := (matched_spec hi hpos hq.le env user).kept a o ho
    exact hrem
  · split_ifs at ho with hc
    · obtain rfl : o = s.remainder env user t := by simpa using ho
      exact lt_of_le_of_ne (unfilled_nonneg hi hpos hq.le env user) (Ne.symm hc.2.1)
    · simp at ho

theorem resting_remainder_le (h : 0 ≤ s.unfilled env user t) (mk : String) (side : Side)
    (a : Address) :
    resting mk side (if a = user ∧ s.unfilled env user t ≠ 0 ∧ t.orderType = .limit
        then [s.remainder env user t] else []) ≤
      if a = user ∧ t.marketId = mk ∧ t.side = side then s.unfilled env user t else 0 := by
  have hle : resting mk side [s.remainder env user t] =
      if t.marketId = mk ∧ t.side = side then s.unfilled env user t else 0 := by
    simp [resting, remainder]
  by_cases ha : a = user
  · simp only [ha, true_and]
    split_ifs with hr hms hms
    · rw [hle, if_pos hms]
    · rw [hle, if_neg hms]
    · exact h
    · exact le_rfl
  · simp [ha, resting]

/-- Only its own order raises the exposure of an account, by the quantity of the order at
most: what is filled moves from the resting part to the position. -/
theorem execute_exposure_le (hi : s.Indexed)
    (hpos : ∀ a, ∀ o ∈ s.openOrders a, 0 < o.remaining) (hq : 0 < t.qty) (env : Env)
    (user : Address) (mk : String) (side : Side) (a : Address) :
    (s.execute env user t).2.exposure mk side a ≤ s.exposure mk side a+
      (if a = user ∧ t.marketId = mk ∧ t.side = side then t.qty else 0) := by
  have hm := matched_spec hi hpos hq.le env user
  have hleft := unfilled_nonneg hi hpos hq.le env user
  have hsplit : ((s.matched env user t).1.map MatchedFill.qty).sum+s.unfilled env user t =
      t.qty := by
    unfold unfilled
    ring
  -- what the account is filled for as maker moves from resting to held
  have hmf := makerFilled_nonneg hm.positive a
  have hown := resting_remainder_le hleft mk side a
  unfold exposure
  rw [execute_netSize, execute_openOrders, resting_append]
  set filled := (s.matched env user t).1
  set total := (filled.map MatchedFill.qty).sum
  by_cases hmk : t.marketId = mk
  · subst hmk
    simp only [true_and, if_true] at hown ⊢
    have hone := t.side.sign_mul_self
    rcases Side.eq_or_eq_opposite side t.side with rfl | rfl
    · -- the side of the order: its makers rest on the other one
      rw [hm.rest_same a t.marketId t.side (fun h => Side.opposite_ne t.side h.2.symm)]
      have hmove (x : ℚ) : t.side.sign*(netSize t.marketId (s.positions a)+t.side.sign*x) =
          t.side.sign*netSize t.marketId (s.positions a)+x := by
        linear_combination x*hone
      rw [hmove]
      simp only [and_true] at hown ⊢
      by_cases hu : a = user
      · have hzero : makerFilled a filled = 0 := makerFilled_eq_zero (hu ▸ hm.others)
        rw [if_pos hu] at hown ⊢
        rw [if_pos hu]
        linarith
      · rw [if_neg hu] at hown ⊢
        rw [if_neg hu]
        linarith
    · -- the other side: what rests less there is held more
      rw [hm.rest_filled a, sign_opposite]
      have hmove (x : ℚ) : -t.side.sign*(netSize t.marketId (s.positions a)+t.side.sign*x) =
          -t.side.sign*netSize t.marketId (s.positions a)-x := by
        linear_combination -x*hone
      rw [hmove]
      have hside : ¬ (a = user ∧ t.side = t.side.opposite) :=
        fun h => Side.opposite_ne t.side h.2.symm
      have htotal : 0 ≤ if a = user then total else 0 := by
        split_ifs
        · exact List.sum_nonneg (by simpa using fun m hmem => (hm.positive m hmem).le)
        · exact le_rfl
      rw [if_neg hside] at hown ⊢
      linarith
  · simp only [hmk, false_and, and_false, if_false, add_zero] at hown ⊢
    rw [hm.rest_same a mk side (fun h => hmk h.1.symm)]
    linarith

end Execute

theorem cancelOrder_exposure_le {s : AppState}
    (hpos : ∀ a, ∀ o ∈ s.openOrders a, 0 < o.remaining) (env : Env) (user : Address)
    (orderId : ℕ) (mk : String) (side : Side) (a : Address) :
    (s.cancelOrder env user orderId).exposure mk side a ≤ s.exposure mk side a := by
  have hpositions : (s.cancelOrder env user orderId).positions = s.positions := by
    rw [cancelOrder_frame]
  unfold exposure
  rw [hpositions, cancelOrder_openOrders]
  split_ifs
  · have h := resting_filter_le (hpos a) mk side (fun o => o.id ≠ orderId)
    linarith
  · exact le_rfl

/-- Price of a market and the leverage it allows on some collateral. -/
def index (m : MarketInfo) : ℚ := m.indexPriceX18/10^18

def maxNotional (m : MarketInfo) (collateral : ℚ) : ℚ := m.maxLeverage*(collateral/10^6)

theorem maxNotional_mono (m : MarketInfo) {c c' : ℚ} (h : c ≤ c') :
    maxNotional m c ≤ maxNotional m c' := by
  unfold maxNotional
  gcongr

/-- An empty book under given oracle prices. -/
def quoting (prices : String → Option ℚ) : AppState :=
  { AppState.new with oraclePrices := prices }

/-- The highest vault balance of an account along a run. -/
def peak (s : AppState) : List Cmd → Address → ℚ
  | [], a => s.vaultBalances a
  | c :: cs, a => max (s.vaultBalances a) (peak (attempt exec s c) cs a)

theorem peak_append (s : AppState) (cs : List Cmd) (c : Cmd) (a : Address) :
    peak s (cs++[c]) a = max (peak s cs a) ((runAll exec s (cs++[c])).vaultBalances a) := by
  induction cs generalizing s with
  | nil => rfl
  | cons x cs ih =>
    change max _ (peak (attempt exec s x) (cs++[c]) a) = _
    rw [ih, ← max_assoc]
    rfl

/-- What keeps an account within its cap: the market trades as at the start, and every
exposure at the index price is within the leverage allowed on `held`. -/
structure Capped (mk : String) (m : MarketInfo) (held : Address → ℚ) (s : AppState) : Prop where
  indexed : s.Indexed
  remaining : ∀ a, ∀ o ∈ s.openOrders a, 0 < o.remaining
  single : ∀ a, ((s.positions a).map PositionInfo.marketId).Nodup
  market : s.market mk = some m
  id : m.id = mk
  exposure : 0 ≤ index m → ∀ a side, s.exposure mk side a*index m ≤ maxNotional m (held a)

theorem Capped.mono {mk : String} {m : MarketInfo} {held held' : Address → ℚ} {s : AppState}
    (h : Capped mk m held s) (hle : ∀ a, held a ≤ held' a) : Capped mk m held' s :=
  ⟨h.indexed, h.remaining, h.single, h.market, h.id,
    fun h0 a side => (h.exposure h0 a side).trans (maxNotional_mono m (hle a))⟩

/-- Within the cap, the position of an account is too. -/
theorem Capped.position {mk : String} {m : MarketInfo} {held : Address → ℚ} {s : AppState}
    (h : Capped mk m held s) {a : Address} (h0 : 0 ≤ held a) {p : PositionInfo}
    (hp : p ∈ s.positions a) (hmk : p.marketId = mk) :
    |p.size| * index m ≤ maxNotional m (held a) := by
  have hsize : |p.size| = |netSize mk (s.positions a)| := by
    rw [← hmk, netSize_of_mem (h.single a) hp, abs_sign_mul]
  rcases le_or_gt 0 (index m) with hidx | hidx
  · have hbuy := h.exposure hidx a .buy
    have hsell := h.exposure hidx a .sell
    have hrb := mul_nonneg (resting_nonneg (h.remaining a) mk .buy) hidx
    have hrs := mul_nonneg (resting_nonneg (h.remaining a) mk .sell) hidx
    unfold AppState.exposure Side.sign at hbuy hsell
    rw [hsize]
    rcases abs_cases (netSize mk (s.positions a)) with ⟨he, -⟩ | ⟨he, -⟩
    · rw [he]
      linarith
    · rw [he]
      linarith
  · -- a negative price makes the notional negative
    have hneg : |p.size| * index m ≤ 0 := mul_nonpos_of_nonneg_of_nonpos (abs_nonneg _) hidx.le
    have hcap : 0 ≤ maxNotional m (held a) := by
      unfold maxNotional
      positivity
    linarith

end AppState

open AppState

/-- The check that order entry does not make: with the order, and with the orders of the
account already resting on its side, the position stays within the leverage allowed on the
most collateral held. -/
def Cmd.WithinCap (mk : String) (held : Address → ℚ) (s : AppState) : Cmd → Prop
  | .placeOrder env user req => ∀ t, s.Accepts env user req t → 0 < t.qty ∧
      (t.marketId = mk → ∀ m, s.market mk = some m →
        (s.exposure mk t.side user+t.qty)*index m ≤ maxNotional m (held user))
  | _ => True

theorem withinCap_of_order {mk : String} {held : Address → ℚ} {s : AppState} {env : Env}
    {user : Address} {req : PlaceOrderRequest} {t : Taker} {m : MarketInfo}
    (hv : s.validate req = .ok t) (hm : s.market mk = some m) (hq : 0 < t.qty)
    (hcap : (s.exposure mk t.side user+t.qty)*index m ≤ maxNotional m (held user)) :
    (Cmd.placeOrder env user req).WithinCap mk held s := by
  intro t' ht'
  rw [ht'.eq hv]
  refine ⟨hq, ?_⟩
  intro _ m' hm'
  rw [Option.some.inj (hm'.symm.trans hm)]
  exact hcap

/-- The command leaves the index price of the market alone. -/
def Cmd.KeepsIndex (mk : String) : Cmd → Prop
  | .setOraclePrice marketId _ => marketId ≠ mk
  | _ => True

/-- One command keeps every account within the cap on the collateral held before. -/
theorem exec_capped {mk : String} {m : MarketInfo} {held : Address → ℚ} {s s' : AppState}
    {c : Cmd} (h : Capped mk m held s) (hk : c.KeepsIndex mk) (hc : c.WithinCap mk held s)
    (hok : exec s c = .ok s') : Capped mk m held s' := by
  have hi := exec_indexed h.indexed hok
  cases c with
  | placeOrder env user req =>
    obtain ⟨t, ht, rfl⟩ := exec_placeOrder_eq_ok.mp hok
    obtain ⟨hq, hcap⟩ := hc t ht
    refine ⟨hi, execute_remaining h.indexed h.remaining hq env user,
      execute_single h.single env user t, ?_, h.id, ?_⟩
    · rw [execute_frame]
      obtain ⟨-, hmarkets, hprices, -⟩ := s.settled_frame env user t
      rw [← h.market]
      simp only [AppState.market, hmarkets, hprices]
    -- the condition bounds the account that places; the others only shrink
    · intro h0 a side
      have hle := execute_exposure_le h.indexed h.remaining hq env user mk side a
      split_ifs at hle with hmine
      · obtain ⟨rfl, hmk, rfl⟩ := hmine
        exact (mul_le_mul_of_nonneg_right hle h0).trans (hcap hmk m h.market)
      · rw [add_zero] at hle
        exact (mul_le_mul_of_nonneg_right hle h0).trans (h.exposure h0 a side)
  | cancelOrder env user orderId =>
    obtain rfl := Except.ok.inj hok
    refine ⟨hi, ?_, ?_, ?_, h.id, ?_⟩
    · intro a o ho
      exact h.remaining a o ((s.cancelOrder_sublist env user orderId a).subset ho)
    · rw [cancelOrder_frame]
      exact h.single
    · rw [cancelOrder_frame]
      exact h.market
    · intro h0 a side
      have hle := cancelOrder_exposure_le h.remaining env user orderId mk side a
      exact (mul_le_mul_of_nonneg_right hle h0).trans (h.exposure h0 a side)
  | setVaultBalance address amount =>
    obtain rfl := Except.ok.inj hok
    exact ⟨hi, h.remaining, h.single, h.market, h.id, h.exposure⟩
  | setOraclePrice marketId price =>
    obtain rfl := Except.ok.inj hok
    refine ⟨hi, h.remaining, h.single, ?_, h.id, h.exposure⟩
    -- the price is looked up under the id of the static entry
    have hmarket := h.market
    have hid := h.id
    unfold AppState.market at hmarket ⊢
    obtain ⟨m₀, hm₀, rfl⟩ := Option.map_eq_some_iff.mp hmarket
    have hne : m₀.id ≠ marketId := fun he => hk (he.symm.trans hid)
    dsimp only
    rw [hm₀, Option.map_some, Function.update_of_ne hne]

theorem quoting_capped {prices : String → Option ℚ} {mk : String} {m : MarketInfo}
    (h : (quoting prices).market mk = some m) :
    Capped mk m (quoting prices).vaultBalances (quoting prices) := by
  refine ⟨⟨fun _ => List.nodup_nil, ?_⟩, ?_, fun _ => List.nodup_nil, h, ?_, ?_⟩
  · intro a o ho
    simp [quoting, AppState.new] at ho
  · intro a o ho
    simp [quoting, AppState.new] at ho
  · obtain ⟨m₀, hm₀, rfl⟩ := Option.map_eq_some_iff.mp h
    change defaultMarkets mk = some m₀ at hm₀
    unfold defaultMarkets at hm₀
    split_ifs at hm₀ with h1 h2 h3
    · rw [h1, ← Option.some.inj hm₀]
    · rw [h2, ← Option.some.inj hm₀]
    · rw [h3, ← Option.some.inj hm₀]
  · intro h0 a side
    simp [AppState.exposure, quoting, AppState.new, netSize, resting, maxNotional]

/-- From an empty book, with the index price of the market held fixed: if every order that
is accepted has a positive quantity and keeps its account within the cap together with the
position and the orders resting on the same side, then in every state reached no position
exceeds the maximal leverage on the most collateral its account has held. -/
theorem leverage_along_bounded (prices : String → Option ℚ) {mk : String} {m : MarketInfo}
    (hm : (quoting prices).market mk = some m) (cs : List Cmd)
    (hindex : ∀ c ∈ cs, c.KeepsIndex mk)
    (hcap : ∀ (pre : List Cmd) (c : Cmd), pre++[c] <+: cs →
      c.WithinCap mk (peak (quoting prices) pre) (runAll exec (quoting prices) pre)) :
    ∀ pre, pre <+: cs → (runAll exec (quoting prices) pre).market mk = some m ∧
      ∀ a, ∀ p ∈ (runAll exec (quoting prices) pre).positions a, p.marketId = mk →
        |p.size| * index m ≤ maxNotional m (peak (quoting prices) pre a) := by
  have hpeak : ∀ pre a, 0 ≤ peak (quoting prices) pre a := by
    intro pre a
    cases pre with
    | nil => exact le_rfl
    | cons c cs => exact le_max_left _ _
  have hinv : ∀ pre, pre <+: cs →
      Capped mk m (peak (quoting prices) pre) (runAll exec (quoting prices) pre) := by
    intro pre
    induction pre using List.reverseRecOn with
    | nil => exact fun _ => quoting_capped hm
    | append_singleton pre c ih =>
      intro hpre
      have h := ih ((List.prefix_append pre [c]).trans hpre)
      have hkeeps : c.KeepsIndex mk := hindex c (hpre.subset (by simp))
      -- a rejected request changes nothing; an accepted one keeps the bound on the old peak
      have hstep : Capped mk m (peak (quoting prices) pre)
          (attempt exec (runAll exec (quoting prices) pre) c) := by
        unfold attempt
        split
        · next s' hok => exact exec_capped h hkeeps (hcap pre c hpre) hok
        · exact h
      rw [runAll_append]
      refine hstep.mono ?_
      intro a
      rw [peak_append]
      exact le_max_left _ _
  intro pre hpre
  have h := hinv pre hpre
  exact ⟨h.market, fun a p hp hmk => h.position (hpeak pre a) hp hmk⟩

/-- The bitcoin market as it is listed. -/
def btcMarket : MarketInfo := ⟨"btc-usd", true, 20, 500, 250, 5, -2, 100000*10^18⟩

namespace Decimal
variable (round : ℚ → ℚ)

/-- The highest vault balance of an account along a run. -/
def peak (s : AppState) : List Cmd → Address → ℚ
  | [], a => s.vaultBalances a
  | c :: cs, a => max (s.vaultBalances a) (peak (final id (serve round s c)) cs a)

/-- An accepted order has a positive quantity and keeps its account within the cap. -/
def WithinCap (mk : String) (held : Address → ℚ) (s : AppState) : Cmd → Prop
  | .placeOrder env user req => ∀ t, Accepts round s env user req t → 0 < t.qty ∧
      (t.marketId = mk → ∀ m, s.market mk = some m →
        (s.exposure mk t.side user+t.qty)*index m ≤ maxNotional m (held user))
  | _ => True

variable {round} {s : AppState}

theorem ExactRun.peak_eq {cs : List Cmd} (h : ExactRun round s cs) (a : Address) :
    peak round s cs a = Edge.AppState.peak s cs a := by
  induction cs generalizing s with
  | nil => rfl
  | cons c cs ih =>
    have hhead := serve_eq (h [] c (by simp))
    change serve round s c = _ at hhead
    rw [peak, hhead]
    exact congrArg (max _) (ih h.tail)

theorem withinCap_iff {mk : String} {held : Address → ℚ} {c : Cmd} (h : CmdExact round s c) :
    WithinCap round mk held s c ↔ c.WithinCap mk held s := by
  cases c with
  | placeOrder env user req =>
    exact forall_congr' fun t => by rw [OrderExact.accepts_iff h]
  | _ => exact Iff.rfl

end Decimal

/-- A bid marked `reduce_only` by an account that has nothing to reduce. -/
def unbackedTrade : List Cmd :=
  [.setVaultBalance 1 (10^8), .setVaultBalance 2 (10^12),
    .placeOrder (twoAccounts 0) 1
      { btcOrder "buy" "limit" (some 100000) 1 with reduceOnly := true },
    .placeOrder (twoAccounts 1) 2 (btcOrder "sell" "limit" (some 100000) 1)]

end Perplex.Edge
