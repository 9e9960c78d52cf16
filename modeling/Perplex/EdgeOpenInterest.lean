import Mathlib.Algebra.BigOperators.Fin
import Mathlib.Algebra.BigOperators.Ring.Finset
import Perplex.EdgeLeverage

/-! Open interest at the edge. Every fill moves its two parties by the same quantity in
opposite directions, so along a run of positive orders the signed positions of a market add
up to nothing, and each account keeps one record of positive size per market. -/
namespace Perplex.Edge

theorem applyPositionFill_size_pos (now : ℕ) (marketId : String) (side : Side) {qty : ℚ}
    (hq : 0 < qty) (price : ℚ) {l : List PositionInfo} (h : ∀ p ∈ l, 0 < p.size) :
    ∀ p ∈ applyPositionFill now marketId side qty price l, 0 < p.size := by
  induction l with
  | nil => simpa [applyPositionFill] using hq
  | cons x rest ih =>
    obtain ⟨hx, hrest⟩ := List.forall_mem_cons.mp h
    unfold applyPositionFill
    by_cases hm : x.marketId = marketId
    · rw [if_neg (by simpa using hm)]
      by_cases hside : x.side = side.position
      · rw [if_pos hside]
        exact List.forall_mem_cons.mpr ⟨add_pos hx hq, hrest⟩
      rw [if_neg hside]
      -- on the other side the fill reduces, closes or flips
      rcases lt_trichotomy qty x.size with hlt | heq | hgt
      · rw [if_pos hlt]
        exact List.forall_mem_cons.mpr ⟨sub_pos.mpr hlt, hrest⟩
      · rw [if_neg heq.not_lt, if_pos heq]
        exact hrest
      · rw [if_neg hgt.not_gt, if_neg hgt.ne']
        exact List.forall_mem_cons.mpr ⟨sub_pos.mpr hgt, hrest⟩
    · rw [if_pos hm]
      exact List.forall_mem_cons.mpr ⟨hx, ih hrest⟩

namespace AppState

/-- Every record has a positive size. -/
def SizesPos (s : AppState) : Prop := ∀ a, ∀ p ∈ s.positions a, 0 < p.size

theorem SizesPos.upsertPosition {s : AppState} (h : s.SizesPos) (now : ℕ) (address : Address)
    (marketId : String) (side : Side) {qty : ℚ} (hq : 0 < qty) (price : ℚ) :
    (s.upsertPosition now address marketId side qty price).SizesPos := by
  intro a
  unfold AppState.upsertPosition
  by_cases ha : a = address
  · subst ha
    simp only [Function.update_self]
    exact applyPositionFill_size_pos now marketId side hq price (h a)
  · simp only [Function.update_of_ne ha]
    exact h a

section Settle
variable (now orderId : ℕ) (user : Address) (t : Taker) (takerFeeBps : ℕ) (makerRebateBps : ℤ)

theorem settleAll_sizesPos {filled : List MatchedFill} (hpos : ∀ m ∈ filled, 0 < m.qty)
    {s : AppState} (h : s.SizesPos) :
    (filled.foldl (settleMatch now orderId user t takerFeeBps makerRebateBps) s).SizesPos := by
  induction filled generalizing s with
  | nil => exact h
  | cons m rest ih =>
    obtain ⟨hm, hrest⟩ := List.forall_mem_cons.mp hpos
    rw [List.foldl_cons]
    apply ih hrest
    intro a
    rw [settleMatch_positions]
    exact (h.upsertPosition now user _ _ hm _).upsertPosition now m.makerAddress _ _ hm _ a

end Settle

/-- Signed size of everybody's positions in a market. -/
def openInterest (s : AppState) (marketId : String) : ℚ :=
  ∑ a : Address, netSize marketId (s.positions a)

/-- Every fill has one maker. -/
theorem sum_makerFilled (filled : List MatchedFill) :
    ∑ a : Address, makerFilled a filled = (filled.map MatchedFill.qty).sum := by
  induction filled with
  | nil => simp [makerFilled]
  | cons m rest ih =>
    have hcons (a : Address) : makerFilled a (m :: rest) =
        (if m.makerAddress = a then m.qty else 0)+makerFilled a rest := by
      simp [makerFilled]
    simp only [hcons, Finset.sum_add_distrib, ih, List.map_cons, List.sum_cons,
      Finset.sum_ite_eq, Finset.mem_univ, if_true]

/-- What an order adds to one side it takes from the other. -/
theorem execute_openInterest (s : AppState) (env : Env) (user : Address) (t : Taker)
    (mk : String) : (s.execute env user t).2.openInterest mk = s.openInterest mk := by
  unfold openInterest
  simp only [execute_netSize, Finset.sum_add_distrib]
  rw [add_eq_left]
  by_cases hmk : t.marketId = mk
  · simp only [if_pos hmk]
    rw [← Finset.mul_sum, Finset.sum_sub_distrib, sum_makerFilled]
    simp
  · simp [hmk]

/-- What a run of positive orders keeps. -/
structure Balanced (s : AppState) : Prop where
  indexed : s.Indexed
  remaining : ∀ a, ∀ o ∈ s.openOrders a, 0 < o.remaining
  openInterest : ∀ mk, s.openInterest mk = 0
  single : ∀ a, ((s.positions a).map PositionInfo.marketId).Nodup
  sizes : s.SizesPos

end AppState

open AppState

/-- The order asks for a positive quantity, and names a positive price if it names one. -/
def Cmd.Positive : Cmd → Prop
  | .placeOrder _ _ req => (∀ q, req.qty = some q → 0 < q) ∧
      ∀ p, req.price = some (some p) → 0 < p
  | _ => True

theorem Cmd.Positive.qty {s : AppState} {env : Env} {user : Address} {req : PlaceOrderRequest}
    {t : Taker} (h : (Cmd.placeOrder env user req).Positive) (hv : s.validate req = .ok t) :
    0 < t.qty :=
  h.1 t.qty (validate_request hv).1

theorem exec_balanced {s s' : AppState} {c : Cmd} (h : s.Balanced) (hc : c.Positive)
    (hok : exec s c = .ok s') : s'.Balanced := by
  have hi := exec_indexed h.indexed hok
  cases c with
  | placeOrder env user req =>
    obtain ⟨t, ht, rfl⟩ := exec_placeOrder_eq_ok.mp hok
    have hq := hc.qty ht.valid
    have hm := matched_spec h.indexed h.remaining hq.le env user
    refine ⟨hi, execute_remaining h.indexed h.remaining hq env user, ?_,
      execute_single h.single env user t, ?_⟩
    · intro mk
      rw [execute_openInterest]
      exact h.openInterest mk
    · intro a
      rw [execute_frame]
      exact settleAll_sizesPos _ _ _ _ _ _ hm.positive (s := (s.matched env user t).2) h.sizes a
  | cancelOrder env user orderId =>
    obtain rfl := Except.ok.inj hok
    have hpositions : (s.cancelOrder env user orderId).positions = s.positions := by
      rw [cancelOrder_frame]
    refine ⟨hi, ?_, ?_, ?_, ?_⟩
    · intro a o ho
      exact h.remaining a o ((s.cancelOrder_sublist env user orderId a).subset ho)
    · intro mk
      unfold AppState.openInterest
      rw [hpositions]
      exact h.openInterest mk
    · rw [hpositions]
      exact h.single
    · unfold SizesPos
      rw [hpositions]
      exact h.sizes
  | setVaultBalance address amount =>
    obtain rfl := Except.ok.inj hok
    exact ⟨hi, h.remaining, h.openInterest, h.single, h.sizes⟩
  | setOraclePrice marketId price =>
    obtain rfl := Except.ok.inj hok
    exact ⟨hi, h.remaining, h.openInterest, h.single, h.sizes⟩

theorem new_balanced : AppState.new.Balanced := by
  refine ⟨new_indexed, ?_, ?_, fun _ => List.nodup_nil, ?_⟩
  · intro a o ho
    simp [AppState.new] at ho
  · intro mk
    simp [AppState.openInterest, AppState.new, netSize]
  · intro a p hp
    simp [AppState.new] at hp

/-- From the empty state, whatever positive orders are placed and cancelled, the positions of
each market add up to nothing, and an account has one record per market, of positive size. -/
theorem run_openInterest_zero (cs : List Cmd) (hcs : ∀ c ∈ cs, c.Positive) :
    ∀ pre, pre <+: cs →
      (∀ mk, ∑ a : Address, netSize mk ((runAll exec AppState.new pre).positions a) = 0) ∧
      ∀ a, (((runAll exec AppState.new pre).positions a).map PositionInfo.marketId).Nodup ∧
        ∀ p ∈ (runAll exec AppState.new pre).positions a, 0 < p.size := by
  intro pre hpre
  have hstep : ∀ s c s', s.Balanced → c.Positive → exec s c = .ok s' → s'.Balanced :=
    fun _ _ _ h hc hok => exec_balanced h hc hok
  have h : (runAll exec AppState.new pre).Balanced :=
    runAll_invariant hstep new_balanced fun c hc => hcs c (hpre.subset hc)
  exact ⟨h.openInterest, fun a => ⟨h.single a, h.sizes a⟩⟩

/-- After the opening trade, one account is long what the other is short. -/
theorem run_openInterest_zero_openTrade :
    (∀ c ∈ openTrade, c.Positive) ∧
      ((runAll exec AppState.new openTrade).positions 1).length = 1 ∧
      ∀ mk, ∑ a : Address, netSize mk ((runAll exec AppState.new openTrade).positions a) = 0 := by
  have hcs : ∀ c ∈ openTrade, c.Positive := by
    intro c hc
    simp only [openTrade, List.mem_cons, List.not_mem_nil, or_false] at hc
    rcases hc with rfl | rfl | rfl | rfl <;> simp [Cmd.Positive, btcOrder]
  exact ⟨hcs, by decide +kernel,
    (run_openInterest_zero openTrade hcs openTrade (List.prefix_refl _)).1⟩

end Perplex.Edge
