import Perplex.EdgeExact

/-! Signs along whole runs: resting orders have a positive price and remaining quantity, and
fills a positive quantity, exactly when no accepted order is negative or rests at a price
that is not positive. -/
namespace Perplex.Edge

/-- Price and quantities of a resting order. -/
structure OpenOrder.Positive (o : OpenOrder) : Prop where
  price : 0 < o.price
  remaining : 0 < o.remaining
  le_qty : o.remaining ≤ o.qty

namespace AppState

/-- Every recorded fill and every trade of the tape. -/
structure RecordsPositive (s : AppState) : Prop where
  fills : ∀ a, ∀ f ∈ s.fills a, 0 < f.qty
  trades : ∀ mk, ∀ x ∈ s.publicTrades mk, 0 < x.qty

structure Positive (s : AppState) : Prop where
  orders : ∀ a, ∀ o ∈ s.openOrders a, o.Positive
  records : s.RecordsPositive

theorem Positive.remaining {s : AppState} (h : s.Positive) :
    ∀ a, ∀ o ∈ s.openOrders a, 0 < o.remaining :=
  fun a o ho => (h.orders a o ho).remaining

/-- The condition on an accepted order: a negative one neither rests nor meets a maker, and
one with a price that is not positive is filled by the makers it meets. -/
structure SignsOk (s : AppState) (env : Env) (user : Address) (t : Taker) : Prop where
  negative : t.qty < 0 → t.orderType = .market ∧
    s.makers env t.marketId t.side t.price user = []
  cheap : 0 < t.qty → t.orderType = .limit → t.price.getD 0 ≤ 0 →
    t.qty ≤ ((s.makers env t.marketId t.side t.price user).map OpenOrder.remaining).sum

section Records
variable (now orderId : ℕ) (user : Address) (t : Taker) (takerFeeBps : ℕ) (makerRebateBps : ℤ)

theorem forall_mem_update_append {ι α : Type} [DecidableEq ι] {f : ι → List α} {i : ι} {x : α}
    {P : α → Prop} :
    (∀ j, ∀ y ∈ Function.update f i (f i++[x]) j, P y) ↔ (∀ j, ∀ y ∈ f j, P y) ∧ P x := by
  constructor
  · intro h
    refine ⟨?_, h i x (by simp)⟩
    intro j y hy
    apply h j y
    by_cases hj : j = i
    · subst hj
      simp [hy]
    · rwa [Function.update_of_ne hj]
  · rintro ⟨h, hx⟩ j y hy
    by_cases hj : j = i
    · subst hj
      rw [Function.update_self] at hy
      rcases List.mem_append.mp hy with hy | hy
      · exact h j y hy
      · rwa [List.mem_singleton.mp hy]
    · rw [Function.update_of_ne hj] at hy
      exact h j y hy

theorem recordsPositive_iff {s : AppState} : s.RecordsPositive ↔
    (∀ a, ∀ f ∈ s.fills a, 0 < f.qty) ∧ ∀ mk, ∀ x ∈ s.publicTrades mk, 0 < x.qty :=
  ⟨fun h => ⟨h.fills, h.trades⟩, fun h => ⟨h.1, h.2⟩⟩

/-- A settled fill is recorded three times, each time with its own quantity. -/
theorem settleMatch_records (s : AppState) (m : MatchedFill) :
    (settleMatch now orderId user t takerFeeBps makerRebateBps s m).RecordsPositive ↔
      s.RecordsPositive ∧ 0 < m.qty := by
  simp only [recordsPositive_iff, settleMatch, upsertPosition, recordTrade, recordFill,
    adjustVault_fills, adjustVault_publicTrades, forall_mem_update_append]
  tauto

theorem settleAll_records (filled : List MatchedFill) (s : AppState) :
    (filled.foldl (settleMatch now orderId user t takerFeeBps makerRebateBps)
      s).RecordsPositive ↔ s.RecordsPositive ∧ ∀ m ∈ filled, 0 < m.qty := by
  induction filled generalizing s with
  | nil => simp
  | cons m rest ih =>
    rw [List.foldl_cons, ih, settleMatch_records, List.forall_mem_cons, and_assoc]

end Records

variable {s : AppState} {env : Env} {user : Address} {t : Taker}

theorem execute_records (s : AppState) (env : Env) (user : Address) (t : Taker) :
    (s.execute env user t).2.RecordsPositive ↔
      s.RecordsPositive ∧ ∀ m ∈ (s.matched env user t).1, 0 < m.qty := by
  have hrest : (s.execute env user t).2.RecordsPositive ↔
      (s.settled env user t).RecordsPositive := by
    rw [execute_frame, recordsPositive_iff, recordsPositive_iff]
  have hmatch : (s.matched env user t).2.RecordsPositive ↔ s.RecordsPositive := by
    rw [recordsPositive_iff, recordsPositive_iff]
    rfl
  rw [hrest, ← hmatch]
  exact settleAll_records ..

/-- An order with sound signs keeps every sign. -/
theorem execute_positive (hi : s.Indexed) (hp : s.Positive) (hq : t.qty ≠ 0)
    (h : s.SignsOk env user t) :
    (s.execute env user t).2.Positive ∧ ∀ m ∈ (s.matched env user t).1, 0 < m.qty := by
  rcases lt_or_gt_of_ne hq with hneg | hpos
  · -- a negative order of this kind meets nothing and rests nothing
    obtain ⟨hmarket, hnil⟩ := h.negative hneg
    obtain ⟨hfill, hsame⟩ : (s.matched env user t).1 = [] ∧
        (s.matched env user t).2.openOrders = s.openOrders :=
      matchTaker_no_makers (s := s.drawn) hp.remaining hnil
    have hall : ∀ m ∈ (s.matched env user t).1, 0 < m.qty := by simp [hfill]
    refine ⟨⟨?_, (execute_records s env user t).mpr ⟨hp.records, hall⟩⟩, hall⟩
    intro a o ho
    rw [execute_openOrders, hsame, hmarket] at ho
    exact hp.orders a o (by simpa using ho)
  -- a positive order fills positively, so only its remainder is to be checked
  · have hm := matched_spec hi hp.remaining hpos.le env user
    refine ⟨⟨?_, (execute_records s env user t).mpr ⟨hp.records, hm.positive⟩⟩, hm.positive⟩
    intro a o ho
    rw [execute_openOrders] at ho
    rcases List.mem_append.mp ho with ho | ho
    · obtain ⟨o₀, ho₀, he, hrem, hle⟩ := hm.kept a o ho
      have hold := hp.orders a o₀ ho₀
      refine ⟨?_, hrem, ?_⟩
      · rw [he]
        exact hold.price
      · rw [show o.qty = o₀.qty by rw [he]]
        exact hle.trans hold.le_qty
    · split_ifs at ho with hc
      · obtain rfl : o = s.remainder env user t := by simpa using ho
        obtain ⟨-, hne, hlimit⟩ := hc
        have hleft := unfilled_eq hi hp.remaining hpos.le env user
        have hsum := makers_sum_nonneg hp.remaining env t.marketId t.side t.price user
        have hrem : 0 < s.unfilled env user t := by
          rw [hleft] at hne ⊢
          exact lt_of_le_of_ne (le_max_left _ _) hne.symm
        refine ⟨?_, hrem, ?_⟩
        · -- at a price that is not positive the makers would have filled it all
          by_contra hprice
          have hfull := h.cheap hpos hlimit (not_lt.mp hprice)
          rw [hleft, max_eq_left (by linarith)] at hrem
          exact lt_irrefl _ hrem
        · change s.unfilled env user t ≤ t.qty
          rw [hleft]
          exact max_le hpos.le (by linarith)
      · simp at ho

/-- Conversely, an accepted order that keeps every sign has sound signs. -/
theorem signsOk_of_positive (hi : s.Indexed) (hp : s.Positive)
    (hs' : (s.execute env user t).2.Positive)
    (hm : ∀ m ∈ (s.matched env user t).1, 0 < m.qty) : s.SignsOk env user t := by
  -- whatever rests afterwards is positive
  have hrest (hne : s.unfilled env user t ≠ 0) (hl : t.orderType = .limit) :
      (s.remainder env user t).Positive := by
    apply hs'.orders user
    rw [execute_openOrders, if_pos ⟨rfl, hne, hl⟩]
    simp
  constructor
  · intro hneg
    have hnil : s.makers env t.marketId t.side t.price user = [] := by
      by_contra hne
      obtain ⟨m, hfill, hq⟩ : ∃ m, (s.matched env user t).1 = [m] ∧ m.qty = t.qty :=
        matchTaker_negative (s := s.drawn) (drawn_indexed hi) hp.remaining hneg hne
      have h0 := hm m (by simp [hfill])
      linarith
    refine ⟨?_, hnil⟩
    by_contra hl
    have hl : t.orderType = .limit := by
      cases ho : t.orderType with
      | limit => rfl
      | market => exact absurd ho hl
    have hfill : (s.matched env user t).1 = [] :=
      (matchTaker_no_makers (s := s.drawn) hp.remaining hnil).1
    have hun : s.unfilled env user t = t.qty := by simp [unfilled, hfill]
    have h0 : 0 < s.unfilled env user t := (hrest (by rw [hun]; exact hneg.ne) hl).remaining
    linarith
  · intro hpos hl hprice
    by_contra hlt
    have hleft := unfilled_eq hi hp.remaining hpos.le env user
    rw [max_eq_right (by linarith)] at hleft
    have h0 := (hrest (by rw [hleft]; linarith) hl).price
    exact absurd hprice (not_le.mpr h0)

end AppState

open AppState

/-- The fills a command returns from matching are positive. -/
def Cmd.MatchesPositive (s : AppState) : Cmd → Prop
  | .placeOrder env user req => ∀ t, s.Accepts env user req t →
      ∀ m ∈ (s.matched env user t).1, 0 < m.qty
  | _ => True

/-- An order that is accepted has sound signs. -/
def Cmd.SignsOk (s : AppState) : Cmd → Prop
  | .placeOrder env user req => ∀ t, s.Accepts env user req t → s.SignsOk env user t
  | _ => True

/-- One command, from a state that is in order. -/
theorem signsOk_iff {s : AppState} (hi : s.Indexed) (hp : s.Positive) (c : Cmd) :
    c.SignsOk s ↔ (attempt exec s c).Positive ∧ c.MatchesPositive s := by
  cases c with
  | placeOrder env user req =>
    cases hex : exec s (.placeOrder env user req) with
    | error e =>
      -- a rejected request changes nothing, and there is no order to speak of
      have hnone : ∀ t, ¬ s.Accepts env user req t := by
        intro t ht
        rw [exec_placeOrder_eq_ok.mpr ⟨t, ht, rfl⟩] at hex
        simp at hex
      have hsame : attempt exec s (.placeOrder env user req) = s := by
        unfold attempt
        rw [hex]
      rw [hsame]
      exact ⟨fun _ => ⟨hp, fun t ht => absurd ht (hnone t)⟩, fun _ t ht => absurd ht (hnone t)⟩
    | ok s' =>
      have hnext : attempt exec s (.placeOrder env user req) = s' := by
        unfold attempt
        rw [hex]
      rw [hnext]
      obtain ⟨t, ht, rfl⟩ := exec_placeOrder_eq_ok.mp hex
      constructor
      · intro h
        obtain ⟨hpos, hm⟩ := execute_positive hi hp ht.order.1 (h t ht)
        refine ⟨hpos, ?_⟩
        intro t' ht'
        rw [ht'.eq ht.valid]
        exact hm
      · rintro ⟨hpos, hm⟩ t' ht'
        rw [ht'.eq ht.valid]
        exact signsOk_of_positive hi hp hpos (hm t ht)
  | cancelOrder env user orderId =>
    have hpos : (s.cancelOrder env user orderId).Positive := by
      refine ⟨?_, ?_⟩
      · intro a o ho
        exact hp.orders a o ((s.cancelOrder_sublist env user orderId a).subset ho)
      · rw [cancelOrder_frame]
        exact ⟨hp.records.fills, hp.records.trades⟩
    exact ⟨fun _ => ⟨hpos, trivial⟩, fun _ => trivial⟩
  | setVaultBalance address amount =>
    exact ⟨fun _ => ⟨⟨hp.orders, ⟨hp.records.fills, hp.records.trades⟩⟩, trivial⟩, fun _ => trivial⟩
  | setOraclePrice marketId price =>
    exact ⟨fun _ => ⟨⟨hp.orders, ⟨hp.records.fills, hp.records.trades⟩⟩, trivial⟩, fun _ => trivial⟩

theorem new_positive : AppState.new.Positive := by
  refine ⟨?_, ⟨?_, ?_⟩⟩
  · intro a o ho
    simp [AppState.new] at ho
  · intro a f hf
    simp [AppState.new] at hf
  · intro mk x hx
    simp [AppState.new] at hx

/-- From the empty state, every order, fill and trade of every state reached and every fill
returned by matching has its signs in order if and only if every accepted order has sound
signs in the state it meets. -/
theorem positive_along_iff (cs : List Cmd) :
    ((∀ pre, pre <+: cs → (runAll exec AppState.new pre).Positive) ∧
        ∀ (pre : List Cmd) (c : Cmd), pre++[c] <+: cs →
          c.MatchesPositive (runAll exec AppState.new pre)) ↔
      ∀ (pre : List Cmd) (c : Cmd), pre++[c] <+: cs → c.SignsOk (runAll exec AppState.new pre) :=
  runAll_prefix_iff new_positive cs (fun pre c hp => signsOk_iff (run_indexed pre) hp c)

namespace Decimal
variable (round : ℚ → ℚ)

/-- The fills a command returns from matching are positive. -/
def MatchesPositive (s : AppState) : Cmd → Prop
  | .placeOrder env user req => ∀ t, Accepts round s env user req t →
      ∀ m, matched round s env user t = some m → ∀ f ∈ m.1, 0 < f.qty
  | _ => True

/-- An order that is accepted has sound signs. -/
def SignsOk (s : AppState) : Cmd → Prop
  | .placeOrder env user req => ∀ t, Accepts round s env user req t → s.SignsOk env user t
  | _ => True

variable {round} {s : AppState} {c : Cmd}

theorem matchesPositive_iff (h : CmdExact round s c) :
    MatchesPositive round s c ↔ c.MatchesPositive s := by
  cases c with
  | placeOrder env user req =>
    refine forall_congr' fun t => ?_
    rw [OrderExact.accepts_iff h]
    refine forall_congr' fun ht => ?_
    simp only [OrderExact.matched_eq h ht, Option.some.injEq, forall_eq']
  | _ => exact Iff.rfl

theorem signsOk_iff (h : CmdExact round s c) : SignsOk round s c ↔ c.SignsOk s := by
  cases c with
  | placeOrder env user req =>
    exact forall_congr' fun t => by rw [OrderExact.accepts_iff h]
  | _ => exact Iff.rfl

end Decimal

end Perplex.Edge
