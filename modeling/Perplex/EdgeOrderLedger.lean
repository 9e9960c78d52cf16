import Perplex.EdgeAudit
import Perplex.EdgePositivity
import Perplex.EdgePriority

/-! What becomes of an accepted order (`place_order`): the fills that the history of its owner
shows under its id, and what is left of it on the book, add up to what was ordered, and every
fill is on the terms of the order. -/
namespace Perplex.Edge

/-- The entry is a fill on the terms of the order. -/
structure Entry.OnTerms (e : Entry) (t : Taker) : Prop where
  market : e.marketId = t.marketId
  side : e.side = t.side
  price : crosses t.side t.price e.price = true
  qty : 0 < e.qty

/-- Quantity filled under an id. -/
def filledUnder (id : ℕ) (es : List Entry) : ℚ :=
  ((es.filter fun e => e.orderId = some id).map Entry.qty).sum

theorem filledUnder_append (id : ℕ) (es es' : List Entry) :
    filledUnder id (es++es') = filledUnder id es+filledUnder id es' := by
  simp [filledUnder]

theorem filledUnder_of_absent {id : ℕ} {es : List Entry} (h : ∀ e ∈ es, e.orderId ≠ some id) :
    filledUnder id es = 0 := by
  have hnone : es.filter (fun e => e.orderId = some id) = [] := by
    rw [List.filter_eq_nil_iff]
    intro e he
    simpa using h e he
  rw [filledUnder, hnone]
  rfl

namespace AppState

/-- The history of an account. -/
def history (s : AppState) (a : Address) : List Entry := (s.fills a).map FillInfo.entry

/-- The order `id` that `user` has placed as `t`: his alone, filled on its terms and for no more
than it asks, and on the book with what is left of it. -/
structure Honours (s : AppState) (user : Address) (id : ℕ) (t : Taker) : Prop where
  below : id < s.nextUlid
  owned : ∀ a, a ≠ user → (∀ e ∈ s.history a, e.orderId ≠ some id) ∧
    ∀ o ∈ s.openOrders a, o.id ≠ id
  onTerms : ∀ e ∈ s.history user, e.orderId = some id → e.OnTerms t
  covered : filledUnder id (s.history user) ≤ t.qty
  rests : ∀ o ∈ s.openOrders user, o.id = id → o.marketId = t.marketId ∧ o.side = t.side ∧
    t.price = some o.price ∧ o.remaining = t.qty-filledUnder id (s.history user)

/-- The ids of the histories are drawn already. -/
def HistoryBelow (s : AppState) : Prop :=
  ∀ a, ∀ e ∈ s.history a, ∀ id, e.orderId = some id → id < s.nextUlid

theorem mem_entries {orderId : ℕ} {user a : Address} {t : Taker} {m : MatchedFill} {e : Entry} :
    e ∈ m.entries orderId user t a ↔
      (a = user ∧ e = ⟨some orderId, t.marketId, t.side, m.price, m.qty, .taker⟩) ∨
      a = m.makerAddress ∧
        e = ⟨some m.makerOrderId, t.marketId, t.side.opposite, m.price, m.qty, .maker⟩ := by
  unfold MatchedFill.entries
  rw [List.mem_append]
  apply or_congr
  · by_cases hu : a = user <;> simp [hu]
  · by_cases hm : a = m.makerAddress <;> simp [hm]

/-- Under an id that the taker does not have, his fills count for the maker that has it. -/
theorem filledUnder_entries {orderId id : ℕ} (hne : orderId ≠ id) (user a : Address) (t : Taker)
    (filled : List MatchedFill) :
    filledUnder id (filled.flatMap (MatchedFill.entries orderId user t a)) =
      filledOf a id filled := by
  induction filled with
  | nil => rfl
  | cons m rest ih =>
    have hone : filledUnder id (m.entries orderId user t a) =
        if m.makerAddress = a ∧ m.makerOrderId = id then m.qty else 0 := by
      unfold MatchedFill.entries
      rw [filledUnder_append, filledUnder_of_absent, zero_add]
      · by_cases ha : a = m.makerAddress
        · subst ha
          by_cases hid : m.makerOrderId = id <;> simp [filledUnder, hid]
        · rw [if_neg ha, if_neg fun h => ha h.1.symm]
          rfl
      · intro e he
        split_ifs at he
        · obtain rfl := List.mem_singleton.mp he
          simpa using hne
        · cases he
    rw [List.flatMap_cons, filledUnder_append, ih, filledOf_cons, hone]

/-- The id of the taker's own order counts all of his fills. -/
theorem filledUnder_entries_self {orderId : ℕ} (user : Address) (t : Taker)
    {filled : List MatchedFill} (hothers : ∀ m ∈ filled, m.makerAddress ≠ user) :
    filledUnder orderId (filled.flatMap (MatchedFill.entries orderId user t user)) =
      (filled.map MatchedFill.qty).sum := by
  induction filled with
  | nil => rfl
  | cons m rest ih =>
    have hm := hothers m List.mem_cons_self
    rw [List.flatMap_cons, filledUnder_append,
      ih fun m' hm' => hothers m' (List.mem_cons_of_mem _ hm'), List.map_cons, List.sum_cons]
    congr 1
    simp [MatchedFill.entries, Ne.symm hm, filledUnder]

theorem execute_history (s : AppState) (env : Env) (user : Address) (t : Taker) (a : Address) :
    (s.execute env user t).2.history a = s.history a++
      (s.matched env user t).1.flatMap (MatchedFill.entries s.nextUlid user t a) :=
  execute_entries s env user t a

theorem execute_nextUlid (s : AppState) (env : Env) (user : Address) (t : Taker) :
    s.nextUlid < (s.execute env user t).2.nextUlid := by
  rw [execute_frame]
  exact (s.settled_frame env user t).2.2.2

section Matching
variable {s : AppState} {env : Env} {user : Address} {t : Taker} (hi : s.Indexed)
  (hp : s.Positive) (hsigns : s.SignsOk env user t)
include hi hp hsigns

theorem matched_eligible : ∀ m ∈ (s.matched env user t).1, ∃ o, s.Makes m o ∧
    s.Eligible t.marketId t.side t.price user m.makerAddress o ∧ m.price = o.price ∧
      0 < m.qty ∧ m.qty ≤ o.remaining := by
  rcases lt_or_ge t.qty 0 with hneg | hq
  · obtain ⟨hfill, -⟩ : (s.matched env user t).1 = [] ∧
        (s.matched env user t).2.openOrders = s.openOrders :=
      matchTaker_no_makers (s := s.drawn) hp.remaining (hsigns.negative hneg).2
    simp [hfill]
  · intro m hm
    obtain ⟨o, hmakes, helig, hterms⟩ := matchTaker_eligible (s := s.drawn) hi.nodup
      hp.remaining hq (fun a o ho => (hp.orders a o ho).price) m hm
    exact ⟨o,hmakes,⟨helig.open_,helig.other,helig.market,helig.side,helig.limit,
      helig.crosses⟩,hterms⟩

theorem matched_orders (a : Address) : (s.matched env user t).2.openOrders a =
    ((s.openOrders a).map fun o => { o with
      remaining := o.remaining-filledOf a o.id (s.matched env user t).1 }).filter
        fun o => o.remaining ≠ 0 := by
  rcases lt_or_ge t.qty 0 with hneg | hq
  · obtain ⟨hfill, hsame⟩ : (s.matched env user t).1 = [] ∧
        (s.matched env user t).2.openOrders = s.openOrders :=
      matchTaker_no_makers (s := s.drawn) hp.remaining (hsigns.negative hneg).2
    rw [hfill, hsame]
    symm
    have hkept : (s.openOrders a).map (fun o => { o with
        remaining := o.remaining-filledOf a o.id [] }) = s.openOrders a := by
      simp [filledOf, fillsOf]
    rw [hkept, List.filter_eq_self]
    intro o ho
    simpa using (hp.remaining a o ho).ne'
  · exact matchTaker_orders (s := s.drawn) hi.nodup
      (fun a o ho => (hp.orders a o ho).price) hp.remaining hq a

/-- No order is filled for more than it has left. -/
theorem filledOf_matched_le (hq : t.qty ≠ 0) {a : Address} {o : OpenOrder}
    (ho : o ∈ s.openOrders a) : filledOf a o.id (s.matched env user t).1 ≤ o.remaining := by
  by_contra hover
  -- it would stay on the book with a negative quantity
  have hleft : o.remaining-filledOf a o.id (s.matched env user t).1 < 0 := by linarith
  have hkept : { o with remaining := o.remaining-filledOf a o.id (s.matched env user t).1 } ∈
      (s.execute env user t).2.openOrders a := by
    rw [execute_openOrders, matched_orders hi hp hsigns]
    apply List.mem_append_left
    exact List.mem_filter.mpr ⟨List.mem_map.mpr ⟨o,ho,rfl⟩,by simpa using hleft.ne⟩
  have hpositive := ((execute_positive hi hp hq hsigns).1.orders a _ hkept).remaining
  exact absurd hleft hpositive.not_gt

/-- A fill under an id is a fill of the order with that id. -/
theorem filledOf_matched_eq_zero {a : Address} {id : ℕ} (hnone : ∀ o ∈ s.openOrders a, o.id ≠ id) :
    filledOf a id (s.matched env user t).1 = 0 := by
  apply filledOf_of_absent
  intro hmem
  obtain ⟨m, hm, he⟩ := List.mem_map.mp hmem
  obtain ⟨rfl, rfl⟩ := Prod.mk.inj he
  obtain ⟨o, hmakes, -⟩ := matched_eligible hi hp hsigns m hm
  exact hnone o hmakes.1 hmakes.2

/-- What an accepted order leaves of the orders that were there. -/
theorem mem_execute_openOrders {a : Address} {o : OpenOrder}
    (ho : o ∈ (s.execute env user t).2.openOrders a) : (∃ o₀ ∈ s.openOrders a, o = { o₀ with
      remaining := o₀.remaining-filledOf a o₀.id (s.matched env user t).1 }) ∨
        a = user ∧ t.orderType = .limit ∧ o = s.remainder env user t := by
  rw [execute_openOrders, matched_orders hi hp hsigns] at ho
  rcases List.mem_append.mp ho with ho | ho
  · obtain ⟨o₀, ho₀, he⟩ := List.mem_map.mp (List.mem_filter.mp ho).1
    exact .inl ⟨o₀,ho₀,he.symm⟩
  · split_ifs at ho with hrests
    · exact .inr ⟨hrests.1,hrests.2.2,List.mem_singleton.mp ho⟩
    · cases ho

end Matching

section Placing
variable {s : AppState} {env : Env} {user : Address} {t : Taker} (hi : s.Indexed)
  (hp : s.Positive) (hsigns : s.SignsOk env user t)
include hi hp hsigns

theorem HistoryBelow.execute (h : s.HistoryBelow) : (s.execute env user t).2.HistoryBelow := by
  have hnext := execute_nextUlid s env user t
  intro a e he id hid
  rw [execute_history] at he
  rcases List.mem_append.mp he with he | he
  · exact (h a e he id hid).trans hnext
  · obtain ⟨m, hm, he⟩ := List.mem_flatMap.mp he
    rcases mem_entries.mp he with ⟨-, rfl⟩ | ⟨-, rfl⟩
    · obtain rfl := Option.some.inj hid
      exact hnext
    · obtain ⟨o, hmakes, -⟩ := matched_eligible hi hp hsigns m hm
      have hlt := hi.below _ o hmakes.1
      obtain rfl := Option.some.inj hid
      rw [← hmakes.2]
      exact hlt.trans hnext

/-- The order that is placed now. -/
theorem honours_placed (hbelow : s.HistoryBelow) (hq : 0 < t.qty)
    (hprice : t.orderType = .limit → t.price.isSome) :
    (s.execute env user t).2.Honours user s.nextUlid t := by
  have hspec := matched_spec hi hp.remaining hq.le env user
  -- its id is new to the histories and to the book
  have hnew (a : Address) : ∀ e ∈ s.history a, e.orderId ≠ some s.nextUlid := by
    intro e he hid
    exact lt_irrefl _ (hbelow a e he _ hid)
  have hold (a : Address) : ∀ o ∈ s.openOrders a, o.id ≠ s.nextUlid := by
    intro o ho
    exact (hi.below a o ho).ne
  have hmade (m : MatchedFill) (hm : m ∈ (s.matched env user t).1) :
      m.makerOrderId ≠ s.nextUlid := by
    obtain ⟨o, hmakes, -⟩ := matched_eligible hi hp hsigns m hm
    rw [← hmakes.2]
    exact hold _ o hmakes.1
  have hsum : filledUnder s.nextUlid ((s.execute env user t).2.history user) =
      ((s.matched env user t).1.map MatchedFill.qty).sum := by
    rw [execute_history, filledUnder_append, filledUnder_of_absent (hnew user), zero_add,
      filledUnder_entries_self user t hspec.others]
  constructor
  · exact execute_nextUlid s env user t
  · intro a ha
    constructor
    · intro e he hid
      rw [execute_history] at he
      rcases List.mem_append.mp he with he | he
      · exact hnew a e he hid
      · obtain ⟨m, hm, he⟩ := List.mem_flatMap.mp he
        rcases mem_entries.mp he with ⟨hu, -⟩ | ⟨-, rfl⟩
        · exact ha hu
        · exact hmade m hm (Option.some.inj hid)
    · intro o ho
      rcases mem_execute_openOrders hi hp hsigns ho with ⟨o₀, ho₀, rfl⟩ | ⟨hu, -⟩
      · exact hold a o₀ ho₀
      · exact absurd hu ha
  · intro e he hid
    rw [execute_history] at he
    rcases List.mem_append.mp he with he | he
    · exact absurd hid (hnew user e he)
    · obtain ⟨m, hm, he⟩ := List.mem_flatMap.mp he
      rcases mem_entries.mp he with ⟨-, rfl⟩ | ⟨-, rfl⟩
      · obtain ⟨o, -, helig, hprice, hpos, -⟩ := matched_eligible hi hp hsigns m hm
        refine ⟨rfl,rfl,?_,hpos⟩
        rw [hprice]
        exact helig.crosses
      · exact absurd (Option.some.inj hid) (hmade m hm)
  · rw [hsum, hspec.total]
    exact min_le_left _ _
  · intro o ho hid
    rcases mem_execute_openOrders hi hp hsigns ho with ⟨o₀, ho₀, rfl⟩ | ⟨-, hlimit, rfl⟩
    · exact absurd hid (hold user o₀ ho₀)
    · obtain ⟨p, hp⟩ := Option.isSome_iff_exists.mp (hprice hlimit)
      refine ⟨rfl,rfl,?_,?_⟩
      · rw [hp]
        simp [remainder, hp]
      · rw [hsum]
        rfl

/-- Orders placed before. -/
theorem Honours.execute {owner : Address} {id : ℕ} {placed : Taker}
    (h : s.Honours owner id placed) (hq : t.qty ≠ 0) :
    (s.execute env user t).2.Honours owner id placed := by
  have hne : s.nextUlid ≠ id := h.below.ne'
  have hsum (a : Address) : filledUnder id ((s.execute env user t).2.history a) =
      filledUnder id (s.history a)+filledOf a id (s.matched env user t).1 := by
    rw [execute_history, filledUnder_append, filledUnder_entries hne]
  constructor
  · exact h.below.trans (execute_nextUlid s env user t)
  · intro a ha
    obtain ⟨hentries, horders⟩ := h.owned a ha
    constructor
    · intro e he hid
      rw [execute_history] at he
      rcases List.mem_append.mp he with he | he
      · exact hentries e he hid
      · obtain ⟨m, hm, he⟩ := List.mem_flatMap.mp he
        rcases mem_entries.mp he with ⟨-, rfl⟩ | ⟨rfl, rfl⟩
        · exact hne (Option.some.inj hid)
        · obtain ⟨o, hmakes, -⟩ := matched_eligible hi hp hsigns m hm
          exact horders o hmakes.1 (hmakes.2.trans (Option.some.inj hid))
    · intro o ho
      rcases mem_execute_openOrders hi hp hsigns ho with ⟨o₀, ho₀, rfl⟩ | ⟨-, -, rfl⟩
      · exact horders o₀ ho₀
      · exact hne
  · intro e he hid
    rw [execute_history] at he
    rcases List.mem_append.mp he with he | he
    · exact h.onTerms e he hid
    · obtain ⟨m, hm, he⟩ := List.mem_flatMap.mp he
      rcases mem_entries.mp he with ⟨-, rfl⟩ | ⟨rfl, rfl⟩
      · exact absurd (Option.some.inj hid) hne
      · -- a maker is filled at his own price
        obtain ⟨o, hmakes, helig, hprice, hpos, -⟩ := matched_eligible hi hp hsigns m hm
        obtain ⟨hmarket, hside, hlimit, -⟩ :=
          h.rests o hmakes.1 (hmakes.2.trans (Option.some.inj hid))
        refine ⟨?_,?_,?_,hpos⟩
        · exact helig.market.symm.trans hmarket
        · exact helig.side.symm.trans hside
        · change crosses placed.side placed.price m.price = true
          rw [hlimit, hprice]
          cases placed.side <;> simp [crosses]
  · rw [hsum]
    -- under this id only what rests can be filled, for what is left of it
    by_cases hopen : ∃ o ∈ s.openOrders owner, o.id = id
    · obtain ⟨o, ho, rfl⟩ := hopen
      obtain ⟨-, -, -, hrem⟩ := h.rests o ho rfl
      have hle := filledOf_matched_le hi hp hsigns hq ho
      linarith
    · have hzero := filledOf_matched_eq_zero hi hp hsigns
        fun o ho hid => hopen ⟨o,ho,hid⟩
      have hcovered := h.covered
      linarith
  · intro o ho hid
    rcases mem_execute_openOrders hi hp hsigns ho with ⟨o₀, ho₀, rfl⟩ | ⟨-, -, rfl⟩
    · obtain ⟨hmarket, hside, hprice, hrem⟩ := h.rests o₀ ho₀ hid
      refine ⟨hmarket,hside,hprice,?_⟩
      have hid' : o₀.id = id := hid
      rw [hsum, ← hid']
      rw [← hid'] at hrem
      linarith
    · exact absurd hid hne

end Placing

section Congr
variable {s s' : AppState} (hf : s'.fills = s.fills) (hn : s'.nextUlid = s.nextUlid)
include hf hn

theorem HistoryBelow.congr (h : s.HistoryBelow) : s'.HistoryBelow := by
  unfold HistoryBelow history
  rw [hf, hn]
  exact h

theorem Honours.congr {user : Address} {id : ℕ} {t : Taker} (h : s.Honours user id t)
    (hkept : ∀ a, ∀ o ∈ s'.openOrders a, o ∈ s.openOrders a) : s'.Honours user id t := by
  have hhistory : s'.history = s.history := by
    unfold history
    rw [hf]
  constructor
  · rw [hn]
    exact h.below
  · intro a ha
    obtain ⟨hentries, horders⟩ := h.owned a ha
    rw [hhistory]
    exact ⟨hentries,fun o ho => horders o (hkept a o ho)⟩
  · rw [hhistory]
    exact h.onTerms
  · rw [hhistory]
    exact h.covered
  · intro o ho
    rw [hhistory]
    exact h.rests o (hkept user o ho)

end Congr

/-- What every state reached has: ids below the counter, signs in order. -/
structure Sound (s : AppState) : Prop where
  indexed : s.Indexed
  positive : s.Positive
  below : s.HistoryBelow

end AppState

open AppState
variable {s : AppState}

theorem attempt_sound (h : s.Sound) (c : Cmd) (hsigns : c.SignsOk s) :
    (attempt exec s c).Sound := by
  constructor
  · unfold attempt
    split
    · next s' hok => exact exec_indexed h.indexed hok
    · exact h.indexed
  · exact ((signsOk_iff h.indexed h.positive c).mp hsigns).1
  · cases c with
    | placeOrder env user req =>
      unfold attempt
      split
      · next s' hok =>
        obtain ⟨t, ht, rfl⟩ := exec_placeOrder_eq_ok.mp hok
        exact h.below.execute h.indexed h.positive (hsigns t ht)
      · exact h.below
    | cancelOrder env user orderId =>
      change (s.cancelOrder env user orderId).HistoryBelow
      apply h.below.congr
      · rw [cancelOrder_frame]
      · rw [cancelOrder_frame]
    | setVaultBalance address amount => exact h.below.congr rfl rfl
    | setOraclePrice marketId price => exact h.below.congr rfl rfl

theorem attempt_honours (h : s.Sound) (c : Cmd) (hsigns : c.SignsOk s) {user : Address} {id : ℕ}
    {t : Taker} (ho : s.Honours user id t) : (attempt exec s c).Honours user id t := by
  cases c with
  | placeOrder env user' req =>
    unfold attempt
    split
    · next s' hok =>
      obtain ⟨t', ht, rfl⟩ := exec_placeOrder_eq_ok.mp hok
      exact ho.execute h.indexed h.positive (hsigns t' ht) ht.order.1
    · exact ho
  | cancelOrder env user' orderId =>
    change (s.cancelOrder env user' orderId).Honours user id t
    have hsub := s.cancelOrder_sublist env user' orderId
    apply ho.congr
    · rw [cancelOrder_frame]
    · rw [cancelOrder_frame]
    · exact fun a o ho => (hsub a).subset ho
  | setVaultBalance address amount =>
    apply ho.congr
    · rfl
    · rfl
    · exact fun a o ho => ho
  | setOraclePrice marketId price =>
    apply ho.congr
    · rfl
    · rfl
    · exact fun a o ho => ho

theorem new_sound : AppState.new.Sound :=
  ⟨new_indexed,new_positive,fun a e he => by simp [history, AppState.new] at he⟩

theorem runAll_sound (cs : List Cmd)
    (hsigns : ∀ pre c, pre++[c] <+: cs → c.SignsOk (runAll exec AppState.new pre)) :
    (runAll exec AppState.new cs).Sound := by
  induction cs using List.reverseRecOn with
  | nil => exact new_sound
  | append_singleton cs c ih =>
    rw [runAll_append]
    apply attempt_sound (ih fun pre c' hpre => hsigns pre c' (hpre.trans (List.prefix_append _ _)))
    exact hsigns cs c (List.prefix_refl _)

/-- An accepted order is honoured for good: its fills are on its terms and do not exceed it,
nobody else has a share in it, and what is open of it is what its owner's history leaves. -/
theorem runAll_honours (cs : List Cmd)
    (hsigns : ∀ pre c, pre++[c] <+: cs → c.SignsOk (runAll exec AppState.new pre))
    (pre : List Cmd) (env : Env) (user : Address) (req : PlaceOrderRequest) (t : Taker)
    (hpre : pre++[.placeOrder env user req] <+: cs)
    (haccepts : (runAll exec AppState.new pre).Accepts env user req t) (hq : 0 < t.qty) :
    (runAll exec AppState.new cs).Honours user (runAll exec AppState.new pre).nextUlid t := by
  obtain ⟨post, rfl⟩ := hpre
  induction post using List.reverseRecOn with
  | nil =>
    have hsound := runAll_sound pre fun pre' c hpre' =>
      hsigns pre' c (hpre'.trans ((List.prefix_append _ _).trans (List.prefix_append _ _)))
    have hnow := hsigns pre _ (List.prefix_append _ _)
    have hexec : attempt exec (runAll exec AppState.new pre) (.placeOrder env user req) =
        ((runAll exec AppState.new pre).execute env user t).2 := by
      unfold attempt
      rw [exec_placeOrder_eq_ok.mpr ⟨t,haccepts,rfl⟩]
    rw [List.append_nil, runAll_append, hexec]
    exact honours_placed hsound.indexed hsound.positive (hnow t haccepts) hsound.below hq
      haccepts.order.2.1
  | append_singleton post c ih =>
    rw [← List.append_assoc] at hsigns ⊢
    have hearlier : ∀ pre' c', pre'++[c'] <+: pre++[.placeOrder env user req]++post →
        c'.SignsOk (runAll exec AppState.new pre') := fun pre' c' hpre' =>
      hsigns pre' c' (hpre'.trans (List.prefix_append _ _))
    rw [runAll_append]
    exact attempt_honours (runAll_sound _ hearlier) c (hsigns _ c (List.prefix_refl _))
      (ih hearlier)

/-- So it is in a run that rounding does not show in. -/
theorem order_honoured {round : ℚ → ℚ} (cs : List Cmd)
    (hexact : Decimal.ExactRun round AppState.new cs)
    (hsigns : ∀ (pre : List Cmd) (c : Cmd), pre++[c] <+: cs →
      Decimal.SignsOk round (Decimal.serveAll round AppState.new pre) c)
    (pre : List Cmd) (env : Env) (user : Address) (req : PlaceOrderRequest) (t : Taker)
    (hpre : pre++[.placeOrder env user req] <+: cs)
    (haccepts : Decimal.Accepts round (Decimal.serveAll round AppState.new pre) env user req t)
    (hq : 0 < t.qty) :
    (Decimal.serveAll round AppState.new cs).Honours user
      (Decimal.serveAll round AppState.new pre).nextUlid t := by
  obtain ⟨hpast, horder⟩ := hexact.meets hpre
  rw [hpast] at haccepts ⊢
  rw [hexact.run_eq]
  apply runAll_honours cs _ pre env user req t hpre _ hq
  · exact (hexact.forall_iff fun _ _ => Decimal.signsOk_iff).mp hsigns
  · exact (Decimal.OrderExact.accepts_iff horder).mp haccepts

/-- A limit order for a contract has its signs in order. -/
theorem signsOk_btcOrder {env : Env} {user : Address} {name : String} (side : Side)
    (hv : s.validate (btcOrder name "limit" (some 100000) 1) =
      .ok ⟨"btc-usd", side, .limit, some 100000, 1, false, false, none⟩) :
    Cmd.SignsOk s (.placeOrder env user (btcOrder name "limit" (some 100000) 1)) := by
  intro t ht
  rw [ht.eq hv]
  constructor
  · intro hneg
    norm_num at hneg
  · intro _ _ hcheap
    norm_num at hcheap

/-- The offer of account 2, once account 1 has taken it. -/
theorem order_honoured_openTrade :
    (Decimal.serveAll id AppState.new openTrade).Honours 2 0
      ⟨"btc-usd", .sell, .limit, some 100000, 1, false, false, none⟩ ∧
        filledUnder 0 ((Decimal.serveAll id AppState.new openTrade).history 2) = 1 := by
  have hsigns : ∀ (pre : List Cmd) (c : Cmd), pre++[c] <+: openTrade →
      Decimal.SignsOk id (Decimal.serveAll id AppState.new pre) c := by
    refine (Decimal.openTrade_exact.forall_iff fun _ _ => Decimal.signsOk_iff).mpr ?_
    refine forall_request_cons trivial (forall_request_cons trivial
      (forall_request_cons ?_ (forall_request_cons ?_ forall_request_nil)))
    · exact signsOk_btcOrder .sell (by decide +kernel)
    · exact signsOk_btcOrder .buy (by decide +kernel)
  have hpre : openTrade.take 2++[.placeOrder (twoAccounts 0) 2
      (btcOrder "sell" "limit" (some 100000) 1)] <+: openTrade := by
    simp [openTrade]
  have haccepts : Decimal.Accepts id (Decimal.serveAll id AppState.new (openTrade.take 2))
      (twoAccounts 0) 2 (btcOrder "sell" "limit" (some 100000) 1)
        ⟨"btc-usd", .sell, .limit, some 100000, 1, false, false, none⟩ := by
    decide +kernel
  have h := order_honoured openTrade Decimal.openTrade_exact hsigns _ _ _ _ _ hpre haccepts
    (by norm_num)
  exact ⟨h,by decide +kernel⟩

end Perplex.Edge
