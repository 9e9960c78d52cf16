import Mathlib.Tactic.FinCases
import Perplex.EdgeNames

/-! The public books. A rebuild adds the open orders up under one lock and stores the levels
under another, so an older rebuild may store over a newer one. Unless that happens, the book of
a market is what its open orders add up to, or some call has still to bring it up to date. -/
namespace Perplex.Edge

theorem addLevel_comm (m : SortedMap ℚ ℚ) (o o' : OpenOrder) :
    addLevel (addLevel m o) o' = addLevel (addLevel m o') o :=
  SortedMap.upsert_comm m o'.price o.price 0 fun v => by ring

/-- The order in which orders are added up does not matter. -/
theorem foldl_addLevel_perm {l l' : List OpenOrder} (h : l.Perm l') (m : SortedMap ℚ ℚ) :
    l.foldl addLevel m = l'.foldl addLevel m :=
  h.foldl_eq' (fun _ _ _ _ _ => addLevel_comm _ _ _) m

/-- The orders of an account in a market. -/
def AppState.inMarket (s : AppState) (marketId : String) (a : Address) : List OpenOrder :=
  (s.openOrders a).filter fun o => o.marketId = marketId

/-- Other markets do not matter either. -/
theorem levels_congr {s s' : AppState} {marketId : String}
    (h : ∀ a, s'.inMarket marketId a = s.inMarket marketId a) (env : Env) :
    s'.levels env marketId = s.levels env marketId := by
  have hrest (side : Side) :
      s'.restingOrders env marketId side = s.restingOrders env marketId side := by
    unfold AppState.restingOrders
    rw [List.filter_flatMap, List.filter_flatMap]
    congr 1
    funext a
    -- the filter looks at the market first
    have hsplit (t : AppState) : (t.openOrders a).filter (fun o => o.marketId = marketId ∧
        o.orderType = .limit ∧ o.price ≠ 0 ∧ o.remaining ≠ 0 ∧ o.side = side) =
        (t.inMarket marketId a).filter (fun o => o.orderType = .limit ∧ o.price ≠ 0 ∧
          o.remaining ≠ 0 ∧ o.side = side) := by
      unfold AppState.inMarket
      rw [List.filter_filter]
      apply List.filter_congr
      intro o _
      by_cases hm : o.marketId = marketId <;> simp [hm]
    rw [hsplit, hsplit, h]
  unfold AppState.levels
  rw [hrest, hrest]

/-- Nor does the order of the accounts, as long as none with orders is left out. -/
theorem levels_eq_of_covers {s : AppState} {env env' : Env}
    (h : ∀ a, s.openOrders a ≠ [] → a ∈ env.keys)
    (h' : ∀ a, s.openOrders a ≠ [] → a ∈ env'.keys) (marketId : String) :
    s.levels env marketId = s.levels env' marketId := by
  have hrest (side : Side) : (s.restingOrders env marketId side).Perm
      (s.restingOrders env' marketId side) :=
    (flatMap_perm_of_covers env.nodup env'.nodup h h').filter _
  unfold AppState.levels
  rw [foldl_addLevel_perm (hrest .buy), foldl_addLevel_perm (hrest .sell)]

theorem setRemaining_inMarket {id : ℕ} {l : List OpenOrder} {o : OpenOrder} {marketId : String}
    (h : l.find? (fun o => o.id = id) = some o) (hm : o.marketId ≠ marketId) (r : ℚ) :
    (setRemaining id r l).filter (fun o => o.marketId = marketId) =
      l.filter fun o => o.marketId = marketId := by
  induction l with
  | nil => simp at h
  | cons x rest ih =>
    unfold setRemaining
    by_cases hx : x.id = id
    · simp only [List.find?_cons, hx, decide_true, Option.some.injEq] at h
      subst h
      simp [hx, hm]
    · simp only [List.find?_cons, hx, decide_false] at h
      rw [if_neg hx, List.filter_cons, List.filter_cons, ih h]

/-- Along candidates of another market no order of this one is decremented. -/
theorem matchLoop_inMarket {marketId other : String} (hne : other ≠ marketId) (now : ℕ)
    (cs : List Candidate) {orders : Address → List OpenOrder} (q : ℚ)
    (hcs : ∀ k ∈ cs, ∀ o ∈ orders k.address, o.id = k.id → o.marketId = other) (a : Address) :
    ((matchLoop now orders q cs).2 a).filter (fun o => o.marketId = marketId) =
      (orders a).filter fun o => o.marketId = marketId := by
  induction cs generalizing orders q with
  | nil => rfl
  | cons c cs ih =>
    have htail : ∀ k ∈ cs, ∀ o ∈ orders k.address, o.id = k.id → o.marketId = other :=
      fun k hk => hcs k (List.mem_cons_of_mem _ hk)
    unfold matchLoop
    split_ifs
    · rfl
    cases hfind : (orders c.address).find? (fun o => o.id = c.id) with
    | none => exact ih q htail
    | some o =>
      dsimp only
      split_ifs
      · exact ih q htail
      · have hid : o.id = c.id := by simpa using List.find?_some hfind
        have hm := hcs c List.mem_cons_self o (List.mem_of_find?_eq_some hfind) hid
        refine (ih _ ?_).trans ?_
        · intro k hk x hx he
          by_cases hk' : k.address = c.address
          · rw [hk', Function.update_self] at hx
            have hmem := List.mem_map_of_mem (f := OpenOrder.static) hx
            rw [setRemaining_static] at hmem
            obtain ⟨y, hy, hs⟩ := List.mem_map.mp hmem
            rw [← marketId_eq_of_static hs]
            exact htail k hk y (hk' ▸ hy) ((id_eq_of_static hs).trans he)
          · rw [Function.update_of_ne hk'] at hx
            exact htail k hk x hx he
        · by_cases ha : a = c.address
          · subst ha
            rw [Function.update_self]
            exact setRemaining_inMarket hfind (hm ▸ hne) _
          · rw [Function.update_of_ne ha]

/-- A taker of another market leaves a market alone. -/
theorem fillSection_inMarket {s : AppState} {marketId other : String} (hne : other ≠ marketId)
    {cs : List Candidate} (hcs : ∀ k ∈ cs, ∀ o ∈ s.openOrders k.address, o.id = k.id →
      o.marketId = other) (env : Env) (q : ℚ) (a : Address) :
    (s.fillSection env other q cs).2.inMarket marketId a = s.inMarket marketId a := by
  unfold AppState.inMarket
  rw [← matchLoop_inMarket hne env.now cs q hcs a]
  change ((((matchLoop env.now s.openOrders q cs).2 a).filter _).filter _) = _
  rw [List.filter_filter]
  apply List.filter_congr
  intro o _
  by_cases hm : o.marketId = marketId
  · simp [hm, Ne.symm hne]
  · simp [hm]

section Books
variable {ι : Type}

/-- The accounts that have orders at the start or add some. -/
def InPlay (c₀ : Pool ι Section (Shared ι)) (a : Address) : Prop :=
  c₀.shared.state.openOrders a ≠ [] ∨
    ∃ i env o, Section.call (.addOpenOrder env a o) ∈ c₀.pending i

/-- An iteration over the accounts leaves out none in play. -/
def Covers (c₀ : Pool ι Section (Shared ι)) (env : Env) : Prop := ∀ a, InPlay c₀ a → a ∈ env.keys

/-- The iteration order that a section uses. -/
def Section.env? : Section → Option Env
  | .call (.addOpenOrder env _ _) => some env
  | .call (.cancelOrder env _ _) => some env
  | .call (.matchTaker env _ _ _ _ _) => some env
  | .pushOrder env _ _ => some env
  | .fill env _ _ _ => some env
  | .readBook env _ => some env
  | _ => none

/-- The levels are what the open orders of the market add up to. -/
def Current (c₀ c : Pool ι Section (Shared ι)) (marketId : String)
    (levels : List (ℚ × ℚ) × List (ℚ × ℚ)) : Prop :=
  ∀ env, Covers c₀ env → levels = c.shared.state.levels env marketId

/-- The stored book of a market. -/
def storedLevels (c : Pool ι Section (Shared ι)) (marketId : String) :
    List (ℚ × ℚ) × List (ℚ × ℚ) :=
  ((c.shared.state.orderbooks marketId).bids,(c.shared.state.orderbooks marketId).asks)

/-- A call has still to add the market up, or has added it up as it is and has still to store
the levels. -/
def Refreshes (c₀ c : Pool ι Section (Shared ι)) (marketId : String) (i : ι) : Prop :=
  (∃ env, Section.readBook env marketId ∈ c.pending i) ∨
    ∃ levels, Section.storeBook marketId levels ∈ c.pending i ∧ Current c₀ c marketId levels

/-- Levels are stored only if they are still current, or if another call will store over them:
no older rebuild stores after a newer one. -/
def StoresInOrder (c₀ c : Pool ι Section (Shared ι)) (i : ι) : Prop :=
  ∀ marketId levels ws, c.pending i = .storeBook marketId levels :: ws →
    Current c₀ c marketId levels ∨ ∃ j, j ≠ i ∧ Refreshes c₀ c marketId j

/-- The book is current, or a call in flight brings it up to date. -/
def Kept (c₀ c : Pool ι Section (Shared ι)) (marketId : String) : Prop :=
  Current c₀ c marketId (storedLevels c marketId) ∨ ∃ i, Refreshes c₀ c marketId i

/-- What the calls keep besides. -/
structure BookInv (c₀ c : Pool ι Section (Shared ι)) : Prop where
  named : Named c
  inPlay : ∀ a, c.shared.state.openOrders a ≠ [] → InPlay c₀ a
  flying : ∀ i, ∀ w ∈ c.pending i, ∀ env a o, w = .call (.addOpenOrder env a o) ∨
    w = .pushOrder env a o → InPlay c₀ a
  covers : ∀ i, ∀ w ∈ c.pending i, ∀ env, w.env? = some env → Covers c₀ env

theorem Current.of_covers {c₀ c : Pool ι Section (Shared ι)} (h : BookInv c₀ c) {env : Env}
    (henv : Covers c₀ env) (marketId : String) :
    Current c₀ c marketId (c.shared.state.levels env marketId) := by
  intro env' henv'
  exact levels_eq_of_covers (fun a ha => henv a (h.inPlay a ha))
    (fun a ha => henv' a (h.inPlay a ha)) marketId

section Step
variable {c₀ c : Pool ι Section (Shared ι)} {i : ι} {w : Section} {ws new : List Section}
  {s : Shared ι} {marketId : String}

/-- A call uses one iteration order throughout. -/
theorem OrderStep.env?_of_mem_new (hs : OrderStep i c.shared w s new) {x : Section}
    (hx : x ∈ new) {env : Env} (he : x.env? = some env) : w.env? = some env := by
  cases hs with
  | announce env address order =>
    rw [List.mem_singleton.mp hx] at he
    exact he
  | push env address order =>
    rw [List.mem_singleton.mp hx] at he
    exact he
  | remove env address orderId o h =>
    rcases List.mem_cons.mp hx with rfl | hx
    · simp [Section.env?] at he
    · rw [List.mem_singleton.mp hx] at he
      exact he
  | absent => simp at hx
  | queueDelete => simp at hx
  | collect =>
    rw [List.mem_singleton.mp hx] at he
    exact he
  | fill =>
    rcases List.mem_cons.mp hx with rfl | hx
    · exact he
    · rw [List.mem_singleton.mp hx] at he
      simp [Section.env?] at he
  | share filled readers tail htail =>
    rcases List.mem_append.mp hx with hx | hx
    · obtain ⟨a, -, rfl⟩ := List.mem_map.mp hx
      simp [Section.env?] at he
    · rcases htail with rfl | rfl
      · simp at hx
      · rw [List.mem_singleton.mp hx] at he
        simp [Section.env?] at he
  | queueOrders => simp at hx
  | readBook =>
    rw [List.mem_singleton.mp hx] at he
    simp [Section.env?] at he
  | storeBook => simp at hx
  | other hw horders hbooks hmatched hsent hnew =>
    have hout := hnew x hx
    unfold Section.env? at he
    unfold Section.isOrder at hout
    split at he <;> simp_all

/-- Orders come from orders and from pushes. -/
theorem OrderStep.mem_orders (hs : OrderStep i c.shared w s new) {a : Address} {o : OpenOrder}
    (ho : o ∈ s.state.openOrders a) :
    (∃ o₀, o₀ ∈ c.shared.state.openOrders a) ∨ ∃ env, w = .pushOrder env a o := by
  cases hs with
  | push env address order =>
    rcases mem_setOrders_push ho with ho | ⟨rfl, rfl⟩
    · exact Or.inl ⟨o, ho⟩
    · exact Or.inr ⟨env, rfl⟩
  | remove => exact Or.inl ⟨o, mem_of_mem_setOrders_filter ho⟩
  | absent => exact Or.inl ⟨o, mem_of_mem_setOrders_filter ho⟩
  | fill =>
    obtain ⟨y, hy, -⟩ := exists_of_mem_fillSection ho
    exact Or.inl ⟨y, hy⟩
  | other hw horders => exact Or.inl ⟨o, horders ▸ ho⟩
  | _ => exact Or.inl ⟨o, ho⟩

variable [DecidableEq ι]

theorem BookInv.step (h : BookInv c₀ c) (hp : c.pending i = w :: ws)
    (hs : OrderStep i c.shared w s new) :
    BookInv c₀ ⟨s, Function.update c.pending i (new++ws)⟩ where
  named := h.named.step hp hs
  inPlay := by
    intro a ha
    obtain ⟨o, ho⟩ := List.exists_mem_of_ne_nil _ ha
    rcases hs.mem_orders ho with ⟨o₀, ho₀⟩ | ⟨env, rfl⟩
    · exact h.inPlay a (List.ne_nil_of_mem ho₀)
    · exact h.flying i _ (hp ▸ List.mem_cons_self) env a o (Or.inr rfl)
  flying := by
    intro j x hx env a o hadd
    rcases Pool.mem_pending_update hp hx with hold | ⟨rfl, hnew⟩
    · exact h.flying j x hold env a o hadd
    · rcases hs.mem_new hnew with ⟨env', a', o', rfl, rfl⟩ | ⟨_, _, _, _, _, _, -, rfl⟩ | h'
      · rcases hadd with hadd | hadd
        · simp at hadd
        · obtain ⟨rfl, rfl, rfl⟩ : env' = env ∧ a' = a ∧ o' = o := by simpa using hadd
          exact h.flying j _ (hp ▸ List.mem_cons_self) env' a' o' (Or.inl rfl)
      · simp at hadd
      · rcases hadd with rfl | rfl <;> simp [Section.writesOrders] at h'
  covers := by
    intro j x hx env he
    rcases Pool.mem_pending_update hp hx with hold | ⟨rfl, hnew⟩
    · exact h.covers j x hold env he
    · exact h.covers j w (hp ▸ List.mem_cons_self) env (hs.env?_of_mem_new hnew he)

/-- A step of another market, or of none. -/
theorem Kept.keep (h : Kept c₀ c marketId) (hp : c.pending i = w :: ws)
    (hread : ∀ env, w ≠ .readBook env marketId) (hstore : ∀ l, w ≠ .storeBook marketId l)
    (hmarket : ∀ a, s.state.inMarket marketId a = c.shared.state.inMarket marketId a)
    (hbook : s.state.orderbooks marketId = c.shared.state.orderbooks marketId) :
    Kept c₀ ⟨s, Function.update c.pending i (new++ws)⟩ marketId := by
  have hcurrent {l : List (ℚ × ℚ) × List (ℚ × ℚ)} (hl : Current c₀ c marketId l) :
      Current c₀ ⟨s, Function.update c.pending i (new++ws)⟩ marketId l := by
    intro env henv
    rw [hl env henv]
    exact (levels_congr hmarket env).symm
  rcases h with h | ⟨j, ⟨env, hj⟩ | ⟨l, hj, hl⟩⟩
  · left
    unfold storedLevels
    dsimp only
    rw [hbook]
    exact hcurrent h
  · exact Or.inr ⟨j, Or.inl ⟨env, Pool.mem_pending_of_ne new hp hj fun _ => (hread env).symm⟩⟩
  · exact Or.inr ⟨j, Or.inr ⟨l, Pool.mem_pending_of_ne new hp hj fun _ => (hstore l).symm,
      hcurrent hl⟩⟩

omit [DecidableEq ι] in
theorem inMarket_setOrders_push {t : Shared ι} {b : Address} {o : OpenOrder}
    (hm : o.marketId ≠ marketId) (a : Address) :
    (t.setOrders b (t.state.openOrders b++[o])).state.inMarket marketId a =
      t.state.inMarket marketId a := by
  unfold AppState.inMarket
  by_cases ha : a = b
  · subst ha
    simp [Shared.setOrders, hm]
  · simp [Shared.setOrders, ha]

omit [DecidableEq ι] in
theorem inMarket_setOrders_filter {t : Shared ι} {b : Address} {id : ℕ}
    (h : ∀ o ∈ t.state.openOrders b, o.id = id → o.marketId ≠ marketId) (a : Address) :
    (t.setOrders b ((t.state.openOrders b).filter fun o => o.id ≠ id)).state.inMarket marketId a =
      t.state.inMarket marketId a := by
  unfold AppState.inMarket
  by_cases ha : a = b
  · subst ha
    simp only [Shared.setOrders, Function.update_self, List.filter_filter]
    apply List.filter_congr
    intro o ho
    by_cases hid : o.id = id
    · simp [hid, h o ho hid]
    · simp [hid]
  · simp [Shared.setOrders, ha]

/-- One section keeps the book kept, provided that it does not store over a newer one. -/
theorem Kept.step (h : Kept c₀ c marketId) (hinv : BookInv c₀ c)
    (hord : StoresInOrder c₀ c i) (hp : c.pending i = w :: ws)
    (hs : OrderStep i c.shared w s new) :
    Kept c₀ ⟨s, Function.update c.pending i (new++ws)⟩ marketId := by
  cases hs with
  | announce => exact h.keep hp (by simp) (by simp) (fun _ => rfl) rfl
  | push env address order =>
    -- the call that has changed the market has still to read its book
    by_cases hm : order.marketId = marketId
    · subst hm
      exact Or.inr ⟨i, Or.inl ⟨env, Pool.mem_pending_new List.mem_cons_self⟩⟩
    · exact h.keep hp (by simp) (by simp) (inMarket_setOrders_push hm) rfl
  | remove env address orderId o hfind =>
    by_cases hm : o.marketId = marketId
    · subst hm
      exact Or.inr ⟨i, Or.inl ⟨env, Pool.mem_pending_new (by simp)⟩⟩
    · refine h.keep hp (by simp) (by simp) (inMarket_setOrders_filter ?_) rfl
      intro x hx he
      have hid : o.id = orderId := by simpa using List.find?_some hfind
      obtain rfl := List.inj_on_of_nodup_map (hinv.named.nodup address) hx
        (List.mem_of_find?_eq_some hfind) (he.trans hid.symm)
      exact hm
  | absent env address orderId hfind =>
    refine h.keep hp (by simp) (by simp) (inMarket_setOrders_filter ?_) rfl
    intro x hx he
    rw [List.find?_eq_none] at hfind
    exact absurd he (by simpa using hfind x hx)
  | queueDelete => exact h.keep hp (by simp) (by simp) (fun _ => rfl) rfl
  | collect => exact h.keep hp (by simp) (by simp) (fun _ => rfl) rfl
  | fill env other takerQty cs =>
    by_cases hm : other = marketId
    · subst hm
      exact Or.inr ⟨i, Or.inl ⟨env, Pool.mem_pending_new List.mem_cons_self⟩⟩
    · refine h.keep hp (by simp) (by simp) (fillSection_inMarket hm ?_ env takerQty) rfl
      intro k hk
      exact (hinv.named.candidates i env other takerQty cs (hp ▸ List.mem_cons_self) k hk).2
  | share => exact h.keep hp (by simp) (by simp) (fun _ => rfl) rfl
  | queueOrders => exact h.keep hp (by simp) (by simp) (fun _ => rfl) rfl
  | readBook env other =>
    -- what has just been read is current, and is still to be stored
    by_cases hm : other = marketId
    · subst hm
      have henv := hinv.covers i _ (hp ▸ List.mem_cons_self) env rfl
      exact Or.inr ⟨i, Or.inr ⟨_, Pool.mem_pending_new List.mem_cons_self,
        Current.of_covers hinv henv other⟩⟩
    · exact h.keep hp (by simp [hm]) (by simp) (fun _ => rfl) rfl
  | storeBook other levels =>
    by_cases hm : other = marketId
    · subst hm
      rcases hord other levels ws hp with hl | ⟨j, hj, hrefresh⟩
      · have hstored : storedLevels ⟨{ c.shared with
            state := c.shared.state.storeBook other levels }, Function.update c.pending i
              ([]++ws)⟩ other = levels := by simp [storedLevels, AppState.storeBook]
        left
        rw [hstored]
        exact fun env henv => hl env henv
      · -- the other call is where it was
        refine Or.inr ⟨j, ?_⟩
        rcases hrefresh with ⟨env, hx⟩ | ⟨l, hx, hl⟩
        · exact Or.inl ⟨env, Pool.mem_pending_of_ne [] hp hx fun he => absurd he hj⟩
        · exact Or.inr ⟨l, Pool.mem_pending_of_ne [] hp hx fun he => absurd he hj, hl⟩
    · refine h.keep hp (by simp) (by simp [hm]) (fun _ => rfl) ?_
      simp [AppState.storeBook, Ne.symm hm]
  | other hw horders hbooks hmatched hsent hnew =>
    refine h.keep hp ?_ ?_ ?_ (by rw [hbooks])
    · rintro env rfl
      simp [Section.isOrder] at hw
    · rintro l rfl
      simp [Section.isOrder] at hw
    · intro a
      unfold AppState.inMarket
      rw [horders]

end Step

section Main
variable {c₀ : Pool ι Section (Shared ι)}

theorem Opening.bookInv (h : Opening c₀)
    (henv : ∀ i, ∀ w ∈ c₀.pending i, ∀ env, w.env? = some env → Covers c₀ env) :
    BookInv c₀ c₀ where
  named := h.named
  inPlay := fun a ha => Or.inl ha
  flying := by
    intro i w hw env a o hadd
    rcases hadd with rfl | rfl
    · exact Or.inr ⟨i, env, o, hw⟩
    · have hcall := (h.isCall hw).1
      simp [Section.isCall] at hcall
  covers := henv

theorem storesInOrder_of_ne {c : Pool ι Section (Shared ι)} {i : ι} {w : Section}
    {ws : List Section} (hp : c.pending i = w :: ws)
    (hw : ∀ marketId levels, w ≠ .storeBook marketId levels) : StoresInOrder c₀ c i := by
  intro marketId levels ws' hp'
  exact absurd (List.cons.inj (hp.symm.trans hp')).1 (hw marketId levels)

variable [DecidableEq ι]

/-- Once the book of a market is kept, it stays so. -/
theorem Kept.run {c : Pool ι Section (Shared ι)} {marketId : String} (h : Kept c₀ c marketId)
    (hinv : BookInv c₀ c) (devSeed : Bool) {is : List ι} (hord : ∀ pre i, pre++[i] <+: is →
      StoresInOrder c₀ (c.run (perform devSeed) pre) i) :
    Kept c₀ (c.run (perform devSeed) is) marketId := by
  have hrun : BookInv c₀ (c.run (perform devSeed) is) ∧
      Kept c₀ (c.run (perform devSeed) is) marketId := by
    refine Pool.run_invariant (P := fun c => BookInv c₀ c ∧ Kept c₀ c marketId)
      (R := StoresInOrder c₀) ?_ ⟨hinv, h⟩ hord
    intro c i w ws s new hc hstore hp hs
    exact ⟨hc.1.step hp (perform_orderStep hs),
      hc.2.step hc.1 hstore hp (perform_orderStep hs)⟩
  exact hrun.2

theorem BookInv.run {c : Pool ι Section (Shared ι)} (h : BookInv c₀ c) (devSeed : Bool)
    (is : List ι) : BookInv c₀ (c.run (perform devSeed) is) :=
  Pool.run_invariant (R := fun _ _ => True)
    (fun _ _ _ _ _ _ hc _ hp hs => hc.step hp (perform_orderStep hs)) h (fun _ _ _ => trivial)

/-- In every interleaving in which no older rebuild stores over a newer one: when all calls have
returned, the book of every market that was current at the start or that some call has rebuilt
is what the open orders add up to. -/
theorem run_books_current (devSeed : Bool) (h : Opening c₀)
    (henv : ∀ i, ∀ w ∈ c₀.pending i, ∀ env, w.env? = some env → Covers c₀ env) (is : List ι)
    (hord : ∀ pre i, pre++[i] <+: is → StoresInOrder c₀ (c₀.run (perform devSeed) pre) i)
    (hdone : (c₀.run (perform devSeed) is).Returned) (marketId : String)
    (htouched : Current c₀ c₀ marketId (storedLevels c₀ marketId) ∨
      ∃ pre, pre <+: is ∧ ∃ i env,
        Section.readBook env marketId ∈ (c₀.run (perform devSeed) pre).pending i) :
    Current c₀ (c₀.run (perform devSeed) is) marketId
      (storedLevels (c₀.run (perform devSeed) is) marketId) := by
  have hinv := h.bookInv henv
  have hkept : Kept c₀ (c₀.run (perform devSeed) is) marketId := by
    rcases htouched with hstart | ⟨pre, ⟨post, rfl⟩, i, env, hread⟩
    · exact Kept.run (Or.inl hstart) hinv devSeed hord
    · rw [Pool.run_append]
      have hpre : Kept c₀ (c₀.run (perform devSeed) pre) marketId :=
        Or.inr ⟨i, Or.inl ⟨env, hread⟩⟩
      refine hpre.run (hinv.run devSeed pre) devSeed ?_
      intro pre' j hpre'
      rw [← Pool.run_append]
      refine hord (pre++pre') j ?_
      rw [List.append_assoc]
      exact (List.prefix_append_right_inj pre).mpr hpre'
  -- nobody is left to bring it up to date, so it is
  rcases hkept with hcurrent | ⟨j, ⟨env, hj⟩ | ⟨l, hj, -⟩⟩
  · exact hcurrent
  · simp [hdone j] at hj
  · simp [hdone j] at hj

end Main

end Books

/-- Accounts 1 and 2 are about to offer one contract each. -/
def twoOffers : Pool (Fin 2) Section (Shared (Fin 2)) where
  shared :=
    { state := AppState.new
      hasVault := fun _ => false
      sent := []
      readers := 0
      matched := [] }
  pending := fun i => match i with
    | 0 => [.call (.addOpenOrder (twoAccounts 0) 1
        ⟨0, "btc-usd", .sell, .limit, 100, 1, 1, 0, none⟩)]
    | 1 => [.call (.addOpenOrder (twoAccounts 0) 2
        ⟨1, "btc-usd", .sell, .limit, 100, 1, 1, 0, none⟩)]

theorem twoOffers_opening : Opening twoOffers := by
  have hids {i : Fin 2} {env : Env} {a : Address} {o : OpenOrder}
      (h : Section.call (.addOpenOrder env a o) ∈ twoOffers.pending i) : o.id = i.val := by
    fin_cases i <;> simp_all [twoOffers]
  refine ⟨?_, ?_, ?_, ?_, ?_⟩
  · intro i
    right
    fin_cases i
    · exact ⟨_, rfl, rfl⟩
    · exact ⟨_, rfl, rfl⟩
  · exact fun a => List.nodup_nil
  · exact fun a b o ho => absurd ho (List.not_mem_nil)
  · exact fun i env a o _ b x hx => absurd hx (List.not_mem_nil)
  · intro i j env env' a b o o' h h' he
    rw [hids h, hids h'] at he
    exact Fin.val_injective he

theorem twoOffers_covered : ∀ i, ∀ w ∈ twoOffers.pending i, ∀ env, w.env? = some env →
    Covers twoOffers env := by
  intro i w hw env henv a ha
  have hkeys : env = twoAccounts 0 := by
    fin_cases i <;> simp_all [twoOffers, Section.env?]
  subst hkeys
  rcases ha with ha | ⟨j, env', o, hj⟩
  · exact absurd rfl ha
  · fin_cases j <;> simp_all [twoOffers, twoAccounts]

/-- One after the other, both offers show. -/
theorem run_books_current_twoOffers :
    let is : List (Fin 2) := [0, 0, 0, 0, 1, 1, 1, 1]
    (twoOffers.run (perform false) is).Returned ∧
      Current twoOffers (twoOffers.run (perform false) is) "btc-usd"
        (storedLevels (twoOffers.run (perform false) is) "btc-usd") ∧
      storedLevels (twoOffers.run (perform false) is) "btc-usd" = ([],[(100,2)]) := by
  intro is
  have hdone : (twoOffers.run (perform false) is).Returned := by
    intro i
    fin_cases i <;> rfl
  refine ⟨hdone, ?_, by decide +kernel⟩
  have hcur (pre : List (Fin 2)) := Current.of_covers
    ((twoOffers_opening.bookInv twoOffers_covered).run false pre)
    (twoOffers_covered 0 _ List.mem_cons_self (twoAccounts 0) rfl) "btc-usd"
  refine run_books_current false twoOffers_opening twoOffers_covered is ?_ hdone "btc-usd"
    (Or.inl fun env _ => ?_)
  · -- each call stores what it has just read
    refine forall_request_cons (P := fun pre => StoresInOrder twoOffers
      (twoOffers.run (perform false) pre)) (storesInOrder_of_ne rfl (by simp)) ?_
    refine forall_request_cons (storesInOrder_of_ne rfl (by simp)) ?_
    refine forall_request_cons (storesInOrder_of_ne rfl (by simp)) ?_
    refine forall_request_cons ?_ ?_
    · intro marketId levels ws hp
      obtain ⟨hw, -⟩ := List.cons.inj hp
      obtain ⟨rfl, rfl⟩ := Section.storeBook.inj hw
      exact Or.inl (hcur [0, 0, 0])
    refine forall_request_cons (storesInOrder_of_ne rfl (by simp)) ?_
    refine forall_request_cons (storesInOrder_of_ne rfl (by simp)) ?_
    refine forall_request_cons (storesInOrder_of_ne rfl (by simp)) ?_
    refine forall_request_cons ?_ forall_request_nil
    intro marketId levels ws hp
    obtain ⟨hw, -⟩ := List.cons.inj hp
    obtain ⟨rfl, rfl⟩ := Section.storeBook.inj hw
    exact Or.inl (hcur [0, 0, 0, 0, 1, 1, 1])
  · have hrest (side : Side) : AppState.new.restingOrders env "btc-usd" side = [] := by
      have hnone : env.keys.flatMap AppState.new.openOrders = [] :=
        List.flatMap_eq_nil_iff.mpr fun _ _ => rfl
      unfold AppState.restingOrders
      rw [hnone, List.filter_nil]
    change _ = AppState.new.levels env "btc-usd"
    unfold AppState.levels
    rw [hrest, hrest]
    rfl

/-- The first call reads, the second one comes and goes, and the first one stores: the offer of
account 2 is on the book and does not show. -/
theorem older_levels_stored_last :
    let is : List (Fin 2) := [0, 0, 0, 1, 1, 1, 1, 0]
    Opening twoOffers ∧ (twoOffers.run (perform false) is).Returned ∧
      Section.readBook (twoAccounts 0) "btc-usd" ∈
        (twoOffers.run (perform false) [0, 0]).pending 0 ∧
      storedLevels (twoOffers.run (perform false) is) "btc-usd" = ([],[(100,1)]) ∧
      (twoOffers.run (perform false) is).shared.state.levels (twoAccounts 0) "btc-usd" =
        ([],[(100,2)]) ∧
      ¬ Current twoOffers (twoOffers.run (perform false) is) "btc-usd"
        (storedLevels (twoOffers.run (perform false) is) "btc-usd") := by
  intro is
  have hdone : (twoOffers.run (perform false) is).Returned := by
    intro i
    fin_cases i <;> rfl
  have hstored : storedLevels (twoOffers.run (perform false) is) "btc-usd" = ([],[(100,1)]) := by
    decide +kernel
  have hlevels : (twoOffers.run (perform false) is).shared.state.levels (twoAccounts 0)
      "btc-usd" = ([],[(100,2)]) := by decide +kernel
  refine ⟨twoOffers_opening, hdone, List.mem_cons_self, hstored, hlevels, ?_⟩
  intro hcur
  have he := hcur (twoAccounts 0) (twoOffers_covered 0 _ List.mem_cons_self _ rfl)
  rw [hstored, hlevels] at he
  exact absurd he (by decide)

end Perplex.Edge
