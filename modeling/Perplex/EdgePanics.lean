import Perplex.EdgeDecimal

/-! When an order that has consumed makers is carried through. Each operation of the handlers
returns exactly under a bound on the numbers it is given; the bounds are collected for one fill,
for the fill loop, and for the whole of `place_order` behind `match_taker`. -/
namespace Perplex.Edge.Decimal

variable {σ : Type} {round : ℚ → ℚ} {left : σ}

/-- Every partial sum fits, from `acc` on. -/
def SumFits (round : ℚ → ℚ) : ℚ → List ℚ → Prop
  | _, [] => True
  | acc, x :: rest => Fits (acc+x) ∧ SumFits round (round (acc+x)) rest

def runningSum (round : ℚ → ℚ) (acc : ℚ) (xs : List ℚ) : ℚ :=
  xs.foldl (fun acc x => round (acc+x)) acc

theorem addUp_eq_ok {xs : List ℚ} {acc total : ℚ} :
    xs.foldlM (fun acc x => result round left (acc+x)) acc = .ok total ↔
      SumFits round acc xs ∧ runningSum round acc xs = total := by
  induction xs generalizing acc with
  | nil => simp [SumFits, runningSum, pure, Except.pure]
  | cons x rest ih =>
    simp only [foldlM_cons_eq_ok, result_eq_ok, ih, SumFits, runningSum, List.foldl_cons]
    constructor
    · rintro ⟨-, ⟨hx, rfl⟩, hrest, ht⟩
      exact ⟨⟨hx, hrest⟩, ht⟩
    · rintro ⟨⟨hx, hrest⟩, ht⟩
      exact ⟨_, ⟨hx, rfl⟩, hrest, ht⟩

theorem sum_eq_ok {xs : List ℚ} {total : ℚ} :
    sum round left xs = .ok total ↔ SumFits round 0 xs ∧ runningSum round 0 xs = total :=
  addUp_eq_ok

/-- The terms of a turnover as they are added. -/
def amounts (round : ℚ → ℚ) (terms : List (ℚ × ℚ)) : List ℚ :=
  terms.map fun t => |round (t.1*t.2)|

/-- The products and their partial sums fit. -/
def TurnoverFits (round : ℚ → ℚ) (terms : List (ℚ × ℚ)) : Prop :=
  (∀ t ∈ terms, Fits (t.1*t.2)) ∧ SumFits round 0 (amounts round terms)

theorem turnover_eq_ok {terms : List (ℚ × ℚ)} {total : ℚ} :
    turnover round left terms = .ok total ↔
      TurnoverFits round terms ∧ runningSum round 0 (amounts round terms) = total := by
  have hfrom (acc : ℚ) : terms.foldlM (fun total t => do
        let x ← result round left (t.1*t.2)
        result round left (total+|x|)) acc = .ok total ↔
      ((∀ t ∈ terms, Fits (t.1*t.2)) ∧ SumFits round acc (amounts round terms)) ∧
        runningSum round acc (amounts round terms) = total := by
    induction terms generalizing acc with
    | nil => simp [SumFits, runningSum, amounts, pure, Except.pure]
    | cons t rest ih =>
      simp only [foldlM_cons_eq_ok, chain_ok_iff, result_eq_ok, ih, List.forall_mem_cons]
      constructor
      · rintro ⟨-, ⟨-, ⟨ht, rfl⟩, hacc, rfl⟩, ⟨hall, hrest⟩, htotal⟩
        exact ⟨⟨⟨ht, hall⟩, hacc, hrest⟩, htotal⟩
      · rintro ⟨⟨⟨ht, hall⟩, hacc, hrest⟩, htotal⟩
        exact ⟨_, ⟨_, ⟨ht, rfl⟩, hacc, rfl⟩, ⟨hall, hrest⟩, htotal⟩
  exact hfrom 0

/-- Remaining quantities at a price, in the order they are added. -/
def atPrice (price : ℚ) (orders : List OpenOrder) : List ℚ :=
  (orders.filter fun o => o.price = price).map OpenOrder.remaining

/-- The first quantity opens the level as it is. -/
def LevelFits (round : ℚ → ℚ) : Option ℚ → List ℚ → Prop
  | some v, xs => SumFits round v xs
  | none, [] => True
  | none, x :: rest => SumFits round x rest

theorem atPrice_cons_self (o : OpenOrder) (rest : List OpenOrder) :
    atPrice o.price (o :: rest) = o.remaining :: atPrice o.price rest := by
  simp [atPrice]

theorem atPrice_cons_of_ne {price : ℚ} {o : OpenOrder} (h : price ≠ o.price)
    (rest : List OpenOrder) : atPrice price (o :: rest) = atPrice price rest := by
  simp [atPrice, h.symm]

/-- One order concerns its own level. -/
theorem addLevel_eq_ok {levels levels' : SortedMap ℚ ℚ} {o : OpenOrder} :
    addLevel round left levels o = .ok levels' ↔
      (∀ v, levels.get? o.price = some v → Fits (v+o.remaining)) ∧
        levels.upsert o.price 0 (fun _ => match levels.get? o.price with
          | none => o.remaining
          | some v => round (v+o.remaining)) = levels' := by
  unfold addLevel
  cases hv : levels.get? o.price with
  | none => simp [pure, Except.pure]
  | some v =>
    simp only [chain_ok_iff, result_eq_ok, Option.some.injEq, forall_eq']
    constructor
    · rintro ⟨-, ⟨hf, rfl⟩, he⟩
      exact ⟨hf, Except.ok.inj he⟩
    · rintro ⟨hf, rfl⟩
      exact ⟨_, ⟨hf, rfl⟩, rfl⟩

/-- The levels are added up when, price by price, the partial sums fit. -/
theorem addLevels_succeeds (orders : List OpenOrder) (levels : SortedMap ℚ ℚ) :
    Succeeds (orders.foldlM (addLevel round left) levels) ↔
      ∀ price, LevelFits round (levels.get? price) (atPrice price orders) := by
  induction orders generalizing levels with
  | nil =>
    refine ⟨fun _ price => ?_, fun _ => succeeds_pure levels⟩
    cases levels.get? price <;> trivial
  | cons o rest ih =>
    rw [List.foldlM_cons, succeeds_chain_of fun _ => addLevel_eq_ok, ih]
    -- the other levels are untouched
    constructor
    · rintro ⟨hf, hrest⟩ price
      by_cases hp : price = o.price
      · subst hp
        have hself := hrest o.price
        rw [SortedMap.get?_upsert_self] at hself
        rw [atPrice_cons_self]
        cases hv : levels.get? o.price with
        | none => simpa [hv, LevelFits] using hself
        | some v => exact ⟨hf v hv, by simpa [hv, LevelFits] using hself⟩
      · have hother := hrest price
        rwa [SortedMap.get?_upsert_of_ne _ hp, ← atPrice_cons_of_ne hp] at hother
    · intro h
      have hself := h o.price
      rw [atPrice_cons_self] at hself
      refine ⟨?_, ?_⟩
      · intro v hv
        rw [hv] at hself
        exact hself.1
      · intro price
        by_cases hp : price = o.price
        · subst hp
          rw [SortedMap.get?_upsert_self]
          cases hv : levels.get? o.price with
          | none => simpa [hv, LevelFits] using hself
          | some v =>
            rw [hv] at hself
            exact hself.2
        · rw [SortedMap.get?_upsert_of_ne _ hp, ← atPrice_cons_of_ne hp]
          exact h price

/-- On both sides of a market's book every level adds up. -/
def BookFits (round : ℚ → ℚ) (s : AppState) (env : Env) (marketId : String) : Prop :=
  ∀ side price, LevelFits round none (atPrice price (s.restingOrders env marketId side))

theorem rebuildOrderbook_succeeds (s : AppState) (env : Env) (marketId : String) :
    Succeeds (rebuildOrderbook round s env marketId) ↔ BookFits round s env marketId := by
  have hside (side : Side) : Succeeds ((s.restingOrders env marketId side).foldlM
      (addLevel round s) SortedMap.empty) ↔
      ∀ price, LevelFits round none (atPrice price (s.restingOrders env marketId side)) :=
    addLevels_succeeds _ _
  unfold rebuildOrderbook BookFits
  constructor
  · intro h
    obtain ⟨hbids, hnext⟩ := succeeds_chain.mp h
    obtain ⟨bids, hb⟩ := hbids
    have hasks := (succeeds_chain.mp (hnext bids hb)).1
    rintro (_ | _)
    · exact (hside .buy).mp ⟨bids, hb⟩
    · exact (hside .sell).mp hasks
  · intro h
    refine succeeds_chain.mpr ⟨(hside .buy).mpr (h .buy), fun bids _ => ?_⟩
    exact succeeds_chain.mpr ⟨(hside .sell).mpr (h .sell), fun asks _ => succeeds_pure _⟩

/-- Only the snapshot changes. -/
theorem rebuildOrderbook_frame {s s' : AppState} {env : Env} {marketId : String}
    (h : rebuildOrderbook round s env marketId = .ok s') :
    s' = { s with orderbooks := s'.orderbooks } := by
  unfold rebuildOrderbook at h
  simp only [chain_ok_iff] at h
  obtain ⟨bids, -, asks, -, he⟩ := h
  rw [← Except.ok.inj he]

/-- The turnover fits in units of USDC. -/
def UsdcFits (round : ℚ → ℚ) (terms : List (ℚ × ℚ)) : Prop :=
  TurnoverFits round terms ∧ Fits (runningSum round 0 (amounts round terms)*10^6)

/-- Volume, open interest and the drift of the mid price from the index. -/
structure StatsFit (round : ℚ → ℚ) (s : AppState) (env : Env) (marketId : String) : Prop where
  volume : UsdcFits round ((s.publicTrades marketId).map fun t => (t.qty,t.price))
  openInterest : indexPrice round s marketId ≠ 0 → UsdcFits round
    (((env.keys.flatMap s.positions).filter fun p => p.marketId = marketId).map
      fun p => (p.size,indexPrice round s marketId))
  drift : ∀ bid ∈ (s.orderbooks marketId).bids.head?,
    ∀ ask ∈ (s.orderbooks marketId).asks.head?,
      (s.markets marketId).isSome → indexPrice round s marketId ≠ 0 →
        Fits (bid.1+ask.1) ∧
        Fits (quotient round (round (bid.1+ask.1)) 2-indexPrice round s marketId) ∧
        Fits (quotient round (round (quotient round (round (bid.1+ask.1)) 2-
          indexPrice round s marketId)) (indexPrice round s marketId)*10000)

theorem usdc_succeeds {terms : List (ℚ × ℚ)} : Succeeds (do
      let total ← turnover round left terms
      scaleUsdc6 round left total) ↔ UsdcFits round terms := by
  rw [succeeds_chain_of fun _ => turnover_eq_ok, succeeds_scale]
  rfl

theorem openInterestUsdc_succeeds (s : AppState) (env : Env) (marketId : String) :
    Succeeds (openInterestUsdc round s env marketId) ↔
      (indexPrice round s marketId ≠ 0 → UsdcFits round
        (((env.keys.flatMap s.positions).filter fun p => p.marketId = marketId).map
          fun p => (p.size,indexPrice round s marketId))) := by
  unfold openInterestUsdc
  by_cases hm : indexPrice round s marketId = 0
  · simp [hm]
  · simp only [hm, if_false, ne_eq, not_false_eq_true, forall_const]
    exact usdc_succeeds

theorem fundingDrift_succeeds (s : AppState) (marketId : String) :
    Succeeds (fundingDrift round s marketId) ↔
      ∀ bid ∈ (s.orderbooks marketId).bids.head?, ∀ ask ∈ (s.orderbooks marketId).asks.head?,
        (s.markets marketId).isSome → indexPrice round s marketId ≠ 0 →
          Fits (bid.1+ask.1) ∧
          Fits (quotient round (round (bid.1+ask.1)) 2-indexPrice round s marketId) ∧
          Fits (quotient round (round (quotient round (round (bid.1+ask.1)) 2-
            indexPrice round s marketId)) (indexPrice round s marketId)*10000) := by
  unfold fundingDrift
  by_cases hskip : (s.markets marketId).isNone ∨ indexPrice round s marketId = 0
  · simp only [hskip, if_true, succeeds_pure, true_iff]
    intro bid _ ask _ hm hi
    rcases hskip with hn | hz
    · simp [Option.isNone_iff_eq_none.mp hn] at hm
    · exact absurd hz hi
  · obtain ⟨hm, hi⟩ := not_or.mp hskip
    have hsome : (s.markets marketId).isSome := by simpa [Option.isSome_iff_ne_none] using hm
    simp only [hskip, if_false]
    cases (s.orderbooks marketId).bids.head? with
    | none => simp
    | some bid =>
      cases (s.orderbooks marketId).asks.head? with
      | none => simp
      | some ask => simp [hsome, hi]

theorem market_succeeds (s : AppState) (env : Env) (marketId : String) :
    Succeeds (market round s env marketId) ↔
      ∀ m ∈ s.markets marketId, StatsFit round s env m.id := by
  unfold market
  cases hm : s.markets marketId with
  | none => simp
  | some m =>
    simp only [Option.mem_some_iff, forall_eq']
    constructor
    · intro h
      obtain ⟨⟨v, hv⟩, h⟩ := succeeds_chain.mp h
      obtain ⟨⟨i, hi⟩, h⟩ := succeeds_chain.mp (h v hv)
      have hd := (succeeds_chain.mp (h i hi)).1
      exact ⟨usdc_succeeds.mp ⟨v, hv⟩, (openInterestUsdc_succeeds s env m.id).mp ⟨i, hi⟩,
        (fundingDrift_succeeds s m.id).mp hd⟩
    · intro h
      refine succeeds_chain.mpr ⟨usdc_succeeds.mpr h.volume, fun _ _ => ?_⟩
      refine succeeds_chain.mpr ⟨(openInterestUsdc_succeeds s env m.id).mpr h.openInterest,
        fun _ _ => ?_⟩
      exact succeeds_chain.mpr ⟨(fundingDrift_succeeds s m.id).mpr h.drift,
        fun _ _ => succeeds_pure _⟩

/-- The change and the balance after it fit. -/
def VaultFits (round : ℚ → ℚ) (balance deltaDollars : ℚ) : Prop :=
  deltaDollars ≠ 0 → Fits (deltaDollars*10^6) ∧
    Fits (balance+trunc (round (deltaDollars*10^6)))

theorem adjustVault_succeeds (s : AppState) (address : Address) (deltaDollars : ℚ) :
    Succeeds (adjustVault round s address deltaDollars) ↔
      VaultFits round (s.vaultBalances address) deltaDollars := by
  unfold adjustVault VaultFits
  by_cases hd : deltaDollars = 0 <;> simp [hd]

/-- One balance changes and nothing else. -/
theorem adjustVault_frame {s s' : AppState} {address : Address} {deltaDollars : ℚ}
    (h : adjustVault round s address deltaDollars = .ok s') :
    ∃ balance,
      s' = { s with vaultBalances := Function.update s.vaultBalances address balance } := by
  unfold adjustVault at h
  split_ifs at h with hd
  · refine ⟨s.vaultBalances address, ?_⟩
    rw [Function.update_eq_self]
    exact (Except.ok.inj h).symm
  · simp only [chain_ok_iff] at h
    obtain ⟨-, -, next, -, he⟩ := h
    exact ⟨_, (Except.ok.inj he).symm⟩

/-- What the fill makes of a position fits: its size, its entry price in units of `10^-18` and
its notional in units of USDC. -/
def PositionFits (round : ℚ → ℚ) (marketId : String) (orderSide : Side) (qty price : ℚ) :
    List PositionInfo → Prop
  | [] => Fits (price*10^18) ∧ Fits (qty*price) ∧ Fits (round (qty*price)*10^6)
  | p :: rest =>
    if p.marketId ≠ marketId then PositionFits round marketId orderSide qty price rest
    else
      let oldEntry := unscaleX18 round p.entryPriceX18
      if p.side = orderSide.position then
        let newSize := round (p.size+qty)
        let cost := round (round (p.size*oldEntry)+round (qty*price))
        let newEntry := if newSize ≠ 0 then quotient round cost newSize else price
        Fits (p.size+qty) ∧
        (newSize ≠ 0 → Fits (p.size*oldEntry) ∧ Fits (qty*price) ∧
          Fits (round (p.size*oldEntry)+round (qty*price))) ∧
        Fits (newEntry*10^18) ∧ Fits (newSize*newEntry) ∧ Fits (round (newSize*newEntry)*10^6)
      else if qty < p.size then
        let newSize := round (p.size-qty)
        Fits (p.size-qty) ∧ Fits (newSize*oldEntry) ∧ Fits (round (newSize*oldEntry)*10^6)
      -- closing forms no number
      else if qty = p.size then True
      else
        let overflow := round (qty-p.size)
        Fits (qty-p.size) ∧ Fits (price*10^18) ∧ Fits (overflow*price) ∧
          Fits (round (overflow*price)*10^6)

theorem succeeds_keepFirst {α : Type} (p : α) (x : Except (List α) (List α)) :
    Succeeds (keepFirst p x) ↔ Succeeds x := by
  cases x <;> simp [keepFirst]

theorem weightedEntry_eq_ok {oldSize oldEntry qty price newSize entry : ℚ} :
    weightedEntry round left oldSize oldEntry qty price newSize = .ok entry ↔
      (newSize ≠ 0 → Fits (oldSize*oldEntry) ∧ Fits (qty*price) ∧
        Fits (round (oldSize*oldEntry)+round (qty*price))) ∧
      (if newSize ≠ 0 then
        quotient round (round (round (oldSize*oldEntry)+round (qty*price))) newSize
      else price) = entry := by
  unfold weightedEntry
  by_cases hz : newSize ≠ 0
  · simp only [if_pos hz, chain_ok_iff, result_eq_ok]
    constructor
    · rintro ⟨-, ⟨h1, rfl⟩, -, ⟨h2, rfl⟩, -, ⟨h3, rfl⟩, he⟩
      exact ⟨fun _ => ⟨h1, h2, h3⟩, Except.ok.inj he⟩
    · rintro ⟨h, rfl⟩
      obtain ⟨h1, h2, h3⟩ := h hz
      exact ⟨_, ⟨h1, rfl⟩, _, ⟨h2, rfl⟩, _, ⟨h3, rfl⟩, rfl⟩
  · rw [if_neg hz, if_neg hz]
    exact ⟨fun h => ⟨fun hn => absurd hn hz, Except.ok.inj h⟩, fun h => congrArg Except.ok h.2⟩

theorem applyPositionFill_succeeds (now : ℕ) (marketId : String) (orderSide : Side)
    (qty price : ℚ) (l : List PositionInfo) :
    Succeeds (applyPositionFill round now marketId orderSide qty price l) ↔
      PositionFits round marketId orderSide qty price l := by
  induction l with
  | nil => simp [applyPositionFill, PositionFits]
  | cons p rest ih =>
    unfold applyPositionFill PositionFits
    by_cases hm : p.marketId ≠ marketId
    · simp only [if_pos hm]
      rw [succeeds_keepFirst, ih]
    simp only [if_neg hm]
    by_cases hside : p.side = orderSide.position
    · simp only [if_pos hside, succeeds_result_chain]
      rw [succeeds_chain_of fun _ => weightedEntry_eq_ok]
      simp
    simp only [if_neg hside]
    by_cases hlt : qty < p.size
    · simp [hlt]
    by_cases heq : qty = p.size
    · simp [heq]
    simp [hlt, heq]

theorem upsertPosition_succeeds (s : AppState) (now : ℕ) (address : Address)
    (marketId : String) (orderSide : Side) (qty price : ℚ) :
    Succeeds (upsertPosition round s now address marketId orderSide qty price) ↔
      PositionFits round marketId orderSide qty price (s.positions address) := by
  rw [← applyPositionFill_succeeds now]
  unfold upsertPosition
  cases applyPositionFill round now marketId orderSide qty price (s.positions address) <;> simp

/-- One account's positions change and nothing else. -/
theorem upsertPosition_frame {s s' : AppState} {now : ℕ} {address : Address}
    {marketId : String} {orderSide : Side} {qty price : ℚ}
    (h : upsertPosition round s now address marketId orderSide qty price = .ok s') :
    ∃ l, s' = { s with positions := Function.update s.positions address l } := by
  unfold upsertPosition at h
  cases hl : applyPositionFill round now marketId orderSide qty price (s.positions address) with
  | error l => simp [hl] at h
  | ok l =>
    rw [hl] at h
    exact ⟨l, (Except.ok.inj h).symm⟩

/-- What a fill is charged at a rate. -/
def charge (round : ℚ → ℚ) (bps : ℚ) (m : MatchedFill) : ℚ :=
  quotient round (round (round (m.qty*m.price)*bps)) 10000

/-- The bounds of one fill, in the state before it. -/
structure FillFits (round : ℚ → ℚ) (user : Address) (t : Taker) (takerFeeBps : ℕ)
    (makerRebateBps : ℤ) (s : AppState) (m : MatchedFill) : Prop where
  notional : Fits (m.qty*m.price)
  takerFee : Fits (round (m.qty*m.price)*takerFeeBps)
  makerRebate : Fits (round (m.qty*m.price)*makerRebateBps)
  takerFeeUsdc : Fits (charge round takerFeeBps m*10^6)
  makerFeeUsdc : Fits (-charge round makerRebateBps m*10^6)
  takerVault : VaultFits round (s.vaultBalances user) (-charge round takerFeeBps m)
  makerVault : VaultFits round (s.vaultBalances m.makerAddress) (charge round makerRebateBps m)
  takerPosition : PositionFits round t.marketId t.side m.qty m.price (s.positions user)
  makerPosition : PositionFits round t.marketId t.side.opposite m.qty m.price
    (s.positions m.makerAddress)

section Settle
variable {now orderId : ℕ} {user : Address} {t : Taker} {takerFeeBps : ℕ} {makerRebateBps : ℤ}

theorem settleMatch_succeeds (s : AppState) {m : MatchedFill} (hne : m.makerAddress ≠ user) :
    Succeeds (settleMatch round now orderId user t takerFeeBps makerRebateBps s m) ↔
      FillFits round user t takerFeeBps makerRebateBps s m := by
  unfold settleMatch
  simp only [succeeds_result_chain, succeeds_scale_chain]
  constructor
  · rintro ⟨h1, h2, h3, h4, h5, h⟩
    obtain ⟨⟨s₁, hs₁⟩, h⟩ := succeeds_chain.mp h
    obtain ⟨⟨s₂, hs₂⟩, h⟩ := succeeds_chain.mp (h s₁ hs₁)
    obtain ⟨⟨s₃, hs₃⟩, h⟩ := succeeds_chain.mp (h s₂ hs₂)
    have h8 := (upsertPosition_succeeds _ _ _ _ _ _ _).mp (h s₃ hs₃)
    have h7 := (upsertPosition_succeeds _ _ _ _ _ _ _).mp ⟨s₃, hs₃⟩
    have h6 := (adjustVault_succeeds _ _ _).mp ⟨s₁, hs₁⟩
    have h6' := (adjustVault_succeeds _ _ _).mp ⟨s₂, hs₂⟩
    -- what the maker has is not touched by the taker's updates
    obtain ⟨b₁, rfl⟩ := adjustVault_frame hs₁
    obtain ⟨b₂, rfl⟩ := adjustVault_frame hs₂
    obtain ⟨l, rfl⟩ := upsertPosition_frame hs₃
    simp only [AppState.recordFill, AppState.recordTrade, Function.update_of_ne hne]
      at h6 h6' h7 h8
    exact ⟨h1, h2, h3, h4, h5, h6, h6', h7, h8⟩
  · intro h
    refine ⟨h.notional, h.takerFee, h.makerRebate, h.takerFeeUsdc, h.makerFeeUsdc, ?_⟩
    refine succeeds_chain.mpr ⟨(adjustVault_succeeds _ _ _).mpr h.takerVault, ?_⟩
    intro s₁ hs₁
    obtain ⟨b₁, rfl⟩ := adjustVault_frame hs₁
    refine succeeds_chain.mpr ⟨(adjustVault_succeeds _ _ _).mpr ?_, ?_⟩
    · simp only [AppState.recordFill, Function.update_of_ne hne]
      exact h.makerVault
    intro s₂ hs₂
    obtain ⟨b₂, rfl⟩ := adjustVault_frame hs₂
    refine succeeds_chain.mpr ⟨(upsertPosition_succeeds _ _ _ _ _ _ _).mpr h.takerPosition, ?_⟩
    intro s₃ hs₃
    obtain ⟨l, rfl⟩ := upsertPosition_frame hs₃
    refine (upsertPosition_succeeds _ _ _ _ _ _ _).mpr ?_
    simp only [AppState.recordFill, AppState.recordTrade, Function.update_of_ne hne]
    exact h.makerPosition

/-- A settled fill has its two records and its trade, and moved balances and positions only. -/
theorem settleMatch_effect {s s' : AppState} {m : MatchedFill}
    (h : settleMatch round now orderId user t takerFeeBps makerRebateBps s m = .ok s') :
    ∃ (takerFee makerFee : ℤ) (vaultBalances : Address → ℚ)
      (positions : Address → List PositionInfo),
      s' = { ((s.recordFill user ⟨s.nextUlid, some orderId, t.marketId, t.side, m.price, m.qty,
          takerFee, .taker, m.tsNs, ""⟩).recordFill m.makerAddress ⟨s.nextUlid+1,
          some m.makerOrderId, t.marketId, t.side.opposite, m.price, m.qty, makerFee, .maker,
          m.tsNs, ""⟩).recordTrade t.marketId ⟨s.nextUlid+2, t.marketId, m.price, m.qty, t.side,
          m.tsNs⟩ with
        vaultBalances
        positions
        nextUlid := s.nextUlid+3 } := by
  unfold settleMatch at h
  simp only [chain_ok_iff] at h
  obtain ⟨_, _, _, _, _, _, fee, _, makerFee, _, s₁, hs₁, s₂, hs₂, s₃, hs₃, hs'⟩ := h
  obtain ⟨b₁, rfl⟩ := adjustVault_frame hs₁
  obtain ⟨b₂, rfl⟩ := adjustVault_frame hs₂
  obtain ⟨l, rfl⟩ := upsertPosition_frame hs₃
  obtain ⟨l', rfl⟩ := upsertPosition_frame hs'
  exact ⟨fee, makerFee, _, _, rfl⟩

end Settle

/-- The order of a candidate, when there is something left on both sides. -/
def liveOrder (orders : Address → List OpenOrder) (remaining : ℚ) (c : Candidate) :
    Option OpenOrder :=
  if remaining = 0 then none
  else ((orders c.address).find? fun o => o.id = c.id).filter fun o => o.remaining ≠ 0

/-- The orders after `o` is drawn on. -/
def drawnOrders (round : ℚ → ℚ) (orders : Address → List OpenOrder) (remaining : ℚ)
    (c : Candidate) (o : OpenOrder) : Address → List OpenOrder :=
  Function.update orders c.address
    (setRemaining c.id (round (o.remaining-min remaining o.remaining)) (orders c.address))

/-- Every difference of the loop fits. -/
def DrawsFit (round : ℚ → ℚ) : (Address → List OpenOrder) → ℚ → List Candidate → Prop
  | _, _, [] => True
  | orders, remaining, c :: rest =>
    match liveOrder orders remaining c with
    | none => DrawsFit round orders remaining rest
    | some o => Fits (o.remaining-min remaining o.remaining) ∧
        Fits (remaining-min remaining o.remaining) ∧
        DrawsFit round (drawnOrders round orders remaining c o)
          (round (remaining-min remaining o.remaining)) rest

/-- Every difference fits that is taken after the first maker is written. -/
def LaterDrawsFit (round : ℚ → ℚ) : (Address → List OpenOrder) → ℚ → List Candidate → Prop
  | _, _, [] => True
  | orders, remaining, c :: rest =>
    match liveOrder orders remaining c with
    | none => LaterDrawsFit round orders remaining rest
    | some o => Fits (o.remaining-min remaining o.remaining) →
        Fits (remaining-min remaining o.remaining) ∧
        DrawsFit round (drawnOrders round orders remaining c o)
          (round (remaining-min remaining o.remaining)) rest

section Loop
variable {now : ℕ} {orders : Address → List OpenOrder} {remaining : ℚ} {c : Candidate}
  {rest : List Candidate}

theorem matchLoop_skip (h : liveOrder orders remaining c = none) :
    matchLoop round now orders remaining (c :: rest) =
      matchLoop round now orders remaining rest := by
  unfold liveOrder at h
  rw [matchLoop]
  by_cases hz : remaining = 0
  · -- nothing is left to fill, so the rest does not count either
    cases rest <;> simp [matchLoop, hz]
  rw [if_neg hz] at h ⊢
  cases ho : (orders c.address).find? (fun o => o.id = c.id) with
  | none => rfl
  | some o =>
    rw [ho] at h
    have hr : o.remaining = 0 := by simpa using h
    simp [hr]

theorem matchLoop_draw {o : OpenOrder} (h : liveOrder orders remaining c = some o) :
    matchLoop round now orders remaining (c :: rest) =
      drawOn round orders remaining c o >>= fun next =>
        pushFill ⟨c.address, c.id, c.price, min remaining o.remaining, now⟩
          (matchLoop round now next.2 next.1 rest) := by
  unfold liveOrder at h
  by_cases hz : remaining = 0
  · simp [hz] at h
  rw [if_neg hz] at h
  obtain ⟨ho, hr⟩ := Option.filter_eq_some_iff.mp h
  have hr : o.remaining ≠ 0 := by simpa using hr
  rw [matchLoop, if_neg hz, ho]
  simp only [if_neg hr]

theorem drawOn_eq_ok {o : OpenOrder} {r : ℚ × (Address → List OpenOrder)} :
    drawOn round orders remaining c o = .ok r ↔
      (Fits (o.remaining-min remaining o.remaining) ∧
        Fits (remaining-min remaining o.remaining)) ∧
      (round (remaining-min remaining o.remaining),drawnOrders round orders remaining c o) = r := by
  simp only [drawOn, chain_ok_iff, result_eq_ok]
  constructor
  · rintro ⟨-, ⟨h1, rfl⟩, -, ⟨h2, rfl⟩, he⟩
    exact ⟨⟨h1, h2⟩, Except.ok.inj he⟩
  · rintro ⟨⟨h1, h2⟩, rfl⟩
    exact ⟨_, ⟨h1, rfl⟩, _, ⟨h2, rfl⟩, rfl⟩

theorem succeeds_pushFill {m : MatchedFill}
    {x : Except Progress (List MatchedFill × (Address → List OpenOrder))} :
    Succeeds (pushFill m x) ↔ Succeeds x := by
  cases x <;> simp [pushFill]

theorem matchLoop_succeeds (now : ℕ) (cs : List Candidate)
    (orders : Address → List OpenOrder) (remaining : ℚ) :
    Succeeds (matchLoop round now orders remaining cs) ↔ DrawsFit round orders remaining cs := by
  induction cs generalizing orders remaining with
  | nil => exact iff_of_true (succeeds_ok _) trivial
  | cons c rest ih =>
    cases ho : liveOrder orders remaining c with
    | none =>
      rw [matchLoop_skip ho, ih]
      simp only [DrawsFit, ho]
    | some o =>
      rw [matchLoop_draw ho, succeeds_chain_of fun _ => drawOn_eq_ok]
      simp only [DrawsFit, ho, succeeds_pushFill, ih, and_assoc]

theorem drawOn_unwritten {o : OpenOrder} (h : ¬ Fits (o.remaining-min remaining o.remaining)) :
    drawOn round orders remaining c o = .error (0,orders) := by
  unfold drawOn
  simp only [result_of_not_fits h]
  rfl

theorem drawOn_written {o : OpenOrder} (h1 : Fits (o.remaining-min remaining o.remaining))
    (h2 : ¬ Fits (remaining-min remaining o.remaining)) :
    drawOn round orders remaining c o = .error (1,drawnOrders round orders remaining c o) := by
  unfold drawOn
  simp only [result_of_fits h1, result_of_not_fits h2]
  rfl

/-- The loop does not panic once it has written a maker. -/
theorem matchLoop_early_iff (now : ℕ) (cs : List Candidate)
    (orders : Address → List OpenOrder) (remaining : ℚ) :
    (∀ n left, matchLoop round now orders remaining cs = .error (n,left) → n = 0) ↔
      LaterDrawsFit round orders remaining cs := by
  induction cs generalizing orders remaining with
  | nil => simp [matchLoop, LaterDrawsFit]
  | cons c rest ih =>
    cases ho : liveOrder orders remaining c with
    | none =>
      rw [matchLoop_skip ho, ih]
      simp only [LaterDrawsFit, ho]
    | some o =>
      simp only [LaterDrawsFit, ho]
      by_cases h1 : Fits (o.remaining-min remaining o.remaining)
      · by_cases h2 : Fits (remaining-min remaining o.remaining)
        · -- a later panic leaves this maker written
          rw [matchLoop_draw ho, drawOn_eq_ok.mpr ⟨⟨h1, h2⟩, rfl⟩, ← matchLoop_succeeds now]
          simp only [h1, h2, forall_const, true_and, bind, Except.bind]
          cases matchLoop round now (drawnOrders round orders remaining c o)
            (round (remaining-min remaining o.remaining)) rest <;> simp [pushFill]
        · rw [matchLoop_draw ho, drawOn_written h1 h2]
          simp [h1, h2, bind, Except.bind]
      · rw [matchLoop_draw ho, drawOn_unwritten h1]
        simp [h1, bind, Except.bind]

/-- Fills name makers among the candidates. -/
theorem matchLoop_others {cs : List Candidate} {user : Address} (hcs : ∀ c ∈ cs, c.address ≠ user)
    {orders orders' : Address → List OpenOrder} {remaining : ℚ} {filled : List MatchedFill}
    (h : matchLoop round now orders remaining cs = .ok (filled,orders')) :
    ∀ m ∈ filled, m.makerAddress ≠ user := by
  induction cs generalizing orders remaining filled with
  | nil =>
    obtain ⟨rfl, -⟩ := Prod.mk.inj (Except.ok.inj h)
    simp
  | cons c rest ih =>
    obtain ⟨hc, hrest⟩ := List.forall_mem_cons.mp hcs
    cases ho : liveOrder orders remaining c with
    | none => exact ih hrest (matchLoop_skip ho ▸ h)
    | some o =>
      rw [matchLoop_draw ho, chain_ok_iff] at h
      obtain ⟨next, -, h⟩ := h
      cases hloop : matchLoop round now next.2 next.1 rest with
      | error e => simp [hloop, pushFill] at h
      | ok r =>
        rw [hloop] at h
        obtain ⟨rfl, rfl⟩ := Prod.mk.inj (Except.ok.inj h)
        exact List.forall_mem_cons.mpr ⟨hc, ih hrest hloop⟩

end Loop

/-- What is left of the order after its fills. -/
def leftover (round : ℚ → ℚ) (t : Taker) (filled : List MatchedFill) : ℚ :=
  round (t.qty-runningSum round 0 (filled.map MatchedFill.qty))

/-- The order that rests. -/
def restingOrder (env : Env) (orderId : ℕ) (t : Taker) (remaining : ℚ) : OpenOrder :=
  ⟨orderId, t.marketId, t.side, t.orderType, t.price.getD 0, t.qty, remaining, env.now,
    t.clientOrderId⟩

/-- The state with one more order at the end of an account's list. -/
def appendOrder (s : AppState) (user : Address) (o : OpenOrder) : AppState :=
  { s with openOrders := Function.update s.openOrders user (s.openOrders user++[o]) }

/-- The fill loop of the order, at the fees of its market. -/
def settling (round : ℚ → ℚ) (env : Env) (orderId : ℕ) (user : Address) (t : Taker)
    (s : AppState) : AppState → MatchedFill → Except AppState AppState :=
  settleMatch round env.now orderId user t (s.feeBps t.marketId).1 (s.feeBps t.marketId).2

/-- The bounds behind `match_taker`, in the state where the makers are decremented. -/
structure FinishFits (round : ℚ → ℚ) (env : Env) (orderId : ℕ) (user : Address) (t : Taker)
    (filled : List MatchedFill) (s : AppState) : Prop where
  book : BookFits round s env t.marketId
  filledQty : SumFits round 0 (filled.map MatchedFill.qty)
  remaining : Fits (t.qty-runningSum round 0 (filled.map MatchedFill.qty))
  stats : ∀ s', rebuildOrderbook round s env t.marketId = .ok s' →
    ∀ m ∈ s.markets t.marketId, StatsFit round s' env m.id
  fills : ∀ s', rebuildOrderbook round s env t.marketId = .ok s' →
    BeforeEach (settling round env orderId user t s)
      (FillFits round user t (s.feeBps t.marketId).1 (s.feeBps t.marketId).2) s' filled
  rests : leftover round t filled ≠ 0 ∧ t.orderType = .limit →
    BookFits round (appendOrder s user (restingOrder env orderId t (leftover round t filled))) env
      t.marketId

section Finish
variable {env : Env} {orderId : ℕ} {user : Address} {t : Taker} {filled : List MatchedFill}
  {s s' : AppState}

theorem bookFits_congr {s₁ s₂ : AppState} (h : s₁.openOrders = s₂.openOrders) (env : Env)
    (marketId : String) : BookFits round s₁ env marketId ↔ BookFits round s₂ env marketId := by
  unfold BookFits AppState.restingOrders
  rw [h]

/-- Settling does not touch the orders. -/
theorem settleAll_openOrders {takerFeeBps : ℕ} {makerRebateBps : ℤ} {now : ℕ}
    (h : filled.foldlM (settleMatch round now orderId user t takerFeeBps makerRebateBps) s =
      .ok s') : s'.openOrders = s.openOrders := by
  refine foldlM_invariant (P := fun x => x.openOrders = s.openOrders) ?_ rfl h
  intro b m _ b' hb hstep
  obtain ⟨_, _, _, _, rfl⟩ := settleMatch_effect hstep
  exact hb

theorem restRemainder_succeeds (s : AppState) (remaining : ℚ) :
    Succeeds (restRemainder round env orderId user t remaining s) ↔
      (remaining ≠ 0 ∧ t.orderType = .limit →
        BookFits round (appendOrder s user (restingOrder env orderId t remaining)) env
          t.marketId) := by
  unfold restRemainder
  by_cases hl : remaining ≠ 0 ∧ t.orderType = .limit
  · rw [if_pos hl, ← rebuildOrderbook_succeeds]
    exact ⟨fun h _ => h, fun h => h hl⟩
  · rw [if_neg hl]
    exact iff_of_true (succeeds_pure s) fun h => absurd h hl

theorem finish_succeeds (hother : ∀ m ∈ filled, m.makerAddress ≠ user) :
    Succeeds (finish round env orderId user t filled s) ↔
      FinishFits round env orderId user t filled s := by
  have hloop (s₁ : AppState) :
      Succeeds (filled.foldlM (settling round env orderId user t s) s₁) ↔
        BeforeEach (settling round env orderId user t s)
          (FillFits round user t (s.feeBps t.marketId).1 (s.feeBps t.marketId).2) s₁ filled :=
    succeeds_foldlM (fun b m hm => settleMatch_succeeds b (hother m hm)) s₁
  -- the snapshot is refreshed first, which changes neither the market nor the orders
  have hmarket {s₁ : AppState} (hs₁ : rebuildOrderbook round s env t.marketId = .ok s₁) :
      s₁.markets = s.markets ∧ s₁.openOrders = s.openOrders ∧
        feeSchedule (s₁.market t.marketId) = s.feeBps t.marketId := by
    rw [rebuildOrderbook_frame hs₁]
    exact ⟨rfl, rfl, rfl⟩
  unfold finish
  constructor
  · intro h
    obtain ⟨⟨s₁, hs₁⟩, h⟩ := succeeds_chain.mp h
    obtain ⟨hm₁, ho₁, hf₁⟩ := hmarket hs₁
    have h := h s₁ hs₁
    rw [succeeds_chain_of fun _ => sum_eq_ok, succeeds_result_chain] at h
    obtain ⟨hsum, hrem, h⟩ := h
    obtain ⟨⟨m, hm⟩, h⟩ := succeeds_chain.mp h
    have hstats := (market_succeeds s₁ env t.marketId).mp ⟨m, hm⟩
    have h := h m hm
    rw [market_eq hm, hf₁] at h
    obtain ⟨⟨s₂, hs₂⟩, h⟩ := succeeds_chain.mp h
    have hfills := (hloop s₁).mp ⟨s₂, hs₂⟩
    have hrests := (succeeds_chain.mp (h s₂ hs₂)).1
    have heq {s' : AppState} (hs' : rebuildOrderbook round s env t.marketId = .ok s') :
        s' = s₁ := Except.ok.inj (hs'.symm.trans hs₁)
    refine ⟨(rebuildOrderbook_succeeds s env t.marketId).mp ⟨s₁, hs₁⟩, hsum, hrem, ?_, ?_, ?_⟩
    · intro s' hs'
      rw [heq hs', ← hm₁]
      exact hstats
    · intro s' hs'
      rw [heq hs']
      exact hfills
    · intro hl
      have hbook := (restRemainder_succeeds s₂ (leftover round t filled)).mp hrests hl
      refine (bookFits_congr ?_ env t.marketId).mp hbook
      simp only [appendOrder, settleAll_openOrders hs₂, ho₁]
  · intro h
    obtain ⟨s₁, hs₁⟩ := (rebuildOrderbook_succeeds s env t.marketId).mpr h.book
    obtain ⟨hm₁, ho₁, hf₁⟩ := hmarket hs₁
    refine succeeds_chain.mpr ⟨⟨s₁, hs₁⟩, ?_⟩
    intro s' hs'
    obtain rfl : s' = s₁ := Except.ok.inj (hs'.symm.trans hs₁)
    rw [succeeds_chain_of fun _ => sum_eq_ok, succeeds_result_chain]
    refine ⟨h.filledQty, h.remaining, succeeds_chain.mpr ⟨?_, ?_⟩⟩
    · refine (market_succeeds s' env t.marketId).mpr ?_
      rw [hm₁]
      exact h.stats s' hs'
    intro m hm
    rw [market_eq hm, hf₁]
    refine succeeds_chain.mpr ⟨(hloop s').mpr (h.fills s' hs'), ?_⟩
    intro s₂ hs₂
    refine succeeds_chain.mpr ⟨?_, fun _ _ => succeeds_pure _⟩
    refine (restRemainder_succeeds s₂ (leftover round t filled)).mpr ?_
    intro hl
    refine (bookFits_congr ?_ env t.marketId).mp (h.rests hl)
    simp only [appendOrder, settleAll_openOrders hs₂, ho₁]

/-- The stages of an order that was carried through. -/
theorem finish_stages {r : PlaceOrderResponse × AppState}
    (h : finish round env orderId user t filled s = .ok r) :
    ∃ s₁ s₂, rebuildOrderbook round s env t.marketId = .ok s₁ ∧
      filled.foldlM (settling round env orderId user t s) s₁ = .ok s₂ ∧
      restRemainder round env orderId user t (leftover round t filled) s₂ = .ok r.2 := by
  unfold finish at h
  simp only [chain_ok_iff, sum_eq_ok, result_eq_ok] at h
  obtain ⟨s₁, hs₁, -, ⟨-, rfl⟩, -, ⟨-, rfl⟩, m, hm, s₂, hs₂, s₃, hs₃, he⟩ := h
  obtain rfl := Except.ok.inj he
  refine ⟨s₁, s₂, hs₁, ?_, hs₃⟩
  rw [market_eq hm, rebuildOrderbook_frame hs₁] at hs₂
  rw [rebuildOrderbook_frame hs₁]
  exact hs₂

end Finish

/-- Whose order it was, at what price, how much and in which role. -/
def fillKey (f : FillInfo) : Option ℕ × ℚ × ℚ × FillRole := (f.orderId,f.price,f.qty,f.role)

def tradeKey (x : PublicTrade) : ℚ × ℚ := (x.price,x.qty)

/-- Every fill has one record for its taker, one for its maker and one trade. -/
structure Recorded (orderId : ℕ) (user : Address) (t : Taker) (filled : List MatchedFill)
    (before after : AppState) : Prop where
  trades : (after.publicTrades t.marketId).map tradeKey =
    (before.publicTrades t.marketId).map tradeKey++filled.map fun m => (m.price,m.qty)
  takerFills : (after.fills user).map fillKey = (before.fills user).map fillKey++
    filled.map fun m => (some orderId,m.price,m.qty,.taker)
  makerFills : ∀ a, a ≠ user → (after.fills a).map fillKey = (before.fills a).map fillKey++
    (filled.filter fun m => m.makerAddress = a).map
      fun m => (some m.makerOrderId,m.price,m.qty,.maker)

section Deliver
variable {env : Env} {now orderId : ℕ} {user : Address} {t : Taker} {takerFeeBps : ℕ}
  {makerRebateBps : ℤ} {filled : List MatchedFill} {s s' : AppState}

theorem settleMatch_records {m : MatchedFill} (hne : m.makerAddress ≠ user)
    (h : settleMatch round now orderId user t takerFeeBps makerRebateBps s m = .ok s') :
    Recorded orderId user t [m] s s' := by
  obtain ⟨_, _, _, _, rfl⟩ := settleMatch_effect h
  refine ⟨?_, ?_, ?_⟩
  · simp [AppState.recordTrade, AppState.recordFill, tradeKey]
  · simp [AppState.recordTrade, AppState.recordFill, fillKey, Function.update_of_ne hne.symm]
  · intro a ha
    by_cases hm : m.makerAddress = a
    · subst hm
      simp [AppState.recordTrade, AppState.recordFill, fillKey, Function.update_of_ne ha]
    · simp [AppState.recordTrade, AppState.recordFill, Function.update_of_ne ha,
        Function.update_of_ne (Ne.symm hm), hm]

/-- Records add up along the fills. -/
theorem Recorded.cons {m : MatchedFill} {s₁ : AppState} (h : Recorded orderId user t [m] s s₁)
    (hrest : Recorded orderId user t filled s₁ s') :
    Recorded orderId user t (m :: filled) s s' := by
  refine ⟨?_, ?_, ?_⟩
  · rw [hrest.trades, h.trades, List.append_assoc]
    rfl
  · rw [hrest.takerFills, h.takerFills, List.append_assoc]
    rfl
  · intro a ha
    rw [hrest.makerFills a ha, h.makerFills a ha, List.append_assoc, ← List.map_append,
      ← List.filter_append]
    rfl

theorem settleAll_records (hother : ∀ m ∈ filled, m.makerAddress ≠ user)
    (h : filled.foldlM (settleMatch round now orderId user t takerFeeBps makerRebateBps) s =
      .ok s') : Recorded orderId user t filled s s' := by
  induction filled generalizing s with
  | nil =>
    obtain rfl := Except.ok.inj h
    exact ⟨by simp, by simp, by simp⟩
  | cons m rest ih =>
    obtain ⟨hm, hrest⟩ := List.forall_mem_cons.mp hother
    obtain ⟨s₁, hs₁, hs'⟩ := foldlM_cons_eq_ok.mp h
    exact (settleMatch_records hm hs₁).cons (ih hrest hs')

/-- Resting touches the orders and the snapshot. -/
theorem restRemainder_frame {remaining : ℚ}
    (h : restRemainder round env orderId user t remaining s = .ok s') :
    s' = { s with openOrders := s'.openOrders, orderbooks := s'.orderbooks } ∧
      (remaining ≠ 0 ∧ t.orderType = .limit →
        restingOrder env orderId t remaining ∈ s'.openOrders user) := by
  unfold restRemainder at h
  by_cases hl : remaining ≠ 0 ∧ t.orderType = .limit
  · rw [if_pos hl] at h
    have hf := rebuildOrderbook_frame h
    refine ⟨?_, fun _ => ?_⟩
    · rw [hf]
    · rw [hf]
      simp [restingOrder]
  · rw [if_neg hl] at h
    obtain rfl := Except.ok.inj h
    exact ⟨rfl, fun h => absurd h hl⟩

end Deliver

/-- Every fill is recorded and settled on both sides, and what is left of a limit order rests. -/
structure Delivered (round : ℚ → ℚ) (env : Env) (orderId : ℕ) (user : Address) (t : Taker)
    (filled : List MatchedFill) (before after : AppState) : Prop where
  recorded : Recorded orderId user t filled before after
  settled : ∃ s₁ s₂, rebuildOrderbook round before env t.marketId = .ok s₁ ∧
    filled.foldlM (settling round env orderId user t before) s₁ = .ok s₂ ∧
    after.vaultBalances = s₂.vaultBalances ∧ after.positions = s₂.positions
  rests : leftover round t filled ≠ 0 ∧ t.orderType = .limit →
    restingOrder env orderId t (leftover round t filled) ∈ after.openOrders user

theorem finish_delivers {env : Env} {orderId : ℕ} {user : Address} {t : Taker}
    {filled : List MatchedFill} (hother : ∀ m ∈ filled, m.makerAddress ≠ user) {s : AppState}
    {r : PlaceOrderResponse × AppState}
    (h : finish round env orderId user t filled s = .ok r) :
    Delivered round env orderId user t filled s r.2 := by
  obtain ⟨s₁, s₂, hs₁, hs₂, hrest⟩ := finish_stages h
  obtain ⟨hframe, hrests⟩ := restRemainder_frame hrest
  have hrec := settleAll_records hother hs₂
  have hbook := rebuildOrderbook_frame hs₁
  refine ⟨⟨?_, ?_, ?_⟩, ⟨s₁, s₂, hs₁, hs₂, ?_, ?_⟩, hrests⟩
  · rw [hframe]
    rw [hbook] at hrec
    exact hrec.trades
  · rw [hframe]
    rw [hbook] at hrec
    exact hrec.takerFills
  · rw [hframe]
    rw [hbook] at hrec
    exact hrec.makerFills
  · rw [hframe]
  · rw [hframe]

/-- Once a maker is decremented the order does not panic, and it delivers. -/
def Completes (round : ℚ → ℚ) (s : AppState) (env : Env) (user : Address) (t : Taker) : Prop :=
  (∀ n left, decrementMakers round s.drawn env user t = .error (n,left) → n = 0) ∧
    ∀ filled s', decrementMakers round s.drawn env user t = .ok (filled,s') →
      ∃ r, finish round env s.nextUlid user t filled s' = .ok r ∧
        Delivered round env s.nextUlid user t filled s' r.2

/-- The bounds of the whole order. -/
structure PlaceFits (round : ℚ → ℚ) (s : AppState) (env : Env) (user : Address) (t : Taker) :
    Prop where
  draws : LaterDrawsFit round s.openOrders t.qty
    (s.candidates env t.marketId t.side t.price user)
  rest : ∀ filled s', decrementMakers round s.drawn env user t = .ok (filled,s') →
    FinishFits round env s.nextUlid user t filled s'

theorem decrementMakers_early_iff (round : ℚ → ℚ) (s : AppState) (env : Env) (user : Address)
    (t : Taker) :
    (∀ n left, decrementMakers round s env user t = .error (n,left) → n = 0) ↔
      LaterDrawsFit round s.openOrders t.qty
        (s.candidates env t.marketId t.side t.price user) := by
  rw [← matchLoop_early_iff env.now]
  unfold decrementMakers
  rcases matchLoop round env.now s.openOrders t.qty
    (s.candidates env t.marketId t.side t.price user) with ⟨n, orders⟩ | x <;> simp

theorem decrementMakers_others {s s' : AppState} {env : Env} {user : Address} {t : Taker}
    {filled : List MatchedFill} (h : decrementMakers round s env user t = .ok (filled,s')) :
    ∀ m ∈ filled, m.makerAddress ≠ user := by
  unfold decrementMakers at h
  cases hloop : matchLoop round env.now s.openOrders t.qty
      (s.candidates env t.marketId t.side t.price user) with
  | error e => simp [hloop] at h
  | ok x =>
    rw [hloop] at h
    obtain ⟨rfl, -⟩ := Prod.mk.inj (Except.ok.inj h)
    exact matchLoop_others (fun c hc => (AppState.mem_candidates hc).1) hloop

theorem completes_iff (s : AppState) (env : Env) (user : Address) (t : Taker) :
    Completes round s env user t ↔ PlaceFits round s env user t := by
  have hdraws := decrementMakers_early_iff round s.drawn env user t
  constructor
  · rintro ⟨hearly, hrest⟩
    refine ⟨hdraws.mp hearly, ?_⟩
    intro filled s' hd
    obtain ⟨r, hr, -⟩ := hrest filled s' hd
    exact (finish_succeeds (decrementMakers_others hd)).mp ⟨r, hr⟩
  · intro h
    refine ⟨hdraws.mpr h.draws, ?_⟩
    intro filled s' hd
    obtain ⟨r, hr⟩ := (finish_succeeds (decrementMakers_others hd)).mpr (h.rest filled s' hd)
    exact ⟨r, hr, finish_delivers (decrementMakers_others hd) hr⟩

-- a contract at the index price has room
example : (execute id (run id (openTrade.take 3)) (twoAccounts 1) 1
    ⟨"btc-usd", .buy, .limit, some 100000, 1, false, false, none⟩).isOk = true := by
  decide +kernel

/-- A reduce-only order, which no gate looks at, at a price of `10^11`. -/
def dearOrder (side : String) : PlaceOrderRequest :=
  { btcOrder side "limit" (some (10^11)) 1 with reduceOnly := true }

end Perplex.Edge.Decimal
