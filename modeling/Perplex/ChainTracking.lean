import Perplex.IndexedList
import Perplex.ChainFacts

/-! The list of markets each user holds. `_userMarkets` and its index table are edited by
swap-and-pop; they stay inverse to each other and list exactly the markets with a non-zero
position, so that `isWithdrawSafe` sees every position once and `_untrackUserMarket` never
panics. -/
namespace Perplex.Chain
namespace Registry

/-- The lists hold the markets with a position, each once. -/
structure Tracked (r : Registry) : Prop where
  inverse : ∀ u, Inverse (r.userMarkets u) (r.userMarketIndexPlusOne u)
  held : ∀ u m, (r.positions u m).size ≠ 0 ↔ r.userMarketIndexPlusOne u m ≠ 0

theorem Tracked.mem_iff {r : Registry} (h : r.Tracked) (u : Address) (m : MarketId) :
    m ∈ r.userMarkets u ↔ (r.positions u m).size ≠ 0 := by
  rw [(h.inverse u).mem_iff m, h.held u m]

variable {r : Registry} {user : Address} {market : MarketId}

@[simp]
theorem trackUserMarket_positions (r : Registry) (user : Address) (market : MarketId) :
    (r.trackUserMarket user market).positions = r.positions := by
  unfold trackUserMarket
  split_ifs <;> rfl

@[simp]
theorem trackUserMarket_funding (r : Registry) (user : Address) (market : MarketId) :
    (r.trackUserMarket user market).marketIndexFunding = r.marketIndexFunding := by
  unfold trackUserMarket
  split_ifs <;> rfl

theorem trackUserMarket_index_eq_zero (u : Address) (m : MarketId) :
    (r.trackUserMarket user market).userMarketIndexPlusOne u m = 0 ↔
      r.userMarketIndexPlusOne u m = 0 ∧ ¬ (u = user ∧ m = market) := by
  unfold trackUserMarket
  split_ifs with hidx
  · constructor
    · intro h
      refine ⟨h, ?_⟩
      rintro ⟨rfl, rfl⟩
      exact hidx h
    · exact fun h => h.1
  · simp only [update₂_apply]
    split_ifs with hum <;> simp [hum]

theorem trackUserMarket_inverse
    (h : ∀ u, Inverse (r.userMarkets u) (r.userMarketIndexPlusOne u))
    (user : Address) (market : MarketId) (u : Address) :
    Inverse ((r.trackUserMarket user market).userMarkets u)
      ((r.trackUserMarket user market).userMarketIndexPlusOne u) := by
  unfold trackUserMarket
  split_ifs with hidx
  · exact h u
  by_cases hu : u = user
  · subst hu
    simp only [update₂, Function.update_self, List.length_append, List.length_singleton]
    exact (h u).push (not_not.mp hidx)
  · simp only [update₂, Function.update_of_ne hu]
    exact h u

/-- Swap-and-pop on inverse tables succeeds and removes exactly this market. -/
theorem untrackUserMarket_spec
    (h : ∀ u, Inverse (r.userMarkets u) (r.userMarketIndexPlusOne u))
    (user : Address) (market : MarketId) :
    ∃ r', r.untrackUserMarket user market = .ok r' ∧
      (∀ u, Inverse (r'.userMarkets u) (r'.userMarketIndexPlusOne u)) ∧
      ∀ u m, r'.userMarketIndexPlusOne u m = 0 ↔
        (u = user ∧ m = market) ∨ r.userMarketIndexPlusOne u m = 0 := by
  unfold untrackUserMarket
  by_cases h0 : r.userMarketIndexPlusOne user market = 0
  · refine ⟨r, by simp only [h0, if_true]; rfl, h, ?_⟩
    intro u m
    refine ⟨Or.inr, ?_⟩
    rintro (⟨rfl, rfl⟩ | h')
    · exact h0
    · exact h'
  -- a tracked market sits in the slot its index names
  obtain ⟨i, hi⟩ := Nat.exists_eq_succ_of_ne_zero h0
  have hget := (h user market i).mp hi
  have hlt : i < (r.userMarkets user).length := (List.getElem?_eq_some_iff.mp hget).1
  simp only [hi, Nat.succ_ne_zero, if_false]
  by_cases hlast : i+1 = (r.userMarkets user).length
  · rw [if_neg (not_not.mpr hlast)]
    refine ⟨_, rfl, ?_, ?_⟩
    · intro u
      by_cases hu : u = user
      · subst hu
        simp only [update₂, Function.update_self]
        exact (h u).pop (hi.trans hlast)
      · simp only [update₂, Function.update_of_ne hu]
        exact h u
    · intro u m
      simp only [update₂_apply]
      split_ifs with hum <;> simp [hum]
  · -- the last market moves into the freed slot
    rw [if_pos hlast]
    have hn : (r.userMarkets user).length-1 < (r.userMarkets user).length := by omega
    obtain ⟨lastMid, hl⟩ : ∃ x, (r.userMarkets user)[(r.userMarkets user).length-1]? = some x :=
      ⟨_, List.getElem?_eq_getElem hn⟩
    have hlidx := (h user lastMid _).mpr hl
    have hbound : i.succ-1 < (r.userMarkets user).length := hlt
    simp only [hl]
    rw [ensure_of hbound]
    refine ⟨_, rfl, ?_, ?_⟩
    · intro u
      by_cases hu : u = user
      · subst hu
        simp only [update₂, Function.update_self]
        exact (h u).swapRemove hi hlast hl
      · simp only [update₂, Function.update_of_ne hu]
        exact h u
    · intro u m
      simp only [update₂_apply]
      split_ifs with hum hul
      · simp [hum]
      · obtain ⟨rfl, rfl⟩ := hul
        have hm : m ≠ market := fun he => hum ⟨rfl, he⟩
        have hne : r.userMarketIndexPlusOne u m ≠ 0 := by omega
        simp [hm, hne]
      · simp [hum]

theorem untrackUserMarket_frame {r' : Registry} (h : r.untrackUserMarket user market = .ok r') :
    r'.positions = r.positions ∧ r'.marketIndexFunding = r.marketIndexFunding := by
  unfold untrackUserMarket at h
  simp only at h
  split_ifs at h
  · cases h
    exact ⟨rfl, rfl⟩
  · split at h
    · cases h
    · simp only [chain_ok_iff, ensure_eq_ok] at h
      obtain ⟨_, -, h⟩ := h
      cases h
      exact ⟨rfl, rfl⟩
  · cases h
    exact ⟨rfl, rfl⟩

/-- What a successful `applyFill` did. -/
structure FillStep (r : Registry) (ms : Markets) (user : Address) (market : MarketId)
    (sizeDelta : ℤ) (priceX18 : ℕ) (realised funding : ℤ) (r' : Registry) : Prop where
  active : ms.isMarketActive market = true
  user_ne : user ≠ 0
  delta_ne : sizeDelta ≠ 0
  price_pos : 0 < priceX18
  size_fits : InInt256 ((r.positions user market).size+sizeDelta)
  funding_eq : funding = (r.positions user market).fundingAt (r.marketIndexFunding market)
  index_eq : r'.marketIndexFunding = r.marketIndexFunding
  position : ∃ p, Position.VwapStep
    { r.positions user market with cumulativeFunding := r.marketIndexFunding market }
    sizeDelta priceX18 realised p ∧ r'.positions = update₂ r.positions user market p.dropEntry

variable {d : Deployment} {ms : Markets} {sender : Address} {sizeDelta realised funding : ℤ}
  {priceX18 : ℕ} {r' : Registry}

theorem applyFill_ok
    (h : r.applyFill d ms sender user market sizeDelta priceX18 = .ok (realised,funding,r')) :
    FillStep r ms user market sizeDelta priceX18 realised funding r' := by
  simp only [applyFill, chain_ok_iff, ensure_eq_ok, and_true, exists_const, Prod.exists,
    Position.settleFunding_eq_ok, Prod.mk.injEq] at h
  obtain ⟨-, hact, hu, hd, hp, _, _, ⟨-, rfl, rfl⟩, real, p, hv, h⟩ := h
  obtain ⟨hfit, hstep⟩ := Position.applyVwap_ok hv
  split_ifs at h with hz
  · simp only [chain_ok_iff, tx_pure_eq_ok, Prod.mk.injEq] at h
    obtain ⟨r₂, hr₂, rfl, rfl, rfl⟩ := h
    obtain ⟨hpos, hidx⟩ := untrackUserMarket_frame hr₂
    refine ⟨hact, hu, hd, hp, hfit, rfl, ?_, p, hstep, ?_⟩
    · simp [setPosition, hidx]
    · simp [setPosition, hpos, Position.dropEntry, hz, update₂]
  · simp only [tx_pure_eq_ok, Prod.mk.injEq] at h
    obtain ⟨rfl, rfl, rfl⟩ := h
    refine ⟨hact, hu, hd, hp, hfit, rfl, by simp [setPosition], p, hstep, ?_⟩
    simp [setPosition, Position.dropEntry, hz]

/-- A fill keeps the lists of held markets exact. -/
theorem applyFill_tracked (hr : r.Tracked)
    (h : r.applyFill d ms sender user market sizeDelta priceX18 = .ok (realised,funding,r')) :
    r'.Tracked := by
  simp only [applyFill, chain_ok_iff, ensure_eq_ok, and_true, exists_const, Prod.exists] at h
  obtain ⟨-, -, -, -, -, _, _, -, real, p, -, h⟩ := h
  have hinv := trackUserMarket_inverse (r := r.setPosition user market p) hr.inverse user market
  split_ifs at h with hz
  · simp only [chain_ok_iff, tx_pure_eq_ok, Prod.mk.injEq] at h
    obtain ⟨r₂, hr₂, -, -, rfl⟩ := h
    obtain ⟨hpos, -⟩ := untrackUserMarket_frame hr₂
    -- the position is closed: the market is entered and taken out again
    obtain ⟨r₃, hr₃, hinv₃, hidx⟩ := untrackUserMarket_spec hinv user market
    obtain rfl : r₂ = r₃ := Except.ok.inj (hr₂.symm.trans hr₃)
    refine ⟨hinv₃, ?_⟩
    intro u m
    simp only [setPosition, hpos, trackUserMarket_positions, update₂_apply, ne_eq, hidx,
      trackUserMarket_index_eq_zero]
    by_cases hum : u = user ∧ m = market
    · simp [hum, hz]
    · simp only [hum, if_false, false_or, not_false_eq_true, and_true]
      exact hr.held u m
  · simp only [tx_pure_eq_ok, Prod.mk.injEq] at h
    obtain ⟨-, -, rfl⟩ := h
    refine ⟨hinv, ?_⟩
    intro u m
    simp only [ne_eq, trackUserMarket_index_eq_zero, trackUserMarket_positions, setPosition,
      update₂_apply]
    by_cases hum : u = user ∧ m = market
    · simp [hum, hz]
    · simp only [hum, if_false, not_false_eq_true, and_true]
      exact hr.held u m

/-- When a fill of the whole position goes through: only the arithmetic can fail. -/
theorem applyFill_close (hr : r.Tracked)
    (hcall : sender = d.settlementEngine ∨ sender = d.liquidationEngine)
    (hact : ms.isMarketActive market = true) (hu : user ≠ 0) (hp : 0 < priceX18)
    (hsize : (r.positions user market).size ≠ 0)
    (hclose : (r.positions user market).size+sizeDelta = 0) :
    (∃ r', r.applyFill d ms sender user market sizeDelta priceX18 = .ok (realised,funding,r')) ↔
      (r.positions user market).FundingFits (r.marketIndexFunding market) ∧
      (r.positions user market).PriceFits priceX18 ∧
      realised = (r.positions user market).pnlAt priceX18 ∧
      funding = (r.positions user market).fundingAt (r.marketIndexFunding market) := by
  have hd : sizeDelta ≠ 0 := by omega
  constructor
  · rintro ⟨r', h⟩
    have hfund := (applyFill_ok h).funding_eq
    simp only [applyFill, chain_ok_iff, ensure_eq_ok, and_true, exists_const, Prod.exists,
      Position.settleFunding_eq_ok, Prod.mk.injEq] at h
    obtain ⟨-, -, -, -, -, _, _, ⟨hff, rfl, rfl⟩, real, p, hv, h⟩ := h
    obtain ⟨hpf, hx⟩ := (Position.applyVwap_close (p := { r.positions user market with
      cumulativeFunding := r.marketIndexFunding market }) hclose).mp hv
    -- both branches of the source return the realised PnL of `_applyVwap`
    have hreal : real = realised := by
      split_ifs at h
      · simp only [chain_ok_iff, tx_pure_eq_ok, Prod.mk.injEq] at h
        obtain ⟨_, -, h, -⟩ := h
        exact h
      · simp only [tx_pure_eq_ok, Prod.mk.injEq] at h
        exact h.1
    subst hreal
    exact ⟨hff.resolve_left hsize, hpf, (congrArg Prod.fst hx).symm, hfund⟩
  · rintro ⟨hff, hpf, rfl, rfl⟩
    have hfs := Position.settleFunding_eq_ok.mpr
      ⟨Or.inr hff, (rfl : _ = ((r.positions user market).fundingAt (r.marketIndexFunding market),
        { r.positions user market with cumulativeFunding := r.marketIndexFunding market }))⟩
    have hv := (Position.applyVwap_close (p := { r.positions user market with
      cumulativeFunding := r.marketIndexFunding market }) hclose).mpr ⟨hpf, rfl⟩
    -- closing runs the untracking, which cannot fail on a list in order
    have hinv := trackUserMarket_inverse (r := r.setPosition user market
      ⟨0, (r.positions user market).entryPriceX18, r.marketIndexFunding market⟩) hr.inverse
      user market
    obtain ⟨r₃, hr₃, -, -⟩ := untrackUserMarket_spec hinv user market
    refine ⟨r₃.setPosition user market ⟨0, 0, r.marketIndexFunding market⟩, ?_⟩
    simp only [applyFill, chain_ok_iff, ensure_eq_ok, and_true, exists_const, Prod.exists]
    refine ⟨hcall, hact, hu, hd, hp, _, _, hfs, _, _, hv, ?_⟩
    simp only [if_true, chain_ok_iff, tx_pure_eq_ok]
    exact ⟨r₃, hr₃, rfl⟩

end Registry
end Perplex.Chain
