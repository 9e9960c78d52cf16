import Perplex.EdgeLiquidation

/-! The liquidation price is where the health factor is one: a long position is liquidatable below
it and a short one above. The account summary shows it cut at zero, which it is only for positions
that no mark makes liquidatable; the keeper finds the positions whose mark is past it. -/
namespace Perplex

namespace Margin
variable {p : Position} {params : MarketParams}

/-- The mark is past the price: below it for a long position, above it for a short one. -/
def Past (p : Position) (price mark : ℚ) : Prop :=
  if 0 < p.size then mark < price else price < mark

theorem mmRatio_lt_one (h : params.mmRatioBps < 10000) : (params.mmRatioBps:ℚ)/10000 < 1 := by
  rw [div_lt_one (by norm_num)]
  exact_mod_cast h

theorem maintenanceMargin_pos (hsize : p.size ≠ 0) (hlow : 0 < params.mmRatioBps) {mark : ℚ}
    (hmark : 0 < mark) : 0 < maintenanceMargin p mark params := by
  have habs : 0 < |p.size| := abs_pos.mpr hsize
  have hratio : (0:ℚ) < params.mmRatioBps := by exact_mod_cast hlow
  unfold maintenanceMargin notional
  positivity

/-- The closed form of either side solves the comparison of the collateral with what the position
asks for. -/
theorem liquidationPrice_solves (hsize : p.size ≠ 0) (hhigh : params.mmRatioBps < 10000)
    (collateral : ℚ) : ∃ price, liquidationPrice p collateral params = some price ∧
      ∀ mark, collateral < requirement p mark params ↔ Past p price mark := by
  have hratio := mmRatio_lt_one hhigh
  have hnonneg : (0:ℚ) ≤ params.mmRatioBps/10000 := by positivity
  unfold liquidationPrice requirement maintenanceMargin notional unrealisedPnl Past
  simp only [if_neg hsize]
  set ratio := (params.mmRatioBps:ℚ)/10000 with hr
  have hmargin (mark : ℚ) : |p.size| * mark*params.mmRatioBps/10000 = |p.size| * mark*ratio := by
    rw [hr]
    ring
  simp only [hmargin]
  rcases lt_or_gt_of_ne hsize with hneg | hpos
  · have hden : 0 < |p.size| * (1+ratio) := mul_pos (abs_pos.mpr hsize) (by linarith)
    refine ⟨_, by rw [if_neg hneg.not_gt, if_neg hden.ne'], fun mark => ?_⟩
    rw [if_neg hneg.not_gt, div_lt_iff₀ hden, abs_of_neg hneg]
    constructor <;> intro h <;> linarith
  · have hden : 0 < |p.size| * (1-ratio) := mul_pos (abs_pos.mpr hsize) (by linarith)
    refine ⟨_, by rw [if_pos hpos, if_neg hden.ne'], fun mark => ?_⟩
    rw [if_pos hpos, lt_div_iff₀ hden, abs_of_pos hpos]
    constructor <;> intro h <;> linarith

/-- At a positive mark there is a health factor, and it is below one past the liquidation
price. -/
theorem healthFactor_lt_one_iff_past (hsize : p.size ≠ 0) (hlow : 0 < params.mmRatioBps)
    (hhigh : params.mmRatioBps < 10000) (collateral : ℚ) :
    ∃ price, liquidationPrice p collateral params = some price ∧ ∀ mark, 0 < mark →
      ∃ h, healthFactor p mark collateral params = some h ∧ (h < 1 ↔ Past p price mark) := by
  obtain ⟨price, hprice, hsolves⟩ := liquidationPrice_solves hsize hhigh collateral
  refine ⟨price, hprice, ?_⟩
  intro mark hmark
  have hpos := maintenanceMargin_pos hsize hlow hmark
  refine ⟨_, if_neg hpos.ne', ?_⟩
  rw [← hsolves, div_lt_one hpos, requirement, lt_sub_iff_add_lt]

/-- A short position without debts has no negative price. -/
theorem liquidationPrice_nonneg_of_short (hneg : p.size < 0) (hentry : 0 ≤ p.entryPrice)
    {collateral price : ℚ} (hcollateral : 0 ≤ collateral)
    (h : liquidationPrice p collateral params = some price) : 0 ≤ price := by
  have hden : 0 < |p.size| * (1+(params.mmRatioBps:ℚ)/10000) :=
    mul_pos (abs_pos.mpr hneg.ne) (by positivity)
  simp only [liquidationPrice, if_neg hneg.ne, if_neg hneg.not_gt, if_neg hden.ne',
    Option.some.injEq] at h
  rw [← h]
  positivity

/-- No positive mark is past a negative price. -/
theorem not_past_of_neg (hentry : 0 ≤ p.entryPrice) (hsize : p.size ≠ 0) {collateral price : ℚ}
    (hcollateral : 0 ≤ collateral) (h : liquidationPrice p collateral params = some price)
    (hprice : price < 0) {mark : ℚ} (hmark : 0 < mark) : ¬ Past p price mark := by
  rcases lt_or_gt_of_ne hsize with hneg | hpos
  · exact absurd hprice (liquidationPrice_nonneg_of_short hneg hentry hcollateral h).not_gt
  · rw [Past, if_pos hpos]
    exact (hprice.trans hmark).not_gt

end Margin

namespace Edge
variable {s : AppState} {address : Address} {p : PositionInfo} {m : MarketInfo}

namespace PositionInfo

theorem core_size_ne_zero (h : p.size ≠ 0) : p.core.size ≠ 0 := by
  unfold core
  cases p.side
  · exact h
  · exact neg_ne_zero.mpr h

theorem core_entryPrice_nonneg (h : 0 ≤ p.entryPriceX18) : 0 ≤ p.core.entryPrice := by
  have hcast : (0:ℚ) ≤ p.entryPriceX18 := by exact_mod_cast h
  exact div_nonneg hcast (by norm_num)

end PositionInfo

namespace AppState

/-- What the shared margin math takes for the positions of an account. -/
def collateralOf (s : AppState) (address : Address) : ℚ := s.vaultBalances address/10^6

/-- The sums run along, and no record depends on them. -/
theorem priceAll_positions (s : AppState) (collateral : ℚ) (t : Totals) (l : List PositionInfo) :
    (s.priceAll collateral t l).2 = l.map fun p => (s.pricePosition collateral ⟨0, 0, 0⟩ p).2 := by
  have hrecord (t : Totals) (p : PositionInfo) : (s.pricePosition collateral t p).2 =
      (s.pricePosition collateral ⟨0, 0, 0⟩ p).2 := by
    unfold pricePosition
    split_ifs <;> rfl
  induction l generalizing t with
  | nil => rfl
  | cons p l ih =>
    rw [priceAll, List.map_cons, ← hrecord t p]
    exact congrArg (List.cons _) (ih _)

theorem accountSummary_positions (s : AppState) (address : Address) :
    (s.accountSummary address).positions = (s.positions address).map fun p =>
      (s.pricePosition (s.collateralOf address) ⟨0, 0, 0⟩ p).2 :=
  s.priceAll_positions _ _ _

theorem pricePosition_liquidationPriceX18 (hsize : p.size ≠ 0)
    (hm : s.market p.marketId = some m) {collateral price : ℚ}
    (h : Margin.liquidationPrice p.core collateral ⟨m.imRatioBps, m.mmRatioBps⟩ = some price) :
    (s.pricePosition collateral ⟨0, 0, 0⟩ p).2.liquidationPriceX18 =
      scaleX18 (if price < 0 then 0 else price) := by
  simp only [pricePosition, if_neg hsize, hm, Option.bind_some, h]

/-- The keeper's health factor is below one when the mark is past the liquidation price. -/
theorem positionHealth_lt_one_iff_past (hsize : p.size ≠ 0) (hm : s.market p.marketId = some m)
    (hlow : 0 < m.mmRatioBps) (hhigh : m.mmRatioBps < 10000) (hmark : 0 < m.indexPriceX18) :
    ∃ price, Margin.liquidationPrice p.core (s.collateralOf address)
        ⟨m.imRatioBps, m.mmRatioBps⟩ = some price ∧
      ((∃ h, s.positionHealth address p = some h ∧ h < 1) ↔
        Margin.Past p.core price (m.indexPriceX18/10^18)) := by
  let params : Margin.MarketParams := ⟨m.imRatioBps, m.mmRatioBps⟩
  have hlow' : 0 < params.mmRatioBps := hlow
  obtain ⟨price, hprice, hpast⟩ := Margin.healthFactor_lt_one_iff_past
    (PositionInfo.core_size_ne_zero hsize) hlow' hhigh (s.collateralOf address)
  refine ⟨price, hprice, ?_⟩
  obtain ⟨h, hhealth, hiff⟩ := hpast (m.indexPriceX18/10^18) (by positivity)
  have hposition : s.positionHealth address p = some h := by
    simp only [positionHealth, liqInputs, if_neg hsize, hm, Option.map_some, Option.bind_some]
    exact hhealth
  rw [hposition, ← hiff]
  simp

end AppState

/-- For every position there is a liquidation price, and at every positive mark the health factor
is below one if and only if the mark is past it. The account summary shows the price, and zero in
the place of a negative one, which no positive mark is past. -/
theorem liquidationPrice_exact :
    (∀ (p : Margin.Position) (collateral : ℚ) (params : Margin.MarketParams), p.size ≠ 0 →
      0 < params.mmRatioBps → params.mmRatioBps < 10000 →
      ∃ price, Margin.liquidationPrice p collateral params = some price ∧ ∀ mark, 0 < mark →
        ∃ h, Margin.healthFactor p mark collateral params = some h ∧
          (h < 1 ↔ if 0 < p.size then mark < price else price < mark)) ∧
    ∀ (s : AppState) (address : Address), 0 ≤ s.vaultBalances address →
      ∀ (i : ℕ) (p : PositionInfo), (s.positions address)[i]? = some p → p.size ≠ 0 →
      0 ≤ p.entryPriceX18 → ∀ m, s.market p.marketId = some m → 0 < m.mmRatioBps →
      m.mmRatioBps < 10000 →
      let collateral := s.collateralOf address
      let params : Margin.MarketParams := ⟨m.imRatioBps, m.mmRatioBps⟩
      ∃ shown price, (s.accountSummary address).positions[i]? = some shown ∧
        Margin.liquidationPrice p.core collateral params = some price ∧
        shown.liquidationPriceX18 = scaleX18 (if price < 0 then 0 else price) ∧
        (price < 0 → ∀ mark, 0 < mark →
          ∃ h, Margin.healthFactor p.core mark collateral params = some h ∧ 1 ≤ h) := by
  refine ⟨fun p collateral params hsize hlow hhigh =>
    Margin.healthFactor_lt_one_iff_past hsize hlow hhigh collateral, ?_⟩
  intro s address hbalance i p hp hsize hentry m hm hlow hhigh collateral params
  have hcore := PositionInfo.core_size_ne_zero hsize
  have hcollateral : 0 ≤ collateral := div_nonneg hbalance (by norm_num)
  have hlow' : 0 < params.mmRatioBps := hlow
  obtain ⟨price, hprice, hpast⟩ :=
    Margin.healthFactor_lt_one_iff_past hcore hlow' hhigh collateral
  refine ⟨_, price, ?_, hprice, s.pricePosition_liquidationPriceX18 hsize hm hprice, ?_⟩
  · rw [AppState.accountSummary_positions, List.getElem?_map, hp]
    rfl
  · intro hneg mark hmark
    obtain ⟨h, hhealth, hiff⟩ := hpast mark hmark
    refine ⟨h, hhealth, not_lt.mp fun hlt => ?_⟩
    exact Margin.not_past_of_neg (PositionInfo.core_entryPrice_nonneg hentry) hcore hcollateral
      hprice hneg hmark (hiff.mp hlt)

/-- A tenth of a coin, bought at 100000. -/
def tenthLong : PositionInfo :=
  ⟨"btc-usd", 1/10, .long, 100000*10^18, 0, 0, 0, 0, 1, 0, 0, 0⟩

/-- The account that holds it, with some dollars. -/
def tenthHeld (dollars : ℚ) : AppState :=
  { AppState.new with
    positions := fun _ => [tenthLong]
    vaultBalances := fun _ => dollars*10^6 }

/-- With 1500 dollars it is healthy at 98000; with 20000 it always is, and no price is shown. -/
theorem liquidationPrice_exact_tenthLong :
    (∃ h, Margin.healthFactor tenthLong.core 98000 1500 ⟨500, 250⟩ = some h ∧ ¬ h < 1) ∧
      ∃ shown, ((tenthHeld 20000).accountSummary 1).positions[0]? = some shown ∧
        shown.liquidationPriceX18 = 0 ∧
        ∃ h, Margin.healthFactor tenthLong.core 1 20000 ⟨500, 250⟩ = some h ∧ 1 ≤ h := by
  constructor
  · obtain ⟨price, hprice, hpast⟩ := liquidationPrice_exact.1 tenthLong.core 1500 ⟨500, 250⟩
      (by decide +kernel) (by decide) (by decide)
    have hvalue : price = 3400000/39 := Option.some.inj
      (hprice.symm.trans (by decide +kernel))
    obtain ⟨h, hhealth, hiff⟩ := hpast 98000 (by norm_num)
    refine ⟨h, hhealth, ?_⟩
    rw [hiff, hvalue]
    decide +kernel
  · have hm : (tenthHeld 20000).market "btc-usd" =
        some ⟨"btc-usd", true, 20, 500, 250, 5, -2, 100000*10^18⟩ := by decide +kernel
    obtain ⟨shown, price, hshown, hprice, hcut, hhealthy⟩ := liquidationPrice_exact.2
      (tenthHeld 20000) 1 (by decide +kernel) 0 tenthLong rfl (by decide +kernel)
      (by decide) _ hm (by decide) (by decide)
    have hvalue : price = -4000000/39 := Option.some.inj
      (hprice.symm.trans (by decide +kernel))
    have hneg : price < 0 := by
      rw [hvalue]
      norm_num
    have hbalance : (tenthHeld 20000).collateralOf 1 = 20000 := by decide +kernel
    rw [if_pos hneg] at hcut
    rw [hbalance] at hhealthy
    exact ⟨shown, hshown, hcut.trans (by decide +kernel), hhealthy hneg 1 (by norm_num)⟩

end Edge

end Perplex
