import Perplex.EdgeStep

/-! The keeper's scan for positions to liquidate (`state.rs`): each position is judged alone,
against the whole collateral of its account. -/
namespace Perplex.Edge

structure LiquidatablePosition where
  address : Address
  marketId : String
  side : PositionSide
  size : ℚ
  healthFactor : ℚ
deriving DecidableEq, Repr

/-- What the shared margin math takes of a position: mark, position and ratios. -/
structure LiqInputs where
  mark : ℚ
  core : Margin.Position
  params : Margin.MarketParams
deriving DecidableEq, Repr

namespace LiqInputs

def unrealisedPnl (i : LiqInputs) : ℚ := Margin.unrealisedPnl i.core i.mark

def maintenanceMargin (i : LiqInputs) : ℚ := Margin.maintenanceMargin i.core i.mark i.params

def requirement (i : LiqInputs) : ℚ := Margin.requirement i.core i.mark i.params

end LiqInputs

namespace AppState

/-- `liq_inputs`: nothing for a position without size or in an unknown market. -/
def liqInputs (s : AppState) (pos : PositionInfo) : Option LiqInputs :=
  if pos.size = 0 then none
  else (s.market pos.marketId).map fun market =>
    ⟨market.indexPriceX18/10^18, pos.core, ⟨market.imRatioBps, market.mmRatioBps⟩⟩

/-- `position_health`. -/
def positionHealth (s : AppState) (address : Address) (pos : PositionInfo) : Option ℚ :=
  (s.liqInputs pos).bind fun i =>
    Margin.healthFactor i.core i.mark (s.vaultBalances address/10^6) i.params

/-- `scan_liquidatable`; `keys` are the accounts with an entry, in the order of iteration. -/
def scanLiquidatable (s : AppState) (keys : List Address) : List LiquidatablePosition :=
  let snapshot := keys.flatMap fun addr => (s.positions addr).map fun p => (addr,p)
  snapshot.filterMap fun x =>
    match s.positionHealth x.1 x.2 with
    | some h => if h < 1 then some ⟨x.1, x.2.marketId, x.2.side, x.2.size, h⟩ else none
    | none => none

/-- An account is listed when one of its positions has a health factor below one. -/
theorem mem_scanLiquidatable {s : AppState} {keys : List Address} {address : Address} :
    (∃ l ∈ s.scanLiquidatable keys, l.address = address) ↔ address ∈ keys ∧
      ∃ p ∈ s.positions address, ∃ h, s.positionHealth address p = some h ∧ h < 1 := by
  simp only [scanLiquidatable, List.mem_filterMap, List.mem_flatMap, List.mem_map]
  constructor
  · rintro ⟨l, ⟨_, ⟨addr, haddr, p, hp, rfl⟩, hl⟩, rfl⟩
    cases hh : s.positionHealth addr p with
    | none => simp [hh] at hl
    | some h =>
      simp only [hh] at hl
      split_ifs at hl with hlt
      cases hl
      exact ⟨haddr, p, hp, h, hh, hlt⟩
  · rintro ⟨haddr, p, hp, h, hh, hlt⟩
    refine ⟨⟨address, p.marketId, p.side, p.size, h⟩, ⟨(address,p), ⟨address, haddr, p, hp, rfl⟩,
      ?_⟩, rfl⟩
    simp [hh, hlt]

/-- The positions of an account that have a price. -/
def priced (s : AppState) (address : Address) : List LiqInputs :=
  (s.positions address).filterMap s.liqInputs

/-- In terms of the collateral that each position asks for. -/
theorem exists_unhealthy_iff {s : AppState} {address : Address} :
    (∃ p ∈ s.positions address, ∃ h, s.positionHealth address p = some h ∧ h < 1) ↔
      ∃ i ∈ s.priced address,
        0 < i.maintenanceMargin ∧ s.vaultBalances address/10^6 < i.requirement ∨
        i.maintenanceMargin < 0 ∧ i.requirement < s.vaultBalances address/10^6 := by
  simp only [priced, List.mem_filterMap, positionHealth, Option.bind_eq_some_iff]
  constructor
  · rintro ⟨p, hp, h, ⟨i, hi, hh⟩, hlt⟩
    exact ⟨i, ⟨p, hp, hi⟩, Margin.healthFactor_lt_one.mp ⟨h, hh, hlt⟩⟩
  · rintro ⟨i, ⟨p, hp, hi⟩, hlt⟩
    obtain ⟨h, hh, hlt⟩ := Margin.healthFactor_lt_one.mpr hlt
    exact ⟨p, hp, h, ⟨i, hi, hh⟩, hlt⟩

end AppState

end Perplex.Edge
