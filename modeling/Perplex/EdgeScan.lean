import Perplex.EdgeExact
import Perplex.EdgeLiquidation

/-! The keeper's scan in the arithmetic of `Decimal`. A panic in one position, or in the statistics
of its market, ends the scan, and nobody is listed; the digits of a health factor may be rounded. -/
namespace Perplex.Edge

namespace Decimal

section Model
variable {σ : Type} (round : ℚ → ℚ)

/-- `liq_inputs`. -/
def liqInputs (s : AppState) (env : Env) (pos : PositionInfo) :
    Except AppState (Option LiqInputs) :=
  if pos.size = 0 then return none
  else do
    let m ← market round s env pos.marketId
    return m.map fun market => ⟨unscaleX18 round market.indexPriceX18, core round pos,
      ⟨market.imRatioBps, market.mmRatioBps⟩⟩

/-- `maintenance_margin`. -/
def maintenanceMargin (left : σ) (i : LiqInputs) : Except σ ℚ := do
  let notional ← result round left (|i.core.size| * i.mark)
  let total ← result round left (notional*i.params.mmRatioBps)
  return quotient round total 10000

/-- `unrealised_pnl`. -/
def unrealisedPnl (left : σ) (i : LiqInputs) : Except σ ℚ :=
  if i.core.size = 0 then return 0
  else do
    let gap ← result round left (i.mark-i.core.entryPrice)
    result round left (i.core.size*gap)

/-- `health_factor`. -/
def healthFactor (left : σ) (i : LiqInputs) (collateral : ℚ) : Except σ (Option ℚ) := do
  let mm ← maintenanceMargin round left i
  if mm = 0 then return none
  else do
    let pnl ← unrealisedPnl round left i
    let equity ← result round left (collateral+pnl)
    return some (quotient round equity mm)

/-- `position_health`. -/
def positionHealth (s : AppState) (env : Env) (address : Address) (pos : PositionInfo) :
    Except AppState (Option ℚ) := do
  let inputs ← liqInputs round s env pos
  match inputs with
  | none => return none
  | some i => healthFactor round s i (dollars round (s.vaultBalances address))

/-- One position of the scan. -/
def judge (s : AppState) (env : Env) (x : Address × PositionInfo) :
    Except AppState (Option LiquidatablePosition) := do
  let health ← positionHealth round s env x.1 x.2
  match health with
  | some h => return if h < 1 then some ⟨x.1, x.2.marketId, x.2.side, x.2.size, h⟩ else none
  | none => return none

/-- `scan_liquidatable`. -/
def scanLiquidatable (s : AppState) (env : Env) : Except AppState (List LiquidatablePosition) := do
  let snapshot := env.keys.flatMap fun addr => (s.positions addr).map fun p => (addr,p)
  let judged ← snapshot.mapM (judge round s env)
  return judged.filterMap id

end Model

section Exact
variable {σ : Type} {left : σ} {s : AppState} {env : Env}

theorem liqInputs_exact {pos : PositionInfo} {r : Option LiqInputs}
    (h : liqInputs id s env pos = .ok r) : r = s.liqInputs pos := by
  unfold liqInputs at h
  unfold AppState.liqInputs
  by_cases hz : pos.size = 0
  · rw [if_pos hz] at h ⊢
    exact (Except.ok.inj h).symm
  · simp only [if_neg hz, chain_ok_iff] at h ⊢
    obtain ⟨m, hm, he⟩ := h
    obtain rfl := market_eq hm
    exact (Except.ok.inj he).symm

theorem unrealisedPnl_exact {i : LiqInputs} {x : ℚ} (h : unrealisedPnl id left i = .ok x) :
    x = Margin.unrealisedPnl i.core i.mark := by
  unfold unrealisedPnl at h
  unfold Margin.unrealisedPnl
  by_cases hz : i.core.size = 0
  · rw [if_pos hz] at h ⊢
    exact (Except.ok.inj h).symm
  · simp only [if_neg hz, chain_ok_iff, result_eq_ok] at h ⊢
    obtain ⟨-, ⟨-, rfl⟩, -, rfl⟩ := h
    rfl

theorem healthFactor_exact {i : LiqInputs} {collateral : ℚ} {r : Option ℚ}
    (h : healthFactor id left i collateral = .ok r) :
    r = Margin.healthFactor i.core i.mark collateral i.params := by
  unfold healthFactor maintenanceMargin at h
  simp only [chain_ok_iff, result_eq_ok] at h
  obtain ⟨mm, ⟨-, ⟨-, rfl⟩, -, ⟨-, rfl⟩, hmm⟩, h⟩ := h
  obtain rfl : Margin.maintenanceMargin i.core i.mark i.params = mm := Except.ok.inj hmm
  unfold Margin.healthFactor
  by_cases hz : Margin.maintenanceMargin i.core i.mark i.params = 0
  · simp only [if_pos hz] at h ⊢
    exact (Except.ok.inj h).symm
  · simp only [if_neg hz, chain_ok_iff, result_eq_ok] at h ⊢
    obtain ⟨pnl, hpnl, -, ⟨-, rfl⟩, he⟩ := h
    obtain rfl := unrealisedPnl_exact hpnl
    exact (Except.ok.inj he).symm

theorem positionHealth_exact {address : Address} {pos : PositionInfo} {r : Option ℚ}
    (h : positionHealth id s env address pos = .ok r) : r = s.positionHealth address pos := by
  unfold positionHealth at h
  simp only [chain_ok_iff] at h
  obtain ⟨inputs, hinputs, h⟩ := h
  obtain rfl := liqInputs_exact hinputs
  unfold AppState.positionHealth
  cases hi : s.liqInputs pos with
  | none =>
    rw [hi] at h
    exact (Except.ok.inj h).symm
  | some i =>
    rw [hi] at h
    exact healthFactor_exact h

/-- A list that is worked off with results is mapped. -/
theorem mapM_eq_map {α β : Type} {f : α → Except σ β} {g : α → β}
    (h : ∀ a b, f a = .ok b → b = g a) {l : List α} {r : List β} (hr : l.mapM f = .ok r) :
    r = l.map g := by
  induction l generalizing r with
  | nil => exact (Except.ok.inj hr).symm
  | cons a l ih =>
    rw [List.mapM_cons] at hr
    simp only [chain_ok_iff] at hr
    obtain ⟨b, hb, bs, hbs, he⟩ := hr
    rw [← Except.ok.inj he, h a b hb, ih hbs, List.map_cons]

theorem scanLiquidatable_exact {listed : List LiquidatablePosition}
    (h : scanLiquidatable id s env = .ok listed) : listed = s.scanLiquidatable env.keys := by
  have hjudge (x : Address × PositionInfo) (r : Option LiquidatablePosition)
      (h : judge id s env x = .ok r) : r = match s.positionHealth x.1 x.2 with
        | some h => if h < 1 then some ⟨x.1, x.2.marketId, x.2.side, x.2.size, h⟩ else none
        | none => none := by
    unfold judge at h
    simp only [chain_ok_iff] at h
    obtain ⟨health, hhealth, h⟩ := h
    obtain rfl := positionHealth_exact hhealth
    cases hh : s.positionHealth x.1 x.2 with
    | none =>
      rw [hh] at h
      exact (Except.ok.inj h).symm
    | some health =>
      rw [hh] at h
      exact (Except.ok.inj h).symm
  unfold scanLiquidatable at h
  simp only [chain_ok_iff] at h
  obtain ⟨judged, hjudged, he⟩ := h
  obtain rfl := mapM_eq_map hjudge hjudged
  rw [← Except.ok.inj he, List.filterMap_map]
  rfl

end Exact

/-- The positions that are listed, without the digits of their health factors. -/
def named (listed : List LiquidatablePosition) : List (Address × String) :=
  listed.map fun l => (l.address,l.marketId)

/-- The scan returns, and rounding does not decide whom it lists. -/
def ScanExact (round : ℚ → ℚ) (s : AppState) (env : Env) : Prop :=
  Unrounded round fun ρ => (scanLiquidatable ρ s env).toOption.map named

/-- Such a scan lists the accounts that it lists on rationals. -/
theorem ScanExact.listed_iff {round : ℚ → ℚ} {s : AppState} {env : Env}
    (h : ScanExact round s env) : ∃ listed, scanLiquidatable round s env = .ok listed ∧
      ∀ address, (∃ l ∈ listed, l.address = address) ↔
        ∃ l ∈ s.scanLiquidatable env.keys, l.address = address := by
  obtain ⟨names, hround, hid⟩ := h
  obtain ⟨listed, hlisted, hnames⟩ := Option.map_eq_some_iff.mp hround
  obtain ⟨exact', hexact, hnames'⟩ := Option.map_eq_some_iff.mp hid
  obtain rfl := scanLiquidatable_exact (toOption_eq_some.mp hexact)
  have hiff (l : List LiquidatablePosition) (address : Address) :
      (∃ x ∈ l, x.address = address) ↔ ∃ x ∈ named l, x.1 = address := by
    simp [named]
  refine ⟨listed, toOption_eq_some.mp hlisted, fun address => ?_⟩
  rw [hiff, hiff, hnames, hnames']

end Decimal

end Perplex.Edge
