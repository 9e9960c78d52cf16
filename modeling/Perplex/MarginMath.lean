import Mathlib.Algebra.Order.Field.Rat
import Mathlib.Algebra.Order.Field.Basic
import Mathlib.Data.Rat.Floor
import Mathlib.Data.Sign.Defs
import Mathlib.Tactic.Linarith
import Mathlib.Tactic.FieldSimp
import Mathlib.Tactic.Ring

/-! The shared margin math of `perplex-core` (`margin.rs`), with `Decimal` read as `ℚ`. -/
namespace Perplex.Margin

/-- A signed position; the keys and timestamps, which no formula reads, are left out. -/
structure Position where
  size : ℚ
  entryPrice : ℚ
deriving DecidableEq, Repr

structure MarketParams where
  imRatioBps : ℕ
  mmRatioBps : ℕ
deriving DecidableEq, Repr

/-- `Decimal::signum`. -/
def signum (q : ℚ) : ℚ := if q = 0 then 0 else if 0 < q then 1 else -1

/-- `apply_fill`: the realised PnL and the position after the fill. -/
def applyFill (p : Position) (sizeDelta fillPrice : ℚ) : ℚ × Position :=
  let oldSize := p.size
  let newSize := oldSize+sizeDelta
  if newSize = 0 then (oldSize*(fillPrice-p.entryPrice),⟨0, 0⟩)
  else if signum oldSize = signum sizeDelta then
    let oldNotional := |oldSize| * p.entryPrice
    let addNotional := |sizeDelta| * fillPrice
    (0,⟨newSize, (oldNotional+addNotional)/|newSize|⟩)
  else if signum oldSize ≠ signum newSize then
    (oldSize*(fillPrice-p.entryPrice),⟨newSize, fillPrice⟩)
  else
    let closedQty := |sizeDelta|
    (signum oldSize*closedQty*(fillPrice-p.entryPrice),⟨newSize, p.entryPrice⟩)

/-- `unrealised_pnl`. -/
def unrealisedPnl (p : Position) (mark : ℚ) : ℚ :=
  if p.size = 0 then 0 else p.size*(mark-p.entryPrice)

/-- `notional`. -/
def notional (p : Position) (mark : ℚ) : ℚ := |p.size| * mark

/-- `maintenance_margin`. -/
def maintenanceMargin (p : Position) (mark : ℚ) (params : MarketParams) : ℚ :=
  notional p mark*params.mmRatioBps/10000

/-- `health_factor`; below one means liquidatable, and there is none without a margin. -/
def healthFactor (p : Position) (mark collateral : ℚ) (params : MarketParams) : Option ℚ :=
  let mm := maintenanceMargin p mark params
  if mm = 0 then none
  else
    let equity := collateral+unrealisedPnl p mark
    some (equity/mm)

/-- `liquidation_price`. -/
def liquidationPrice (p : Position) (collateral : ℚ) (params : MarketParams) : Option ℚ :=
  if p.size = 0 then none
  else
    let mmRatio := (params.mmRatioBps:ℚ)/10000
    let sizeAbs := |p.size|
    if 0 < p.size then
      let num := sizeAbs*p.entryPrice-collateral
      let den := sizeAbs*(1-mmRatio)
      if den = 0 then none else some (num/den)
    else
      let num := sizeAbs*p.entryPrice+collateral
      let den := sizeAbs*(1+mmRatio)
      if den = 0 then none else some (num/den)

theorem signum_of_pos {x : ℚ} (h : 0 < x) : signum x = 1 := by
  simp [signum, h, h.ne']

theorem signum_of_neg {x : ℚ} (h : x < 0) : signum x = -1 := by
  simp [signum, h.ne, h.not_gt]

theorem signum_eq_of_mul_pos {x y : ℚ} (h : 0 < x*y) : signum x = signum y := by
  rcases pos_and_pos_or_neg_and_neg_of_mul_pos h with ⟨hx, hy⟩ | ⟨hx, hy⟩
  · rw [signum_of_pos hx, signum_of_pos hy]
  · rw [signum_of_neg hx, signum_of_neg hy]

theorem signum_ne_of_mul_neg {x y : ℚ} (h : x*y < 0) : signum x ≠ signum y := by
  rcases mul_neg_iff.mp h with ⟨hx, hy⟩ | ⟨hx, hy⟩
  · rw [signum_of_pos hx, signum_of_neg hy]
    norm_num
  · rw [signum_of_neg hx, signum_of_pos hy]
    norm_num

theorem applyFill_size (p : Position) (sizeDelta fillPrice : ℚ) :
    (applyFill p sizeDelta fillPrice).2.size = p.size+sizeDelta := by
  unfold applyFill
  dsimp only
  split_ifs with h
  · exact h.symm
  · rfl
  · rfl
  · rfl

section Cases
variable {p : Position} {sizeDelta fillPrice : ℚ}

theorem applyFill_close (h : p.size+sizeDelta = 0) :
    applyFill p sizeDelta fillPrice = (p.size*(fillPrice-p.entryPrice),⟨0, 0⟩) := by
  simp [applyFill, h]

/-- A fill on an empty position goes through the branch for flips. -/
theorem applyFill_open (h : p.size = 0) (hd : sizeDelta ≠ 0) :
    applyFill p sizeDelta fillPrice = (0,⟨sizeDelta, fillPrice⟩) := by
  have hsign : signum 0 ≠ signum sizeDelta := by
    rcases lt_or_gt_of_ne hd with hneg | hpos
    · rw [signum_of_neg hneg]
      norm_num [signum]
    · rw [signum_of_pos hpos]
      norm_num [signum]
  simp [applyFill, h, hd, hsign]

theorem applyFill_add (h : 0 < p.size*sizeDelta) (h0 : p.size+sizeDelta ≠ 0) :
    applyFill p sizeDelta fillPrice = (0,⟨p.size+sizeDelta,
      (|p.size| * p.entryPrice+|sizeDelta| * fillPrice)/|p.size+sizeDelta|⟩) := by
  simp [applyFill, h0, signum_eq_of_mul_pos h]

theorem applyFill_flip (h : p.size*sizeDelta < 0) (hn : p.size*(p.size+sizeDelta) < 0) :
    applyFill p sizeDelta fillPrice =
      (p.size*(fillPrice-p.entryPrice),⟨p.size+sizeDelta, fillPrice⟩) := by
  have h0 : p.size+sizeDelta ≠ 0 := right_ne_zero_of_mul hn.ne
  simp [applyFill, h0, signum_ne_of_mul_neg h, signum_ne_of_mul_neg hn]

theorem applyFill_reduce (h : p.size*sizeDelta < 0) (hn : 0 < p.size*(p.size+sizeDelta)) :
    applyFill p sizeDelta fillPrice =
      (-sizeDelta*(fillPrice-p.entryPrice),⟨p.size+sizeDelta, p.entryPrice⟩) := by
  have h0 : p.size+sizeDelta ≠ 0 := right_ne_zero_of_mul hn.ne'
  have hclosed : signum p.size*|sizeDelta| = -sizeDelta := by
    rcases mul_neg_iff.mp h with ⟨hs, hd⟩ | ⟨hs, hd⟩
    · rw [signum_of_pos hs, abs_of_neg hd, one_mul]
    · rw [signum_of_neg hs, abs_of_pos hd, neg_one_mul]
  have hsame : signum p.size = signum (p.size+sizeDelta) := signum_eq_of_mul_pos hn
  have hflip : ¬ signum p.size ≠ signum (p.size+sizeDelta) := not_not_intro hsame
  simp only [applyFill, if_neg h0, if_neg (signum_ne_of_mul_neg h), if_neg hflip, hclosed]

end Cases

/-- The collateral that a position asks for to be healthy by itself. -/
def requirement (p : Position) (mark : ℚ) (params : MarketParams) : ℚ :=
  maintenanceMargin p mark params-unrealisedPnl p mark

/-- A position with a positive margin is liquidatable when the collateral is below what it
asks for; where a negative mark makes the margin negative, the comparison turns round. -/
theorem healthFactor_lt_one {p : Position} {mark collateral : ℚ} {params : MarketParams} :
    (∃ h, healthFactor p mark collateral params = some h ∧ h < 1) ↔
      0 < maintenanceMargin p mark params ∧ collateral < requirement p mark params ∨
      maintenanceMargin p mark params < 0 ∧ requirement p mark params < collateral := by
  unfold healthFactor requirement
  rcases lt_trichotomy (maintenanceMargin p mark params) 0 with hneg | hzero | hpos
  · simp [hneg, hneg.ne, hneg.not_gt, div_lt_one_of_neg hneg, sub_lt_iff_lt_add]
  · simp [hzero]
  · simp [hpos, hpos.ne', hpos.not_gt, div_lt_one hpos, lt_sub_iff_add_lt]

end Perplex.Margin
