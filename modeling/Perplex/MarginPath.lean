import Mathlib.Algebra.BigOperators.Group.List.Basic
import Perplex.MarginMath

/-! PnL along a run of fills. What a fill realises depends on the branch it takes and on the
average entry that the fills before it have left; with what is unrealised at any mark, the sum is
that of the fills, each against the mark. -/
namespace Perplex.Margin

structure Fill where
  sizeDelta : ℚ
  fillPrice : ℚ
deriving DecidableEq, Repr

/-- The realised PnL of some fills, one after the other, and the position they leave. -/
def applyFills (p : Position) : List Fill → ℚ × Position
  | [] => (0,p)
  | f :: fs =>
    let (realised,p) := applyFill p f.sizeDelta f.fillPrice
    let (rest,p) := applyFills p fs
    (realised+rest,p)

/-- No position. -/
def Position.empty : Position := ⟨0, 0⟩

/-- Realised and unrealised PnL of some fills. -/
def totalPnl (fills : List Fill) (mark : ℚ) : ℚ :=
  (applyFills .empty fills).1+unrealisedPnl (applyFills .empty fills).2 mark

/-- The PnL of a fill by itself. -/
def Fill.pnl (mark : ℚ) (f : Fill) : ℚ := f.sizeDelta*(mark-f.fillPrice)

theorem unrealisedPnl_eq (p : Position) (mark : ℚ) :
    unrealisedPnl p mark = p.size*(mark-p.entryPrice) := by
  unfold unrealisedPnl
  split_ifs with h
  · rw [h, zero_mul]
  · rfl

/-- A fill of nothing realises nothing, and keeps what is unrealised. -/
theorem applyFill_nothing (p : Position) (fillPrice mark : ℚ) :
    (applyFill p 0 fillPrice).1 = 0 ∧
      unrealisedPnl (applyFill p 0 fillPrice).2 mark = unrealisedPnl p mark := by
  by_cases h : p.size = 0
  · rw [applyFill_close (by rw [h, add_zero])]
    simp [unrealisedPnl, h]
  · have hsign : signum p.size ≠ signum 0 := by
      rcases lt_or_gt_of_ne h with hneg | hpos
      · rw [signum_of_neg hneg]
        norm_num [signum]
      · rw [signum_of_pos hpos]
        norm_num [signum]
    simp [applyFill, h, hsign]

/-- One fill: what it realises is taken from what is unrealised, and its own PnL is added. -/
theorem applyFill_pnl (p : Position) (f : Fill) (mark : ℚ) :
    let r := applyFill p f.sizeDelta f.fillPrice
    r.1+unrealisedPnl r.2 mark = unrealisedPnl p mark+f.pnl mark := by
  obtain ⟨delta, price⟩ := f
  simp only [Fill.pnl]
  by_cases hclose : p.size+delta = 0
  · obtain rfl : delta = -p.size := by linarith
    rw [applyFill_close hclose, unrealisedPnl_eq, unrealisedPnl_eq]
    ring
  rcases lt_trichotomy (p.size*delta) 0 with hneg | hzero | hpos
  · -- against the position: it flips, or keeps its side
    have hsize : p.size ≠ 0 := left_ne_zero_of_mul hneg.ne
    rcases lt_or_gt_of_ne (mul_ne_zero hsize hclose) with hflip | hkeep
    · rw [applyFill_flip hneg hflip, unrealisedPnl_eq, unrealisedPnl_eq]
      ring
    · rw [applyFill_reduce hneg hkeep, unrealisedPnl_eq, unrealisedPnl_eq]
      ring
  · rcases mul_eq_zero.mp hzero with hsize | rfl
    · have hdelta : delta ≠ 0 := by rwa [hsize, zero_add] at hclose
      rw [applyFill_open hsize hdelta, unrealisedPnl_eq, unrealisedPnl_eq, hsize]
      ring
    · obtain ⟨hnone, hkept⟩ := applyFill_nothing p price mark
      rw [hnone, hkept]
      ring
  · -- the average entry is weighted by sizes of one sign
    have hnotional : (p.size+delta)*((|p.size| * p.entryPrice+|delta| * price)/|p.size+delta|) =
        p.size*p.entryPrice+delta*price := by
      rcases pos_and_pos_or_neg_and_neg_of_mul_pos hpos with ⟨h1, h2⟩ | ⟨h1, h2⟩
      · rw [abs_of_pos h1, abs_of_pos h2, abs_of_pos (add_pos h1 h2), mul_div_cancel₀ _ hclose]
      · rw [abs_of_neg h1, abs_of_neg h2, abs_of_neg (add_neg h1 h2)]
        field_simp
        ring
    rw [applyFill_add hpos hclose, unrealisedPnl_eq, unrealisedPnl_eq]
    dsimp only
    rw [mul_sub, hnotional]
    ring

section Run
variable (p : Position) (fills : List Fill)

/-- A run of fills, from any position. -/
theorem applyFills_pnl (mark : ℚ) :
    (applyFills p fills).1+unrealisedPnl (applyFills p fills).2 mark =
      unrealisedPnl p mark+(fills.map (Fill.pnl mark)).sum := by
  induction fills generalizing p with
  | nil => simp [applyFills]
  | cons f fs ih =>
    have hfill := applyFill_pnl p f mark
    have hrest := ih (applyFill p f.sizeDelta f.fillPrice).2
    rw [List.map_cons, List.sum_cons, applyFills]
    dsimp only at hfill ⊢
    rw [add_assoc, hrest, ← add_assoc, hfill, add_assoc]

theorem applyFills_size :
    (applyFills p fills).2.size = p.size+(fills.map Fill.sizeDelta).sum := by
  induction fills generalizing p with
  | nil => simp [applyFills]
  | cons f fs ih =>
    rw [List.map_cons, List.sum_cons, applyFills]
    dsimp only
    rw [ih, applyFill_size, add_assoc]

end Run

/-- From no position, the PnL at a mark is that of the fills by themselves; so it depends on the
order of the fills as little as the final size does. -/
theorem totalPnl_path_independent (fills : List Fill) (mark : ℚ) :
    totalPnl fills mark = (fills.map fun f => f.sizeDelta*(mark-f.fillPrice)).sum ∧
      ∀ fills' : List Fill, fills'.Perm fills →
        totalPnl fills' mark = totalPnl fills mark ∧
          (applyFills .empty fills').2.size = (applyFills .empty fills).2.size := by
  have htotal (fills : List Fill) : totalPnl fills mark = (fills.map (Fill.pnl mark)).sum := by
    rw [totalPnl, applyFills_pnl, unrealisedPnl_eq]
    simp [Position.empty]
  refine ⟨htotal fills, ?_⟩
  intro fills' hperm
  refine ⟨?_, ?_⟩
  · rw [htotal, htotal, (hperm.map _).sum_eq]
  · rw [applyFills_size, applyFills_size, (hperm.map _).sum_eq]

/-- A long that is flipped and closed again, and the fills the other way round. -/
def flipped : List Fill := [⟨2, 100⟩, ⟨-3, 110⟩, ⟨1, 90⟩]

theorem totalPnl_path_independent_flipped :
    totalPnl flipped 120 = 40 ∧ totalPnl flipped.reverse 120 = totalPnl flipped 120 ∧
      (applyFills .empty flipped.reverse).2.size = (applyFills .empty flipped).2.size :=
  ⟨by decide +kernel, (totalPnl_path_independent flipped 120).2 _ flipped.reverse_perm⟩

end Perplex.Margin
