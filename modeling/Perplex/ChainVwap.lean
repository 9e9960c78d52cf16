import Perplex.ChainConservation
import Perplex.MarginMath

/-! `PositionRegistry` against `perplex-core`. A shadow position runs `apply_fill` in exact
arithmetic on the registry's fills; the sizes stay equal, the entry prices drift apart by
less than one unit for each same-side add, and the realised PnL by what the closed quantity
makes of that, plus its own truncation. -/
namespace Perplex.Chain

/-- The position as `perplex-core` keeps it, and the number of same-side adds since it was
last opened or flipped. -/
structure Shadow where
  position : Margin.Position
  adds : ℕ

namespace Shadow

def new : Shadow := ⟨⟨0, 0⟩, 0⟩

/-- `apply_fill` on the values of the registry's fill divided by `1e18`. -/
def applyFill (x : Shadow) (sizeDelta : ℤ) (priceX18 : ℕ) : ℚ × Margin.Position :=
  Margin.applyFill x.position ((sizeDelta:ℚ)/E18) ((priceX18:ℚ)/E18)

def fill (x : Shadow) (sizeDelta : ℤ) (priceX18 : ℕ) : Shadow :=
  let after := (x.applyFill sizeDelta priceX18).2
  if 0 < x.position.size*((sizeDelta:ℚ)/E18) then ⟨after, x.adds+1⟩
  else if 0 < x.position.size*after.size then ⟨after, x.adds⟩
  else ⟨after, 0⟩

end Shadow

/-- The quantity of a position that a fill closes. -/
def closedQty (size sizeDelta : ℤ) : ℕ :=
  if size*sizeDelta < 0 then min size.natAbs sizeDelta.natAbs else 0

/-- A registry call, with the shadow of one user's position in one market. -/
def Registry.execShadowed (d : Deployment) (user : Address) (market : MarketId)
    (x : Registry × Shadow) (c : RegistryCall) : Tx (Registry × Shadow) := do
  let r ← x.1.exec d c
  match c with
  | .applyFill _ _ u m sizeDelta priceX18 =>
    return (r,if u = user ∧ m = market then x.2.fill sizeDelta priceX18 else x.2)
  | .updateFunding _ _ _ => return (r,x.2)

/-- The registry's position and its shadow: equal sizes, and an entry price that is below the
exact one by at most the number of adds. -/
structure Position.Refines (p : Position) (x : Shadow) : Prop where
  size : (p.size:ℚ) = E18*x.position.size
  entry_le : (p.entryPriceX18:ℚ) ≤ E18*x.position.entryPrice
  entry_error : E18*x.position.entryPrice-p.entryPriceX18 ≤ x.adds
  flat : p.size = 0 → p.entryPriceX18 = 0 ∧ x.position.entryPrice = 0

namespace Position

/-- What a truncated PnL on an entry price that is off by at most `k` is off by. -/
theorem pnl_error (q : ℤ) (price : ℕ) {entry k : ℕ} {exact : ℚ} (hle : (entry:ℚ) ≤ E18*exact)
    (herr : E18*exact-entry ≤ k) :
    |((q*((price:ℤ)-entry)).tdiv E18:ℚ)-E18*((q:ℚ)/E18*((price:ℚ)/E18-exact))| ≤
      (q.natAbs:ℚ)*k/E18+1 := by
  have hE := E18_pos
  -- two sources of error: the truncated division, and the entry price it starts from
  have htrunc : |((q*((price:ℤ)-entry)).tdiv E18:ℚ)-((q*((price:ℤ)-entry) : ℤ):ℚ)/E18| ≤ 1 :=
    (abs_tdiv_sub_lt_one _ (by norm_num [E18])).le
  have hdrift : |((q*((price:ℤ)-entry) : ℤ):ℚ)/E18-E18*((q:ℚ)/E18*((price:ℚ)/E18-exact))| ≤
      (q.natAbs:ℚ)*k/E18 := by
    have heq : ((q*((price:ℤ)-entry) : ℤ):ℚ)/E18-E18*((q:ℚ)/E18*((price:ℚ)/E18-exact)) =
        q*(E18*exact-entry)/E18 := by
      push_cast
      field_simp
      ring
    rw [heq, abs_div, abs_mul, abs_of_pos hE, abs_of_nonneg (sub_nonneg.mpr hle),
      Nat.cast_natAbs, Int.cast_abs]
    gcongr
  calc _ ≤ |((q*((price:ℤ)-entry)).tdiv E18:ℚ)-((q*((price:ℤ)-entry) : ℤ):ℚ)/E18|+
        |((q*((price:ℤ)-entry) : ℤ):ℚ)/E18-E18*((q:ℚ)/E18*((price:ℚ)/E18-exact))| :=
      abs_sub_le _ _ _
    _ ≤ (q.natAbs:ℚ)*k/E18+1 := by linarith

/-- Averaging the entry price adds at most one to its error. -/
theorem average_error (price : ℕ) {size sizeDelta : ℤ} {entry k : ℕ} {exact : ℚ}
    (hn : (size+sizeDelta).natAbs = size.natAbs+sizeDelta.natAbs) (h0 : size+sizeDelta ≠ 0)
    (hle : (entry:ℚ) ≤ E18*exact) (herr : E18*exact-entry ≤ k) :
    let average : ℕ := (size.natAbs*entry+sizeDelta.natAbs*price)/(size+sizeDelta).natAbs
    let exact' : ℚ := (|(size:ℚ)/E18| * exact+|(sizeDelta:ℚ)/E18| * ((price:ℚ)/E18))/
      |((size:ℚ)+sizeDelta)/E18|
    (average:ℚ) ≤ E18*exact' ∧ E18*exact'-average ≤ (k:ℚ)+1 := by
  intro average exact'
  have hE := E18_pos
  have hpos : 0 < (size+sizeDelta).natAbs := Int.natAbs_pos.mpr h0
  obtain ⟨hlo, hhi⟩ := natDiv_le_and_lt (size.natAbs*entry+sizeDelta.natAbs*price) hpos
  have habs (z : ℤ) : |(z:ℚ)/E18| = (z.natAbs:ℚ)/E18 := by
    rw [abs_div, abs_of_pos hE, Nat.cast_natAbs, Int.cast_abs]
  have hsum : |((size:ℚ)+sizeDelta)/E18| = ((size+sizeDelta).natAbs:ℚ)/E18 := by
    rw [← habs, Int.cast_add]
  have hN : (0:ℚ) < (size+sizeDelta).natAbs := by exact_mod_cast hpos
  have hexact : E18*exact' = ((size.natAbs:ℚ)*(E18*exact)+sizeDelta.natAbs*price)/
      (size+sizeDelta).natAbs := by
    unfold exact'
    rw [habs, habs, hsum]
    field_simp
  -- the older error is weighted by the share of the older size
  have hshare : (size.natAbs:ℚ) ≤ (size+sizeDelta).natAbs := by
    exact_mod_cast hn ▸ Nat.le_add_right _ _
  have hgap : E18*exact'-((size.natAbs*entry+sizeDelta.natAbs*price : ℕ):ℚ)/
      (size+sizeDelta).natAbs = (size.natAbs:ℚ)*(E18*exact-entry)/(size+sizeDelta).natAbs := by
    rw [hexact]
    push_cast
    ring
  have hgap0 : 0 ≤ (size.natAbs:ℚ)*(E18*exact-entry)/(size+sizeDelta).natAbs := by
    have := sub_nonneg.mpr hle
    positivity
  have hgapk : (size.natAbs:ℚ)*(E18*exact-entry)/(size+sizeDelta).natAbs ≤ k := by
    rw [div_le_iff₀ hN, mul_comm (k:ℚ)]
    exact mul_le_mul hshare herr (sub_nonneg.mpr hle) hN.le
  constructor
  · linarith
  · linarith

theorem scaled_mul_pos {a b : ℤ} : 0 < (a:ℚ)/E18*((b:ℚ)/E18) ↔ 0 < a*b := by
  have hE := E18_pos
  rw [div_mul_div_comm, div_pos_iff_of_pos_right (mul_pos hE hE)]
  exact_mod_cast Iff.rfl

theorem scaled_mul_neg {a b : ℤ} : (a:ℚ)/E18*((b:ℚ)/E18) < 0 ↔ a*b < 0 := by
  have hneg : (a:ℚ)/E18*((b:ℚ)/E18) = -((a:ℚ)/E18*(((-b : ℤ):ℚ)/E18)) := by
    push_cast
    ring
  rw [hneg, neg_lt_zero, scaled_mul_pos, mul_neg, neg_pos]

theorem mul_pos_of_iff {a b : ℤ} (ha : a ≠ 0) (hb : b ≠ 0) (h : 0 < a ↔ 0 < b) :
    0 < a*b := by
  rcases lt_or_gt_of_ne ha with hneg | hpos
  · exact mul_pos_of_neg_of_neg hneg (by omega)
  · exact mul_pos hpos (h.mp hpos)

theorem mul_neg_of_not_iff {a b : ℤ} (ha : a ≠ 0) (hb : b ≠ 0) (h : ¬ (0 < a ↔ 0 < b)) :
    a*b < 0 := by
  rcases lt_or_gt_of_ne ha with hneg | hpos
  · exact mul_neg_of_neg_of_pos hneg (by omega)
  · exact mul_neg_of_pos_of_neg hpos (by omega)

theorem dropEntry_of_ne {p : Position} (h : p.size ≠ 0) : p.dropEntry = p := if_neg h

namespace Refines
variable {p : Position} {x : Shadow} {sizeDelta : ℤ} {priceX18 : ℕ}

theorem size_div (hx : p.Refines x) : x.position.size = (p.size:ℚ)/E18 := by
  have hE := E18_pos
  rw [hx.size]
  field_simp

theorem size_add (hx : p.Refines x) (sizeDelta : ℤ) :
    x.position.size+(sizeDelta:ℚ)/E18 = ((p.size+sizeDelta : ℤ):ℚ)/E18 := by
  rw [hx.size_div]
  push_cast
  ring

theorem unscale (q : ℤ) : E18*((q:ℚ)/E18) = q := by
  have hE := E18_pos
  field_simp

/-- The shadow takes the new position and keeps, raises or drops its count. -/
theorem fill_eq (hx : p.Refines x) {realised : ℚ} {after : Margin.Position} {newSize : ℤ}
    (happly : x.applyFill sizeDelta priceX18 = (realised,after))
    (hafter : after.size = (newSize:ℚ)/E18) : x.fill sizeDelta priceX18 = ⟨after,
      if 0 < p.size*sizeDelta then x.adds+1 else if 0 < p.size*newSize then x.adds else 0⟩ := by
  simp only [Shadow.fill, happly, hafter, hx.size_div, scaled_mul_pos]
  split_ifs <;> rfl

theorem close (hx : p.Refines x) (h0 : p.size+sizeDelta = 0) (hd : sizeDelta ≠ 0) :
    ({ p with size := 0 } : Position).dropEntry.Refines (x.fill sizeDelta priceX18) ∧
      |(p.pnlAt priceX18:ℚ)-E18*(x.applyFill sizeDelta priceX18).1| ≤
        (closedQty p.size sizeDelta:ℚ)*x.adds/E18+1 := by
  have hlt : p.size*sizeDelta < 0 := by
    have hneg : sizeDelta = -p.size := by omega
    have hne : p.size ≠ 0 := by omega
    rw [hneg, mul_neg, neg_neg_iff_pos]
    exact mul_self_pos.mpr hne
  have happly : x.applyFill sizeDelta priceX18 =
      (x.position.size*((priceX18:ℚ)/E18-x.position.entryPrice),⟨0, 0⟩) := by
    apply Margin.applyFill_close
    rw [hx.size_add, h0]
    simp
  -- the shadow is flat again and its count starts over
  have hzero : (0:ℚ) = ((0 : ℤ):ℚ)/E18 := by simp
  have hfill := hx.fill_eq happly hzero
  rw [mul_zero, if_neg (lt_irrefl 0), if_neg hlt.not_gt] at hfill
  -- the whole position is closed
  have hclosed : closedQty p.size sizeDelta = p.size.natAbs := by
    rw [closedQty, if_pos hlt]
    omega
  rw [hfill, happly, hclosed]
  constructor
  · exact ⟨by simp, by simp [dropEntry], by simp [dropEntry], by simp [dropEntry]⟩
  · rw [hx.size_div]
    exact pnl_error p.size priceX18 hx.entry_le hx.entry_error

theorem openNew (hx : p.Refines x) (h0 : p.size = 0) (hd : sizeDelta ≠ 0) :
    ({ p with size := sizeDelta, entryPriceX18 := priceX18 } : Position).dropEntry.Refines
        (x.fill sizeDelta priceX18) ∧
      |((0:ℤ):ℚ)-E18*(x.applyFill sizeDelta priceX18).1| ≤
        (closedQty p.size sizeDelta:ℚ)*x.adds/E18+1 := by
  have hE := E18_pos
  have hd' : (sizeDelta:ℚ)/E18 ≠ 0 := div_ne_zero (Int.cast_ne_zero.mpr hd) hE.ne'
  have happly : x.applyFill sizeDelta priceX18 =
      (0,⟨(sizeDelta:ℚ)/E18, (priceX18:ℚ)/E18⟩) := by
    apply Margin.applyFill_open _ hd'
    rw [hx.size_div, h0]
    simp
  rw [hx.fill_eq happly rfl, happly, dropEntry_of_ne hd]
  have hprice : (E18:ℚ)*((priceX18:ℚ)/E18) = priceX18 := unscale priceX18
  constructor
  · refine ⟨(unscale sizeDelta).symm, hprice.ge, ?_, fun h => absurd h hd⟩
    rw [hprice, sub_self]
    positivity
  · rw [Int.cast_zero, mul_zero, sub_zero, abs_zero]
    positivity

theorem add (hx : p.Refines x) (hold : p.size ≠ 0) (h0 : p.size+sizeDelta ≠ 0)
    (hs : 0 < p.size ↔ 0 < sizeDelta) (hd : sizeDelta ≠ 0) :
    ({ p with
        size := p.size+sizeDelta
        entryPriceX18 := (p.size.natAbs*p.entryPriceX18+sizeDelta.natAbs*priceX18)/
          (p.size+sizeDelta).natAbs } : Position).dropEntry.Refines
        (x.fill sizeDelta priceX18) ∧
      |((0:ℤ):ℚ)-E18*(x.applyFill sizeDelta priceX18).1| ≤
        (closedQty p.size sizeDelta:ℚ)*x.adds/E18+1 := by
  have hpos : 0 < p.size*sizeDelta := mul_pos_of_iff hold hd hs
  have h0' : x.position.size+(sizeDelta:ℚ)/E18 ≠ 0 := by
    rw [hx.size_add]
    exact div_ne_zero (Int.cast_ne_zero.mpr h0) E18_pos.ne'
  have hpos' : 0 < x.position.size*((sizeDelta:ℚ)/E18) := by
    rw [hx.size_div]
    exact scaled_mul_pos.mpr hpos
  have happly : x.applyFill sizeDelta priceX18 = _ := Margin.applyFill_add hpos' h0'
  rw [hx.fill_eq happly (hx.size_add sizeDelta), happly, if_pos hpos, dropEntry_of_ne h0]
  -- nothing is realised; the entry price is averaged, which costs one more unit
  obtain ⟨hle, herr⟩ := average_error priceX18 (by omega) h0 hx.entry_le hx.entry_error
  constructor
  · refine ⟨?_, ?_, ?_, fun h => absurd h h0⟩
    · rw [hx.size_add]
      exact (unscale _).symm
    · rw [hx.size_add, hx.size_div, Int.cast_add]
      exact hle
    · rw [hx.size_add, hx.size_div, Int.cast_add, Nat.cast_add, Nat.cast_one]
      exact herr
  · rw [Int.cast_zero, mul_zero, sub_zero, abs_zero]
    positivity

theorem flip (hx : p.Refines x) (hold : p.size ≠ 0) (hs : ¬ (0 < p.size ↔ 0 < sizeDelta))
    (h0 : p.size+sizeDelta ≠ 0) (hn : ¬ (0 < p.size ↔ 0 < p.size+sizeDelta))
    (hd : sizeDelta ≠ 0) :
    ({ p with size := p.size+sizeDelta, entryPriceX18 := priceX18 } : Position).dropEntry.Refines
        (x.fill sizeDelta priceX18) ∧
      |(p.pnlAt priceX18:ℚ)-E18*(x.applyFill sizeDelta priceX18).1| ≤
        (closedQty p.size sizeDelta:ℚ)*x.adds/E18+1 := by
  have hlt : p.size*sizeDelta < 0 := mul_neg_of_not_iff hold hd hs
  -- the overshoot is on the other side, at the price of the fill and with a fresh count
  have hflip : p.size*(p.size+sizeDelta) < 0 := mul_neg_of_not_iff hold h0 hn
  have hlt' : x.position.size*((sizeDelta:ℚ)/E18) < 0 := by
    rw [hx.size_div]
    exact scaled_mul_neg.mpr hlt
  have hflip' : x.position.size*(x.position.size+(sizeDelta:ℚ)/E18) < 0 := by
    rw [hx.size_add, hx.size_div]
    exact scaled_mul_neg.mpr hflip
  have happly : x.applyFill sizeDelta priceX18 = _ := Margin.applyFill_flip hlt' hflip'
  have hfill := hx.fill_eq happly (hx.size_add sizeDelta)
  rw [if_neg hlt.not_gt, if_neg hflip.not_gt] at hfill
  have hclosed : closedQty p.size sizeDelta = p.size.natAbs := by
    rw [closedQty, if_pos hlt]
    omega
  have hprice : (E18:ℚ)*((priceX18:ℚ)/E18) = priceX18 := unscale priceX18
  rw [hfill, happly, hclosed, dropEntry_of_ne h0]
  constructor
  · refine ⟨?_, hprice.ge, ?_, fun h => absurd h h0⟩
    · rw [hx.size_add]
      exact (unscale _).symm
    · rw [hprice, sub_self]
      exact le_of_eq Nat.cast_zero.symm
  · rw [hx.size_div]
    exact pnl_error p.size priceX18 hx.entry_le hx.entry_error

theorem reduce (hx : p.Refines x) (hold : p.size ≠ 0) (hs : ¬ (0 < p.size ↔ 0 < sizeDelta))
    (h0 : p.size+sizeDelta ≠ 0) (hn : 0 < p.size ↔ 0 < p.size+sizeDelta)
    (hd : sizeDelta ≠ 0) :
    ({ p with size := p.size+sizeDelta } : Position).dropEntry.Refines
        (x.fill sizeDelta priceX18) ∧
      |((-sizeDelta*((priceX18:ℤ)-p.entryPriceX18)).tdiv E18:ℚ)-
        E18*(x.applyFill sizeDelta priceX18).1| ≤
        (closedQty p.size sizeDelta:ℚ)*x.adds/E18+1 := by
  have hlt : p.size*sizeDelta < 0 := mul_neg_of_not_iff hold hd hs
  have hkeep : 0 < p.size*(p.size+sizeDelta) := mul_pos_of_iff hold h0 hn
  have hlt' : x.position.size*((sizeDelta:ℚ)/E18) < 0 := by
    rw [hx.size_div]
    exact scaled_mul_neg.mpr hlt
  have hkeep' : 0 < x.position.size*(x.position.size+(sizeDelta:ℚ)/E18) := by
    rw [hx.size_add, hx.size_div]
    exact scaled_mul_pos.mpr hkeep
  have happly : x.applyFill sizeDelta priceX18 = _ := Margin.applyFill_reduce hlt' hkeep'
  have hfill := hx.fill_eq happly (hx.size_add sizeDelta)
  rw [if_neg hlt.not_gt, if_pos hkeep] at hfill
  -- only the fill's own quantity is closed, and the entry price stays
  have hclosed : closedQty p.size sizeDelta = (-sizeDelta).natAbs := by
    rw [closedQty, if_pos hlt]
    omega
  have hneg : -((sizeDelta:ℚ)/E18) = ((-sizeDelta : ℤ):ℚ)/E18 := by
    push_cast
    ring
  rw [hfill, happly, hclosed, dropEntry_of_ne h0]
  constructor
  · refine ⟨?_, hx.entry_le, hx.entry_error, fun h => absurd h h0⟩
    rw [hx.size_add]
    exact (unscale _).symm
  · rw [hneg]
    exact pnl_error (-sizeDelta) priceX18 hx.entry_le hx.entry_error

end Refines

/-- One fill keeps the relation, and its PnL is as exact as the entry price was before. -/
theorem VwapStep.refines {p p' : Position} {x : Shadow} {sizeDelta realised : ℤ} {priceX18 : ℕ}
    (h : VwapStep p sizeDelta priceX18 realised p') (hx : p.Refines x) (hd : sizeDelta ≠ 0) :
    p'.dropEntry.Refines (x.fill sizeDelta priceX18) ∧
      |(realised:ℚ)-E18*(x.applyFill sizeDelta priceX18).1| ≤
        (closedQty p.size sizeDelta:ℚ)*x.adds/E18+1 := by
  cases h with
  | close h0 => exact hx.close h0 hd
  | openNew h0 _ => exact hx.openNew h0 hd
  | add hold h0 hs => exact hx.add hold h0 hs hd
  | flip hold hs h0 hn => exact hx.flip hold hs h0 hn hd
  | reduce hold hs h0 hn => exact hx.reduce hold hs h0 hn hd

/-- The relation does not look at the funding snapshot. -/
theorem Refines.withFunding {p : Position} {x : Shadow} (hx : p.Refines x) (idx : ℤ) :
    ({ p with cumulativeFunding := idx } : Position).Refines x :=
  ⟨hx.size, hx.entry_le, hx.entry_error, hx.flat⟩

end Position

namespace Registry
variable {d : Deployment} {user : Address} {market : MarketId} {x x' : Registry × Shadow}

theorem FillStep.refines {r r' : Registry} {sh : Shadow} {ms : Markets} {sizeDelta : ℤ}
    {priceX18 : ℕ} {realised funding : ℤ}
    (h : r.FillStep ms user market sizeDelta priceX18 realised funding r')
    (hr : (r.positions user market).Refines sh) :
    (r'.positions user market).Refines (sh.fill sizeDelta priceX18) ∧
      |(realised:ℚ)-E18*(sh.applyFill sizeDelta priceX18).1| ≤
        (closedQty (r.positions user market).size sizeDelta:ℚ)*sh.adds/E18+1 := by
  obtain ⟨p, hstep, hpos⟩ := h.position
  rw [hpos, update₂_same]
  exact hstep.refines (hr.withFunding _) h.delta_ne

theorem execShadowed_refines {c : RegistryCall}
    (hx : (x.1.positions user market).Refines x.2)
    (h : execShadowed d user market x c = .ok x') :
    (x'.1.positions user market).Refines x'.2 := by
  simp only [execShadowed, chain_ok_iff] at h
  obtain ⟨r, hr, h⟩ := h
  cases c with
  | applyFill ms sender u m sizeDelta priceX18 =>
    simp only [tx_pure_eq_ok] at h
    subst h
    obtain ⟨realised, funding, hfill⟩ := exec_applyFill_eq_ok.mp hr
    have hstep := applyFill_ok hfill
    by_cases hum : u = user ∧ m = market
    · obtain ⟨rfl, rfl⟩ := hum
      simp only [and_self, if_true]
      exact (hstep.refines hx).1
    · -- a fill of another position leaves this one and its shadow as they are
      obtain ⟨p, -, hpos⟩ := hstep.position
      have hoff : ¬ (user = u ∧ market = m) := fun he => hum ⟨he.1.symm, he.2.symm⟩
      simp only [if_neg hum, hpos, update₂_apply, if_neg hoff]
      exact hx
  | updateFunding sender m newIndex =>
    simp only [tx_pure_eq_ok] at h
    subst h
    obtain ⟨-, rfl⟩ := updateFunding_eq_ok.mp hr
    exact hx

theorem run_refines (d : Deployment) (user : Address) (market : MarketId)
    (calls : List RegistryCall) :
    let x := runAll (execShadowed d user market) (new,Shadow.new) calls
    (x.1.positions user market).Refines x.2 := by
  have hstart : ((new,Shadow.new).1.positions user market).Refines (new,Shadow.new).2 :=
    ⟨by simp [new, Shadow.new], by simp [new, Shadow.new], by simp [new, Shadow.new],
      by simp [new, Shadow.new]⟩
  have hall : ∀ c ∈ calls, True := fun _ _ => trivial
  exact runAll_invariant (P := fun x => (x.1.positions user market).Refines x.2)
    (fun _ _ _ hx _ h => execShadowed_refines hx h) hstart hall

end Registry

/-- After every run of fills and funding updates, the registry's position and the exact run
of `apply_fill` have the same size, the entry prices differ by at most the number of adds,
and both are zero on a flat position; every further fill realises a PnL within the closed
quantity times that number, plus one unit, of the exact one. -/
theorem registry_refines_margin (d : Deployment) (user : Address) (market : MarketId)
    (calls : List RegistryCall) :
    let x := runAll (Registry.execShadowed d user market) (Registry.new,Shadow.new) calls
    let p : Position := x.1.positions user market
    let exact : Margin.Position := x.2.position
    (p.size:ℚ) = E18*exact.size ∧
      0 ≤ E18*exact.entryPrice-p.entryPriceX18 ∧
      E18*exact.entryPrice-p.entryPriceX18 ≤ x.2.adds ∧
      (p.size = 0 → p.entryPriceX18 = 0 ∧ exact.entryPrice = 0) ∧
      ∀ (markets : Markets) (sender : Address) (sizeDelta : ℤ) (priceX18 : ℕ)
        (realised funding : ℤ) (r' : Registry),
        x.1.applyFill d markets sender user market sizeDelta priceX18 =
          .ok (realised,funding,r') →
        |(realised:ℚ)-E18*(Margin.applyFill exact ((sizeDelta:ℚ)/E18)
          ((priceX18:ℚ)/E18)).1| ≤ (closedQty p.size sizeDelta:ℚ)*x.2.adds/E18+1 := by
  intro x p exact
  have h : p.Refines x.2 := Registry.run_refines d user market calls
  refine ⟨h.size, sub_nonneg.mpr h.entry_le, h.entry_error, h.flat, ?_⟩
  intro ms sender sizeDelta priceX18 realised funding r' hfill
  exact ((Registry.applyFill_ok hfill).refines h).2

def btcListed : Markets := ⟨fun market => if market = 1 then some btcParams else none⟩

/-- User 101 buys one contract at 100 and two more a unit above; the average is rounded. -/
def addedLong : List RegistryCall :=
  [RegistryCall.applyFill btcListed 4 101 1 (10^18) (100*10^18),
   RegistryCall.applyFill btcListed 4 101 1 (2*10^18) (100*10^18+1)]

theorem registry_refines_margin_addedLong :
    let x := runAll (Registry.execShadowed devnet 101 1) (Registry.new,Shadow.new) addedLong
    x.2.adds = 1 ∧ closedQty (x.1.positions 101 1).size (-3*10^18) = 3*10^18 ∧
      ∃ (realised funding : ℤ) (r' : Registry),
        x.1.applyFill devnet btcListed 4 101 1 (-3*10^18) (110*10^18) =
          .ok (realised,funding,r') ∧
        |(realised:ℚ)-E18*(Margin.applyFill x.2.position (((-3*10^18 : ℤ):ℚ)/E18)
          (((110*10^18 : ℕ):ℚ)/E18)).1| ≤
            (closedQty (x.1.positions 101 1).size (-3*10^18):ℚ)*x.2.adds/E18+1 := by
  intro x
  have hok : (x.1.applyFill devnet btcListed 4 101 1 (-3*10^18) (110*10^18)).isOk = true := by
    decide +kernel
  refine ⟨by decide +kernel, by decide +kernel, ?_⟩
  cases hfill : x.1.applyFill devnet btcListed 4 101 1 (-3*10^18) (110*10^18) with
  | error e =>
    rw [hfill] at hok
    exact absurd hok (by simp [Except.isOk, Except.toBool])
  | ok y =>
    obtain ⟨realised, funding, r'⟩ := y
    have h := registry_refines_margin devnet 101 1 addedLong
    exact ⟨realised, funding, r', rfl, h.2.2.2.2 btcListed 4 _ _ realised funding r' hfill⟩

end Perplex.Chain
