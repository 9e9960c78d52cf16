import Perplex.Accounting
import Perplex.EdgeExact

/-! Equity of an account along a fill: vault balance plus unrealised PnL. The fill loop
charges the fee and rewrites the position; the PnL of the part it closes goes nowhere. -/
namespace Perplex.Edge

theorem trunc_neg (x : ℚ) : trunc (-x) = -trunc x := by
  unfold trunc
  rw [Rat.num_neg_eq_neg_num, Rat.den_neg_eq_den, Int.neg_tdiv]

/-- What storing a price to eighteen places cuts off. -/
def cut (price : ℚ) : ℚ := price-unscaleX18 (scaleX18 price)

theorem abs_cut_lt (price : ℚ) : |cut price| < 1/10^18 := by
  set x := price*10^18 with hx
  have htrunc : |(trunc x:ℚ)-x| < 1 := by
    have h := abs_tdiv_sub_lt_one x.num x.den_pos
    rwa [Rat.num_div_den] at h
  have hcut : cut price = -((trunc x:ℚ)-x)/10^18 := by
    unfold cut unscaleX18 scaleX18
    rw [← hx, hx]
    field_simp
    ring
  rw [hcut, abs_div, abs_neg, abs_of_pos (by norm_num : (0:ℚ) < 10^18)]
  gcongr

/-- Unrealised PnL of a list of positions, each at the mark of its market. -/
def pnlSum (marks : String → ℚ) (l : List PositionInfo) : ℚ :=
  (l.map fun p => p.pnl (marks p.marketId)).sum

/-- Vault balance plus unrealised PnL, in USDC. -/
def AppState.equity (s : AppState) (a : Address) (marks : String → ℚ) : ℚ :=
  s.vaultBalances a/10^6+pnlSum marks (s.positions a)

/-- The position a fill acts on. -/
def positionIn (marketId : String) (l : List PositionInfo) : Option PositionInfo :=
  l.find? fun p => p.marketId = marketId

section Fill
variable (marketId : String) (side : Side) (qty price : ℚ)

/-- PnL of the part of a position that a fill closes. -/
def PositionInfo.closedPnl (p : PositionInfo) : ℚ :=
  if p.side = side.position then
    if p.size+qty = 0 then side.sign*p.size*(price-unscaleX18 p.entryPriceX18) else 0
  else -side.sign*min qty p.size*(price-unscaleX18 p.entryPriceX18)

/-- Signed size and exact entry price of what the fill leaves in a position it rewrites. -/
def PositionInfo.reopened (p : PositionInfo) : ℚ × ℚ :=
  if p.side = side.position then
    if p.size+qty = 0 then (0,price)
    else (side.sign*(p.size+qty),
      (p.size*unscaleX18 p.entryPriceX18+qty*price)/(p.size+qty))
  else if qty ≤ p.size then (0,price)
  else (side.sign*(qty-p.size),price)

/-- The same for a list of positions; without one the fill opens it. -/
def closedPnl (l : List PositionInfo) : ℚ :=
  match positionIn marketId l with
  | none => 0
  | some p => p.closedPnl side qty price

def reopened (l : List PositionInfo) : ℚ × ℚ :=
  match positionIn marketId l with
  | none => (side.sign*qty,price)
  | some p => p.reopened side qty price

/-- PnL that the truncation of the stored entry price moves. -/
def residue (l : List PositionInfo) : ℚ :=
  (reopened marketId side qty price l).1*cut (reopened marketId side qty price l).2

variable {marketId side qty price}

theorem pnl_eq (p : PositionInfo) (mark : ℚ) :
    p.pnl mark = p.side.sign*p.size*(mark-unscaleX18 p.entryPriceX18) := by
  unfold PositionInfo.pnl PositionSide.sign
  cases p.side
  · ring
  · ring

theorem closedPnl_cons_of_ne {p : PositionInfo} (h : p.marketId ≠ marketId)
    (rest : List PositionInfo) :
    closedPnl marketId side qty price (p :: rest) = closedPnl marketId side qty price rest := by
  simp [closedPnl, positionIn, h]

theorem residue_cons_of_ne {p : PositionInfo} (h : p.marketId ≠ marketId)
    (rest : List PositionInfo) :
    residue marketId side qty price (p :: rest) = residue marketId side qty price rest := by
  simp [residue, reopened, positionIn, h]

theorem closedPnl_cons_self {p : PositionInfo} (h : p.marketId = marketId)
    (rest : List PositionInfo) :
    closedPnl marketId side qty price (p :: rest) = p.closedPnl side qty price := by
  simp [closedPnl, positionIn, h]

theorem residue_cons_self {p : PositionInfo} (h : p.marketId = marketId)
    (rest : List PositionInfo) :
    residue marketId side qty price (p :: rest) =
      (p.reopened side qty price).1*cut (p.reopened side qty price).2 := by
  simp [residue, reopened, positionIn, h]

/-- The PnL of a list of positions across a fill, at any marks. By induction along the
list; the branches are those of the source. -/
theorem pnlSum_applyPositionFill (now : ℕ) (marks : String → ℚ) (l : List PositionInfo) :
    pnlSum marks (applyPositionFill now marketId side qty price l) =
      pnlSum marks l+side.sign*qty*(marks marketId-price)-
        closedPnl marketId side qty price l+residue marketId side qty price l := by
  induction l with
  | nil =>
    simp only [applyPositionFill, pnlSum, List.map_cons, List.map_nil, List.sum_cons, List.sum_nil]
    simp only [pnl_eq, sign_position, closedPnl, residue, reopened, positionIn, cut, List.find?_nil]
    ring
  | cons p rest ih =>
    by_cases hm : p.marketId = marketId
    · rw [closedPnl_cons_self hm, residue_cons_self hm]
      unfold applyPositionFill
      rw [if_neg (by simpa using hm)]
      simp only [pnlSum]
      by_cases hside : p.side = side.position
      · rw [if_pos hside]
        simp only [List.map_cons, List.sum_cons, PositionInfo.closedPnl, PositionInfo.reopened,
          pnl_eq, hside, sign_position, hm]
        -- a position of negative size can be closed by adding to it
        by_cases hz : p.size+qty = 0
        · simp only [hz, ne_eq, not_true, if_false, if_true]
          have hsize : p.size = -qty := by linarith
          rw [hsize]
          ring
        · simp only [hz, ne_eq, not_false_iff, if_true, if_false, cut]
          field_simp
          ring
      · rw [if_neg hside]
        -- on the other side the fill reduces, closes or flips
        have hsign := sign_of_ne_position hside
        simp only [PositionInfo.closedPnl, PositionInfo.reopened, if_neg hside]
        by_cases hlt : qty < p.size
        · rw [if_pos hlt, if_pos hlt.le, min_eq_left hlt.le]
          simp only [List.map_cons, List.sum_cons, pnl_eq, hsign, hm]
          ring
        rw [if_neg hlt]
        by_cases heq : qty = p.size
        · rw [if_pos heq, if_pos heq.le, heq, min_self]
          simp only [List.map_cons, List.sum_cons, pnl_eq, hsign, hm]
          ring
        · have hgt : p.size < qty := lt_of_le_of_ne (not_lt.mp hlt) (Ne.symm heq)
          rw [if_neg heq, if_neg (not_le.mpr hgt), min_eq_right hgt.le]
          simp only [List.map_cons, List.sum_cons, pnl_eq, sign_position, hsign, hm, cut]
          ring
    · rw [closedPnl_cons_of_ne hm, residue_cons_of_ne hm]
      unfold applyPositionFill
      rw [if_pos hm]
      unfold pnlSum at *
      rw [List.map_cons, List.sum_cons, ih, List.map_cons, List.sum_cons]
      ring

theorem abs_residue_le (l : List PositionInfo) : |residue marketId side qty price l| ≤
    |(reopened marketId side qty price l).1|/10^18 := by
  unfold residue
  rw [abs_mul, div_eq_mul_one_div]
  exact mul_le_mul_of_nonneg_left (abs_cut_lt _).le (abs_nonneg _)

end Fill

theorem signum_sign_mul (side : Side) {x : ℚ} (h : 0 < x) :
    Margin.signum (side.sign*x) = side.sign := by
  cases side
  · exact Margin.signum_of_pos (by simpa [Side.sign] using h)
  · exact Margin.signum_of_neg (by simpa [Side.sign] using h)

theorem PositionInfo.core_eq (p : PositionInfo) :
    p.core = ⟨p.side.sign*p.size, unscaleX18 p.entryPriceX18⟩ := by
  unfold PositionInfo.core PositionSide.sign
  cases p.side <;> simp

/-- The closed part's PnL is what `apply_fill` returns for the same position and fill. -/
theorem closedPnl_eq_applyFill {p : PositionInfo} (hp : 0 < p.size) {side : Side}
    {qty : ℚ} (hq : 0 < qty) (price : ℚ) :
    p.closedPnl side qty price = (Margin.applyFill p.core (side.sign*qty) price).1 := by
  have hone := side.sign_ne_zero
  rw [PositionInfo.core_eq]
  unfold PositionInfo.closedPnl Margin.applyFill
  by_cases hside : p.side = side.position
  · have hpos : p.size+qty ≠ 0 := by linarith
    have hnew : side.sign*p.size+side.sign*qty ≠ 0 := by
      rw [← mul_add]
      exact mul_ne_zero hone hpos
    simp only [hside, if_true, sign_position, if_neg hpos, if_neg hnew, signum_sign_mul side hp,
      signum_sign_mul side hq]
  · have hsign := sign_of_ne_position hside
    have hold : Margin.signum (-side.sign*p.size) = -side.sign := by
      rw [← sign_opposite]
      exact signum_sign_mul side.opposite hp
    have hdiff : -side.sign ≠ side.sign := by cases side <;> norm_num [Side.sign]
    simp only [if_neg hside, hsign, hold, signum_sign_mul side hq, if_neg hdiff]
    -- `apply_fill` tells the three cases apart by the sign of what is left
    rcases lt_trichotomy qty p.size with hlt | heq | hgt
    · -- a reduction keeps the sign of the position
      have hleft : 0 < p.size-qty := sub_pos.mpr hlt
      have hsum : -side.sign*p.size+side.sign*qty = side.opposite.sign*(p.size-qty) := by
        rw [sign_opposite]
        ring
      have hne : side.opposite.sign*(p.size-qty) ≠ 0 := by
        rw [sign_opposite]
        exact mul_ne_zero (neg_ne_zero.mpr hone) hleft.ne'
      rw [hsum, if_neg hne, signum_sign_mul side.opposite hleft, sign_opposite,
        if_neg (fun h => h rfl), min_eq_left hlt.le, abs_mul, Side.abs_sign, abs_of_pos hq, one_mul]
    · rw [heq, min_self, if_pos (by ring)]
    · -- past its size the position flips to the side of the fill
      have hleft : 0 < qty-p.size := sub_pos.mpr hgt
      have hsum : -side.sign*p.size+side.sign*qty = side.sign*(qty-p.size) := by ring
      rw [hsum, if_neg (mul_ne_zero hone hleft.ne'), signum_sign_mul side hleft, if_pos hdiff,
        min_eq_right hgt.le]

/-- The account, side and charge of each party of a fill. -/
def Role.party (user : Address) (m : MatchedFill) : Role → Address
  | .taker => user
  | .maker => m.makerAddress

def Role.side (t : Taker) : Role → Side
  | .taker => t.side
  | .maker => t.side.opposite

def Role.tag : Role → FillRole
  | .taker => .taker
  | .maker => .maker

/-- Fee of the taker; the rebate of the maker is a negative charge. -/
def Role.charge (takerFeeBps : ℕ) (makerRebateBps : ℤ) (m : MatchedFill) : Role → ℚ
  | .taker => m.qty*m.price*takerFeeBps/10000
  | .maker => -(m.qty*m.price*makerRebateBps/10000)

/-- A balance after `adjust_vault`. -/
def adjusted (balance d : ℚ) : ℚ :=
  if d = 0 then balance
  else if balance+trunc (d*10^6) < 0 then 0 else balance+trunc (d*10^6)

/-- The part of a charge, in USDC units, that the clamp at zero waives. -/
def waived (balance charge : ℚ) : ℚ :=
  if charge = 0 then 0 else max 0 (trunc (charge*10^6)-balance)

theorem adjusted_neg (balance charge : ℚ) :
    adjusted balance (-charge) = balance-trunc (charge*10^6)+waived balance charge := by
  have htrunc : (trunc (-charge*10^6):ℚ) = -trunc (charge*10^6) := by
    rw [neg_mul, trunc_neg, Int.cast_neg]
  unfold adjusted waived
  by_cases h0 : charge = 0
  · rw [h0]
    simp [trunc]
  · rw [if_neg (neg_ne_zero.mpr h0), if_neg h0, htrunc]
    by_cases hlt : balance+ -(trunc (charge*10^6):ℚ) < 0
    · rw [if_pos hlt, max_eq_right (by linarith)]
      ring
    · rw [if_neg hlt, max_eq_left (by linarith)]
      ring

namespace AppState

theorem adjustVault_vaultBalances (s : AppState) (address : Address) (d : ℚ) :
    (s.adjustVault address d).vaultBalances =
      Function.update s.vaultBalances address (adjusted (s.vaultBalances address) d) := by
  unfold adjustVault adjusted
  by_cases h0 : d = 0
  · rw [if_pos h0, if_pos h0, Function.update_eq_self]
  · rw [if_neg h0, if_neg h0]

/-- What a settled fill does to each party. -/
theorem settleMatch_party (now orderId : ℕ) {user : Address} (t : Taker) (takerFeeBps : ℕ)
    (makerRebateBps : ℤ) (s : AppState) {m : MatchedFill} (hne : m.makerAddress ≠ user)
    (role : Role) :
    let s' := settleMatch now orderId user t takerFeeBps makerRebateBps s m
    let a := role.party user m
    let charge := role.charge takerFeeBps makerRebateBps m
    (∃ f : FillInfo, s'.fills a = s.fills a++[f] ∧ f.side = role.side t ∧ f.price = m.price ∧
      f.qty = m.qty ∧ f.role = role.tag ∧ f.feeUsdc = trunc (charge*10^6)) ∧
    s'.vaultBalances a = adjusted (s.vaultBalances a) (-charge) ∧
    s'.positions a = applyPositionFill now t.marketId (role.side t) m.qty m.price
      (s.positions a) := by
  cases role with
  | taker =>
    simp only [Role.party, Role.side, Role.charge, settleMatch, upsertPosition, recordTrade,
      recordFill, adjustVault_fills, adjustVault_positions, adjustVault_vaultBalances,
      Function.update_of_ne hne.symm, Function.update_self]
    exact ⟨⟨_, rfl, rfl, rfl, rfl, rfl, rfl⟩, trivial, trivial⟩
  | maker =>
    simp only [Role.party, Role.side, Role.charge, settleMatch, upsertPosition, recordTrade,
      recordFill, adjustVault_fills, adjustVault_positions, adjustVault_vaultBalances,
      Function.update_of_ne hne, Function.update_self, neg_neg]
    exact ⟨⟨_, rfl, rfl, rfl, rfl, rfl, rfl⟩, trivial, trivial⟩

/-- The equity of each party across a fill, at any marks. -/
theorem settleMatch_equity (now orderId : ℕ) {user : Address} (t : Taker) (takerFeeBps : ℕ)
    (makerRebateBps : ℤ) (s : AppState) {m : MatchedFill} (hne : m.makerAddress ≠ user)
    (role : Role) (marks : String → ℚ) :
    let s' := settleMatch now orderId user t takerFeeBps makerRebateBps s m
    let a := role.party user m
    let side := role.side t
    let charge := role.charge takerFeeBps makerRebateBps m
    s'.equity a marks = s.equity a marks+side.sign*m.qty*(marks t.marketId-m.price)-
      trunc (charge*10^6)/10^6-closedPnl t.marketId side m.qty m.price (s.positions a)+
      waived (s.vaultBalances a) charge/10^6+
      residue t.marketId side m.qty m.price (s.positions a) := by
  obtain ⟨-, hv, hp⟩ := settleMatch_party now orderId t takerFeeBps makerRebateBps s hne role
  dsimp only at hv hp ⊢
  unfold equity
  rw [hv, hp, pnlSum_applyPositionFill, adjusted_neg]
  ring

end AppState

/-- After the trade, account 2 bids for the contract at a higher price. -/
def roundTrip : List Cmd :=
  openTrade++[Cmd.placeOrder (twoAccounts 2) 2 (btcOrder "buy" "limit" (some 100050) 1)]

def takeProfit : Cmd := .placeOrder (twoAccounts 3) 1 (btcOrder "sell" "limit" (some 100050) 1)

/-- The opening buy of the round trip, as it is placed. -/
def openingBuy : Taker := ⟨"btc-usd", .buy, .limit, some 100000, 1, false, false, none⟩

end Perplex.Edge
