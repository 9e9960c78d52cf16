import Perplex.Accounting
import Perplex.ChainInvariant
import Perplex.ChainRegistryRun

/-! Value is conserved up to rounding. The wealth of the system at any marks is the sum of
all balances and of the exact value of all positions; a fill moves it by the trade at the
mark, the fee and a bounded error, and paired fills cancel. -/
namespace Perplex.Chain

/-- The exact value of a position at a mark, less the funding it still owes. -/
def Position.value (p : Position) (idx : ℤ) (mark : ℚ) : ℚ :=
  p.size*(mark-p.entryPriceX18)/E18-(idx-p.cumulativeFunding)*p.size/E18

/-- Balances in 18 decimals and the value of every position. -/
def State.wealth (s : State) (mark : MarketId → ℚ) : ℚ :=
  ∑ u, (s.vault.balances u:ℚ)*USDC_TO_X18+
    ∑ u, ∑ m, (s.registry.positions u m).value (s.registry.marketIndexFunding m) (mark m)

/-- Net size of all positions of a market. -/
def State.netSize (s : State) (market : MarketId) : ℚ :=
  ∑ u, ((s.registry.positions u market).size:ℚ)

/-- The size of the position after a same-side add, otherwise zero. -/
def addedSize (p : Position) (sizeDelta : ℤ) : ℕ :=
  if p.size ≠ 0 ∧ p.size+sizeDelta ≠ 0 ∧ (0 < p.size ↔ 0 < sizeDelta) then
    (p.size+sizeDelta).natAbs
  else 0

namespace Position

theorem E18_pos : (0:ℚ) < E18 := by norm_num [E18]

/-- Averaging the entry price loses less than one unit of price on the whole position. -/
theorem add_entry_error {size sizeDelta : ℤ} (entry price : ℕ) (h0 : size+sizeDelta ≠ 0)
    (hs : 0 < size ↔ 0 < sizeDelta) (hsize : size ≠ 0) :
    |(size:ℚ)*entry+sizeDelta*price-(size+sizeDelta)*
      ((size.natAbs*entry+sizeDelta.natAbs*price)/(size+sizeDelta).natAbs : ℕ)| ≤
      ((size+sizeDelta).natAbs:ℚ) := by
  have hpos : 0 < (size+sizeDelta).natAbs := Int.natAbs_pos.mpr h0
  have hpos' : (0:ℚ) < ((size+sizeDelta).natAbs:ℚ) := by exact_mod_cast hpos
  obtain ⟨hlo, hhi⟩ := natDiv_le_and_lt (size.natAbs*entry+sizeDelta.natAbs*price) hpos
  rw [div_lt_iff₀ hpos'] at hhi
  rw [le_div_iff₀ hpos'] at hlo
  push_cast at hlo hhi
  generalize (((size.natAbs*entry+sizeDelta.natAbs*price)/(size+sizeDelta).natAbs : ℕ):ℚ) = e at *
  -- both sizes have the sign of the sum
  rcases lt_or_gt_of_ne hsize with hneg | hpos
  · rw [natAbs_cast_of_nonpos (by omega : size ≤ 0),
      natAbs_cast_of_nonpos (by omega : sizeDelta ≤ 0),
      natAbs_cast_of_nonpos (by omega : size+sizeDelta ≤ 0)] at hlo hhi
    rw [natAbs_cast_of_nonpos (by omega : size+sizeDelta ≤ 0), abs_le]
    push_cast at hlo hhi ⊢
    constructor <;> linarith
  · rw [natAbs_cast_of_nonneg (by omega : 0 ≤ size),
      natAbs_cast_of_nonneg (by omega : 0 ≤ sizeDelta),
      natAbs_cast_of_nonneg (by omega : 0 ≤ size+sizeDelta)] at hlo hhi
    rw [natAbs_cast_of_nonneg (by omega : 0 ≤ size+sizeDelta), abs_le]
    push_cast at hlo hhi ⊢
    constructor <;> linarith

/-- Realised PnL and the change of the position's price value add up to the fill at the
mark, up to the truncation of the PnL or of the entry price. -/
theorem VwapStep.price_value {p p' : Position} {sizeDelta realised : ℤ} {priceX18 : ℕ}
    (h : VwapStep p sizeDelta priceX18 realised p') (mark : ℚ) :
    |(realised:ℚ)+p'.size*(mark-p'.entryPriceX18)/E18-p.size*(mark-p.entryPriceX18)/E18-
      sizeDelta*(mark-priceX18)/E18| ≤ 1+(addedSize p sizeDelta:ℚ)/E18 := by
  have hE := E18_pos
  have hdust : 0 ≤ (addedSize p sizeDelta:ℚ)/E18 := by positivity
  -- the realised PnL is a truncated quotient
  have htrunc (z : ℤ) : |(z.tdiv E18:ℚ)-(z:ℚ)/E18| ≤ 1 :=
    (abs_tdiv_sub_lt_one z (by norm_num [E18])).le
  cases h with
  | close h0 =>
    have hz := htrunc (p.size*((priceX18:ℤ)-p.entryPriceX18))
    have hd : (sizeDelta:ℚ) = -p.size := by
      have : sizeDelta = -p.size := by omega
      exact_mod_cast this
    push_cast at hz
    refine le_trans (le_of_eq ?_) (le_trans hz (by linarith))
    unfold pnlAt
    congr 1
    rw [hd]
    push_cast
    ring
  | openNew h0 hd =>
    simp [h0]
    positivity
  | add hsize h0 hs =>
    have hadd : addedSize p sizeDelta = (p.size+sizeDelta).natAbs := by
      simp [addedSize, hsize, h0, hs]
    have herr := add_entry_error p.entryPriceX18 priceX18 h0 hs hsize
    have hdiv := div_le_div_of_nonneg_right herr hE.le
    rw [hadd]
    refine le_trans (le_of_eq ?_) (le_trans hdiv (by linarith))
    rw [← abs_of_pos hE, ← abs_div]
    simp only [abs_of_pos hE]
    congr 1
    push_cast
    ring
  | flip hsize hs h0 hn =>
    have hz := htrunc (p.size*((priceX18:ℤ)-p.entryPriceX18))
    push_cast at hz
    refine le_trans (le_of_eq ?_) (le_trans hz (by linarith))
    unfold pnlAt
    congr 1
    push_cast
    ring
  | reduce hsize hs h0 hn =>
    have hz := htrunc (-sizeDelta*((priceX18:ℤ)-p.entryPriceX18))
    push_cast at hz
    refine le_trans (le_of_eq ?_) (le_trans hz (by linarith))
    congr 1
    push_cast
    ring

/-- A position at the index has no funding outstanding, with or without its entry price. -/
theorem value_dropEntry {p : Position} {idx : ℤ} (h : p.cumulativeFunding = idx) (mark : ℚ) :
    p.dropEntry.value idx mark = p.size*(mark-p.entryPriceX18)/E18 := by
  subst h
  unfold value dropEntry
  split_ifs with h0 <;> simp [h0]

/-- Settled funding is what was outstanding, truncated. -/
theorem fundingAt_error (p : Position) (idx : ℤ) :
    |(p.fundingAt idx:ℚ)+(idx-p.cumulativeFunding)*p.size/E18| ≤ 1 := by
  have h := abs_tdiv_sub_lt_one ((idx-p.cumulativeFunding)*p.size) (by norm_num [E18] : 0 < E18)
  rw [← abs_neg] at h
  refine le_trans (le_of_eq ?_) h.le
  unfold fundingAt
  congr 1
  push_cast
  ring

end Position

/-- What the fill is worth at the mark. -/
def Fill.tradeAt (mark : MarketId → ℚ) (f : Fill) : ℚ :=
  f.sizeDelta*(mark f.marketId-f.priceX18)/E18

namespace Settled
variable {s s' : State} {f : Fill} {realised funding : ℤ} (h : Settled s f realised funding s')
include h

theorem balances_sum :
    ∑ u, (s'.vault.balances u:ℚ)*USDC_TO_X18-∑ u, (s.vault.balances u:ℚ)*USDC_TO_X18 =
      ((realised+funding+f.fee).tdiv USDC_TO_X18:ℚ)*USDC_TO_X18 := by
  rw [h.vault]
  have hcov := h.covered
  rw [sum_sub_sum_of_eq_off _ _ f.user]
  · have hnat : ((((s.vault.balances f.user:ℤ)+(realised+funding+f.fee).tdiv
        USDC_TO_X18).toNat:ℕ):ℚ) =
        (s.vault.balances f.user:ℚ)+((realised+funding+f.fee).tdiv USDC_TO_X18:ℚ) := by
      exact_mod_cast Int.toNat_of_nonneg hcov
    simp only [Vault.adjust, Function.update_self]
    rw [hnat]
    ring
  · intro u hu
    simp [Vault.adjust, hu]

/-- Settling a fill moves the wealth by the trade at the mark and the fee. -/
theorem wealth (mark : MarketId → ℚ) :
    |s'.wealth mark-s.wealth mark-(f.tradeAt mark+f.fee)| ≤
      10^12+2+(addedSize (s.registry.positions f.user f.marketId) f.sizeDelta:ℚ)/E18 := by
  obtain ⟨p, hstep, hpos⟩ := h.fill.position
  have hbal := h.balances_sum
  have hvalue : ∑ u, ∑ m, (s'.registry.positions u m).value (s'.registry.marketIndexFunding m)
        (mark m)-∑ u, ∑ m, (s.registry.positions u m).value (s.registry.marketIndexFunding m)
        (mark m) = (p.dropEntry).value (s.registry.marketIndexFunding f.marketId)
          (mark f.marketId)-(s.registry.positions f.user f.marketId).value
          (s.registry.marketIndexFunding f.marketId) (mark f.marketId) := by
    rw [hpos, h.fill.index_eq, sum_sum_sub_of_eq_off _ _ f.user f.marketId]
    · rw [update₂_same]
    · intro u m hum
      rw [update₂_apply, if_neg hum]
  rw [Position.value_dropEntry hstep.funding_eq] at hvalue
  -- the three truncations: realised PnL or entry price, funding, raw units
  have hprice := hstep.price_value (mark f.marketId)
  have hfund := (s.registry.positions f.user f.marketId).fundingAt_error
    (s.registry.marketIndexFunding f.marketId)
  rw [← h.fill.funding_eq] at hfund
  have hraw : |((realised+funding+f.fee).tdiv USDC_TO_X18:ℚ)*USDC_TO_X18-
      (realised+funding+f.fee)| ≤ 10^12 := by
    have hpos : (0:ℚ) < USDC_TO_X18 := by norm_num [USDC_TO_X18]
    have hlt := abs_tdiv_sub_lt_one (realised+funding+f.fee)
      (by norm_num [USDC_TO_X18] : 0 < USDC_TO_X18)
    have hmul := mul_lt_mul_of_pos_right hlt hpos
    rw [← abs_of_pos hpos, ← abs_mul, abs_of_pos hpos, sub_mul, div_mul_cancel₀ _ hpos.ne'] at hmul
    push_cast at hmul
    refine le_trans hmul.le ?_
    norm_num [USDC_TO_X18]
  have hadded : addedSize { s.registry.positions f.user f.marketId with
      cumulativeFunding := s.registry.marketIndexFunding f.marketId } f.sizeDelta =
    addedSize (s.registry.positions f.user f.marketId) f.sizeDelta := rfl
  rw [hadded] at hprice
  unfold State.wealth Fill.tradeAt
  simp only [Position.value] at hvalue ⊢
  rw [abs_le] at *
  constructor <;> linarith [hprice.1, hprice.2, hfund.1, hfund.2, hraw.1, hraw.2]

theorem netSize (market : MarketId) :
    s'.netSize market = s.netSize market+(if f.marketId = market then (f.sizeDelta:ℚ) else 0) := by
  have hsum := h.fill.sum_size market
  have hcast : ((∑ u, (s'.registry.positions u market).size : ℤ):ℚ) =
      ((∑ u, (s.registry.positions u market).size+
        (if f.marketId = market then f.sizeDelta else 0) : ℤ):ℚ) := by rw [hsum]
  push_cast at hcast
  exact hcast

end Settled

/-- The sizes after the same-side adds of a batch, added up along it. -/
def batchAdds (d : Deployment) : State → List Fill → ℕ
  | _, [] => 0
  | s, f :: fills =>
    addedSize (s.registry.positions f.user f.marketId) f.sizeDelta+
      match s.settleFill d f with
      | .ok s' => batchAdds d s' fills
      | .error _ => 0

namespace State
variable {d : Deployment} {s s' : State} {fills : List Fill}

theorem settleFills_wealth (h : settleFills d s fills = .ok s') (mark : MarketId → ℚ) :
    |s'.wealth mark-s.wealth mark-
      ((fills.map (Fill.tradeAt mark)).sum+(fills.map fun f => (f.fee:ℚ)).sum)| ≤
      fills.length*(10^12+2)+(batchAdds d s fills:ℚ)/E18 := by
  induction fills generalizing s with
  | nil =>
    cases h
    simp [batchAdds]
  | cons f fills ih =>
    simp only [settleFills, chain_ok_iff] at h
    obtain ⟨s₁, h₁, h⟩ := h
    obtain ⟨_, _, hf, -⟩ := settleFill_ok h₁
    -- one fill is off by its own truncations, and the rest of the batch by theirs
    have hone := hf.wealth mark
    have hrest := ih h
    have hadds : batchAdds d s (f :: fills) =
        addedSize (s.registry.positions f.user f.marketId) f.sizeDelta+batchAdds d s₁ fills := by
      simp [batchAdds, h₁]
    rw [hadds]
    simp only [List.map_cons, List.sum_cons, List.length_cons]
    push_cast
    rw [add_div]
    rw [abs_le] at *
    constructor <;> linarith [hone.1, hone.2, hrest.1, hrest.2]

theorem settles_netSize (h : Settles s fills s') (market : MarketId) :
    s'.netSize market = s.netSize market+
      (fills.map fun f => if f.marketId = market then (f.sizeDelta:ℚ) else 0).sum := by
  induction h with
  | nil s => simp
  | cons first _ ih =>
    rw [ih, first.netSize market]
    simp only [List.map_cons, List.sum_cons]
    ring

end State

/-- What cancels in each pair cancels in the batch. -/
theorem Paired.sum_eq_zero {fills : List Fill} (h : Paired fills) {g : Fill → ℚ}
    (hg : ∀ a b : Fill, a.marketId = b.marketId → a.priceX18 = b.priceX18 →
      a.sizeDelta = -b.sizeDelta → g a+g b = 0) : (fills.map g).sum = 0 := by
  obtain ⟨pairs, hpairs, hperm⟩ := h
  rw [(hperm.map g).sum_eq]
  clear hperm
  induction pairs with
  | nil => rfl
  | cons p pairs ih =>
    obtain ⟨hm, hp, hs⟩ := hpairs p List.mem_cons_self
    have hrest := ih (fun q hq => hpairs q (List.mem_cons_of_mem _ hq))
    have hpair := hg p.1 p.2 hm hp hs
    simp only [List.flatMap_cons, List.map_append, List.sum_append, List.map_cons, List.map_nil,
      List.sum_cons, List.sum_nil]
    linarith

theorem Paired.tradeAt {fills : List Fill} (h : Paired fills) (mark : MarketId → ℚ) :
    (fills.map (Fill.tradeAt mark)).sum = 0 := by
  apply h.sum_eq_zero
  intro a b hm hp hs
  unfold Fill.tradeAt
  rw [hm, hp, hs]
  push_cast
  ring

theorem Paired.sizeDelta {fills : List Fill} (h : Paired fills) (market : MarketId) :
    (fills.map fun f => if f.marketId = market then (f.sizeDelta:ℚ) else 0).sum = 0 := by
  apply h.sum_eq_zero
  intro a b hm _ hs
  rw [hm, hs]
  split_ifs
  · push_cast
    ring
  · ring

/-- Moving a funding index shifts value between the holders of the market only. -/
theorem wealth_updateIndex {s : State} {market : MarketId} (hnet : s.netSize market = 0)
    (newIndex : ℤ) (mark : MarketId → ℚ) {s' : State} (hv : s'.vault = s.vault)
    (hpos : s'.registry.positions = s.registry.positions)
    (hidx : s'.registry.marketIndexFunding =
      Function.update s.registry.marketIndexFunding market newIndex) :
    s'.wealth mark = s.wealth mark := by
  unfold State.wealth
  rw [hv, hpos, hidx, add_right_inj, Finset.sum_comm]
  refine Eq.trans ?_ Finset.sum_comm
  refine Finset.sum_congr rfl fun m _ => ?_
  by_cases hm : m = market
  · subst hm
    rw [Function.update_self, ← sub_eq_zero, ← Finset.sum_sub_distrib]
    -- the index enters every position in proportion to its size, and the sizes cancel
    have hterm : ∀ u, (s.registry.positions u m).value newIndex (mark m)-
        (s.registry.positions u m).value (s.registry.marketIndexFunding m) (mark m) =
        ((s.registry.positions u m).size:ℚ)*
          (((s.registry.marketIndexFunding m:ℚ)-newIndex)/E18) := by
      intro u
      unfold Position.value
      ring
    rw [Finset.sum_congr rfl (fun u _ => hterm u), ← Finset.sum_mul]
    unfold State.netSize at hnet
    rw [hnet, zero_mul]
  · rw [Function.update_of_ne hm]

/-- What the successful calls of a run have moved: deposits and withdrawals in raw USDC,
fees in 18 decimals, the number of fills and the sizes after same-side adds. -/
structure Ledger where
  deposits : ℕ
  withdrawals : ℕ
  fees : ℤ
  fills : ℕ
  adds : ℕ
deriving DecidableEq, Repr

def Ledger.record (l : Ledger) (d : Deployment) (s : State) : Call → Ledger
  | .deposit _ amount => { l with deposits := l.deposits+amount }
  | .withdraw _ amount => { l with withdrawals := l.withdrawals+amount }
  | .applyBatch fills nonce _ _ _ => { l with
    fees := l.fees+(fills.map Fill.fee).sum
    fills := l.fills+fills.length
    adds := l.adds+batchAdds d (s.useNonce nonce) fills }
  | _ => l

/-- A call with its entry in the ledger; a call that reverts makes none. -/
def audit (d : Deployment) (x : State × Ledger) (c : Call) : Tx (State × Ledger) := do
  let s ← exec d x.1 c
  return (s,x.2.record d x.1 c)

/-- Keeping the ledger does not change the run. -/
theorem audit_state (d : Deployment) (x : State × Ledger) (calls : List Call) :
    (runAll (audit d) x calls).1 = runAll (exec d) x.1 calls := by
  unfold runAll
  induction calls generalizing x with
  | nil => rfl
  | cons c calls ih =>
    simp only [List.foldl_cons]
    rw [ih]
    congr 1
    unfold attempt audit
    cases exec d x.1 c <;> rfl

/-- Deposits, withdrawals, funding and paired batches, without liquidations. -/
def Call.Conserving : Call → Prop
  | .applyBatch fills _ _ _ _ => Paired fills
  | .liquidate _ _ _ => False
  | .adl _ _ _ _ => False
  | _ => True

/-- Wealth is what came in and the fees, up to rounding; long and short sizes cancel. -/
structure Conserved (mark : MarketId → ℚ) (x : State × Ledger) : Prop where
  wealth : |x.1.wealth mark-((USDC_TO_X18:ℚ)*(x.2.deposits-x.2.withdrawals)+x.2.fees)| ≤
    x.2.fills*(10^12+2)+(x.2.adds:ℚ)/E18
  net : ∀ market, x.1.netSize market = 0

namespace Conserved
variable {d : Deployment} {mark : MarketId → ℚ} {x : State × Ledger} {s' : State}

theorem of_eq (h : Conserved mark x) (hr : s'.registry = x.1.registry)
    (hv : s'.vault = x.1.vault) : Conserved mark (s',x.2) where
  wealth := by
    have hw : s'.wealth mark = x.1.wealth mark := by
      unfold State.wealth
      rw [hr, hv]
    simp only [hw]
    exact h.wealth
  net := by
    intro market
    have hn := h.net market
    unfold State.netSize at *
    simp only [hr]
    exact hn

theorem funding (h : Conserved mark x) {market : MarketId} {newIndex : ℤ}
    (hv : s'.vault = x.1.vault) (hpos : s'.registry.positions = x.1.registry.positions)
    (hidx : s'.registry.marketIndexFunding =
      Function.update x.1.registry.marketIndexFunding market newIndex) :
    Conserved mark (s',x.2) where
  wealth := by
    simp only [wealth_updateIndex (h.net market) newIndex mark hv hpos hidx]
    exact h.wealth
  net := by
    intro m
    have hn := h.net m
    unfold State.netSize at *
    simp only [hpos]
    exact hn

/-- One balance moves by an amount that the ledger records. -/
theorem balance (h : Conserved mark x) {l : Ledger} {user : Address} {balance : ℕ}
    (hr : s'.registry = x.1.registry)
    (hv : s'.vault.balances = Function.update x.1.vault.balances user balance)
    (hl : (balance:ℚ)-x.1.vault.balances user =
      (l.deposits-l.withdrawals)-(x.2.deposits-x.2.withdrawals))
    (hfees : l.fees = x.2.fees) (hfills : l.fills = x.2.fills) (hadds : l.adds = x.2.adds) :
    Conserved mark (s',l) where
  wealth := by
    have hsum := sum_sub_sum_of_eq_off
      (fun u => (s'.vault.balances u:ℚ)*USDC_TO_X18)
      (fun u => (x.1.vault.balances u:ℚ)*USDC_TO_X18) user
      (fun u hu => by rw [hv, Function.update_of_ne hu])
    simp only [hv, Function.update_self] at hsum
    -- only the cash of `user` moves, by what the ledger has entered
    have hw : s'.wealth mark-x.1.wealth mark =
        (USDC_TO_X18:ℚ)*((l.deposits-l.withdrawals)-(x.2.deposits-x.2.withdrawals)) := by
      unfold State.wealth
      rw [hr, hv, ← hl]
      linarith
    have hbound := h.wealth
    simp only [hfees, hfills, hadds]
    rw [abs_le] at *
    constructor <;> linarith
  net := by
    intro m
    have hn := h.net m
    unfold State.netSize at *
    simp only [hr]
    exact hn

theorem batch (h : Conserved mark x) {fills : List Fill} {nonce : ℕ} (hp : Paired fills)
    (hs : State.settleFills d (x.1.useNonce nonce) fills = .ok s') :
    Conserved mark (s',{ x.2 with
      fees := x.2.fees+(fills.map Fill.fee).sum
      fills := x.2.fills+fills.length
      adds := x.2.adds+batchAdds d (x.1.useNonce nonce) fills }) where
  wealth := by
    have hw := State.settleFills_wealth hs mark
    have hstart : (x.1.useNonce nonce).wealth mark = x.1.wealth mark := rfl
    have hfees : (fills.map fun f => (f.fee:ℚ)).sum = (((fills.map Fill.fee).sum : ℤ):ℚ) := by
      rw [Int.cast_list_sum, List.map_map]
      rfl
    rw [hp.tradeAt mark, hfees, hstart, zero_add] at hw
    have hbound := h.wealth
    simp only [Nat.cast_add, Int.cast_add, add_div]
    rw [abs_le] at *
    constructor <;> linarith [hw.1, hw.2, hbound.1, hbound.2]
  net := by
    intro market
    rw [State.settles_netSize (State.settleFills_settles hs) market, hp.sizeDelta market, add_zero]
    exact h.net market

theorem audit (h : Conserved mark x) {c : Call} (hc : c.Possible d ∧ c.Conserving)
    {x' : State × Ledger} (he : audit d x c = .ok x') : Conserved mark x' := by
  simp only [Chain.audit, chain_ok_iff, tx_pure_eq_ok] at he
  obtain ⟨s', he, rfl⟩ := he
  obtain ⟨hposs, hcons⟩ := hc
  cases c with
  | deposit sender amount =>
    obtain ⟨hv, -, -, hr, -⟩ := State.deposit_ok hposs he
    refine h.balance hr (congrArg Vault.balances hv) ?_ rfl rfl rfl
    simp only [Ledger.record]
    push_cast
    ring
  | withdraw sender amount =>
    obtain ⟨-, hout⟩ := State.withdraw_ok he
    refine h.balance hout.registry (congrArg Vault.balances hout.vault) ?_ rfl rfl rfl
    simp only [Ledger.record]
    -- the guard of `withdraw` makes the subtraction exact
    rw [Nat.cast_sub hout.covered]
    push_cast
    ring
  | applyBatch fills nonce deadline signer now =>
    exact h.batch hcons (State.applyBatch_settleFills he)
  | updateFunding sender market idx =>
    simp only [exec, Registry.updateFunding, chain_ok_iff, ensure_eq_ok, and_true, exists_const,
      tx_pure_eq_ok] at he
    obtain ⟨_, ⟨-, rfl⟩, rfl⟩ := he
    exact h.funding rfl rfl rfl
  | applyFunding sender market premium now =>
    obtain ⟨newIndex, hs⟩ := State.applyFunding_ok he
    rw [hs]
    exact h.funding rfl rfl rfl
  | liquidate sender user market => exact hcons.elim
  | adl sender market victims closeSizes => exact hcons.elim
  | listMarket | updateMarket | deactivateMarket | setOperator | setFillHook | setSettlement
  | setCap | setSubmitter | oracleAnswer | mintUsdc | transferUsdc =>
    -- administration, the oracle and transfers of USDC touch neither side of the sum
    obtain ⟨hr, hv, -⟩ := exec_admin rfl hposs he
    exact h.of_eq hr hv

theorem genesis (d : Deployment) (operator submitter : Address) (mark : MarketId → ℚ) :
    Conserved mark (genesis d operator submitter,⟨0, 0, 0, 0, 0⟩) where
  wealth := by simp [State.wealth, Position.value, Chain.genesis]
  net := by
    intro market
    simp [State.netSize, Chain.genesis]

end Conserved

/-- For every run of deposits, withdrawals, funding updates and paired batches and at any
marks, the wealth of the system is what was deposited and not withdrawn plus the fees of all
fills, up to the rounding of each fill and of each averaged entry price. -/
theorem value_conserved (d : Deployment) (operator submitter : Address) {calls : List Call}
    (hcalls : ∀ c ∈ calls, c.Possible d ∧ c.Conserving) (mark : MarketId → ℚ) :
    let s := runAll (exec d) (genesis d operator submitter) calls
    let l := (runAll (audit d) (genesis d operator submitter,⟨0, 0, 0, 0, 0⟩) calls).2
    |s.wealth mark-((USDC_TO_X18:ℚ)*(l.deposits-l.withdrawals)+l.fees)| ≤
      l.fills*(10^12+2)+(l.adds:ℚ)/E18 := by
  have hrun : Conserved mark
      (runAll (audit d) (genesis d operator submitter,⟨0, 0, 0, 0, 0⟩) calls) :=
    runAll_invariant (fun _ _ _ hx hc he => hx.audit hc he)
      (Conserved.genesis d operator submitter mark) hcalls
  have hstate := audit_state d (genesis d operator submitter,⟨0, 0, 0, 0, 0⟩) calls
  intro s l
  have hs : s = (runAll (audit d) (genesis d operator submitter,⟨0, 0, 0, 0, 0⟩) calls).1 :=
    hstate.symm
  rw [hs]
  exact hrun.wealth

/-- A trade, a funding update and a paired close with fees. -/
def roundTrip : List Call :=
  oneContract (100*10^6) (100*10^6)++
    [Call.updateFunding 1 1 (10^17),
     Call.applyBatch [⟨101, 1, -10^18, 110*10^18, -10^16⟩,
       ⟨102, 1, 10^18, 110*10^18, 5*10^15⟩] 1 0 8 0,
     Call.withdraw 101 (10^6)]

theorem value_conserved_roundTrip :
    |(runAll (exec devnet) (genesis devnet 8 9) roundTrip).wealth (fun _ => 120*10^18)-
      ((USDC_TO_X18:ℚ)*((300*10^6 : ℕ)-(10^6 : ℕ))+(-5*10^15 : ℤ))| ≤
      (4 : ℕ)*(10^12+2)+((0 : ℕ):ℚ)/E18 := by
  have hcalls : ∀ c ∈ roundTrip, c.Possible devnet ∧ c.Conserving := by
    have hposs : ∀ c ∈ roundTrip, c.Possible devnet := by decide +kernel
    have hcons : ∀ c ∈ roundTrip, c.Conserving := by
      simp [roundTrip, oneContract, funded, firstTrade, Call.Conserving, paired_pair]
    exact fun c hc => ⟨hposs c hc, hcons c hc⟩
  have hledger : (runAll (audit devnet) (genesis devnet 8 9,⟨0, 0, 0, 0, 0⟩) roundTrip).2 =
      ⟨300*10^6, 10^6, -5*10^15, 4, 0⟩ := by decide +kernel
  have h := value_conserved devnet 8 9 hcalls (fun _ => 120*10^18)
  simp only [hledger] at h
  exact h

end Perplex.Chain
