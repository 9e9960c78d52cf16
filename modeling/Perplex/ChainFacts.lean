import Mathlib.Tactic.Linarith
import Mathlib.Tactic.Ring
import Perplex.ChainSystem

/-! What each contract function can do: for every function one lemma that names the
conditions under which it succeeds and its result. -/
namespace Perplex.Chain

def InInt256 (z : ℤ) : Prop := -2^255 ≤ z ∧ z < 2^255

instance (z : ℤ) : Decidable (InInt256 z) := by
  unfold InInt256
  infer_instance

@[simp]
theorem addU_eq_ok {a b c : ℕ} : addU a b = .ok c ↔ a+b < 2^256 ∧ a+b = c := boundU_eq_ok

@[simp]
theorem mulU_eq_ok {a b c : ℕ} : mulU a b = .ok c ↔ a*b < 2^256 ∧ a*b = c := boundU_eq_ok

@[simp]
theorem subU_eq_ok {a b c : ℕ} : subU a b = .ok c ↔ b ≤ a ∧ a-b = c := ensure_eq_ok

@[simp]
theorem addI_eq_ok {a b c : ℤ} : addI a b = .ok c ↔ InInt256 (a+b) ∧ a+b = c := boundI_eq_ok

@[simp]
theorem subI_eq_ok {a b c : ℤ} : subI a b = .ok c ↔ InInt256 (a-b) ∧ a-b = c := boundI_eq_ok

@[simp]
theorem mulI_eq_ok {a b c : ℤ} : mulI a b = .ok c ↔ InInt256 (a*b) ∧ a*b = c := boundI_eq_ok

@[simp]
theorem negI_eq_ok {a c : ℤ} : negI a = .ok c ↔ InInt256 (-a) ∧ -a = c := boundI_eq_ok

@[simp]
theorem toInt256_eq_ok {n : ℕ} {z : ℤ} : toInt256 n = .ok z ↔ n < 2^255 ∧ (n:ℤ) = z :=
  ensure_eq_ok

@[simp]
theorem toUint256_eq_ok {z : ℤ} {n : ℕ} : toUint256 z = .ok n ↔ 0 ≤ z ∧ z.toNat = n :=
  ensure_eq_ok

@[simp]
theorem tx_pure_eq_ok {α : Type} {a b : α} : (pure a : Tx α) = .ok b ↔ a = b := by
  constructor
  · intro h
    exact Except.ok.inj h
  · rintro rfl
    rfl

/-- Two prices of the signed range differ by a number of it. -/
theorem inInt256_sub {a b : ℕ} (ha : a < 2^255) (hb : b < 2^255) : InInt256 ((a:ℤ)-b) := by
  unfold InInt256
  constructor <;> omega

@[simp]
theorem priceDelta_eq_ok {a b : ℕ} {z : ℤ} :
    priceDelta a b = .ok z ↔ a < 2^255 ∧ b < 2^255 ∧ (a:ℤ)-b = z := by
  simp only [priceDelta, chain_ok_iff, toInt256_eq_ok, subI_eq_ok]
  constructor
  · rintro ⟨_, ⟨ha, rfl⟩, _, ⟨hb, rfl⟩, -, rfl⟩
    exact ⟨ha, hb, rfl⟩
  · rintro ⟨ha, hb, rfl⟩
    exact ⟨_, ⟨ha, rfl⟩, _, ⟨hb, rfl⟩, inInt256_sub ha hb, rfl⟩

namespace Position

/-- PnL of the whole position at a price. -/
def pnlAt (p : Position) (priceX18 : ℕ) : ℤ := (p.size*((priceX18:ℤ)-p.entryPriceX18)).tdiv E18

/-- What the holder is paid for the move of the funding index since the last touch. -/
def fundingAt (p : Position) (idx : ℤ) : ℤ := -((idx-p.cumulativeFunding)*p.size).tdiv E18

/-- The price arithmetic on the position stays in the signed range. -/
def PriceFits (p : Position) (priceX18 : ℕ) : Prop :=
  priceX18 < 2^255 ∧ p.entryPriceX18 < 2^255 ∧
    InInt256 (p.size*((priceX18:ℤ)-p.entryPriceX18))

/-- The funding arithmetic on the position stays in the signed range. -/
def FundingFits (p : Position) (idx : ℤ) : Prop :=
  InInt256 (idx-p.cumulativeFunding) ∧ InInt256 ((idx-p.cumulativeFunding)*p.size)

instance (p : Position) (idx : ℤ) : Decidable (p.FundingFits idx) := by
  unfold FundingFits
  infer_instance

theorem unrealisedPnl_eq_ok {p : Position} {mark : ℕ} {z : ℤ} (hp : p.size ≠ 0) :
    p.unrealisedPnl mark = .ok z ↔ p.PriceFits mark ∧ p.pnlAt mark = z := by
  simp only [unrealisedPnl, if_neg hp, chain_ok_iff, priceDelta_eq_ok, mulI_eq_ok, tx_pure_eq_ok,
    PriceFits, pnlAt]
  constructor
  · rintro ⟨_, ⟨h1, h2, rfl⟩, _, ⟨h3, rfl⟩, rfl⟩
    exact ⟨⟨h1, h2, h3⟩, rfl⟩
  · rintro ⟨⟨h1, h2, h3⟩, rfl⟩
    exact ⟨_, ⟨h1, h2, rfl⟩, _, ⟨h3, rfl⟩, rfl⟩

theorem tdiv_inInt256 {z : ℤ} (h : InInt256 z) : InInt256 (-z.tdiv E18) := by
  have hq := Int.natAbs_tdiv z (E18:ℤ)
  have hE : (E18:ℤ).natAbs = 10^18 := rfl
  rw [hE] at hq
  have hle : (z.tdiv E18).natAbs = z.natAbs/10^18 := hq
  unfold InInt256 at *
  omega

theorem fundingAt_of_idle {p : Position} {idx : ℤ}
    (h : p.size = 0 ∨ p.cumulativeFunding = idx) : p.fundingAt idx = 0 := by
  rcases h with h | h <;> simp [fundingAt, h]

theorem fundingFits_of_idle {p : Position} {idx : ℤ} (h : p.cumulativeFunding = idx) :
    p.FundingFits idx := by
  subst h
  constructor <;> simp [InInt256]

/-- Funding moves the position to the index and pays what has accrued. -/
theorem settleFunding_eq_ok {p : Position} {idx : ℤ} {x : ℤ × Position} :
    p.settleFunding idx = .ok x ↔
      (p.size = 0 ∨ p.FundingFits idx) ∧
        (p.fundingAt idx,{ p with cumulativeFunding := idx }) = x := by
  unfold settleFunding
  split_ifs with h
  · rw [tx_pure_eq_ok, fundingAt_of_idle h]
    have hok : p.size = 0 ∨ p.FundingFits idx := h.imp id fundingFits_of_idle
    simp [hok]
  · have hsize : p.size ≠ 0 := fun hs => h (Or.inl hs)
    simp only [chain_ok_iff, subI_eq_ok, mulI_eq_ok, negI_eq_ok, tx_pure_eq_ok, FundingFits,
      fundingAt, hsize, false_or]
    constructor
    · rintro ⟨_, ⟨h1, rfl⟩, _, ⟨h2, rfl⟩, _, ⟨-, rfl⟩, rfl⟩
      exact ⟨⟨h1, h2⟩, rfl⟩
    · rintro ⟨⟨h1, h2⟩, rfl⟩
      exact ⟨_, ⟨h1, rfl⟩, _, ⟨h2, rfl⟩, _, ⟨tdiv_inInt256 h2, rfl⟩, rfl⟩

/-- A fill of the whole position closes it. -/
theorem applyVwap_close {p : Position} {sizeDelta : ℤ} {priceX18 : ℕ} {x : ℤ × Position}
    (h : p.size+sizeDelta = 0) :
    p.applyVwap sizeDelta priceX18 = .ok x ↔
      p.PriceFits priceX18 ∧ (p.pnlAt priceX18,{ p with size := 0 }) = x := by
  have h0 : InInt256 (p.size+sizeDelta) := by simp [h, InInt256]
  have hadd : addI p.size sizeDelta = .ok 0 := addI_eq_ok.mpr ⟨h0, h⟩
  simp only [applyVwap, hadd, chain_ok_iff, priceDelta_eq_ok, mulI_eq_ok, Except.ok.injEq,
    exists_eq_left', if_true, tx_pure_eq_ok, PriceFits, pnlAt]
  constructor
  · rintro ⟨_, ⟨h1, h2, rfl⟩, _, ⟨h3, rfl⟩, rfl⟩
    exact ⟨⟨h1, h2, h3⟩, rfl⟩
  · rintro ⟨⟨h1, h2, h3⟩, rfl⟩
    exact ⟨_, ⟨h1, h2, rfl⟩, _, ⟨h3, rfl⟩, rfl⟩

/-- The five things a fill can do to a position. -/
inductive VwapStep (p : Position) (sizeDelta : ℤ) (priceX18 : ℕ) : ℤ → Position → Prop
  | close (h : p.size+sizeDelta = 0) :
    VwapStep p sizeDelta priceX18 (p.pnlAt priceX18) { p with size := 0 }
  | openNew (h : p.size = 0) (h0 : sizeDelta ≠ 0) :
    VwapStep p sizeDelta priceX18 0 { p with size := sizeDelta, entryPriceX18 := priceX18 }
  | add (h : p.size ≠ 0) (h0 : p.size+sizeDelta ≠ 0) (hs : 0 < p.size ↔ 0 < sizeDelta) :
    VwapStep p sizeDelta priceX18 0 { p with
      size := p.size+sizeDelta
      entryPriceX18 := (p.size.natAbs*p.entryPriceX18+sizeDelta.natAbs*priceX18)/
        (p.size+sizeDelta).natAbs }
  | flip (h : p.size ≠ 0) (hs : ¬ (0 < p.size ↔ 0 < sizeDelta)) (h0 : p.size+sizeDelta ≠ 0)
    (hn : ¬ (0 < p.size ↔ 0 < p.size+sizeDelta)) :
    VwapStep p sizeDelta priceX18 (p.pnlAt priceX18)
      { p with size := p.size+sizeDelta, entryPriceX18 := priceX18 }
  | reduce (h : p.size ≠ 0) (hs : ¬ (0 < p.size ↔ 0 < sizeDelta)) (h0 : p.size+sizeDelta ≠ 0)
    (hn : 0 < p.size ↔ 0 < p.size+sizeDelta) :
    VwapStep p sizeDelta priceX18 ((-sizeDelta*((priceX18:ℤ)-p.entryPriceX18)).tdiv E18)
      { p with size := p.size+sizeDelta }

theorem applyVwap_ok {p p' : Position} {sizeDelta realised : ℤ} {priceX18 : ℕ}
    (h : p.applyVwap sizeDelta priceX18 = .ok (realised,p')) :
    InInt256 (p.size+sizeDelta) ∧ VwapStep p sizeDelta priceX18 realised p' := by
  simp only [applyVwap, chain_ok_iff, addI_eq_ok] at h
  obtain ⟨newSize, ⟨hfit, rfl⟩, h⟩ := h
  refine ⟨hfit, ?_⟩
  by_cases h0 : p.size+sizeDelta = 0
  · obtain ⟨-, hx⟩ := (applyVwap_close (x := (realised,p')) h0).mp (by
      simp only [applyVwap, chain_ok_iff, addI_eq_ok]
      exact ⟨_, ⟨hfit, rfl⟩, h⟩)
    cases hx
    exact .close h0
  simp only [if_neg h0] at h
  by_cases hold : p.size = 0
  · simp only [if_pos hold, tx_pure_eq_ok] at h
    cases h
    have hd : sizeDelta ≠ 0 := by omega
    have hopen : VwapStep p sizeDelta priceX18 0
        { p with size := sizeDelta, entryPriceX18 := priceX18 } := .openNew hold hd
    simpa [hold] using hopen
  simp only [if_neg hold] at h
  by_cases hs : 0 < p.size ↔ 0 < sizeDelta
  · simp only [if_pos hs, chain_ok_iff, mulU_eq_ok, addU_eq_ok, tx_pure_eq_ok] at h
    obtain ⟨_, ⟨-, rfl⟩, _, ⟨-, rfl⟩, _, ⟨-, rfl⟩, h⟩ := h
    cases h
    exact .add hold h0 hs
  simp only [if_neg hs] at h
  by_cases hn : 0 < p.size ↔ 0 < p.size+sizeDelta
  · simp only [hn, not_true_eq_false, if_false, chain_ok_iff, priceDelta_eq_ok, mulI_eq_ok,
      toInt256_eq_ok, tx_pure_eq_ok] at h
    obtain ⟨_, ⟨-, -, rfl⟩, _, ⟨-, rfl⟩, _, ⟨-, rfl⟩, _, ⟨-, rfl⟩, h⟩ := h
    -- the closed quantity with the sign of the position is minus the fill
    have hsign : (if 0 < p.size+sizeDelta then (1:ℤ) else -1)*(sizeDelta.natAbs:ℤ) =
        -sizeDelta := by
      split_ifs <;> omega
    rw [hsign] at h
    cases h
    exact .reduce hold hs h0 hn
  · simp only [hn, not_false_eq_true, if_true, chain_ok_iff, priceDelta_eq_ok, mulI_eq_ok,
      tx_pure_eq_ok] at h
    obtain ⟨_, ⟨-, -, rfl⟩, _, ⟨-, rfl⟩, h⟩ := h
    cases h
    exact .flip hold hs h0 hn

theorem VwapStep.size_eq {p p' : Position} {sizeDelta realised : ℤ} {priceX18 : ℕ}
    (h : VwapStep p sizeDelta priceX18 realised p') : p'.size = p.size+sizeDelta := by
  cases h with
  | close h => exact h.symm
  | openNew h _ => simp [h]
  | add _ _ _ => rfl
  | flip _ _ _ _ => rfl
  | reduce _ _ _ _ => rfl

theorem VwapStep.funding_eq {p p' : Position} {sizeDelta realised : ℤ} {priceX18 : ℕ}
    (h : VwapStep p sizeDelta priceX18 realised p') :
    p'.cumulativeFunding = p.cumulativeFunding := by
  cases h <;> rfl

/-- A position without size drops its entry price. -/
def dropEntry (p : Position) : Position := if p.size = 0 then { p with entryPriceX18 := 0 } else p

@[simp]
theorem dropEntry_size (p : Position) : p.dropEntry.size = p.size := by
  unfold dropEntry
  split_ifs <;> rfl

end Position

theorem MarketParams.Valid.mm_le_im {mp : MarketParams} (h : mp.Valid) :
    mp.mmRatioBps ≤ mp.imRatioBps := by
  have hv := h.2.1
  push Not at hv
  exact hv.2.1.le

namespace State

theorem getParams_eq_ok {ms : Markets} {market : MarketId} {mp : MarketParams} :
    ms.getParams market = .ok mp ↔ ms.params market = some mp := by
  unfold Markets.getParams
  split <;> simp_all

/-- `healthFactor` of a held position: the largest number where the maintenance margin
rounds to zero, else equity over margin, provided that nothing overflows. -/
theorem healthFactor_eq_ok {s : State} {user : Address} {market : MarketId} {mark hf : ℕ}
    (hsize : (s.registry.positions user market).size ≠ 0) :
    s.healthFactor user market mark = .ok hf ↔ ∃ mp, s.markets.params market = some mp ∧
      (s.registry.positions user market).size.natAbs*mark < 2^256 ∧
      (s.registry.positions user market).size.natAbs*mark/E18*mp.mmRatioBps < 2^256 ∧
      let mm := (s.registry.positions user market).size.natAbs*mark/E18*mp.mmRatioBps/BPS
      let equity := ((s.vault.balances user*USDC_TO_X18 : ℕ):ℤ)+
        (s.registry.positions user market).pnlAt mark
      (mm = 0 ∧ hf = UINT_MAX ∨ mm ≠ 0 ∧ s.vault.balances user*USDC_TO_X18 < 2^255 ∧
        (s.registry.positions user market).PriceFits mark ∧ InInt256 equity ∧
        (equity ≤ 0 ∧ hf = 0 ∨
          0 < equity ∧ equity.toNat*E18 < 2^256 ∧ hf = equity.toNat*E18/mm)) := by
  simp only [healthFactor, if_neg hsize, notional, chain_ok_iff, mulU_eq_ok, tx_pure_eq_ok,
    getParams_eq_ok]
  constructor
  · rintro ⟨mp, hmp, _, ⟨_, ⟨hn, rfl⟩, rfl⟩, _, ⟨hmm, rfl⟩, h⟩
    refine ⟨mp, hmp, hn, hmm, ?_⟩
    split_ifs at h with h0
    · -- without a margin the factor is the largest number, before any equity is read
      exact Or.inl ⟨h0, (Except.ok.inj h).symm⟩
    · simp only [chain_ok_iff, mulU_eq_ok, toInt256_eq_ok, Position.unrealisedPnl_eq_ok hsize,
        addI_eq_ok] at h
      obtain ⟨_, ⟨-, rfl⟩, _, ⟨hbal, rfl⟩, _, ⟨hfits, rfl⟩, _, ⟨heq, rfl⟩, h⟩ := h
      refine Or.inr ⟨h0, hbal, hfits, heq, ?_⟩
      split_ifs at h with hneg
      · exact Or.inl ⟨hneg, (Except.ok.inj h).symm⟩
      · simp only [chain_ok_iff, toUint256_eq_ok, mulU_eq_ok, tx_pure_eq_ok] at h
        obtain ⟨_, ⟨-, rfl⟩, _, ⟨hscaled, rfl⟩, rfl⟩ := h
        exact Or.inr ⟨not_le.mp hneg, hscaled, rfl⟩
  · rintro ⟨mp, hmp, hn, hmm, h⟩
    refine ⟨mp, hmp, _, ⟨_, ⟨hn, rfl⟩, rfl⟩, _, ⟨hmm, rfl⟩, ?_⟩
    rcases h with ⟨h0, rfl⟩ | ⟨h0, hbal, hfits, heq, h⟩
    · rw [if_pos h0]
      rfl
    · rw [if_neg h0]
      simp only [chain_ok_iff, mulU_eq_ok, toInt256_eq_ok, Position.unrealisedPnl_eq_ok hsize,
        addI_eq_ok]
      refine ⟨_, ⟨by omega, rfl⟩, _, ⟨hbal, rfl⟩, _, ⟨hfits, rfl⟩, _, ⟨heq, rfl⟩, ?_⟩
      rcases h with ⟨hneg, rfl⟩ | ⟨hpos, hscaled, rfl⟩
      · rw [if_pos hneg]
        rfl
      · rw [if_neg (not_le.mpr hpos)]
        simp only [chain_ok_iff, toUint256_eq_ok, mulU_eq_ok, tx_pure_eq_ok]
        exact ⟨_, ⟨hpos.le, rfl⟩, _, ⟨hscaled, rfl⟩, rfl⟩

end State

end Perplex.Chain
