import Mathlib.Algebra.Order.Floor.Ring
import Mathlib.Data.Rat.Floor
import Mathlib.Tactic.NormNum
import Mathlib.Tactic.FieldSimp
import Perplex.ChainLiquidation

/-! `OracleAdapter`: the Pyth price of a market at 18 decimals, checked against a Chainlink
feed where one is registered. `Pyth` and the aggregators are other contracts, whose answers
are parameters. -/
namespace Perplex.Oracle

inductive Revert where
  | panic
  | safeCast
  | outside
  | unknownFeed (market : MarketId)
  | negativePrice (market : MarketId)
  | divergenceExceeded (market : MarketId) (pythX18 chainlinkX18 : ℕ)
  | chainlinkStale (market : MarketId)
  | unscaleableExpo (expo : ℤ)
deriving DecidableEq, Repr

abbrev Query := Except Revert

/-- `PythStructs.Price`: an `int64` with an `int32` exponent. -/
structure PythPrice where
  price : ℤ
  expo : ℤ
  price_fits : -2^63 ≤ price ∧ price < 2^63
  expo_fits : -2^31 ≤ expo ∧ expo < 2^31

/-- What `latestRoundData` and `decimals` of an aggregator answer. -/
structure Round where
  answer : ℤ
  updatedAt : ℕ
  answer_fits : -2^255 ≤ answer ∧ answer < 2^255
  updatedAt_fits : updatedAt < 2^256

/-- The contracts that are asked: Pyth by feed and maximal age, the aggregators by address. -/
structure Sources where
  getPriceNoOlderThan : ℕ → ℕ → Query PythPrice
  latestRoundData : Address → Query Round
  decimals : Address → Query (Fin 256)

/-- What the adapter stores; feed 0 and aggregator 0 are none. -/
structure OracleAdapter where
  pythFeeds : MarketId → ℕ
  chainlinkFeeds : MarketId → Address
  maxStalenessSec : ℕ
  maxDivergenceBps : ℕ

def pow10 (n : ℕ) : Query ℕ := boundU 256 .panic (10^n)
def mulU (a b : ℕ) : Query ℕ := boundU 256 .panic (a*b)
def subU (a b : ℕ) : Query ℕ := ensure (b ≤ a) .panic (a-b)
def toUint256 (z : ℤ) : Query ℕ := ensure (0 ≤ z) .safeCast z.toNat

/-- `_scaleToX18`. -/
def scaleToX18 (price : ℕ) (expo : ℤ) : Query ℕ :=
  let shift := 18+expo
  if 0 ≤ shift then
    -- `10^38` fits a word; its product with the price may not
    if 38 < shift then .error (.unscaleableExpo expo)
    else do
      let mul ← pow10 shift.toNat
      mulU price mul
  else do
    -- cut off to zero when the divisor is larger than the price
    let div ← pow10 (-shift).toNat
    return price/div

/-- `_readChainlinkX18`. -/
def readChainlinkX18 (x : Sources) (market : MarketId) (feed : Address) (now : ℕ) :
    Query ℕ := do
  let round ← x.latestRoundData feed
  ensure (¬ round.answer ≤ 0) (.negativePrice market) ()
  -- a round stamped in the future panics
  let age ← subU now round.updatedAt
  ensure (¬ age > 3600) (.chainlinkStale market) ()
  let dec ← x.decimals feed
  let answerU ← toUint256 round.answer
  if dec.val = 18 then return answerU
  else if dec.val < 18 then do
    let mul ← pow10 (18-dec.val)
    mulU answerU mul
  else do
    let div ← pow10 (dec.val-18)
    return answerU/div

namespace OracleAdapter

/-- `_assertWithinDivergence`. -/
def assertWithinDivergence (a : OracleAdapter) (market : MarketId) (pythX18 clX18 : ℕ) :
    Query Unit := do
  let diff := if clX18 < pythX18 then pythX18-clX18 else clX18-pythX18
  -- the lower price is the base, for a stricter check
  let base := if pythX18 < clX18 then pythX18 else clX18
  ensure (base ≠ 0) (.divergenceExceeded market pythX18 clX18) ()
  let scaled ← mulU diff 10000
  let limit ← mulU base a.maxDivergenceBps
  ensure (¬ limit < scaled) (.divergenceExceeded market pythX18 clX18) ()

def priceX18 (a : OracleAdapter) (x : Sources) (market : MarketId) (now : ℕ) : Query ℕ := do
  let feedId := a.pythFeeds market
  ensure (feedId ≠ 0) (.unknownFeed market) ()
  let p ← x.getPriceNoOlderThan feedId a.maxStalenessSec
  ensure (¬ p.price ≤ 0) (.negativePrice market) ()
  let pythPriceRaw ← toUint256 p.price
  let pythX18 ← scaleToX18 pythPriceRaw p.expo
  let clf := a.chainlinkFeeds market
  if clf ≠ 0 then do
    let clX18 ← readChainlinkX18 x market clf now
    a.assertWithinDivergence market pythX18 clX18
    return pythX18
  else return pythX18

end OracleAdapter

@[simp]
theorem pow10_eq_ok {n m : ℕ} : pow10 n = .ok m ↔ 10^n < 2^256 ∧ 10^n = m := boundU_eq_ok

@[simp]
theorem mulU_eq_ok {a b c : ℕ} : mulU a b = .ok c ↔ a*b < 2^256 ∧ a*b = c := boundU_eq_ok

@[simp]
theorem subU_eq_ok {a b c : ℕ} : subU a b = .ok c ↔ b ≤ a ∧ a-b = c := ensure_eq_ok

@[simp]
theorem toUint256_eq_ok {z : ℤ} {n : ℕ} : toUint256 z = .ok n ↔ 0 ≤ z ∧ z.toNat = n :=
  ensure_eq_ok

@[simp]
theorem query_pure_eq_ok {α : Type} {a b : α} : (pure a : Query α) = .ok b ↔ a = b :=
  ⟨Except.ok.inj, congrArg Except.ok⟩

/-- A number times a power of ten, rounded down. -/
def scaled (n : ℤ) (shift : ℤ) : ℤ := ⌊(n:ℚ)*(10:ℚ)^shift⌋

theorem scaled_of_nonneg (n k : ℕ) : scaled n k = (n*10^k : ℕ) := by
  have h : ((n:ℤ):ℚ)*(10:ℚ)^(k:ℤ) = (((n*10^k : ℕ):ℤ):ℚ) := by
    push_cast
    rw [zpow_natCast]
  rw [scaled, h, Int.floor_intCast]

theorem scaled_of_neg (n k : ℕ) : scaled n (-k) = (n/10^k : ℕ) := by
  have h : ((n:ℤ):ℚ)*(10:ℚ)^(-(k:ℤ)) = (n:ℚ)/((10^k : ℕ):ℚ) := by
    push_cast
    rw [zpow_neg, zpow_natCast, div_eq_mul_inv]
  rw [scaled, h]
  exact Rat.floor_natCast_div_natCast n (10^k)

/-- The scaled price is the exact one rounded down. -/
theorem scaleToX18_ok {price v : ℕ} {expo : ℤ} (h : scaleToX18 price expo = .ok v) :
    (v:ℤ) = scaled price (18+expo) := by
  simp only [scaleToX18] at h
  split_ifs at h with hshift hlarge
  · simp only [chain_ok_iff, pow10_eq_ok, mulU_eq_ok] at h
    obtain ⟨_, ⟨-, rfl⟩, -, rfl⟩ := h
    rw [← scaled_of_nonneg, Int.toNat_of_nonneg hshift]
  · simp only [chain_ok_iff, pow10_eq_ok, query_pure_eq_ok] at h
    obtain ⟨_, ⟨-, rfl⟩, rfl⟩ := h
    rw [← scaled_of_neg, Int.toNat_of_nonneg (by omega), neg_neg]

/-- So is the answer of an aggregator. -/
theorem readChainlinkX18_ok {x : Sources} {market : MarketId} {feed : Address} {now c : ℕ}
    (h : readChainlinkX18 x market feed now = .ok c) :
    ∃ round dec, x.latestRoundData feed = .ok round ∧ x.decimals feed = .ok dec ∧
      (c:ℤ) = scaled round.answer (18-(dec.val:ℤ)) := by
  simp only [readChainlinkX18, chain_ok_iff, ensure_eq_ok, and_true, exists_const, subU_eq_ok,
    toUint256_eq_ok] at h
  obtain ⟨round, hround, -, -, -, -, dec, hdec, answerU, ⟨hpos, rfl⟩, h⟩ := h
  refine ⟨round, dec, hround, hdec, ?_⟩
  rw [← Int.toNat_of_nonneg hpos]
  split_ifs at h with h18 hlow
  · simp only [query_pure_eq_ok] at h
    have hshift : 18-(dec.val:ℤ) = (0:ℕ) := by omega
    rw [hshift, scaled_of_nonneg, pow_zero, mul_one, h]
  · simp only [chain_ok_iff, pow10_eq_ok, mulU_eq_ok] at h
    obtain ⟨_, ⟨-, rfl⟩, -, rfl⟩ := h
    have hshift : 18-(dec.val:ℤ) = (18-dec.val : ℕ) := by omega
    rw [hshift, scaled_of_nonneg]
  · simp only [chain_ok_iff, pow10_eq_ok, query_pure_eq_ok] at h
    obtain ⟨_, ⟨-, rfl⟩, rfl⟩ := h
    have hshift : 18-(dec.val:ℤ) = -(dec.val-18 : ℕ) := by omega
    rw [hshift, scaled_of_neg]

section Sound
variable {a : OracleAdapter} {x : Sources} {market : MarketId} {now v : ℕ}

/-- The two prices are within the bound of each other, and neither is zero. -/
structure Agree (a : OracleAdapter) (v c : ℤ) : Prop where
  pos : 0 < c
  close : |v-c| * 10000 ≤ min v c*a.maxDivergenceBps

theorem assertWithinDivergence_ok {c : ℕ}
    (h : a.assertWithinDivergence market v c = .ok ()) : 0 < v ∧ Agree a v c := by
  simp only [OracleAdapter.assertWithinDivergence, chain_ok_iff, ensure_eq_ok, and_true,
    exists_const, mulU_eq_ok] at h
  obtain ⟨hbase, _, ⟨-, rfl⟩, _, ⟨-, rfl⟩, hclose⟩ := h
  have hdiff : |(v:ℤ)-c| = ((if c < v then v-c else c-v : ℕ):ℤ) := by
    split_ifs
    · rw [abs_of_nonneg] <;> omega
    · rw [abs_of_nonpos] <;> omega
  have hmin : min (v:ℤ) c = ((if v < c then v else c : ℕ):ℤ) := by
    split_ifs <;> omega
  refine ⟨?_, ?_, ?_⟩
  · split_ifs at hbase <;> omega
  · split_ifs at hbase <;> omega
  · rw [hdiff, hmin]
    exact_mod_cast not_lt.mp hclose

/-- What an answer of the adapter says about the two sources. -/
theorem priceX18_ok (h : a.priceX18 x market now = .ok v) :
    ∃ p, x.getPriceNoOlderThan (a.pythFeeds market) a.maxStalenessSec = .ok p ∧ 0 < p.price ∧
      (v:ℤ) = scaled p.price (18+p.expo) ∧
      (a.chainlinkFeeds market ≠ 0 → 0 < v ∧ ∃ round dec,
        x.latestRoundData (a.chainlinkFeeds market) = .ok round ∧
        x.decimals (a.chainlinkFeeds market) = .ok dec ∧
        Agree a v (scaled round.answer (18-(dec.val:ℤ)))) := by
  simp only [OracleAdapter.priceX18, chain_ok_iff, ensure_eq_ok, and_true, exists_const,
    toUint256_eq_ok] at h
  obtain ⟨-, p, hp, hpos, raw, ⟨hraw, rfl⟩, pythX18, hscale, h⟩ := h
  have hv := scaleToX18_ok hscale
  rw [Int.toNat_of_nonneg hraw] at hv
  split_ifs at h with hfeed
  · simp only [chain_ok_iff, query_pure_eq_ok] at h
    obtain ⟨c, hc, _, hagree, rfl⟩ := h
    obtain ⟨round, dec, hround, hdec, hscaled⟩ := readChainlinkX18_ok hc
    obtain ⟨hvpos, hclose⟩ := assertWithinDivergence_ok hagree
    refine ⟨p, hp, not_le.mp hpos, hv, fun _ => ⟨hvpos, round, dec, hround, hdec, ?_⟩⟩
    rw [← hscaled]
    exact hclose
  · simp only [query_pure_eq_ok] at h
    exact ⟨p, hp, not_le.mp hpos, h ▸ hv, fun hne => absurd hne hfeed⟩

/-- Whenever the adapter answers, its answer is the Pyth price rounded down to 18 decimals,
within the bound of a registered aggregator; it is positive as well exactly when an
aggregator is registered or the exact price is at least one unit of the 18th decimal. -/
theorem priceX18_sound_iff (h : a.priceX18 x market now = .ok v) :
    ∃ p, x.getPriceNoOlderThan (a.pythFeeds market) a.maxStalenessSec = .ok p ∧
      ((0 < v ∧ (v:ℤ) = ⌊(p.price:ℚ)*(10:ℚ)^(18+p.expo)⌋ ∧
        (a.chainlinkFeeds market ≠ 0 → ∃ round dec,
          x.latestRoundData (a.chainlinkFeeds market) = .ok round ∧
          x.decimals (a.chainlinkFeeds market) = .ok dec ∧
          let c := ⌊(round.answer:ℚ)*(10:ℚ)^(18-(dec.val:ℤ))⌋
          |(v:ℤ)-c| * 10000 ≤ min (v:ℤ) c*a.maxDivergenceBps ∧ 0 < c)) ↔
      (a.chainlinkFeeds market ≠ 0 ∨ 1 ≤ (p.price:ℚ)*(10:ℚ)^(18+p.expo))) := by
  obtain ⟨p, hp, -, hv, hfeed⟩ := priceX18_ok h
  have hpositive : 0 < v ↔ 1 ≤ (p.price:ℚ)*(10:ℚ)^(18+p.expo) := by
    have hfloor := Int.le_floor (z := 1) (a := (p.price:ℚ)*(10:ℚ)^(18+p.expo))
    rw [Int.cast_one] at hfloor
    rw [← hfloor]
    change 0 < v ↔ 1 ≤ scaled p.price (18+p.expo)
    omega
  refine ⟨p, hp, ?_, ?_⟩
  · rintro ⟨hpos, -, -⟩
    exact .inr (hpositive.mp hpos)
  · intro hcond
    have hpos : 0 < v := hcond.elim (fun hne => (hfeed hne).1) hpositive.mpr
    refine ⟨hpos, hv, ?_⟩
    intro hne
    obtain ⟨-, round, dec, hround, hdec, hagree⟩ := hfeed hne
    exact ⟨round, dec, hround, hdec, hagree.close, hagree.pos⟩

end Sound

/-- Sources that give the same answers for every feed. -/
def Sources.answering (p : PythPrice) (round : Round) (dec : Fin 256) : Sources :=
  ⟨fun _ _ => .ok p, fun _ => .ok round, fun _ => .ok dec⟩

/-- 100000 from Pyth with eight decimals, and the same from an aggregator. -/
def btcSources : Sources :=
  .answering ⟨10^13, -8, by decide, by decide⟩ ⟨10^13, 0, by decide, by decide⟩ 8

/-- Every market has a Pyth feed; the aggregator is a parameter. -/
def crossChecked (aggregator : Address) : OracleAdapter :=
  ⟨fun _ => 1, fun _ => aggregator, 30, 100⟩

theorem priceX18_sound_btc :
    ∃ p, btcSources.getPriceNoOlderThan 1 30 = .ok p ∧
      ((100000*10^18 : ℕ):ℤ) = ⌊(p.price:ℚ)*(10:ℚ)^(18+p.expo)⌋ := by
  have h : (crossChecked 1).priceX18 btcSources 1 0 = .ok (100000*10^18) := by decide +kernel
  obtain ⟨p, hp, hiff⟩ := priceX18_sound_iff h
  exact ⟨p, hp, (hiff.mpr (Or.inl (by decide))).2.1⟩

/-- A Pyth price of five with nineteen decimals, and no aggregator: the answer is zero. -/
theorem thin_price_is_zero :
    (crossChecked 0).priceX18 (.answering ⟨5, -19, by decide, by decide⟩
      ⟨0, 0, by decide, by decide⟩ 8) 1 0 = .ok 0 := by decide +kernel

/-- The answers of the adapter, as the other contracts see them. -/
def OracleAdapter.answers (a : OracleAdapter) (x : Sources) (now : ℕ) (market : MarketId) :
    Option ℕ := (a.priceX18 x market now).toOption

/-- With an aggregator behind every market no contract ever reads a price of zero. -/
theorem priceX18_pos_of_crossChecked {s : Chain.State} {a : OracleAdapter} {x : Sources}
    {now v : ℕ} (hs : s.oracle = a.answers x now) (hfeed : ∀ market, a.chainlinkFeeds market ≠ 0)
    {market : MarketId} (h : s.priceX18 market = .ok v) : 0 < v := by
  simp only [Chain.State.priceX18, hs, OracleAdapter.answers] at h
  cases ha : a.priceX18 x market now with
  | error e => simp [ha, Except.toOption] at h
  | ok w =>
    simp only [ha, Except.toOption, Except.ok.injEq] at h
    subst h
    obtain ⟨-, -, -, -, hpos⟩ := priceX18_ok ha
    exact (hpos (hfeed market)).1

/-- At a price of zero every position counts as healthy, and none can be liquidated. -/
theorem not_liquidate_at_zero {s : Chain.State} {d : Chain.Deployment} {sender user : Address}
    {market : MarketId} (hs : s.oracle market = some 0) :
    ¬ Succeeds (s.liquidate d sender user market) := by
  rintro ⟨⟨receipt, s'⟩, h⟩
  simp only [Chain.State.liquidate, Chain.State.priceX18, hs, chain_ok_iff, ensure_eq_ok, and_true,
    exists_const, Except.ok.injEq, exists_eq_left'] at h
  obtain ⟨-, hf, hhf, hlow, hsize, -⟩ := h
  exact lt_irrefl 0 (Chain.State.healthFactor_low hsize hhf hlow).2.1

end Perplex.Oracle
