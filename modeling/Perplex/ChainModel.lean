import Mathlib.Logic.Function.Basic
import Mathlib.Algebra.Order.Group.Unbundled.Int
import Perplex.Types
import Perplex.Checked

/-! Data and arithmetic shared by the contracts. `uint256` and `int256` are `ℕ` and `ℤ` with
every operation checked against its range, as Solidity 0.8 does; a revert is an error, and
a call that reverts has no effect. Events and `lastUpdatedBlock`, which nothing reads, are
left out. -/
namespace Perplex.Chain

inductive Revert where
  | panic
  | safeCast
  | amountZero
  | userZero
  | deltaZero
  | priceZero
  | insufficientBalance
  | withdrawalBlocked
  | unauthorizedCaller
  | zeroAddress
  | notOwner
  | notSettlement
  | notFundingAuthority
  | marketInactive (market : MarketId)
  | marketNotListed (market : MarketId)
  | marketAlreadyListed (market : MarketId)
  | invalidParams
  | unknownFeed (market : MarketId)
  | emptyBatch
  | batchExpired
  | nonceUsed (nonce : ℕ)
  | badSignature
  | healthy (healthFactorX18 : ℕ)
  | noPosition
  | lengthMismatch
  | wrongSide
  | closeExceedsPosition
  | notProfitable
  | notSubmitter
  | tooSoon (next : ℕ)
  | premiumOutOfBounds (premium : ℤ)
  | capExceeded (market : MarketId) (cap next : ℕ)
  | transferExceedsBalance
deriving DecidableEq, Repr

/-- A call or an internal function: its result, or the revert. -/
abbrev Tx := Except Revert

def addU (a b : ℕ) : Tx ℕ := boundU 256 .panic (a+b)
def mulU (a b : ℕ) : Tx ℕ := boundU 256 .panic (a*b)
def subU (a b : ℕ) : Tx ℕ := ensure (b ≤ a) .panic (a-b)
def addI (a b : ℤ) : Tx ℤ := boundI 256 .panic (a+b)
def subI (a b : ℤ) : Tx ℤ := boundI 256 .panic (a-b)
def mulI (a b : ℤ) : Tx ℤ := boundI 256 .panic (a*b)
def negI (a : ℤ) : Tx ℤ := boundI 256 .panic (-a)
def toInt256 (n : ℕ) : Tx ℤ := ensure (n < 2^255) .safeCast (n : ℤ)
def toUint256 (z : ℤ) : Tx ℕ := ensure (0 ≤ z) .safeCast z.toNat

/-- Fixed-point one. -/
def E18 : ℕ := 10^18

/-- Scale between vault USDC (6 decimals) and price math (18 decimals). -/
def USDC_TO_X18 : ℕ := 10^12

def BPS : ℕ := 10000

structure Position where
  size : ℤ
  entryPriceX18 : ℕ
  cumulativeFunding : ℤ
deriving DecidableEq, Repr

structure MarketParams where
  imRatioBps : ℕ
  mmRatioBps : ℕ
  liqBonusBps : ℕ
  takerFeeBps : ℕ
  makerRebateBps : ℤ
  active : Bool
deriving DecidableEq, Repr

/-- One fill of a settlement batch. -/
structure Fill where
  user : Address
  marketId : MarketId
  sizeDelta : ℤ
  priceX18 : ℕ
  fee : ℤ
deriving DecidableEq, Repr

/-- `CollateralVault`. -/
structure Vault where
  balances : Address → ℕ
  totalDeposits : ℕ

/-- `PositionRegistry`: positions, the markets each user holds with their 1-based index in
that list, and the funding index of each market. -/
structure Registry where
  positions : Address → MarketId → Position
  userMarkets : Address → List MarketId
  userMarketIndexPlusOne : Address → MarketId → ℕ
  marketIndexFunding : MarketId → ℤ

/-- `MarketRegistry`; an unlisted market has no parameters. -/
structure Markets where
  params : MarketId → Option MarketParams

/-- `SettlementEngine`; the hook, when set, is the synthetic counterparty. -/
structure Settlement where
  operator : Address
  usedNonces : ℕ → Bool
  fillHook : Bool

/-- The bookkeeping of `SyntheticCounterparty`. -/
structure Synthetic where
  settlement : Address
  marketCap : MarketId → ℕ
  position : MarketId → ℤ
  realisedPnl : MarketId → ℤ

/-- `FundingEngine`. -/
structure Funding where
  submitter : Address
  lastFundingAt : MarketId → ℕ

/-- Addresses fixed when the contracts are deployed and wired. -/
structure Deployment where
  owner : Address
  vault : Address
  fund : Address
  settlementEngine : Address
  liquidationEngine : Address
  fundingEngine : Address
  synthetic : Address
  fund_ne_zero : fund ≠ 0

/-- Everything the contracts store, with the oracle's answers and the USDC ledger. -/
structure State where
  markets : Markets
  oracle : MarketId → Option ℕ
  usdc : Address → ℕ
  vault : Vault
  registry : Registry
  settlement : Settlement
  synthetic : Synthetic
  funding : Funding

def MAX_IM_BPS : ℕ := 5000
def MAX_MM_BPS : ℕ := 2500
def MAX_LIQ_BONUS_BPS : ℕ := 1000
def MAX_TAKER_FEE_BPS : ℕ := 100
def MIN_MAKER_REBATE_BPS : ℤ := -50
def MAX_MAKER_FEE_BPS : ℤ := 50

/-- `_validate`. -/
def MarketParams.Valid (p : MarketParams) : Prop :=
  ¬ (p.imRatioBps = 0 ∨ p.imRatioBps > MAX_IM_BPS) ∧
  -- maintenance strictly below initial margin
  ¬ (p.mmRatioBps = 0 ∨ p.mmRatioBps ≥ p.imRatioBps ∨ p.mmRatioBps > MAX_MM_BPS) ∧
  ¬ p.liqBonusBps > MAX_LIQ_BONUS_BPS ∧
  ¬ p.takerFeeBps > MAX_TAKER_FEE_BPS ∧
  ¬ (p.makerRebateBps < MIN_MAKER_REBATE_BPS ∨ p.makerRebateBps > MAX_MAKER_FEE_BPS)

instance (p : MarketParams) : Decidable p.Valid := by
  unfold MarketParams.Valid
  infer_instance

namespace Markets

def listMarket (ms : Markets) (market : MarketId) (p : MarketParams) : Tx Markets := do
  ensure ((ms.params market).isNone) (.marketAlreadyListed market) ()
  ensure p.Valid .invalidParams ()
  return ⟨Function.update ms.params market (some p)⟩

def updateMarket (ms : Markets) (market : MarketId) (p : MarketParams) : Tx Markets := do
  ensure ((ms.params market).isSome) (.marketNotListed market) ()
  ensure p.Valid .invalidParams ()
  return ⟨Function.update ms.params market (some p)⟩

def deactivateMarket (ms : Markets) (market : MarketId) : Tx Markets :=
  match ms.params market with
  | none => .error (.marketNotListed market)
  | some p => .ok ⟨Function.update ms.params market (some { p with active := false })⟩

def isMarketActive (ms : Markets) (market : MarketId) : Bool :=
  match ms.params market with
  | none => false
  | some p => p.active

def getParams (ms : Markets) (market : MarketId) : Tx MarketParams :=
  match ms.params market with
  | none => .error (.marketNotListed market)
  | some p => .ok p

end Markets

/-- The oracle's answer for a market. -/
def State.priceX18 (s : State) (market : MarketId) : Tx ℕ :=
  match s.oracle market with
  | none => .error (.unknownFeed market)
  | some p => .ok p

/-- A standard ERC-20 transfer. -/
def transferUsdc (usdc : Address → ℕ) (src dst : Address) (amount : ℕ) : Tx (Address → ℕ) := do
  ensure (amount ≤ usdc src) .transferExceedsBalance ()
  -- debit first, so that a transfer to oneself changes nothing
  let usdc := Function.update usdc src (usdc src-amount)
  return Function.update usdc dst (usdc dst+amount)

end Perplex.Chain
