import Mathlib.Data.List.Perm.Basic
import Perplex.ChainRegistry

/-! The contracts that move collateral, `CollateralVault`, `SettlementEngine`,
`LiquidationEngine` and `FundingEngine`, and the transactions of the deployed system.
`USDC` is a standard ERC-20 with exact transfers. -/
namespace Perplex.Chain

namespace State

def deposit (s : State) (d : Deployment) (sender : Address) (amount : ℕ) : Tx State := do
  ensure (0 < amount) .amountZero ()
  let usdc ← transferUsdc s.usdc sender d.vault amount
  let balance ← addU (s.vault.balances sender) amount
  let total ← addU s.vault.totalDeposits amount
  return { s with
    usdc
    vault := ⟨Function.update s.vault.balances sender balance, total⟩ }

def withdraw (s : State) (d : Deployment) (sender : Address) (amount : ℕ) : Tx State := do
  ensure (amount ≤ s.vault.balances sender) .insufficientBalance ()
  let safe ← s.isWithdrawSafe sender amount
  ensure safe .withdrawalBlocked ()
  let balance ← subU (s.vault.balances sender) amount
  let total ← subU s.vault.totalDeposits amount
  let usdc ← transferUsdc s.usdc d.vault sender amount
  return { s with
    usdc
    vault := ⟨Function.update s.vault.balances sender balance, total⟩ }

end State

/-- `applySettlement`. -/
def Vault.applySettlement (v : Vault) (d : Deployment) (sender user : Address) (delta : ℤ) :
    Tx Vault := do
  ensure (sender = d.settlementEngine ∨ sender = d.liquidationEngine) .unauthorizedCaller ()
  if delta = 0 then return v
  else if 0 < delta then
    let amt ← toUint256 delta
    let balance ← addU (v.balances user) amt
    return { v with balances := Function.update v.balances user balance }
  else
    let amt := delta.natAbs
    ensure (amt ≤ v.balances user) .insufficientBalance ()
    let balance ← subU (v.balances user) amt
    return { v with balances := Function.update v.balances user balance }

/-- `safeTransfer` out of the vault, skipped for a zero amount. -/
def payOut (usdc : Address → ℕ) (d : Deployment) (dst : Address) (amount : ℕ) :
    Tx (Address → ℕ) :=
  if 0 < amount then transferUsdc usdc d.vault dst amount else return usdc

namespace State

/-- `seizeForLiquidation`: bonus, residual and shortfall, and the state after the payout. -/
def seizeForLiquidation (s : State) (d : Deployment) (sender user liquidator fund : Address)
    (bonusAmount : ℕ) : Tx (ℕ × ℕ × ℕ × State) := do
  ensure (sender = d.liquidationEngine) .unauthorizedCaller ()
  ensure (liquidator ≠ 0 ∧ fund ≠ 0) .zeroAddress ()
  let userBal := s.vault.balances user
  -- the whole balance leaves the pool, also the part that settlement credited
  let total ← subU s.vault.totalDeposits userBal
  let (bonus,residual,shortfall) :=
    if bonusAmount ≤ userBal then (bonusAmount,userBal-bonusAmount,0)
    else (userBal,0,bonusAmount-userBal)
  let usdc ← payOut s.usdc d liquidator bonus
  let usdc ← payOut usdc d fund residual
  return (bonus,residual,shortfall,{ s with
    usdc
    vault := ⟨Function.update s.vault.balances user 0, total⟩ })

/-- `debitToExternal`: the amount paid and the state after it. -/
def debitToExternal (s : State) (d : Deployment) (sender user recipient : Address)
    (amount : ℕ) : Tx (ℕ × State) := do
  ensure (sender = d.liquidationEngine) .unauthorizedCaller ()
  ensure (recipient ≠ 0) .zeroAddress ()
  let bal := s.vault.balances user
  -- pays what is there and does not report the difference
  let paid := if bal < amount then bal else amount
  if paid = 0 then return (0,s)
  else
    let total ← subU s.vault.totalDeposits paid
    let usdc ← transferUsdc s.usdc d.vault recipient paid
    return (paid,{ s with
      usdc
      vault := ⟨Function.update s.vault.balances user (bal-paid), total⟩ })

end State

/-- `onFill` of the synthetic counterparty: only its own fills count against the cap. -/
def Synthetic.onFill (c : Synthetic) (d : Deployment) (sender user : Address)
    (market : MarketId) (sizeDelta realisedPnl : ℤ) : Tx Synthetic := do
  ensure (sender = c.settlement) .notSettlement ()
  if user ≠ d.synthetic then return c
  else
    -- the cap is on the net position, in either direction
    let next ← addI (c.position market) sizeDelta
    let cap := c.marketCap market
    ensure (next.natAbs ≤ cap) (.capExceeded market cap next.natAbs) ()
    let pnl ← addI (c.realisedPnl market) realisedPnl
    return { c with
      position := Function.update c.position market next
      realisedPnl := Function.update c.realisedPnl market pnl }

/-- `_toRawUsdcDelta`: rounds toward zero. -/
def toRawUsdcDelta (deltaX18 : ℤ) : Tx ℤ :=
  let absRaw := deltaX18.natAbs/USDC_TO_X18
  if deltaX18 = 0 then return 0
  else if absRaw = 0 then return 0
  else do
    let raw ← toInt256 absRaw
    if 0 < deltaX18 then return raw else negI raw

namespace State

/-- One pass of the loop of `applyBatch`. -/
def settleFill (s : State) (d : Deployment) (f : Fill) : Tx State := do
  let (realisedPnl,fundingDelta,registry) ← s.registry.applyFill d s.markets d.settlementEngine
    f.user f.marketId f.sizeDelta f.priceX18
  let pnlX18 ← addI realisedPnl fundingDelta
  let deltaX18 ← addI pnlX18 f.fee
  -- the fee is signed: a taker's fee comes in as a negative number
  let deltaRaw ← (if deltaX18 ≠ 0 then toRawUsdcDelta deltaX18 else pure 0)
  let vault ← (if deltaRaw ≠ 0 then
      s.vault.applySettlement d d.settlementEngine f.user deltaRaw
    else pure s.vault)
  -- the hook runs after the vault; its revert takes the batch with it
  let synthetic ← (if s.settlement.fillHook then
      s.synthetic.onFill d d.settlementEngine f.user f.marketId f.sizeDelta realisedPnl
    else pure s.synthetic)
  return { s with registry, vault, synthetic }

def settleFills (d : Deployment) : State → List Fill → Tx State
  | s, [] => return s
  | s, f :: fills => do
    let s ← s.settleFill d f
    settleFills d s fills

/-- `applyBatch`; `signer` is the address recovered from the signature over the batch. -/
def applyBatch (s : State) (d : Deployment) (fills : List Fill) (nonce deadline : ℕ)
    (signer : Address) (now : ℕ) : Tx State := do
  ensure (fills ≠ []) .emptyBatch ()
  ensure (now ≤ deadline) .batchExpired ()
  ensure (s.settlement.usedNonces nonce = false) (.nonceUsed nonce) ()
  -- the nonce is marked before the signature is checked
  let settlement := { s.settlement with
    usedNonces := Function.update s.settlement.usedNonces nonce true }
  ensure (signer = s.settlement.operator) .badSignature ()
  settleFills d { s with settlement } fills

end State

structure LiquidationReceipt where
  markX18 : ℕ
  closedSize : ℤ
  settledDelta : ℤ
  bonusPaid : ℕ
  residualPaid : ℕ
  shortfall : ℕ
deriving DecidableEq, Repr

namespace State

/-- `_computeBonusUSDC`. -/
def computeBonusUSDC (s : State) (market : MarketId) (mark : ℕ) (sizeBefore : ℤ) : Tx ℕ := do
  let mp ← s.markets.getParams market
  let notionalX18 ← notional sizeBefore mark
  let scaled ← mulU notionalX18 mp.liqBonusBps
  return scaled/BPS/USDC_TO_X18

/-- Close `closeSize` of a position at the mark and settle PnL and funding in the vault, as
`_closeAndSettle` and `_adlOne` do: realised PnL, settled raw delta and the new state. -/
def closeAndSettle (s : State) (d : Deployment) (user : Address) (market : MarketId)
    (mark : ℕ) (closeSize : ℤ) : Tx (ℤ × ℤ × State) := do
  let (realised,funding,registry) ← s.registry.applyFill d s.markets d.liquidationEngine
    user market closeSize mark
  let settleX18 ← addI realised funding
  let settleUSDC := settleX18.tdiv USDC_TO_X18
  let vault ← (if settleUSDC ≠ 0 then
      s.vault.applySettlement d d.liquidationEngine user settleUSDC
    else pure s.vault)
  return (realised,settleUSDC,{ s with registry, vault })

def liquidate (s : State) (d : Deployment) (sender user : Address) (market : MarketId) :
    Tx (LiquidationReceipt × State) := do
  ensure (s.markets.isMarketActive market) (.marketInactive market) ()
  let mark ← s.priceX18 market
  let hf ← s.healthFactor user market mark
  ensure (hf < E18) (.healthy hf) ()
  let sizeBefore := (s.registry.positions user market).size
  ensure (sizeBefore ≠ 0) .noPosition ()
  -- the bonus is priced on the size before the close
  let bonusUSDC ← s.computeBonusUSDC market mark sizeBefore
  let closeSize ← negI sizeBefore
  -- a loss beyond the balance reverts here, before anything is seized
  let (_,settleUSDC,s) ← s.closeAndSettle d user market mark closeSize
  let (paidBonus,paidResidual,shortfall,s) ← s.seizeForLiquidation d d.liquidationEngine
    user sender d.fund bonusUSDC
  return (⟨mark, closeSize, settleUSDC, paidBonus, paidResidual, shortfall⟩,s)

/-- `_adlOne` with the amount that its event `AdlExecuted` reports as paid. -/
def adlOneEmitting (s : State) (d : Deployment) (market : MarketId) (mark : ℕ)
    (victim : Address) (closeSize : ℤ) : Tx (ℕ × State) := do
  let p := s.registry.positions victim market
  ensure (¬ (p.size = 0 ∨ closeSize = 0)) .noPosition ()
  ensure (¬ (0 < p.size ↔ 0 < closeSize)) .wrongSide ()
  ensure (¬ p.size.natAbs < closeSize.natAbs) .closeExceedsPosition ()
  let longProfitable := 0 < p.size ∧ p.entryPriceX18 < mark
  let shortProfitable := p.size < 0 ∧ mark < p.entryPriceX18
  ensure (longProfitable ∨ shortProfitable) .notProfitable ()
  let (realised,_,s) ← s.closeAndSettle d victim market mark closeSize
  -- only a gain is clawed back; the funding portion stays with the user
  let take := if 0 < realised then (realised.tdiv USDC_TO_X18).toNat else 0
  if take = 0 then return (0,s)
  else s.debitToExternal d d.liquidationEngine victim d.fund take

/-- `_adlOne`. -/
def adlOne (s : State) (d : Deployment) (market : MarketId) (mark : ℕ) (victim : Address)
    (closeSize : ℤ) : Tx State := do
  let (_,s) ← s.adlOneEmitting d market mark victim closeSize
  return s

def adlLoop (d : Deployment) (market : MarketId) (mark : ℕ) :
    State → List (Address × ℤ) → Tx State
  | s, [] => return s
  | s, (victim,closeSize) :: rest => do
    let s ← s.adlOne d market mark victim closeSize
    adlLoop d market mark s rest

def adl (s : State) (d : Deployment) (sender : Address) (market : MarketId)
    (victims : List Address) (closeSizes : List ℤ) : Tx State := do
  ensure (sender = d.owner) .notOwner ()
  ensure (victims.length = closeSizes.length) .lengthMismatch ()
  ensure (s.markets.isMarketActive market) (.marketInactive market) ()
  let mark ← s.priceX18 market
  adlLoop d market mark s (victims.zip closeSizes)

end State

def FUNDING_INTERVAL : ℕ := 8*3600

def MAX_PREMIUM_ABS : ℤ := 10^16

namespace State

def applyFunding (s : State) (d : Deployment) (sender : Address) (market : MarketId)
    (premiumX18 : ℤ) (now : ℕ) : Tx State := do
  ensure (sender = s.funding.submitter) .notSubmitter ()
  ensure (s.markets.isMarketActive market) (.marketInactive market) ()
  ensure (¬ (premiumX18 > MAX_PREMIUM_ABS ∨ premiumX18 < -MAX_PREMIUM_ABS))
    (.premiumOutOfBounds premiumX18) ()
  let last := s.funding.lastFundingAt market
  -- a market that was never updated has no interval to wait for
  if last ≠ 0 then
    let next ← boundU 64 .panic (last+FUNDING_INTERVAL)
    ensure (next ≤ now) (.tooSoon next) ()
  let newIndex ← addI (s.registry.marketIndexFunding market) premiumX18
  let registry ← s.registry.updateFunding d d.fundingEngine market newIndex
  let lastFundingAt := Function.update s.funding.lastFundingAt market (now%2^64)
  return { s with registry, funding := { s.funding with lastFundingAt } }

end State

/-- A transaction, or a step of its surroundings: the oracle and the USDC token. -/
inductive Call where
  | deposit (sender : Address) (amount : ℕ)
  | withdraw (sender : Address) (amount : ℕ)
  | applyBatch (fills : List Fill) (nonce deadline : ℕ) (signer : Address) (now : ℕ)
  | updateFunding (sender : Address) (market : MarketId) (newCumulativeIndex : ℤ)
  | applyFunding (sender : Address) (market : MarketId) (premiumX18 : ℤ) (now : ℕ)
  | liquidate (sender user : Address) (market : MarketId)
  | adl (sender : Address) (market : MarketId) (victims : List Address) (closeSizes : List ℤ)
  | listMarket (sender : Address) (market : MarketId) (params : MarketParams)
  | updateMarket (sender : Address) (market : MarketId) (params : MarketParams)
  | deactivateMarket (sender : Address) (market : MarketId)
  | setOperator (sender newOperator : Address)
  | setFillHook (sender : Address) (enabled : Bool)
  | setSettlement (sender newSettlement : Address)
  | setCap (sender : Address) (market : MarketId) (cap : ℕ)
  | setSubmitter (sender newSubmitter : Address)
  | oracleAnswer (market : MarketId) (priceX18 : Option ℕ)
  | mintUsdc (dst : Address) (amount : ℕ)
  | transferUsdc (src dst : Address) (amount : ℕ)

/-- The vault's code neither calls its own entry points nor moves its tokens elsewhere. -/
def Call.Possible (d : Deployment) : Call → Prop
  | .deposit sender _ => sender ≠ d.vault
  | .withdraw sender _ => sender ≠ d.vault
  | .transferUsdc src _ _ => src ≠ d.vault
  | _ => True

instance (d : Deployment) (c : Call) : Decidable (c.Possible d) := by
  cases c <;> unfold Call.Possible <;> infer_instance

/-- The fills come in pairs of one market and one price with opposite sizes. -/
def Paired (fills : List Fill) : Prop :=
  ∃ pairs : List (Fill × Fill),
    (∀ p ∈ pairs, p.1.marketId = p.2.marketId ∧ p.1.priceX18 = p.2.priceX18 ∧
      p.1.sizeDelta = -p.2.sizeDelta) ∧
    fills.Perm (pairs.flatMap fun p => [p.1, p.2])

theorem paired_pair {f g : Fill} (hm : f.marketId = g.marketId) (hp : f.priceX18 = g.priceX18)
    (hs : f.sizeDelta = -g.sizeDelta) : Paired [f, g] :=
  ⟨[(f,g)], by simp [hm, hp, hs], List.Perm.refl _⟩

/-- Every settlement batch is paired. -/
def Call.Balanced : Call → Prop
  | .applyBatch fills _ _ _ _ => Paired fills
  | _ => True

def exec (d : Deployment) (s : State) : Call → Tx State
  | .deposit sender amount => s.deposit d sender amount
  | .withdraw sender amount => s.withdraw d sender amount
  | .applyBatch fills nonce deadline signer now => s.applyBatch d fills nonce deadline signer now
  | .updateFunding sender market newCumulativeIndex => do
    let registry ← s.registry.updateFunding d sender market newCumulativeIndex
    return { s with registry }
  | .applyFunding sender market premiumX18 now => s.applyFunding d sender market premiumX18 now
  | .liquidate sender user market => do
    let (_,s) ← s.liquidate d sender user market
    return s
  | .adl sender market victims closeSizes => s.adl d sender market victims closeSizes
  | .listMarket sender market params => do
    ensure (sender = d.owner) .notOwner ()
    let markets ← s.markets.listMarket market params
    return { s with markets }
  | .updateMarket sender market params => do
    ensure (sender = d.owner) .notOwner ()
    let markets ← s.markets.updateMarket market params
    return { s with markets }
  | .deactivateMarket sender market => do
    ensure (sender = d.owner) .notOwner ()
    let markets ← s.markets.deactivateMarket market
    return { s with markets }
  | .setOperator sender newOperator => do
    ensure (sender = d.owner) .notOwner ()
    ensure (newOperator ≠ 0) .zeroAddress ()
    return { s with settlement := { s.settlement with operator := newOperator } }
  | .setFillHook sender enabled => do
    ensure (sender = d.owner) .notOwner ()
    return { s with settlement := { s.settlement with fillHook := enabled } }
  | .setSettlement sender newSettlement => do
    ensure (sender = d.owner) .notOwner ()
    ensure (newSettlement ≠ 0) .zeroAddress ()
    return { s with synthetic := { s.synthetic with settlement := newSettlement } }
  | .setCap sender market cap => do
    ensure (sender = d.owner) .notOwner ()
    let marketCap := Function.update s.synthetic.marketCap market cap
    return { s with synthetic := { s.synthetic with marketCap } }
  | .setSubmitter sender newSubmitter => do
    ensure (sender = d.owner) .notOwner ()
    ensure (newSubmitter ≠ 0) .zeroAddress ()
    return { s with funding := { s.funding with submitter := newSubmitter } }
  | .oracleAnswer market priceX18 =>
    return { s with oracle := Function.update s.oracle market priceX18 }
  | .mintUsdc dst amount =>
    return { s with usdc := Function.update s.usdc dst (s.usdc dst+amount) }
  | .transferUsdc src dst amount => do
    let usdc ← Chain.transferUsdc s.usdc src dst amount
    return { s with usdc }

/-- The contracts right after deployment and wiring. -/
def genesis (d : Deployment) (operator submitter : Address) : State where
  markets := ⟨fun _ => none⟩
  oracle := fun _ => none
  usdc := fun _ => 0
  vault := ⟨fun _ => 0, 0⟩
  registry := ⟨fun _ _ => ⟨0, 0, 0⟩, fun _ => [], fun _ _ => 0, fun _ => 0⟩
  settlement := ⟨operator, fun _ => false, false⟩
  synthetic := ⟨d.settlementEngine, fun _ => 0, fun _ => 0, fun _ => 0⟩
  funding := ⟨submitter, fun _ => 0⟩

/-- States some sequence of transactions leads to; one that reverts changes nothing. -/
def Reachable (d : Deployment) (s : State) : Prop :=
  ∃ operator submitter calls, (∀ c ∈ calls, c.Possible d) ∧
    runAll (exec d) (genesis d operator submitter) calls = s

/-- What holds after deployment and is kept by every successful call holds in every
reachable state. -/
theorem Reachable.invariant {d : Deployment} {P : State → Prop} {s : State} (h : Reachable d s)
    (h0 : ∀ operator submitter, P (genesis d operator submitter))
    (hstep : ∀ s c s', P s → c.Possible d → exec d s c = .ok s' → P s') : P s := by
  obtain ⟨operator, submitter, calls, hcalls, rfl⟩ := h
  exact runAll_invariant hstep (h0 operator submitter) hcalls

/-- A devnet deployment, and the risk parameters the deploy script lists BTC with. -/
def devnet : Deployment where
  owner := 1
  vault := 2
  fund := 3
  settlementEngine := 4
  liquidationEngine := 5
  fundingEngine := 6
  synthetic := 7
  fund_ne_zero := by decide

def btcParams : MarketParams := ⟨500, 250, 100, 5, -2, true⟩

/-- The devnet after some calls; its operator is 8 and its funding submitter 9. -/
def devnetAfter (calls : List Call) : State := runAll (exec devnet) (genesis devnet 8 9) calls

theorem reachable_devnetAfter {calls : List Call} (h : ∀ c ∈ calls, c.Possible devnet) :
    Reachable devnet (devnetAfter calls) := ⟨8, 9, calls, h, rfl⟩

/-- A market at 100 in which users 101, 102 and 103 have deposited. -/
def funded (deposit counter : ℕ) : List Call :=
  [.listMarket 1 1 btcParams, .oracleAnswer 1 (some (100*10^18)),
   .mintUsdc 101 deposit, .deposit 101 deposit, .mintUsdc 102 counter, .deposit 102 counter,
   .mintUsdc 103 counter, .deposit 103 counter]

/-- User 101 buys one contract from 102 at 100. -/
def firstTrade : List Fill := [⟨101, 1, 10^18, 100*10^18, 0⟩, ⟨102, 1, -10^18, 100*10^18, 0⟩]

def oneContract (deposit counter : ℕ) : List Call :=
  funded deposit counter++[Call.applyBatch firstTrade 0 0 8 0]

end Perplex.Chain
