import Perplex.ChainForced

/-! The USDC that contracts hold for the team: the funding flow of `SyntheticCounterparty`, whose
withdrawals wait behind a timelock, and `InsuranceFund`. Both stand beside the contracts of
`ChainSystem` and use the same token. -/
namespace Perplex.Chain

inductive CustodyRevert where
  | chain (e : Revert)
  | panic
  | notOwner
  | zeroAddress
  | zeroAmount
  | withdrawAlreadyQueued
  | noWithdrawQueued
  | withdrawNotReady (eta : ℕ)
  | insufficientCustody
  | insufficientBalance
deriving DecidableEq, Repr

structure PendingWithdraw where
  amount : ℕ
  eta : ℕ
deriving DecidableEq, Repr

/-- Two days. -/
def TIMELOCK : ℕ := 2*24*3600

/-- The chain, the counterparty's owner and its queued withdrawal, and the owner of the fund. -/
structure Custody where
  chain : State
  owner : Address
  pending : PendingWithdraw
  fundOwner : Address

inductive CustodyCall where
  | chain (c : Call)
  | deposit (sender : Address) (amount : ℕ)
  | depositToVault (sender : Address) (amount : ℕ)
  | queueWithdraw (sender : Address) (amount now : ℕ)
  | cancelWithdraw (sender : Address)
  | executeWithdraw (sender dst : Address) (now : ℕ)
  | transferOwnership (sender newOwner : Address)
  | fundDeposit (sender : Address) (amount : ℕ)
  | fundWithdraw (sender dst : Address) (amount : ℕ)
  | fundTransferOwnership (sender newOwner : Address)

def ofChain {α : Type} (x : Tx α) : Except CustodyRevert α := x.mapError .chain

@[simp]
theorem ofChain_eq_ok {α : Type} {x : Tx α} {a : α} : ofChain x = .ok a ↔ x = .ok a := by
  cases x <;> simp [ofChain, Except.mapError]

namespace Custody

/-- The caps and the settlement address are the business of the counterparty's own owner. -/
def deployment (t : Custody) (d : Deployment) : Call → Deployment
  | .setCap .. | .setSettlement .. => { d with owner := t.owner }
  | _ => d

section Calls
variable (t : Custody) (d : Deployment)

def deposit (sender : Address) (amount : ℕ) : Except CustodyRevert Custody := do
  ensure (amount ≠ 0) .zeroAmount ()
  let usdc ← ofChain (transferUsdc t.chain.usdc sender d.synthetic amount)
  return { t with chain := { t.chain with usdc } }

def depositToVault (sender : Address) (amount : ℕ) : Except CustodyRevert Custody := do
  ensure (sender = t.owner) .notOwner ()
  ensure (amount ≠ 0) .zeroAmount ()
  -- the vault credits its caller, the counterparty
  let chain ← ofChain (t.chain.deposit d d.synthetic amount)
  return { t with chain }

def queueWithdraw (sender : Address) (amount now : ℕ) : Except CustodyRevert Custody := do
  ensure (sender = t.owner) .notOwner ()
  ensure (amount ≠ 0) .zeroAmount ()
  ensure (t.pending.amount = 0) .withdrawAlreadyQueued ()
  let eta ← boundU 64 .panic (now%2^64+TIMELOCK)
  return { t with pending := ⟨amount, eta⟩ }

def cancelWithdraw (sender : Address) : Except CustodyRevert Custody := do
  ensure (sender = t.owner) .notOwner ()
  ensure (t.pending.amount ≠ 0) .noWithdrawQueued ()
  return { t with pending := ⟨0, 0⟩ }

def executeWithdraw (sender dst : Address) (now : ℕ) : Except CustodyRevert Custody := do
  ensure (sender = t.owner) .notOwner ()
  ensure (dst ≠ 0) .zeroAddress ()
  let p := t.pending
  ensure (p.amount ≠ 0) .noWithdrawQueued ()
  ensure (p.eta ≤ now) (.withdrawNotReady p.eta) ()
  ensure (p.amount ≤ t.chain.usdc d.synthetic) .insufficientCustody ()
  let usdc ← ofChain (transferUsdc t.chain.usdc d.synthetic dst p.amount)
  return { t with pending := ⟨0, 0⟩, chain := { t.chain with usdc } }

def transferOwnership (sender newOwner : Address) : Except CustodyRevert Custody := do
  ensure (sender = t.owner) .notOwner ()
  ensure (newOwner ≠ 0) .zeroAddress ()
  return { t with owner := newOwner }

def fundDeposit (sender : Address) (amount : ℕ) : Except CustodyRevert Custody := do
  ensure (0 < amount) .zeroAmount ()
  let usdc ← ofChain (transferUsdc t.chain.usdc sender d.fund amount)
  return { t with chain := { t.chain with usdc } }

def fundWithdraw (sender dst : Address) (amount : ℕ) : Except CustodyRevert Custody := do
  ensure (sender = t.fundOwner) .notOwner ()
  ensure (dst ≠ 0) .zeroAddress ()
  ensure (amount ≤ t.chain.usdc d.fund) .insufficientBalance ()
  let usdc ← ofChain (transferUsdc t.chain.usdc d.fund dst amount)
  return { t with chain := { t.chain with usdc } }

def fundTransferOwnership (sender newOwner : Address) : Except CustodyRevert Custody := do
  ensure (sender = t.fundOwner) .notOwner ()
  ensure (newOwner ≠ 0) .zeroAddress ()
  return { t with fundOwner := newOwner }

end Calls

def exec (d : Deployment) (t : Custody) : CustodyCall → Except CustodyRevert Custody
  | .chain c => do
    let chain ← ofChain (Chain.exec (t.deployment d c) t.chain c)
    return { t with chain }
  | .deposit sender amount => t.deposit d sender amount
  | .depositToVault sender amount => t.depositToVault d sender amount
  | .queueWithdraw sender amount now => t.queueWithdraw sender amount now
  | .cancelWithdraw sender => t.cancelWithdraw sender
  | .executeWithdraw sender dst now => t.executeWithdraw d sender dst now
  | .transferOwnership sender newOwner => t.transferOwnership sender newOwner
  | .fundDeposit sender amount => t.fundDeposit d sender amount
  | .fundWithdraw sender dst amount => t.fundWithdraw d sender dst amount
  | .fundTransferOwnership sender newOwner => t.fundTransferOwnership sender newOwner

end Custody

/-- The account whose tokens a call moves on its own word. -/
def Call.spender : Call → Option Address
  | .deposit sender _ => some sender
  | .transferUsdc src _ _ => some src
  | _ => none

def CustodyCall.spender (d : Deployment) : CustodyCall → Option Address
  | .chain c => c.spender
  | .deposit sender _ => some sender
  | .depositToVault .. => some d.synthetic
  | .executeWithdraw .. => some d.synthetic
  | .fundDeposit sender _ => some sender
  | .fundWithdraw .. => some d.fund
  | _ => none

/-- The calls that put a withdrawal into the queue or take it out. -/
def CustodyCall.MovesQueue : CustodyCall → Bool
  | .queueWithdraw .. => true
  | .cancelWithdraw _ => true
  | .executeWithdraw .. => true
  | _ => false

/-- The code of a contract makes no other transfers than the ones modelled. -/
def CustodyCall.Possible (d : Deployment) : CustodyCall → Prop
  | .chain c => c.spender ≠ some d.synthetic ∧ c.spender ≠ some d.fund
  | .deposit sender _ => sender ≠ d.synthetic ∧ sender ≠ d.fund
  | .fundDeposit sender _ => sender ≠ d.synthetic ∧ sender ≠ d.fund
  | _ => True

instance (d : Deployment) (c : CustodyCall) : Decidable (c.Possible d) := by
  cases c <;> unfold CustodyCall.Possible <;> infer_instance

section Tokens
variable {d : Deployment} {s s' : State} {a : Address}

theorem transferUsdc_kept {usdc usdc' : Address → ℕ} {src dst : Address} {amount : ℕ}
    (h : transferUsdc usdc src dst amount = .ok usdc') (ha : a ≠ src) : usdc a ≤ usdc' a := by
  have hle := transferUsdc_le h a
  rwa [if_neg ha, add_zero] at hle

theorem payOut_kept {usdc usdc' : Address → ℕ} {dst : Address} {amount : ℕ}
    (h : payOut usdc d dst amount = .ok usdc') (ha : a ≠ d.vault) : usdc a ≤ usdc' a := by
  unfold payOut at h
  split_ifs at h
  · exact transferUsdc_kept h ha
  · cases h
    exact le_rfl

theorem Settles.usdc {fills : List Fill} (h : Settles s fills s') : s'.usdc = s.usdc := by
  induction h with
  | nil s => rfl
  | cons first _ ih => exact ih.trans first.usdc

theorem adlLoop_guards {market : MarketId} {mark : ℕ} {victims : List (Address × ℤ)}
    (ha : a ≠ d.vault) (h : State.adlLoop d market mark s victims = .ok s') :
    s.usdc a ≤ s'.usdc a := by
  induction victims generalizing s with
  | nil =>
    cases h
    exact le_rfl
  | cons v victims ih =>
    simp only [State.adlLoop, chain_ok_iff] at h
    obtain ⟨s₁, h₁, h⟩ := h
    refine le_trans ?_ (ih h)
    simp only [State.adlOne, State.adlOneEmitting, chain_ok_iff, ensure_eq_ok, and_true,
      exists_const, Prod.exists, tx_pure_eq_ok] at h₁
    obtain ⟨paid, _, ⟨-, -, -, -, realised, _, s₂, hclose, h₁⟩, rfl⟩ := h₁
    have hsame : s₂.usdc = s.usdc := by rw [(State.closeAndSettle_frame hclose).1]
    rw [← hsame]
    generalize (if 0 < realised then (realised.tdiv USDC_TO_X18).toNat else 0) = take at h₁
    split_ifs at h₁
    · cases h₁
      exact le_rfl
    · simp only [chain_ok_iff, State.debitToExternal, ensure_eq_ok, and_true, exists_const] at h₁
      obtain ⟨-, -, hdebit⟩ := h₁
      generalize (if s₂.vault.balances v.1 < take then s₂.vault.balances v.1 else take) = out
        at hdebit
      split_ifs at hdebit
      · cases hdebit
        exact le_rfl
      · simp only [chain_ok_iff, tx_pure_eq_ok, Prod.mk.injEq] at hdebit
        obtain ⟨_, -, usdc, husdc, -, rfl⟩ := hdebit
        exact transferUsdc_kept husdc ha

/-- The contracts move tokens out of the vault, and those of a sender who asks for it. -/
theorem exec_kept {c : Call} (ha : a ≠ d.vault) (hs : c.spender ≠ some a)
    (he : exec d s c = .ok s') : s.usdc a ≤ s'.usdc a := by
  cases c with
  | deposit sender amount =>
    simp only [exec, State.deposit, chain_ok_iff, tx_pure_eq_ok] at he
    obtain ⟨-, -, usdc, husdc, _, -, _, -, rfl⟩ := he
    exact transferUsdc_kept husdc fun h => hs (congrArg some h.symm)
  | withdraw sender amount =>
    simp only [exec, State.withdraw, chain_ok_iff, tx_pure_eq_ok] at he
    obtain ⟨-, -, _, -, -, -, _, -, _, -, usdc, husdc, rfl⟩ := he
    exact transferUsdc_kept husdc ha
  | applyBatch fills nonce deadline signer now =>
    rw [(State.settleFills_settles (State.applyBatch_settleFills he)).usdc]
    exact le_rfl
  | updateFunding sender market idx =>
    simp only [exec, Registry.updateFunding, chain_ok_iff, tx_pure_eq_ok] at he
    obtain ⟨_, ⟨-, -, rfl⟩, rfl⟩ := he
    exact le_rfl
  | applyFunding sender market premium now =>
    obtain ⟨newIndex, hs'⟩ := State.applyFunding_ok he
    rw [hs']
  | liquidate sender victim market =>
    simp only [exec, chain_ok_iff, Prod.exists, tx_pure_eq_ok] at he
    obtain ⟨receipt, _, he, rfl⟩ := he
    obtain ⟨s₁, hl⟩ := State.liquidate_liquidated he
    obtain ⟨usdc, hbonus, hresidual⟩ := hl.payouts
    exact (payOut_kept hbonus ha).trans (payOut_kept hresidual ha)
  | adl sender market victims closeSizes =>
    simp only [exec, State.adl, chain_ok_iff, ensure_eq_ok, and_true, exists_const] at he
    obtain ⟨-, -, -, mark, -, he⟩ := he
    exact adlLoop_guards ha he
  | listMarket | updateMarket | deactivateMarket =>
    simp only [exec, chain_ok_iff, tx_pure_eq_ok] at he
    obtain ⟨-, -, _, -, rfl⟩ := he
    exact le_rfl
  | setFillHook | setCap =>
    simp only [exec, chain_ok_iff, tx_pure_eq_ok] at he
    obtain ⟨_, -, rfl⟩ := he
    exact le_rfl
  | setOperator | setSettlement | setSubmitter =>
    simp only [exec, chain_ok_iff, tx_pure_eq_ok] at he
    obtain ⟨-, -, -, -, rfl⟩ := he
    exact le_rfl
  | oracleAnswer market price =>
    cases he
    exact le_rfl
  | mintUsdc dst amount =>
    cases he
    by_cases hd : a = dst
    · subst hd
      simp
    · simp [hd]
  | transferUsdc src dst amount =>
    simp only [exec, chain_ok_iff, tx_pure_eq_ok] at he
    obtain ⟨usdc, husdc, rfl⟩ := he
    exact transferUsdc_kept husdc fun h => hs (congrArg some h.symm)

end Tokens

namespace Custody
variable {d : Deployment} {t t' : Custody}

/-- The deployment a call is made with has the same accounts. -/
theorem deployment_vault (t : Custody) (d : Deployment) (c : Call) :
    (t.deployment d c).vault = d.vault := by
  cases c <;> rfl

/-- A call leaves the tokens of everybody but its spender. -/
theorem exec_others_kept {c : CustodyCall} {a : Address} (ha : a ≠ d.vault)
    (hs : c.spender d ≠ some a) (he : exec d t c = .ok t') :
    t.chain.usdc a ≤ t'.chain.usdc a := by
  cases c with
  | chain c =>
    simp only [exec, chain_ok_iff, ofChain_eq_ok] at he
    obtain ⟨chain, hstep, he⟩ := he
    cases he
    refine exec_kept ?_ hs hstep
    rw [deployment_vault]
    exact ha
  | deposit sender amount =>
    simp only [exec, deposit, chain_ok_iff, ofChain_eq_ok] at he
    obtain ⟨-, -, usdc, husdc, he⟩ := he
    cases he
    exact transferUsdc_kept husdc fun h => hs (congrArg some h.symm)
  | depositToVault sender amount =>
    simp only [exec, depositToVault, chain_ok_iff, ofChain_eq_ok] at he
    obtain ⟨-, -, -, -, chain, hdep, he⟩ := he
    cases he
    exact exec_kept (c := .deposit d.synthetic amount) ha hs hdep
  | executeWithdraw sender dst now =>
    simp only [exec, executeWithdraw, chain_ok_iff, ofChain_eq_ok] at he
    obtain ⟨-, -, -, -, -, -, -, -, -, -, usdc, husdc, he⟩ := he
    cases he
    exact transferUsdc_kept husdc fun h => hs (congrArg some h.symm)
  | fundDeposit sender amount =>
    simp only [exec, fundDeposit, chain_ok_iff, ofChain_eq_ok] at he
    obtain ⟨-, -, usdc, husdc, he⟩ := he
    cases he
    exact transferUsdc_kept husdc fun h => hs (congrArg some h.symm)
  | fundWithdraw sender dst amount =>
    simp only [exec, fundWithdraw, chain_ok_iff, ofChain_eq_ok] at he
    obtain ⟨-, -, -, -, -, -, usdc, husdc, he⟩ := he
    cases he
    exact transferUsdc_kept husdc fun h => hs (congrArg some h.symm)
  | queueWithdraw sender amount now =>
    simp only [exec, queueWithdraw, chain_ok_iff] at he
    obtain ⟨-, -, -, -, -, -, _, -, he⟩ := he
    cases he
    exact le_rfl
  | cancelWithdraw | transferOwnership | fundTransferOwnership =>
    simp only [exec, cancelWithdraw, transferOwnership, fundTransferOwnership, chain_ok_iff] at he
    obtain ⟨-, -, -, -, he⟩ := he
    cases he
    exact le_rfl

theorem transferUsdc_sent {usdc usdc' : Address → ℕ} {src dst : Address} {amount : ℕ}
    (h : transferUsdc usdc src dst amount = .ok usdc') (hne : src ≠ dst) :
    usdc' src+amount = usdc src := by
  obtain ⟨hle, rfl⟩ := transferUsdc_eq_ok.mp h
  simp only [Function.update_of_ne hne, Function.update_self]
  omega

/-- The counterparty's owner puts tokens into the vault, where they count as its collateral, or
takes out the queued amount. -/
def Outgoing (d : Deployment) (t : Custody) (c : CustodyCall) (t' : Custody) : Prop :=
  (∃ amount, c = .depositToVault t.owner amount ∧
      t'.chain.vault.balances d.synthetic = t.chain.vault.balances d.synthetic+amount ∧
      t'.chain.usdc d.synthetic+amount = t.chain.usdc d.synthetic) ∨
    ∃ dst now, c = .executeWithdraw t.owner dst now ∧
      t'.chain.usdc dst = t.chain.usdc dst+t.pending.amount ∧
      t'.chain.usdc d.synthetic+t.pending.amount = t.chain.usdc d.synthetic

/-- Tokens leave the counterparty by these two calls only. -/
theorem exec_outgoing {c : CustodyCall} (hv : d.synthetic ≠ d.vault) (hf : d.fund ≠ d.synthetic)
    (hc : c.Possible d) (he : exec d t c = .ok t')
    (hless : t'.chain.usdc d.synthetic < t.chain.usdc d.synthetic) : Outgoing d t c t' := by
  have hspends : c.spender d = some d.synthetic := by
    by_contra hs
    exact absurd (exec_others_kept hv hs he) (by omega)
  cases c with
  | chain c => exact absurd hspends hc.1
  | deposit sender amount => exact absurd (Option.some.inj hspends) hc.1
  | fundDeposit sender amount => exact absurd (Option.some.inj hspends) hc.1
  | fundWithdraw sender dst amount => exact absurd (Option.some.inj hspends) hf
  | depositToVault sender amount =>
    simp only [exec, depositToVault, chain_ok_iff, ensure_eq_ok, and_true, exists_const,
      ofChain_eq_ok] at he
    obtain ⟨rfl, -, chain, hdep, he⟩ := he
    cases he
    simp only [State.deposit, chain_ok_iff, addU_eq_ok] at hdep
    obtain ⟨-, -, usdc, husdc, _, ⟨-, rfl⟩, _, -, hdep⟩ := hdep
    cases hdep
    exact .inl ⟨amount,rfl,Function.update_self ..,transferUsdc_sent husdc hv⟩
  | executeWithdraw sender dst now =>
    simp only [exec, executeWithdraw, chain_ok_iff, ensure_eq_ok, and_true, exists_const,
      ofChain_eq_ok] at he
    obtain ⟨rfl, -, -, -, -, usdc, husdc, he⟩ := he
    cases he
    have hdst : d.synthetic ≠ dst := by
      intro hdst
      -- paying itself it would lose nothing
      subst hdst
      obtain ⟨hle, rfl⟩ := transferUsdc_eq_ok.mp husdc
      simp only [Function.update_self] at hless
      omega
    exact .inr ⟨dst,now,rfl,transferUsdc_received husdc hdst,transferUsdc_sent husdc hdst⟩
  | queueWithdraw | cancelWithdraw | transferOwnership | fundTransferOwnership => cases hspends

/-- Tokens leave the fund by a withdrawal of its owner only. -/
theorem exec_fund {c : CustodyCall} (hv : d.fund ≠ d.vault) (hf : d.fund ≠ d.synthetic)
    (hc : c.Possible d) (he : exec d t c = .ok t')
    (hless : t'.chain.usdc d.fund < t.chain.usdc d.fund) :
    ∃ dst amount, c = .fundWithdraw t.fundOwner dst amount := by
  have hspends : c.spender d = some d.fund := by
    by_contra hs
    exact absurd (exec_others_kept hv hs he) (by omega)
  cases c with
  | chain c => exact absurd hspends hc.2
  | deposit sender amount => exact absurd (Option.some.inj hspends) hc.2
  | fundDeposit sender amount => exact absurd (Option.some.inj hspends) hc.2
  | depositToVault sender amount => exact absurd (Option.some.inj hspends) hf.symm
  | executeWithdraw sender dst now => exact absurd (Option.some.inj hspends) hf.symm
  | fundWithdraw sender dst amount =>
    simp only [exec, fundWithdraw, chain_ok_iff, ensure_eq_ok, and_true, exists_const] at he
    obtain ⟨rfl, -⟩ := he
    exact ⟨dst,amount,rfl⟩
  | queueWithdraw | cancelWithdraw | transferOwnership | fundTransferOwnership => cases hspends

theorem exec_pending {c : CustodyCall} (hq : c.MovesQueue = false)
    (he : exec d t c = .ok t') : t'.pending = t.pending := by
  cases c with
  | queueWithdraw | cancelWithdraw | executeWithdraw => cases hq
  | chain c =>
    simp only [exec, chain_ok_iff] at he
    obtain ⟨_, -, he⟩ := he
    cases he
    rfl
  | deposit | fundDeposit =>
    simp only [exec, deposit, fundDeposit, chain_ok_iff] at he
    obtain ⟨-, -, _, -, he⟩ := he
    cases he
    rfl
  | depositToVault sender amount =>
    simp only [exec, depositToVault, chain_ok_iff] at he
    obtain ⟨-, -, -, -, _, -, he⟩ := he
    cases he
    rfl
  | fundWithdraw sender dst amount =>
    simp only [exec, fundWithdraw, chain_ok_iff] at he
    obtain ⟨-, -, -, -, -, -, _, -, he⟩ := he
    cases he
    rfl
  | transferOwnership | fundTransferOwnership =>
    simp only [exec, transferOwnership, fundTransferOwnership, chain_ok_iff] at he
    obtain ⟨-, -, -, -, he⟩ := he
    cases he
    rfl

theorem queueWithdraw_ok {sender : Address} {amount now : ℕ}
    (he : exec d t (.queueWithdraw sender amount now) = .ok t') :
    sender = t.owner ∧ t'.pending = ⟨amount, now%2^64+TIMELOCK⟩ := by
  simp only [exec, queueWithdraw, chain_ok_iff, ensure_eq_ok, and_true, exists_const,
    boundU_eq_ok] at he
  obtain ⟨hsender, -, -, _, ⟨-, rfl⟩, he⟩ := he
  cases he
  exact ⟨hsender,rfl⟩

theorem executeWithdraw_ok {sender dst : Address} {now : ℕ}
    (he : exec d t (.executeWithdraw sender dst now) = .ok t') :
    t.pending.amount ≠ 0 ∧ t.pending.eta ≤ now ∧ t'.pending = ⟨0, 0⟩ := by
  simp only [exec, executeWithdraw, chain_ok_iff, ensure_eq_ok, and_true, exists_const] at he
  obtain ⟨-, -, hamount, heta, -, _, -, he⟩ := he
  cases he
  exact ⟨hamount,heta,rfl⟩

theorem cancelWithdraw_ok {sender : Address} (he : exec d t (.cancelWithdraw sender) = .ok t') :
    t'.pending = ⟨0, 0⟩ := by
  simp only [exec, cancelWithdraw, chain_ok_iff] at he
  obtain ⟨-, -, -, -, he⟩ := he
  cases he
  rfl

/-- The calls end with a withdrawal in the queue that the owner of that time asked for; since
then nothing was queued, cancelled or paid. -/
structure Queued (d : Deployment) (start : Custody) (calls : List CustodyCall) (amount asked : ℕ)
    (before between : List CustodyCall) : Prop where
  split : calls = before++
    .queueWithdraw (runAll (exec d) start before).owner amount asked :: between
  queued : Succeeds (exec d (runAll (exec d) start before)
    (.queueWithdraw (runAll (exec d) start before).owner amount asked))
  quiet : ∀ mid c, mid++[c] <+: between → c.MovesQueue = true →
    ¬ Succeeds (exec d (runAll (exec d) start (before++
      .queueWithdraw (runAll (exec d) start before).owner amount asked :: mid)) c)

theorem Queued.concat {start : Custody} {calls before between : List CustodyCall}
    {amount asked : ℕ} (h : Queued d start calls amount asked before between) {c : CustodyCall}
    (hc : c.MovesQueue = true → ¬ Succeeds (exec d (runAll (exec d) start calls) c)) :
    Queued d start (calls++[c]) amount asked before (between++[c]) where
  split := by
    rw [h.split, List.append_assoc, List.cons_append]
  queued := h.queued
  quiet := by
    intro mid c' hmid hmoves
    rcases List.prefix_concat_iff.mp hmid with heq | hin
    · obtain ⟨rfl, hlast⟩ := List.append_inj' heq rfl
      obtain rfl := List.singleton_inj.mp hlast
      rw [← h.split]
      exact hc hmoves
    · exact h.quiet mid c' hin hmoves

/-- What waits in the queue has been put there. -/
theorem exists_queued {start : Custody} (hstart : start.pending.amount = 0)
    (calls : List CustodyCall) (hwaits : (runAll (exec d) start calls).pending.amount ≠ 0) :
    ∃ amount asked before between, Queued d start calls amount asked before between ∧
      (runAll (exec d) start calls).pending = ⟨amount, asked%2^64+TIMELOCK⟩ := by
  induction calls using List.reverseRecOn with
  | nil => exact absurd hstart hwaits
  | append_singleton calls c ih =>
    rw [runAll_append] at hwaits ⊢
    by_cases hex : c.MovesQueue = true ∧ Succeeds (exec d (runAll (exec d) start calls) c)
    · obtain ⟨hmoves, t', he⟩ := hex
      rw [attempt_of_ok he] at hwaits ⊢
      cases c with
      | queueWithdraw sender amount now =>
        obtain ⟨rfl, hpending⟩ := queueWithdraw_ok he
        refine ⟨amount,now,calls,[],⟨rfl,⟨t',he⟩,?_⟩,hpending⟩
        exact fun mid c hmid => absurd hmid (by simp)
      | cancelWithdraw sender =>
        have hempty := cancelWithdraw_ok he
        exact (hwaits (congrArg PendingWithdraw.amount hempty)).elim
      | executeWithdraw sender dst now =>
        obtain ⟨-, -, hempty⟩ := executeWithdraw_ok he
        exact (hwaits (congrArg PendingWithdraw.amount hempty)).elim
      | _ => cases hmoves
    · -- the queue is as before, also when the call goes through
      have hsame : (attempt (exec d) (runAll (exec d) start calls) c).pending =
          (runAll (exec d) start calls).pending := by
        cases he : exec d (runAll (exec d) start calls) c with
        | error e => rw [attempt_of_not (by simp [he])]
        | ok t' =>
          rw [attempt_of_ok he]
          refine exec_pending ?_ he
          by_contra hmoves
          exact hex ⟨by simpa using hmoves,⟨t',he⟩⟩
      rw [hsame] at hwaits ⊢
      obtain ⟨amount, asked, before, between, hqueued, hpending⟩ := ih hwaits
      exact ⟨amount,asked,before,between++[c],
        hqueued.concat fun hmoves hs => hex ⟨hmoves,hs⟩,hpending⟩

/-- In every run: tokens leave the counterparty into the vault, as its collateral, or by a
withdrawal that its owner queued at least two days before and that was neither cancelled nor
paid since; they leave the fund on the word of its owner. -/
theorem custody_guarded (d : Deployment) (hsv : d.synthetic ≠ d.vault) (hfv : d.fund ≠ d.vault)
    (hfs : d.fund ≠ d.synthetic) (start : Custody) (hstart : start.pending.amount = 0)
    (calls : List CustodyCall) (hcalls : ∀ c ∈ calls, c.Possible d) (pre : List CustodyCall)
    (c : CustodyCall) (hpre : pre++[c] <+: calls) :
    let t := runAll (exec d) start pre
    let t' := runAll (exec d) start (pre++[c])
    (t'.chain.usdc d.synthetic < t.chain.usdc d.synthetic → Outgoing d t c t') ∧
    (t'.chain.usdc d.fund < t.chain.usdc d.fund →
      ∃ dst amount, c = .fundWithdraw t.fundOwner dst amount) ∧
    ∀ sender dst now, c = .executeWithdraw sender dst now → Succeeds (exec d t c) →
      ∃ asked before between, Queued d start pre t.pending.amount asked before between ∧
        asked%2^64+TIMELOCK ≤ now := by
  intro t t'
  have hc : c.Possible d := hcalls c (hpre.subset (by simp))
  have hstep : t' = attempt (exec d) t c := runAll_append start pre c
  refine ⟨?_,?_,?_⟩
  · intro hless
    cases he : exec d t c with
    | error e =>
      rw [hstep, attempt_of_not (by simp [he])] at hless
      exact absurd hless (lt_irrefl _)
    | ok t₁ =>
      rw [hstep, attempt_of_ok he] at hless ⊢
      exact exec_outgoing hsv hfs hc he hless
  · intro hless
    cases he : exec d t c with
    | error e =>
      rw [hstep, attempt_of_not (by simp [he])] at hless
      exact absurd hless (lt_irrefl _)
    | ok t₁ =>
      rw [hstep, attempt_of_ok he] at hless
      exact exec_fund hfv hfs hc he hless
  · rintro sender dst now rfl ⟨t₁, he⟩
    obtain ⟨hamount, heta, -⟩ := executeWithdraw_ok he
    obtain ⟨amount, asked, before, between, hqueued, hpending⟩ :=
      exists_queued hstart pre hamount
    have hsame : t.pending = ⟨amount, asked%2^64+TIMELOCK⟩ := hpending
    rw [hsame] at heta ⊢
    exact ⟨asked,before,between,hqueued,heta⟩

/-- The counterparty gets 50, of which the owner takes 40 out after two days. -/
def toppedUp : List CustodyCall :=
  [.chain (.mintUsdc 50 50), .deposit 50 50, .queueWithdraw 1 40 1000,
   .executeWithdraw 1 60 100000]

/-- The withdrawal goes through at the end of the second day and not before. -/
theorem custody_guarded_toppedUp :
    let start : Custody := ⟨genesis devnet 8 9, 1, ⟨0, 0⟩, 1⟩
    (runAll (exec devnet) start toppedUp).chain.usdc 60 = 0 ∧
    (runAll (exec devnet) start (toppedUp++[.executeWithdraw 1 60 173800])).chain.usdc 60 = 40 ∧
    ∃ asked before between, Queued devnet start toppedUp 40 asked before between ∧
      asked%2^64+TIMELOCK ≤ 173800 := by
  intro start
  refine ⟨by decide +kernel,by decide +kernel,?_⟩
  obtain ⟨-, -, hqueued⟩ := custody_guarded devnet (by decide) (by decide) (by decide) start rfl
    (toppedUp++[.executeWithdraw 1 60 173800]) (by decide) toppedUp _ (List.prefix_refl _)
  have hex : Succeeds (exec devnet (runAll (exec devnet) start toppedUp)
      (.executeWithdraw 1 60 173800)) := by decide +kernel
  have hamount : (runAll (exec devnet) start toppedUp).pending.amount = 40 := by decide +kernel
  obtain ⟨asked, before, between, h, hle⟩ := hqueued 1 60 173800 rfl hex
  rw [hamount] at h
  exact ⟨asked,before,between,h,hle⟩

end Custody

end Perplex.Chain
