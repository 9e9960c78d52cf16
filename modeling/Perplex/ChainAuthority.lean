import Mathlib.Tactic.FinCases
import Perplex.ChainForced
import Perplex.ChainWithdrawGate

/-! Whose word moves an account. Its balance and positions change by calls of its own, by a
batch with the operator's signature, by a liquidation below maintenance and by a deleveraging
of the owner; and the operator's signature counts once. -/
namespace Perplex.Chain

/-- What is stored for a user. The funding indices of the markets belong to no user. -/
def State.account (s : State) (user : Address) : ℕ × (MarketId → Position) :=
  (s.vault.balances user,s.registry.positions user)

/-- A batch that the engine has to accept the signature of. -/
def State.Signed (s : State) (nonce deadline : ℕ) (signer : Address) (now : ℕ) : Prop :=
  now ≤ deadline ∧ s.settlement.usedNonces nonce = false ∧ signer = s.settlement.operator

/-- In profit at the price of the oracle. -/
def State.InProfit (s : State) (user : Address) (market : MarketId) : Prop :=
  ∃ mark, s.oracle market = some mark ∧
    (0 < (s.registry.positions user market).size ∧
        (s.registry.positions user market).entryPriceX18 < mark ∨
      (s.registry.positions user market).size < 0 ∧
        mark < (s.registry.positions user market).entryPriceX18)

/-- Below maintenance at the price of the oracle. -/
def State.BelowMaintenance (s : State) (user : Address) (market : MarketId) : Prop :=
  (s.registry.positions user market).size ≠ 0 ∧ ∃ mark hf, s.oracle market = some mark ∧
    s.healthFactor user market mark = .ok hf ∧ hf < E18

/-- The call has the authority to change the user's account. -/
def Call.Authorised (d : Deployment) (s : State) (user : Address) : Call → Prop
  | .deposit sender _ => sender = user
  | .withdraw sender _ => sender = user
  | .applyBatch fills nonce deadline signer now =>
    s.Signed nonce deadline signer now ∧ ∃ f ∈ fills, f.user = user
  | .liquidate _ victim market => victim = user ∧ s.BelowMaintenance user market
  | .adl sender market victims _ => sender = d.owner ∧ user ∈ victims ∧ s.InProfit user market
  | _ => False

section Kept
variable {d : Deployment} {s s' : State} {user : Address}

theorem Settled.account_of_ne {f : Fill} {realised funding : ℤ}
    (h : Settled s f realised funding s') (hu : user ≠ f.user) :
    s'.account user = s.account user := by
  refine Prod.ext (h.balance_of_ne hu) (funext fun m => ?_)
  exact h.fill.position_of_ne fun hum => hu hum.1

theorem Outflow.account_of_ne {victim : Address} {amount : ℕ}
    (h : Outflow d s victim amount s') (hu : user ≠ victim) :
    s'.account user = s.account user := by
  refine Prod.ext (h.balance_of_ne hu) ?_
  exact congrFun (congrArg Registry.positions h.registry) user

theorem Settles.account {fills : List Fill} (h : Settles s fills s')
    (hu : ∀ f ∈ fills, f.user ≠ user) : s'.account user = s.account user := by
  induction h with
  | nil s => rfl
  | cons first _ ih =>
    have hrest := ih fun f hf => hu f (List.mem_cons_of_mem _ hf)
    exact hrest.trans (first.account_of_ne (hu _ List.mem_cons_self).symm)

theorem adlOne_inProfit {market : MarketId} {mark : ℕ} {closeSize : ℤ}
    (hmark : s.oracle market = some mark)
    (h : s.adlOne d market mark user closeSize = .ok s') : s.InProfit user market := by
  simp only [State.adlOne, State.adlOneEmitting, chain_ok_iff, ensure_eq_ok, and_true,
    exists_const] at h
  obtain ⟨_, ⟨-, -, -, hprofit, -⟩, -⟩ := h
  exact ⟨mark,hmark,hprofit⟩

/-- A user whom the loop passes by keeps the account; one whom it reaches was in profit before
it began. -/
theorem adlLoop_account (user : Address) {market : MarketId} {mark : ℕ} {victims : List (Address × ℤ)}
    (hmark : s.oracle market = some mark)
    (h : State.adlLoop d market mark s victims = .ok s') :
    if user ∈ victims.map Prod.fst then s.InProfit user market
    else s'.account user = s.account user := by
  induction victims generalizing s with
  | nil =>
    cases h
    rfl
  | cons v victims ih =>
    simp only [State.adlLoop, chain_ok_iff] at h
    obtain ⟨s₁, h₁, h⟩ := h
    by_cases hv : user = v.1
    · subst hv
      rw [if_pos (by simp)]
      exact adlOne_inProfit hmark h₁
    · obtain ⟨_, _, s₀, _, hset, hout⟩ := State.adlOne_ok h₁
      have hkept : s₁.account user = s.account user :=
        (hout.account_of_ne hv).trans (hset.account_of_ne hv)
      have hrest := ih (s := s₁) (by rw [hout.oracle, hset.oracle]; exact hmark) h
      have hmem : user ∈ (v :: victims).map Prod.fst ↔ user ∈ victims.map Prod.fst := by
        simp [hv]
      simp only [hmem]
      split_ifs at hrest ⊢ with hlater
      · -- the position is still the one the loop began with
        have hpos : s₁.registry.positions user = s.registry.positions user :=
          congrArg Prod.snd hkept
        obtain ⟨mark', hmark', hprofit⟩ := hrest
        rw [hpos] at hprofit
        exact ⟨mark',by rw [← hmark', hout.oracle, hset.oracle],hprofit⟩
      · exact hrest.trans hkept

theorem liquidate_belowMaintenance {sender : Address} {market : MarketId}
    {receipt : LiquidationReceipt} (h : s.liquidate d sender user market = .ok (receipt,s')) :
    s.BelowMaintenance user market := by
  simp only [State.liquidate, chain_ok_iff, ensure_eq_ok, and_true, exists_const] at h
  obtain ⟨-, mark, hmark, hf, hhealth, hlow, hsize, -⟩ := h
  exact ⟨hsize,mark,hf,State.priceX18_eq_ok.mp hmark,hhealth,hlow⟩

theorem applyBatch_signed {fills : List Fill} {nonce deadline now : ℕ} {signer : Address}
    (h : s.applyBatch d fills nonce deadline signer now = .ok s') :
    s.Signed nonce deadline signer now := by
  simp only [State.applyBatch, chain_ok_iff, ensure_eq_ok, and_true, exists_const] at h
  exact ⟨h.2.1,h.2.2.1,h.2.2.2.1⟩

/-- A call that goes through changes no account without authority over it. -/
theorem exec_account {c : Call} (hc : c.Possible d) (he : exec d s c = .ok s')
    (hno : ¬ c.Authorised d s user) : s'.account user = s.account user := by
  cases c with
  | deposit sender amount =>
    obtain ⟨hvault, -, -, hreg, -⟩ := State.deposit_ok hc he
    refine Prod.ext ?_ (congrFun (congrArg Registry.positions hreg) user)
    change s'.vault.balances user = s.vault.balances user
    rw [hvault]
    exact Function.update_of_ne (fun hu => hno hu.symm) _ _
  | withdraw sender amount =>
    exact (State.withdraw_ok he).2.account_of_ne fun hu => hno hu.symm
  | applyBatch fills nonce deadline signer now =>
    have hsettles := State.settleFills_settles (State.applyBatch_settleFills he)
    refine (hsettles.account fun f hf hu => hno ⟨applyBatch_signed he,f,hf,hu⟩).trans ?_
    rfl
  | updateFunding sender market idx =>
    simp only [exec, Registry.updateFunding, chain_ok_iff, tx_pure_eq_ok] at he
    obtain ⟨_, ⟨-, -, rfl⟩, rfl⟩ := he
    rfl
  | applyFunding sender market premium now =>
    obtain ⟨newIndex, hs'⟩ := State.applyFunding_ok he
    rw [hs']
    rfl
  | liquidate sender victim market =>
    simp only [exec, chain_ok_iff, Prod.exists, tx_pure_eq_ok] at he
    obtain ⟨receipt, _, he, rfl⟩ := he
    have hu : user ≠ victim := by
      intro hu
      subst hu
      exact hno ⟨rfl,liquidate_belowMaintenance he⟩
    obtain ⟨_, _, _, hset, hout⟩ := State.liquidate_ok he
    exact (hout.account_of_ne hu).trans (hset.account_of_ne hu)
  | adl sender market victims closeSizes =>
    simp only [exec, State.adl, chain_ok_iff, ensure_eq_ok, and_true, exists_const] at he
    obtain ⟨howner, hlen, -, mark, hmark, he⟩ := he
    have hloop := adlLoop_account user (State.priceX18_eq_ok.mp hmark) he
    rw [List.map_fst_zip hlen.le] at hloop
    split_ifs at hloop with hmem
    · exact absurd ⟨howner,hmem,hloop⟩ hno
    · exact hloop
  | listMarket | updateMarket | deactivateMarket | setOperator | setFillHook | setSettlement
  | setCap | setSubmitter | oracleAnswer | mintUsdc | transferUsdc =>
    obtain ⟨hreg, hvault, -, -⟩ := exec_admin rfl hc he
    unfold State.account
    rw [hreg, hvault]

/-- The nonce that a call uses up when it goes through. -/
def Call.nonces : Call → List ℕ
  | .applyBatch _ nonce _ _ _ => [nonce]
  | _ => []

theorem settleFills_settlement {fills : List Fill} (h : State.settleFills d s fills = .ok s') :
    s'.settlement = s.settlement := by
  induction fills generalizing s with
  | nil =>
    cases h
    rfl
  | cons f fills ih =>
    simp only [State.settleFills, chain_ok_iff] at h
    obtain ⟨s₁, h₁, h⟩ := h
    simp only [State.settleFill, chain_ok_iff, Prod.exists, tx_pure_eq_ok] at h₁
    obtain ⟨_, _, _, -, _, -, _, -, _, -, _, -, _, -, rfl⟩ := h₁
    have hrest := ih h
    exact hrest

theorem closeAndSettle_settlement {market : MarketId} {mark : ℕ} {closeSize realised settled : ℤ}
    (h : s.closeAndSettle d user market mark closeSize = .ok (realised,settled,s')) :
    s'.settlement = s.settlement := by
  rw [(State.closeAndSettle_frame h).1]

theorem adlLoop_settlement {market : MarketId} {mark : ℕ} {victims : List (Address × ℤ)}
    (h : State.adlLoop d market mark s victims = .ok s') : s'.settlement = s.settlement := by
  induction victims generalizing s with
  | nil =>
    cases h
    rfl
  | cons v victims ih =>
    simp only [State.adlLoop, chain_ok_iff] at h
    obtain ⟨s₁, h₁, h⟩ := h
    rw [ih h]
    simp only [State.adlOne, State.adlOneEmitting, chain_ok_iff, ensure_eq_ok, and_true,
      exists_const, Prod.exists, tx_pure_eq_ok] at h₁
    obtain ⟨paid, _, ⟨-, -, -, -, realised, _, s₂, hclose, h₁⟩, rfl⟩ := h₁
    rw [← closeAndSettle_settlement hclose]
    generalize (if 0 < realised then (realised.tdiv USDC_TO_X18).toNat else 0) = take at h₁
    split_ifs at h₁
    · cases h₁
      rfl
    · rw [(State.debitToExternal_frame h₁).1]

/-- A call marks its nonce and no other. -/
theorem exec_usedNonces {c : Call} (he : exec d s c = .ok s') (n : ℕ) :
    s'.settlement.usedNonces n = true ↔
      s.settlement.usedNonces n = true ∨ n ∈ c.nonces := by
  have hsame (h : s'.settlement.usedNonces = s.settlement.usedNonces) (hc : c.nonces = []) :
      s'.settlement.usedNonces n = true ↔
        s.settlement.usedNonces n = true ∨ n ∈ c.nonces := by
    rw [h, hc]
    simp
  cases c with
  | applyBatch fills nonce deadline signer now =>
    rw [settleFills_settlement (State.applyBatch_settleFills he)]
    change Function.update s.settlement.usedNonces nonce true n = true ↔ _
    by_cases hn : n = nonce
    · subst hn
      simp [Call.nonces]
    · simp [Call.nonces, hn]
  | deposit sender amount =>
    simp only [exec, State.deposit, chain_ok_iff, tx_pure_eq_ok] at he
    obtain ⟨-, -, _, -, _, -, _, -, rfl⟩ := he
    exact hsame rfl rfl
  | withdraw sender amount =>
    simp only [exec, State.withdraw, chain_ok_iff, tx_pure_eq_ok] at he
    obtain ⟨-, -, _, -, -, -, _, -, _, -, _, -, rfl⟩ := he
    exact hsame rfl rfl
  | updateFunding sender market idx =>
    simp only [exec, Registry.updateFunding, chain_ok_iff, tx_pure_eq_ok] at he
    obtain ⟨_, ⟨-, -, rfl⟩, rfl⟩ := he
    exact hsame rfl rfl
  | applyFunding sender market premium now =>
    obtain ⟨newIndex, hs'⟩ := State.applyFunding_ok he
    refine hsame ?_ rfl
    rw [hs']
  | liquidate sender victim market =>
    simp only [exec, chain_ok_iff, Prod.exists, tx_pure_eq_ok] at he
    obtain ⟨receipt, _, he, rfl⟩ := he
    obtain ⟨s₁, hl⟩ := State.liquidate_liquidated he
    refine hsame ?_ rfl
    rw [hl.frame]
  | adl sender market victims closeSizes =>
    simp only [exec, State.adl, chain_ok_iff, ensure_eq_ok, and_true, exists_const] at he
    obtain ⟨-, -, -, mark, -, he⟩ := he
    exact hsame (by rw [adlLoop_settlement he]) rfl
  | listMarket | updateMarket | deactivateMarket =>
    simp only [exec, chain_ok_iff, tx_pure_eq_ok] at he
    obtain ⟨-, -, _, -, rfl⟩ := he
    exact hsame rfl rfl
  | setFillHook | setCap | transferUsdc =>
    simp only [exec, chain_ok_iff, tx_pure_eq_ok] at he
    obtain ⟨_, -, rfl⟩ := he
    exact hsame rfl rfl
  | setOperator | setSettlement | setSubmitter =>
    simp only [exec, chain_ok_iff, tx_pure_eq_ok] at he
    obtain ⟨-, -, -, -, rfl⟩ := he
    exact hsame rfl rfl
  | oracleAnswer | mintUsdc =>
    cases he
    exact hsame rfl rfl

end Kept

/-- The nonces that the calls of a run use up, one after the other. -/
def settledNonces (d : Deployment) : State → List Call → List ℕ
  | _, [] => []
  | s, c :: calls =>
    match exec d s c with
    | .ok s' => c.nonces++settledNonces d s' calls
    | .error _ => settledNonces d s calls

def Call.credit (user : Address) : Call → ℕ
  | .deposit sender amount => if sender = user then amount else 0
  | _ => 0

/-- What a user has put into the vault in a run. -/
def deposited (d : Deployment) (user : Address) : State → List Call → ℕ
  | _, [] => 0
  | s, c :: calls =>
    match exec d s c with
    | .ok s' => c.credit user+deposited d user s' calls
    | .error _ => deposited d user s calls

section Runs
variable {d : Deployment} {s : State}

theorem usedNonces_runAll (s : State) (calls : List Call) (n : ℕ) :
    (runAll (exec d) s calls).settlement.usedNonces n = true ↔
      s.settlement.usedNonces n = true ∨ n ∈ settledNonces d s calls := by
  induction calls generalizing s with
  | nil => simp [runAll, settledNonces]
  | cons c calls ih =>
    have hrun : runAll (exec d) s (c :: calls) = runAll (exec d) (attempt (exec d) s c) calls :=
      rfl
    rw [hrun, ih, settledNonces]
    cases he : exec d s c with
    | error e =>
      rw [attempt_of_not (by simp [he])]
    | ok s' =>
      rw [attempt_of_ok he, exec_usedNonces he, List.mem_append, or_assoc]

/-- No nonce counts twice, and none that was used before. -/
theorem settledNonces_fresh (s : State) (calls : List Call) :
    (∀ n ∈ settledNonces d s calls, s.settlement.usedNonces n = false) ∧
      (settledNonces d s calls).Nodup := by
  induction calls generalizing s with
  | nil => exact ⟨fun n hn => absurd hn List.not_mem_nil,List.nodup_nil⟩
  | cons c calls ih =>
    rw [settledNonces]
    cases he : exec d s c with
    | error e => exact ih s
    | ok s' =>
      obtain ⟨hfresh, hnodup⟩ := ih s'
      have hbefore (n : ℕ) (hn : n ∈ settledNonces d s' calls) :
          s.settlement.usedNonces n = false ∧ n ∉ c.nonces := by
        have hunused := hfresh n hn
        have hmark := exec_usedNonces he n
        rw [hunused] at hmark
        constructor
        · by_contra hused
          exact absurd (hmark.mpr (.inl (by simpa using hused))) (by decide)
        · intro hmem
          exact absurd (hmark.mpr (.inr hmem)) (by decide)
      cases c with
      | applyBatch fills nonce deadline signer now =>
        have hsigned := applyBatch_signed he
        constructor
        · intro n hn
          rcases List.mem_append.mp hn with hn | hn
          · rw [List.mem_singleton.mp hn]
            exact hsigned.2.1
          · exact (hbefore n hn).1
        · change (nonce :: settledNonces d s' calls).Nodup
          rw [List.nodup_cons]
          exact ⟨fun hmem => (hbefore nonce hmem).2 (by simp [Call.nonces]),hnodup⟩
      | _ => exact ⟨fun n hn => (hbefore n hn).1,hnodup⟩

theorem deposited_concat (user : Address) (s : State) (calls : List Call) (c : Call) :
    deposited d user s (calls++[c]) =
      deposited d user s calls+deposited d user (runAll (exec d) s calls) [c] := by
  induction calls generalizing s with
  | nil => exact (Nat.zero_add _).symm
  | cons c₀ calls ih =>
    have hrun : runAll (exec d) s (c₀ :: calls) =
        runAll (exec d) (attempt (exec d) s c₀) calls := rfl
    rw [hrun, List.cons_append, deposited, deposited]
    cases he : exec d s c₀ with
    | error e =>
      rw [attempt_of_not (by simp [he])]
      exact ih s
    | ok s' =>
      rw [attempt_of_ok he]
      exact (congrArg _ (ih s')).trans (Nat.add_assoc _ _ _).symm

/-- The user does not withdraw, and no batch that names him is signed and fresh. -/
def Call.Spares (s : State) (user : Address) : Call → Prop
  | .withdraw sender _ => sender ≠ user
  | .applyBatch fills nonce deadline signer now =>
    s.Signed nonce deadline signer now → ∀ f ∈ fills, f.user ≠ user
  | _ => True

/-- A user without positions gets what he deposits and loses nothing. -/
theorem attempt_idle {user : Address} {c : Call} (hc : c.Possible d)
    (hidle : ∀ m, (s.registry.positions user m).size = 0) (hspares : c.Spares s user) :
    (attempt (exec d) s c).account user =
      (s.vault.balances user+deposited d user s [c],s.registry.positions user) := by
  rw [deposited]
  cases he : exec d s c with
  | error e =>
    rw [attempt_of_not (by simp [he])]
    rfl
  | ok s' =>
    rw [attempt_of_ok he]
    have hkept (hno : ¬ c.Authorised d s user) : s'.account user =
        (s.vault.balances user+0,s.registry.positions user) := exec_account hc he hno
    cases c with
    | deposit sender amount =>
      obtain ⟨hvault, -, -, hreg, -⟩ := State.deposit_ok hc he
      by_cases hu : sender = user
      · subst hu
        refine Prod.ext ?_ (congrFun (congrArg Registry.positions hreg) sender)
        change s'.vault.balances sender = _
        rw [hvault]
        simp [deposited, Call.credit]
      · have h := hkept hu
        simpa [hu, deposited, Call.credit] using h
    | withdraw sender amount => exact hkept hspares
    | applyBatch fills nonce deadline signer now =>
      refine hkept fun hauth => ?_
      obtain ⟨hsigned, f, hf, hu⟩ := hauth
      exact hspares hsigned f hf hu
    | liquidate sender victim market => exact hkept fun hauth => hauth.2.1 (hidle market)
    | adl sender market victims closeSizes =>
      refine hkept fun hauth => ?_
      obtain ⟨-, -, mark, -, hprofit⟩ := hauth
      have hzero := hidle market
      omega
    | _ => exact hkept id

end Runs

/-- In every run: an account changes by a call with authority over it only, and the batches that
go through carry different nonces, which are the ones that are marked. -/
theorem account_changes_authorised (d : Deployment) (operator submitter : Address)
    (calls : List Call) (hcalls : ∀ c ∈ calls, c.Possible d) :
    (∀ user pre c, pre++[c] <+: calls →
      let s := runAll (exec d) (genesis d operator submitter) pre
      (attempt (exec d) s c).account user ≠ s.account user → c.Authorised d s user) ∧
    (settledNonces d (genesis d operator submitter) calls).Nodup ∧
    ∀ n, (runAll (exec d) (genesis d operator submitter) calls).settlement.usedNonces n = true ↔
      n ∈ settledNonces d (genesis d operator submitter) calls := by
  refine ⟨?_,(settledNonces_fresh _ calls).2,?_⟩
  · intro user pre c hpre s hchange
    by_contra hno
    apply hchange
    cases he : exec d s c with
    | error e => rw [attempt_of_not (by simp [he])]
    | ok s' =>
      rw [attempt_of_ok he]
      exact exec_account (hcalls c (hpre.subset (by simp))) he hno
  · intro n
    rw [usedNonces_runAll]
    simp [genesis]

/-- The first trade again, then signed by somebody else, then too late. -/
def replayedTrade : List Call :=
  oneContract 20000000 50000000++
    [.applyBatch firstTrade 0 0 8 0, .applyBatch firstTrade 1 0 101 0,
     .applyBatch firstTrade 2 0 8 1]

/-- Only the first of the four batches settles. -/
theorem account_changes_authorised_replayed :
    settledNonces devnet (genesis devnet 8 9) replayedTrade = [0] ∧
    ∀ n, (devnetAfter replayedTrade).settlement.usedNonces n = true ↔ n = 0 := by
  have hnonces : settledNonces devnet (genesis devnet 8 9) replayedTrade = [0] := by
    decide +kernel
  have hpossible : ∀ c ∈ replayedTrade, c.Possible devnet := by decide
  obtain ⟨-, -, hused⟩ := account_changes_authorised devnet 8 9 replayedTrade hpossible
  refine ⟨hnonces,fun n => ?_⟩
  rw [devnetAfter, hused, hnonces, List.mem_singleton]

/-- Nobody but the user takes the collateral of a user without positions, unless the operator
signs a batch that names him: his balance is what he had and what he has deposited since. -/
theorem idle_account_kept (d : Deployment) (user : Address) (s : State) (calls : List Call)
    (hcalls : ∀ c ∈ calls, c.Possible d) (hidle : ∀ m, (s.registry.positions user m).size = 0)
    (hspares : ∀ pre c, pre++[c] <+: calls → c.Spares (runAll (exec d) s pre) user) :
    (runAll (exec d) s calls).account user =
      (s.vault.balances user+deposited d user s calls,s.registry.positions user) := by
  induction calls using List.reverseRecOn with
  | nil => rfl
  | append_singleton calls c ih =>
    have hbefore := ih (fun c' hc' => hcalls c' (List.mem_append_left _ hc'))
      fun pre c' hpre => hspares pre c' (hpre.trans (List.prefix_append _ _))
    have hbal : (runAll (exec d) s calls).vault.balances user =
        s.vault.balances user+deposited d user s calls := congrArg Prod.fst hbefore
    have hpos : (runAll (exec d) s calls).registry.positions user =
        s.registry.positions user := congrArg Prod.snd hbefore
    have hstep := attempt_idle (hcalls c (by simp)) (by rw [hpos]; exact hidle)
      (hspares calls c (List.prefix_refl _))
    rw [runAll_append, hstep, deposited_concat, hbal, hpos, Nat.add_assoc]

/-- User 103 has deposited 50 and traded nothing, while 101 and 102 trade and 104 tries to
liquidate him. -/
theorem idle_account_kept_bystander :
    (devnetAfter (oneContract 20000000 50000000++[.liquidate 104 103 1])).vault.balances 103 =
      50000000 ∧
    deposited devnet 103 (genesis devnet 8 9)
      (oneContract 20000000 50000000++[.liquidate 104 103 1]) = 50000000 := by
  have hsum : deposited devnet 103 (genesis devnet 8 9)
      (oneContract 20000000 50000000++[.liquidate 104 103 1]) = 50000000 := by decide +kernel
  have hspares : ∀ c ∈ oneContract 20000000 50000000++[Call.liquidate 104 103 1], ∀ s : State,
      c.Spares s 103 := by
    intro c hc s
    have htrade : ∀ f ∈ firstTrade, f.user ≠ 103 := by decide
    fin_cases hc
    all_goals first
    | exact trivial
    | exact fun _ => htrade
  have hkept := idle_account_kept devnet 103 (genesis devnet 8 9)
    (oneContract 20000000 50000000++[.liquidate 104 103 1]) (by decide) (fun m => rfl)
    fun pre c hpre => hspares c (hpre.subset (by simp)) _
  have hbal := congrArg Prod.fst hkept
  rw [hsum] at hbal
  exact ⟨hbal,hsum⟩

end Perplex.Chain
