import Perplex.ChainOpenInterest
import Perplex.ChainForced

/-! The cadence of funding ticks. A successful tick moves the index of its market by a clamped
premium and stores its time, and the next one waits for the interval; nothing else but a direct
update by the owner touches the index. -/
namespace Perplex.Chain

/-- The block timestamp of a funding tick. -/
def Call.tickTime : Call → Option ℕ
  | .applyFunding _ _ _ now => some now
  | _ => none

/-- No index is written past the funding engine: its own code writes only in `applyFunding`. -/
def Call.NoDirectUpdate (d : Deployment) : Call → Prop
  | .updateFunding sender _ _ => sender ≠ d.owner ∧ sender ≠ d.fundingEngine
  | _ => True

/-- Neither the indices nor the times of the last ticks differ. -/
def FundingKept (s s' : State) : Prop :=
  s'.registry.marketIndexFunding = s.registry.marketIndexFunding ∧ s'.funding.lastFundingAt =
    s.funding.lastFundingAt

/-- What a successful tick of `market` at `now` does to them. -/
structure Tick (s : State) (market : MarketId) (now : ℕ) (s' : State) : Prop where
  due : s.funding.lastFundingAt market ≠ 0 →
    s.funding.lastFundingAt market+FUNDING_INTERVAL ≤ now
  index : ∃ premium : ℤ, |premium| ≤ MAX_PREMIUM_ABS ∧ s'.registry.marketIndexFunding =
    Function.update s.registry.marketIndexFunding market
      (s.registry.marketIndexFunding market+premium)
  stored : s'.funding.lastFundingAt =
    Function.update s.funding.lastFundingAt market (now%2^64)

variable {d : Deployment} {s s' : State}

theorem FundingKept.trans {s'' : State} (h : FundingKept s s') (h' : FundingKept s' s'') :
    FundingKept s s'' :=
  ⟨h'.1.trans h.1,h'.2.trans h.2⟩

theorem applyFunding_tick {sender : Address} {market : MarketId} {premium : ℤ} {now : ℕ}
    (h : s.applyFunding d sender market premium now = .ok s') : Tick s market now s' := by
  simp only [State.applyFunding, Registry.updateFunding, addI] at h
  have hpremium (hp : ¬ (premium > MAX_PREMIUM_ABS ∨ premium < -MAX_PREMIUM_ABS)) :
      |premium| ≤ MAX_PREMIUM_ABS := by
    rw [abs_le]
    omega
  split_ifs at h with hlast
  all_goals
    simp only [chain_ok_iff, ensure_eq_ok, and_true, exists_const, tx_pure_eq_ok, boundU_eq_ok,
      boundI_eq_ok] at h
  · obtain ⟨-,-,hp,_,⟨-,rfl⟩,hdue,_,⟨-,rfl⟩,_,⟨-,rfl⟩,rfl⟩ := h
    exact ⟨fun _ => hdue,⟨premium,hpremium hp,rfl⟩,rfl⟩
  · obtain ⟨-,-,hp,_,⟨-,rfl⟩,_,⟨-,rfl⟩,rfl⟩ := h
    exact ⟨fun hne => absurd hne hlast,⟨premium,hpremium hp,rfl⟩,rfl⟩

theorem Settled.kept {f : Fill} {realised funding : ℤ} (h : Settled s f realised funding s')
    (hfunding : s'.funding = s.funding) : FundingKept s s' :=
  ⟨h.fill.index_eq,by rw [hfunding]⟩

theorem settleFill_kept {f : Fill} (h : s.settleFill d f = .ok s') : FundingKept s s' := by
  obtain ⟨_,_,hset,-⟩ := State.settleFill_ok h
  apply hset.kept
  simp only [State.settleFill, chain_ok_iff, Prod.exists, tx_pure_eq_ok] at h
  obtain ⟨_,_,_,-,_,-,_,-,_,-,_,-,_,-,rfl⟩ := h
  rfl

theorem settleFills_kept {fills : List Fill} (h : State.settleFills d s fills = .ok s') :
    FundingKept s s' := by
  induction fills generalizing s with
  | nil =>
    cases h
    exact ⟨rfl,rfl⟩
  | cons f fills ih =>
    simp only [State.settleFills, chain_ok_iff] at h
    obtain ⟨s₁,h₁,h⟩ := h
    exact (settleFill_kept h₁).trans (ih h)

theorem liquidate_kept {sender user : Address} {market : MarketId} {receipt : LiquidationReceipt}
    (h : s.liquidate d sender user market = .ok (receipt,s')) : FundingKept s s' := by
  obtain ⟨s₁,hl⟩ := State.liquidate_liquidated h
  obtain ⟨_,_,hs,-⟩ := hl.settled
  have hindex : s'.registry.marketIndexFunding = s.registry.marketIndexFunding := by
    rw [hl.outflow.registry, hs.fill.index_eq]
  exact ⟨hindex,by rw [hl.frame]⟩

theorem adlOne_kept {market : MarketId} {mark : ℕ} {victim : Address} {closeSize : ℤ}
    (h : s.adlOne d market mark victim closeSize = .ok s') : FundingKept s s' := by
  simp only [State.adlOne, chain_ok_iff, Prod.exists, tx_pure_eq_ok] at h
  obtain ⟨paid,_,hemit,rfl⟩ := h
  obtain ⟨_,_,s₁,hd⟩ := State.adlOneEmitting_deleveraged hemit
  exact ⟨(Registry.applyFill_ok hd.fill).index_eq,by rw [hd.frame]⟩

theorem adlLoop_kept {market : MarketId} {mark : ℕ} {vs : List (Address × ℤ)}
    (h : State.adlLoop d market mark s vs = .ok s') : FundingKept s s' := by
  induction vs generalizing s with
  | nil =>
    cases h
    exact ⟨rfl,rfl⟩
  | cons v vs ih =>
    simp only [State.adlLoop, chain_ok_iff] at h
    obtain ⟨s₁,h₁,h⟩ := h
    exact (adlOne_kept h₁).trans (ih h)

/-- A call either is a tick or leaves indices and times alone. -/
theorem exec_tick_or_kept {c : Call} (hc : c.NoDirectUpdate d) (he : exec d s c = .ok s') :
    (∃ sender market premium now, c = .applyFunding sender market premium now ∧
      Tick s market now s') ∨ FundingKept s s' := by
  cases c with
  | applyFunding sender market premium now =>
    exact .inl ⟨sender,market,premium,now,rfl,applyFunding_tick he⟩
  | updateFunding sender market idx =>
    simp only [exec, Registry.updateFunding, chain_ok_iff, ensure_eq_ok] at he
    obtain ⟨_,⟨_,⟨hsender,-⟩,-⟩,-⟩ := he
    exact absurd hsender (not_or.mpr ⟨hc.2,hc.1⟩)
  | deposit sender amount =>
    simp only [exec, State.deposit, chain_ok_iff, tx_pure_eq_ok] at he
    obtain ⟨-,-,_,-,_,-,_,-,rfl⟩ := he
    exact .inr ⟨rfl,rfl⟩
  | withdraw sender amount =>
    simp only [exec, State.withdraw, chain_ok_iff, tx_pure_eq_ok] at he
    obtain ⟨-,-,_,-,-,-,_,-,_,-,_,-,rfl⟩ := he
    exact .inr ⟨rfl,rfl⟩
  | applyBatch fills nonce deadline signer now =>
    have hnonce : FundingKept s (s.useNonce nonce) := ⟨rfl,rfl⟩
    exact .inr (hnonce.trans (settleFills_kept (State.applyBatch_settleFills he)))
  | liquidate sender user market =>
    simp only [exec, chain_ok_iff, Prod.exists, tx_pure_eq_ok] at he
    obtain ⟨receipt,_,he,rfl⟩ := he
    exact .inr (liquidate_kept he)
  | adl sender market victims closeSizes =>
    simp only [exec, State.adl, chain_ok_iff] at he
    obtain ⟨-,-,-,-,-,-,_,-,he⟩ := he
    exact .inr (adlLoop_kept he)
  | listMarket | updateMarket | deactivateMarket =>
    simp only [exec, chain_ok_iff, tx_pure_eq_ok] at he
    obtain ⟨-,-,_,-,rfl⟩ := he
    exact .inr ⟨rfl,rfl⟩
  | setFillHook | setCap | transferUsdc =>
    simp only [exec, chain_ok_iff, tx_pure_eq_ok] at he
    obtain ⟨_,-,rfl⟩ := he
    exact .inr ⟨rfl,rfl⟩
  | setOperator | setSettlement | setSubmitter =>
    simp only [exec, chain_ok_iff, tx_pure_eq_ok] at he
    obtain ⟨-,-,-,-,rfl⟩ := he
    exact .inr ⟨rfl,rfl⟩
  | oracleAnswer | mintUsdc =>
    cases he
    exact .inr ⟨rfl,rfl⟩

/-- Ticks with a positive time that fits the engine's clock, and no other write to an index. -/
def Call.Timely (d : Deployment) (c : Call) : Prop :=
  c.NoDirectUpdate d ∧ ∀ t, c.tickTime = some t → 0 < t ∧ t < 2^64

/-- What one attempt does to the index and the clock of one market. -/
theorem attempt_cases {c : Call} (hc : c.Timely d) (market : MarketId) :
    (∃ t, c.tickTime = some t ∧ 0 < t ∧
      (s.funding.lastFundingAt market ≠ 0 →
        s.funding.lastFundingAt market+FUNDING_INTERVAL ≤ t) ∧
      (attempt (exec d) s c).funding.lastFundingAt market = t ∧
      |(attempt (exec d) s c).registry.marketIndexFunding market-
        s.registry.marketIndexFunding market| ≤ MAX_PREMIUM_ABS) ∨
    ((attempt (exec d) s c).funding.lastFundingAt market = s.funding.lastFundingAt market ∧
      (attempt (exec d) s c).registry.marketIndexFunding market =
        s.registry.marketIndexFunding market) := by
  cases he : exec d s c with
  | error e => exact .inr (by simp [attempt, he])
  | ok s' =>
    simp only [attempt, he]
    obtain ⟨sender,m,premium,now,rfl,htick⟩ | hkept := exec_tick_or_kept hc.1 he
    · by_cases hm : m = market
      · subst hm
        obtain ⟨hpos,hlt⟩ := hc.2 now rfl
        obtain ⟨p,hp,hidx⟩ := htick.index
        refine .inl ⟨now,rfl,hpos,htick.due,?_,?_⟩
        · rw [htick.stored, Function.update_self, Nat.mod_eq_of_lt hlt]
        · rw [hidx, Function.update_self, add_sub_cancel_left]
          exact hp
      · obtain ⟨p,-,hidx⟩ := htick.index
        refine .inr ⟨?_,?_⟩
        · rw [htick.stored, Function.update_of_ne (Ne.symm hm)]
        · rw [hidx, Function.update_of_ne (Ne.symm hm)]
    · exact .inr ⟨by rw [hkept.2],by rw [hkept.1]⟩

/-- After a tick the clock of its market stands at that tick or at a later one. -/
theorem run_lastFundingAt {calls : List Call} (hcalls : ∀ c ∈ calls, c.Timely d)
    {market : MarketId} {t : ℕ} (ht : 0 < t) (hs : t ≤ s.funding.lastFundingAt market) :
    t ≤ (runAll (exec d) s calls).funding.lastFundingAt market := by
  induction calls generalizing s with
  | nil => exact hs
  | cons c calls ih =>
    obtain ⟨hc,hcalls⟩ := List.forall_mem_cons.mp hcalls
    apply ih hcalls
    obtain ⟨t',-,-,hdue,hlast,-⟩ | ⟨hlast,-⟩ := attempt_cases (s := s) hc market
    · have := hdue (by omega)
      omega
    · omega

/-- One more clamped move on top of `n` of them. -/
theorem abs_sub_le_premium {a b c : ℤ} {n k : ℕ} (h₁ : |b-a| ≤ MAX_PREMIUM_ABS)
    (h₂ : |c-b| ≤ MAX_PREMIUM_ABS*n) (hk : n+1 ≤ k) : |c-a| ≤ MAX_PREMIUM_ABS*k := by
  have hcast : (n : ℤ)+1 ≤ k := by exact_mod_cast hk
  calc |c-a| ≤ |c-b|+|b-a| := abs_sub_le c b a
    _ ≤ MAX_PREMIUM_ABS*n+MAX_PREMIUM_ABS := add_le_add h₂ h₁
    _ = MAX_PREMIUM_ABS*(n+1) := by ring
    _ ≤ MAX_PREMIUM_ABS*k := mul_le_mul_of_nonneg_left hcast (by decide)

/-- Once a market has ticked, its index moves only after whole intervals. -/
theorem run_index_after {calls : List Call} (hcalls : ∀ c ∈ calls, c.Timely d)
    (market : MarketId) {t₁ : ℕ} (ht : ∀ c ∈ calls, ∀ t, c.tickTime = some t → t ≤ t₁)
    (hs : 0 < s.funding.lastFundingAt market) :
    |(runAll (exec d) s calls).registry.marketIndexFunding market-
      s.registry.marketIndexFunding market| ≤
      MAX_PREMIUM_ABS*(((t₁-s.funding.lastFundingAt market)/FUNDING_INTERVAL : ℕ) : ℤ) := by
  induction calls generalizing s with
  | nil =>
    simp only [runAll, List.foldl_nil, sub_self, abs_zero]
    exact mul_nonneg (by decide) (Int.natCast_nonneg _)
  | cons c calls ih =>
    obtain ⟨hc,hcalls⟩ := List.forall_mem_cons.mp hcalls
    obtain ⟨htc,ht⟩ := List.forall_mem_cons.mp ht
    have hrest := ih (s := attempt (exec d) s c) hcalls ht
    obtain ⟨t,hct,hpos,hdue,hlast,hidx⟩ | ⟨hlast,hidx⟩ := attempt_cases (s := s) hc market
    · rw [hlast] at hrest
      have hdue := hdue (by omega)
      have htle := htc t hct
      -- the time that is left is shorter by one interval at least
      have hdiv : (t₁-t)/FUNDING_INTERVAL+1 ≤
          (t₁-s.funding.lastFundingAt market)/FUNDING_INTERVAL := by
        rw [← Nat.add_div_right _ (by decide)]
        exact Nat.div_le_div_right (by omega)
      exact abs_sub_le_premium hidx (hrest hpos) hdiv
    · rw [hlast, hidx] at hrest
      exact hrest hs

/-- In a stretch of time the index moves once, and once more for each whole interval. -/
theorem run_index_between {calls : List Call} (hcalls : ∀ c ∈ calls, c.Timely d)
    {market : MarketId} {t₀ t₁ : ℕ}
    (ht : ∀ c ∈ calls, ∀ t, c.tickTime = some t → t₀ ≤ t ∧ t ≤ t₁) :
    |(runAll (exec d) s calls).registry.marketIndexFunding market-
      s.registry.marketIndexFunding market| ≤
      MAX_PREMIUM_ABS*(((t₁-t₀)/FUNDING_INTERVAL+1 : ℕ) : ℤ) := by
  induction calls generalizing s with
  | nil =>
    simp only [runAll, List.foldl_nil, sub_self, abs_zero]
    exact mul_nonneg (by decide) (Int.natCast_nonneg _)
  | cons c calls ih =>
    obtain ⟨hc,hcalls⟩ := List.forall_mem_cons.mp hcalls
    obtain ⟨htc,ht⟩ := List.forall_mem_cons.mp ht
    obtain ⟨t,hct,hpos,-,hlast,hidx⟩ | ⟨-,hidx⟩ := attempt_cases (s := s) hc market
    · -- from the first tick on the clock is set
      have hrest := run_index_after (s := attempt (exec d) s c) hcalls market
        (fun c hc t h => (ht c hc t h).2) (by omega)
      rw [hlast] at hrest
      have htle := htc t hct
      have hdiv : (t₁-t)/FUNDING_INTERVAL ≤ (t₁-t₀)/FUNDING_INTERVAL :=
        Nat.div_le_div_right (by omega)
      exact abs_sub_le_premium hidx hrest (by omega)
    · have hrest := ih (s := attempt (exec d) s c) hcalls ht
      rw [hidx] at hrest
      exact hrest

/-- Two ticks of a market that both succeed are an interval apart, and between two points of a
run whose ticks lie between `t₀` and `t₁` its index moves by at most the largest premium for each
whole interval and once more. -/
theorem funding_cadence (d : Deployment) (s : State) (calls : List Call)
    (hcalls : ∀ c ∈ calls, c.Timely d) (market : MarketId) :
    (∀ pre mid post sender₁ sender₂ premium₁ premium₂ t₁ t₂,
      calls = pre ++ .applyFunding sender₁ market premium₁ t₁ ::
        (mid ++ .applyFunding sender₂ market premium₂ t₂ :: post) →
      Succeeds (exec d (runAll (exec d) s pre) (.applyFunding sender₁ market premium₁ t₁)) →
      Succeeds (exec d (runAll (exec d) s
        (pre ++ .applyFunding sender₁ market premium₁ t₁ :: mid))
          (.applyFunding sender₂ market premium₂ t₂)) →
      t₁+FUNDING_INTERVAL ≤ t₂) ∧
    (∀ pre mid post t₀ t₁, calls = pre ++ mid ++ post → t₀ ≤ t₁ →
      (∀ c ∈ mid, ∀ t, c.tickTime = some t → t₀ ≤ t ∧ t ≤ t₁) →
      |(runAll (exec d) s (pre ++ mid)).registry.marketIndexFunding market-
        (runAll (exec d) s pre).registry.marketIndexFunding market| ≤
        MAX_PREMIUM_ABS*(((t₁-t₀)/FUNDING_INTERVAL+1 : ℕ) : ℤ)) := by
  constructor
  · rintro pre mid post sender₁ sender₂ premium₁ premium₂ t₁ t₂ rfl ⟨s₁,h₁⟩ ⟨s₂,h₂⟩
    have hfirst := (hcalls (.applyFunding sender₁ market premium₁ t₁) (by simp)).2 t₁ rfl
    have hmid (c : Call) (hc : c ∈ mid) : c.Timely d := hcalls c (by simp [hc])
    have hstored : s₁.funding.lastFundingAt market = t₁ := by
      rw [(applyFunding_tick h₁).stored, Function.update_self, Nat.mod_eq_of_lt hfirst.2]
    have hrun : runAll (exec d) s (pre ++ .applyFunding sender₁ market premium₁ t₁ :: mid) =
        runAll (exec d) s₁ mid := by
      have ha : attempt (exec d) (runAll (exec d) s pre)
          (.applyFunding sender₁ market premium₁ t₁) = s₁ := by
        simp only [attempt, h₁]
      rw [← ha]
      simp [runAll]
    rw [hrun] at h₂
    have hlast := run_lastFundingAt hmid hfirst.1 hstored.ge
    have hdue := (applyFunding_tick h₂).due (by omega)
    omega
  · rintro pre mid post t₀ t₁ rfl - ht
    have hmid (c : Call) (hc : c ∈ mid) : c.Timely d := hcalls c (by simp [hc])
    have hrun : runAll (exec d) s (pre ++ mid) = runAll (exec d) (runAll (exec d) s pre) mid := by
      simp [runAll]
    rw [hrun]
    exact run_index_between hmid ht

/-- A market that ticks twice, eight hours apart, with a rotation of the submitter between. -/
def twoTicks : List Call :=
  [.listMarket 1 1 btcParams,.applyFunding 9 1 (10^16) 1,.setSubmitter 1 7,
    .applyFunding 7 1 (10^16) 28801]

theorem funding_cadence_twoTicks : (∀ c ∈ twoTicks, c.Timely devnet) ∧
    (devnetAfter twoTicks).registry.marketIndexFunding 1 = 2*10^16 ∧
    |(devnetAfter twoTicks).registry.marketIndexFunding 1-
      (genesis devnet 8 9).registry.marketIndexFunding 1| ≤
        MAX_PREMIUM_ABS*(((28801-1)/FUNDING_INTERVAL+1 : ℕ) : ℤ) := by
  have htimely : ∀ c ∈ twoTicks, c.Timely devnet := by
    simp [twoTicks, Call.Timely, Call.NoDirectUpdate, Call.tickTime]
  refine ⟨htimely,by decide +kernel,?_⟩
  exact (funding_cadence devnet (genesis devnet 8 9) twoTicks htimely 1).2 [] twoTicks [] 1 28801
    (by simp) (by decide) (by simp [twoTicks, Call.tickTime])

/-- At timestamps beyond the engine's 64-bit clock the stored time is a remainder: two ticks one
second apart both succeed, and the index moves by twice the largest premium. -/
theorem wrapped_clock_ticks_again :
    let list : Call := .listMarket 1 1 btcParams
    let first : Call := .applyFunding 9 1 (10^16) (2^64)
    let second : Call := .applyFunding 9 1 (10^16) (2^64+1)
    (∀ c ∈ [list,first,second], c.NoDirectUpdate devnet) ∧
      Succeeds (exec devnet (devnetAfter [list]) first) ∧
      Succeeds (exec devnet (devnetAfter [list,first]) second) ∧
      ¬ 2^64+FUNDING_INTERVAL ≤ 2^64+1 ∧
      (devnetAfter [list,first,second]).registry.marketIndexFunding 1-
        (devnetAfter [list]).registry.marketIndexFunding 1 = 2*MAX_PREMIUM_ABS ∧
      ((2^64+1-2^64)/FUNDING_INTERVAL+1 : ℕ) = 1 := by
  refine ⟨by simp [Call.NoDirectUpdate],?_,?_,?_,?_,?_⟩ <;> decide +kernel

end Perplex.Chain
