import Perplex.ChainForced

/-! `SyntheticCounterparty` keeps its own copy of its positions and holds every fill against a
cap on them. The copy is fed by the hook of `applyBatch` alone; `liquidate` and `adl` write
the registry and never tell it. -/
namespace Perplex.Chain

/-- The copy agrees with the registry in every market. -/
def State.Mirrored (s : State) (d : Deployment) : Prop :=
  ∀ market, s.synthetic.position market = (s.registry.positions d.synthetic market).size

/-- The hook stays set and keeps answering the settlement engine. -/
def Call.KeepsHook : Call → Prop
  | .setFillHook _ enabled => enabled = true
  | .setSettlement _ _ => False
  | _ => True

/-- The call forces none of the counterparty's own positions to close. -/
def Call.SparesCounterparty (d : Deployment) : Call → Prop
  | .liquidate _ user _ => user ≠ d.synthetic
  | .adl _ _ victims _ => d.synthetic ∉ victims
  | _ => True

/-- A batch that goes through leaves the position of the counterparty within the cap of every
market it was filled in. -/
def Call.CapsExposure (d : Deployment) (s : State) : Call → Prop
  | .applyBatch fills nonce deadline signer now =>
    ∀ s', s.applyBatch d fills nonce deadline signer now = .ok s' →
      ∀ f ∈ fills, f.user = d.synthetic →
        (s'.registry.positions d.synthetic f.marketId).size.natAbs ≤
          s'.synthetic.marketCap f.marketId
  | _ => True

section Hook
variable {d : Deployment} {s s' : State}

/-- The hook records a fill of the counterparty and refuses one beyond the cap. -/
theorem Synthetic.onFill_ok {c c' : Synthetic} {sender user : Address} {market : MarketId}
    {sizeDelta realised : ℤ} (h : c.onFill d sender user market sizeDelta realised = .ok c') :
    c'.marketCap = c.marketCap ∧
    (∀ m, c'.position m =
      c.position m+(if user = d.synthetic ∧ m = market then sizeDelta else 0)) ∧
    (user = d.synthetic → (c'.position market).natAbs ≤ c.marketCap market) := by
  simp only [onFill, chain_ok_iff, ensure_eq_ok, and_true, exists_const] at h
  obtain ⟨-, h⟩ := h
  split_ifs at h with hu
  · cases h
    exact ⟨rfl, fun m => by simp [hu], fun he => absurd he hu⟩
  · simp only [chain_ok_iff, addI_eq_ok, ensure_eq_ok, and_true, exists_const, tx_pure_eq_ok] at h
    obtain ⟨next, ⟨-, rfl⟩, hcap, _, -, rfl⟩ := h
    have hself : user = d.synthetic := not_not.mp hu
    refine ⟨rfl, ?_, fun _ => by simpa using hcap⟩
    intro m
    by_cases hm : m = market
    · subst hm
      simp [hself]
    · simp [hm]

/-- One fill of a batch: the copy follows the registry, and a fill of the counterparty ends
within the cap. -/
structure Hooked (d : Deployment) (s : State) (s' : State) : Prop where
  hook : s'.settlement.fillHook = s.settlement.fillHook
  mirrored : s.Mirrored d → s'.Mirrored d
  cap : s'.synthetic.marketCap = s.synthetic.marketCap
  within : ∀ m, s'.synthetic.position m = s.synthetic.position m ∨
    (s'.synthetic.position m).natAbs ≤ s.synthetic.marketCap m

theorem settleFill_hooked {f : Fill} (hhook : s.settlement.fillHook = true)
    (h : s.settleFill d f = .ok s') : Hooked d s s' ∧ (f.user = d.synthetic →
      (s'.synthetic.position f.marketId).natAbs ≤ s.synthetic.marketCap f.marketId) := by
  obtain ⟨_, _, hset, -⟩ := State.settleFill_ok h
  simp only [State.settleFill, chain_ok_iff, Prod.exists, tx_pure_eq_ok, hhook, if_true] at h
  obtain ⟨_, _, _, -, _, -, _, -, _, -, _, -, c, hc, rfl⟩ := h
  obtain ⟨hcap, hpos, hwithin⟩ := Synthetic.onFill_ok hc
  refine ⟨⟨rfl, ?_, hcap, ?_⟩, hwithin⟩
  · intro hm market
    have hsize := hset.fill.size_eq d.synthetic market
    rw [hsize, ← hm market, hpos market]
    simp only [eq_comm (a := d.synthetic)]
  · intro m
    by_cases hself : f.user = d.synthetic ∧ m = f.marketId
    · obtain ⟨hu, rfl⟩ := hself
      exact .inr (hwithin hu)
    · refine .inl ?_
      rw [hpos m, if_neg hself, add_zero]

theorem settleFills_hooked {fills : List Fill} (hhook : s.settlement.fillHook = true)
    (h : State.settleFills d s fills = .ok s') : Hooked d s s' ∧
      ∀ f ∈ fills, f.user = d.synthetic →
        (s'.synthetic.position f.marketId).natAbs ≤ s.synthetic.marketCap f.marketId := by
  induction fills generalizing s with
  | nil =>
    cases h
    exact ⟨⟨rfl, id, rfl, fun _ => .inl rfl⟩, by simp⟩
  | cons f fills ih =>
    simp only [State.settleFills, chain_ok_iff] at h
    obtain ⟨s₁, h₁, h⟩ := h
    obtain ⟨hfirst, hself⟩ := settleFill_hooked hhook h₁
    obtain ⟨hrest, hothers⟩ := ih (hfirst.hook.trans hhook) h
    rw [hfirst.cap] at hothers
    refine ⟨⟨hrest.hook.trans hfirst.hook, fun hm => hrest.mirrored (hfirst.mirrored hm),
      hrest.cap.trans hfirst.cap, ?_⟩, ?_⟩
    · intro m
      rcases hrest.within m with hsame | hin
      · rw [hsame]
        exact hfirst.within m
      · exact .inr (hfirst.cap ▸ hin)
    · intro g hg hu
      rcases List.mem_cons.mp hg with rfl | hg
      · -- the fills behind it either leave its market alone or end within the cap themselves
        rcases hrest.within g.marketId with hsame | hin
        · rw [hsame]
          exact hself hu
        · exact hfirst.cap ▸ hin
      · exact hothers g hg hu

/-- Neither the copy nor the hook is touched. -/
structure Unhooked (s s' : State) : Prop where
  synthetic : s'.synthetic.position = s.synthetic.position
  hook : s'.settlement.fillHook = s.settlement.fillHook

theorem Unhooked.trans {s'' : State} (h : Unhooked s s') (h' : Unhooked s' s'') :
    Unhooked s s'' := ⟨h'.synthetic.trans h.synthetic, h'.hook.trans h.hook⟩

theorem Unhooked.mirrored_iff (h : Unhooked s s') (hs : s.Mirrored d) :
    s'.Mirrored d ↔ ∀ market, (s'.registry.positions d.synthetic market).size =
      (s.registry.positions d.synthetic market).size := by
  unfold State.Mirrored at *
  refine forall_congr' fun market => ?_
  rw [h.synthetic, hs market]
  exact eq_comm

/-- A liquidation takes the whole size of one user, and no other. -/
theorem liquidate_sizes {liquidator user : Address} {market : MarketId}
    {receipt : LiquidationReceipt} (h : s.liquidate d liquidator user market = .ok (receipt,s')) :
    Unhooked s s' ∧ (∀ u, u ≠ user → ∀ m, (s'.registry.positions u m).size =
        (s.registry.positions u m).size) ∧
      (s'.registry.positions user market).size ≠ (s.registry.positions user market).size := by
  obtain ⟨s₁, hl⟩ := State.liquidate_liquidated h
  obtain ⟨realised, funding, hs, -⟩ := hl.settled
  have hreg := hl.outflow.registry
  refine ⟨by rw [hl.frame]; exact ⟨rfl, rfl⟩, ?_, ?_⟩
  · intro u hu m
    rw [hreg, hs.fill.position_of_ne fun hum => hu hum.1]
  · rw [hreg, hs.fill.size_eq, if_pos ⟨rfl, rfl⟩]
    have hne := hs.fill.delta_ne
    simp only at hne ⊢
    omega

/-- Deleveraging shrinks the size of every victim, and no other. -/
theorem adlLoop_sizes {market : MarketId} {mark : ℕ} {victims : List (Address × ℤ)}
    (h : State.adlLoop d market mark s victims = .ok s') :
    Unhooked s s' ∧ (∀ u, u ∉ victims.map Prod.fst → ∀ m, (s'.registry.positions u m).size =
        (s.registry.positions u m).size) ∧
      (∀ u, (s'.registry.positions u market).size.natAbs ≤
        (s.registry.positions u market).size.natAbs) ∧
      ∀ u ∈ victims.map Prod.fst, (s'.registry.positions u market).size.natAbs <
        (s.registry.positions u market).size.natAbs := by
  induction victims generalizing s with
  | nil =>
    cases h
    exact ⟨⟨rfl, rfl⟩, fun _ _ _ => rfl, fun _ => le_rfl, by simp⟩
  | cons v victims ih =>
    simp only [State.adlLoop, chain_ok_iff, State.adlOne, Prod.exists,
      tx_pure_eq_ok] at h
    obtain ⟨_, ⟨paid, s₁, h₁, rfl⟩, h⟩ := h
    obtain ⟨_, _, s₀, hd⟩ := State.adlOneEmitting_deleveraged h₁
    obtain ⟨hrest, hsame, hle, hlt⟩ := ih h
    have hfill := hd.settled.fill
    rw [← hd.outflow.registry] at hfill
    -- the step shrinks one size, and what follows it lets none grow
    have hself : (s₁.registry.positions v.1 market).size.natAbs <
        (s.registry.positions v.1 market).size.natAbs := by
      have hsize := hfill.size_eq v.1 market
      rw [if_pos ⟨rfl, rfl⟩] at hsize
      obtain ⟨hne, hreduces⟩ := hd.reduces
      simp only at hsize
      omega
    have hother (u : Address) (hu : u ≠ v.1) (m : MarketId) :
        (s₁.registry.positions u m).size = (s.registry.positions u m).size := by
      rw [hfill.position_of_ne fun hum => hu hum.1]
    have hfirst : Unhooked s s₁ := by
      rw [hd.frame]
      exact ⟨rfl, rfl⟩
    have hstep (u : Address) : (s₁.registry.positions u market).size.natAbs ≤
        (s.registry.positions u market).size.natAbs := by
      by_cases hu : u = v.1
      · rw [hu]
        exact hself.le
      · rw [hother u hu]
    refine ⟨hfirst.trans hrest, ?_, fun u => (hle u).trans (hstep u), ?_⟩
    · intro u hu m
      rw [List.map_cons, List.mem_cons, not_or] at hu
      rw [hsame u hu.2, hother u hu.1]
    · intro u hu
      rcases List.mem_cons.mp hu with rfl | hu
      · exact lt_of_le_of_lt (hle v.1) hself
      · exact lt_of_lt_of_le (hlt u hu) (hstep u)

/-- The calls that neither fill nor force a close. -/
def Call.Passive : Call → Bool
  | .applyBatch .. | .liquidate .. | .adl .. => false
  | _ => true

theorem exec_passive {c : Call} (hc : c.Passive = true) (hk : c.KeepsHook)
    (hhook : s.settlement.fillHook = true) (he : exec d s c = .ok s') :
    Unhooked s s' ∧ s'.registry.positions = s.registry.positions := by
  cases c with
  | applyBatch | liquidate | adl => simp [Call.Passive] at hc
  | deposit sender amount =>
    simp only [exec, State.deposit, chain_ok_iff, tx_pure_eq_ok] at he
    obtain ⟨-, -, _, -, _, -, _, -, rfl⟩ := he
    exact ⟨⟨rfl, rfl⟩, rfl⟩
  | withdraw sender amount =>
    simp only [exec, State.withdraw, chain_ok_iff, tx_pure_eq_ok] at he
    obtain ⟨-, -, _, -, -, -, _, -, _, -, _, -, rfl⟩ := he
    exact ⟨⟨rfl, rfl⟩, rfl⟩
  | updateFunding sender market idx =>
    simp only [exec, Registry.updateFunding, chain_ok_iff, tx_pure_eq_ok] at he
    obtain ⟨_, ⟨-, -, rfl⟩, rfl⟩ := he
    exact ⟨⟨rfl, rfl⟩, rfl⟩
  | applyFunding sender market premium now =>
    obtain ⟨newIndex, hs'⟩ := State.applyFunding_ok he
    rw [hs']
    exact ⟨⟨rfl, rfl⟩, rfl⟩
  | setFillHook sender enabled =>
    simp only [exec, chain_ok_iff, tx_pure_eq_ok] at he
    obtain ⟨_, -, rfl⟩ := he
    exact ⟨⟨rfl, hk.trans hhook.symm⟩, rfl⟩
  | setSettlement sender newSettlement => exact hk.elim
  | listMarket | updateMarket | deactivateMarket =>
    simp only [exec, chain_ok_iff, tx_pure_eq_ok] at he
    obtain ⟨-, -, _, -, rfl⟩ := he
    exact ⟨⟨rfl, rfl⟩, rfl⟩
  | setCap | transferUsdc =>
    simp only [exec, chain_ok_iff, tx_pure_eq_ok] at he
    obtain ⟨_, -, rfl⟩ := he
    exact ⟨⟨rfl, rfl⟩, rfl⟩
  | setOperator | setSubmitter =>
    simp only [exec, chain_ok_iff, tx_pure_eq_ok] at he
    obtain ⟨-, -, -, -, rfl⟩ := he
    exact ⟨⟨rfl, rfl⟩, rfl⟩
  | oracleAnswer | mintUsdc =>
    cases he
    exact ⟨⟨rfl, rfl⟩, rfl⟩

/-- With the hook set, a call keeps the copy exact unless it forces the counterparty to close. -/
theorem exec_mirrored_iff {c : Call} (hk : c.KeepsHook) (hhook : s.settlement.fillHook = true)
    (he : exec d s c = .ok s') : s'.settlement.fillHook = true ∧
      (s.Mirrored d → (s'.Mirrored d ↔ c.SparesCounterparty d)) := by
  by_cases hc : c.Passive = true
  · obtain ⟨hun, hpos⟩ := exec_passive hc hk hhook he
    refine ⟨hun.hook.trans hhook, fun hs => iff_of_true ?_ ?_⟩
    · exact (hun.mirrored_iff hs).mpr fun market => by rw [hpos]
    · cases c with
      | liquidate | adl => simp [Call.Passive] at hc
      | _ => trivial
  cases c with
  | applyBatch fills nonce deadline signer now =>
    obtain ⟨hbatch, -⟩ := settleFills_hooked (s := s.useNonce nonce) hhook
      (State.applyBatch_settleFills he)
    exact ⟨hbatch.hook.trans hhook, fun hs => iff_of_true (hbatch.mirrored hs) trivial⟩
  | liquidate sender user market =>
    simp only [exec, chain_ok_iff, Prod.exists, tx_pure_eq_ok] at he
    obtain ⟨receipt, _, he, rfl⟩ := he
    obtain ⟨hun, hothers, hclosed⟩ := liquidate_sizes he
    refine ⟨hun.hook.trans hhook, fun hs => (hun.mirrored_iff hs).trans ⟨?_, ?_⟩⟩
    · intro hsame hu
      subst hu
      exact hclosed (hsame market)
    · intro hne
      exact hothers d.synthetic (Ne.symm hne)
  | adl sender market victims closeSizes =>
    simp only [exec, State.adl, chain_ok_iff, ensure_eq_ok, and_true, exists_const] at he
    obtain ⟨-, hlen, -, mark, -, he⟩ := he
    obtain ⟨hun, hothers, -, hvictims⟩ := adlLoop_sizes he
    rw [List.map_fst_zip hlen.le] at hothers hvictims
    refine ⟨hun.hook.trans hhook, fun hs => (hun.mirrored_iff hs).trans ⟨?_, ?_⟩⟩
    · intro hsame hmem
      have hlt := hvictims d.synthetic hmem
      rw [hsame market] at hlt
      exact lt_irrefl _ hlt
    · intro hne
      exact hothers d.synthetic hne
  | _ => simp [Call.Passive] at hc

/-- Batches enforce the caps on the real position as long as the copy is exact. -/
theorem capsExposure_of_mirrored (hhook : s.settlement.fillHook = true) (hs : s.Mirrored d)
    (c : Call) : c.CapsExposure d s := by
  cases c with
  | applyBatch fills nonce deadline signer now =>
    intro s' h f hf hu
    obtain ⟨hbatch, hwithin⟩ := settleFills_hooked (s := s.useNonce nonce) hhook
      (State.applyBatch_settleFills h)
    have hmirror : s'.Mirrored d := hbatch.mirrored hs
    rw [← hmirror f.marketId, hbatch.cap]
    exact hwithin f hf hu
  | _ => trivial

end Hook

/-- The deployed contracts with the hook set first, after some calls. -/
def hookedAfter (d : Deployment) (operator submitter : Address) (calls : List Call) : State :=
  runAll (exec d) (genesis d operator submitter) (.setFillHook d.owner true :: calls)

section Run
variable (d : Deployment) (operator submitter : Address)

theorem hookedAfter_append (pre : List Call) (c : Call) :
    hookedAfter d operator submitter (pre++[c]) =
      attempt (exec d) (hookedAfter d operator submitter pre) c :=
  runAll_append (genesis d operator submitter) (Call.setFillHook d.owner true :: pre) c

theorem hookedAfter_nil : hookedAfter d operator submitter [] =
    { genesis d operator submitter with settlement := ⟨operator, fun _ => false, true⟩ } := by
  have h : exec d (genesis d operator submitter) (.setFillHook d.owner true) =
      .ok { genesis d operator submitter with settlement := ⟨operator, fun _ => false, true⟩ } := by
    simp only [exec, ensure_of]
    rfl
  exact attempt_of_ok h

theorem hookedAfter_hook {calls : List Call} (hk : ∀ c ∈ calls, c.KeepsHook) :
    (hookedAfter d operator submitter calls).settlement.fillHook = true := by
  induction calls using List.reverseRecOn with
  | nil => rw [hookedAfter_nil]
  | append_singleton calls c ih =>
    have hprev := ih fun c' hc' => hk c' (List.mem_append_left _ hc')
    rw [hookedAfter_append]
    cases he : exec d (hookedAfter d operator submitter calls) c with
    | error e => simpa only [attempt, he] using hprev
    | ok s' =>
      rw [attempt_of_ok he]
      exact (exec_mirrored_iff (hk c (by simp)) hprev he).1

/-- With the hook set from the start and kept, the counterparty's copy of its positions is
exact in every state of a run, and its caps bound the real position after every batch, if and
only if no liquidation or deleveraging of the run that goes through closes the counterparty. -/
theorem mirror_exact_iff {calls : List Call} (hk : ∀ c ∈ calls, c.KeepsHook) :
    ((∀ pre, pre <+: calls → (hookedAfter d operator submitter pre).Mirrored d) ∧
      ∀ pre c, pre++[c] <+: calls → c.CapsExposure d (hookedAfter d operator submitter pre)) ↔
    ∀ pre c, pre++[c] <+: calls → Succeeds (exec d (hookedAfter d operator submitter pre) c) →
      c.SparesCounterparty d := by
  have hhook (pre : List Call) (hpre : pre <+: calls) :=
    hookedAfter_hook d operator submitter fun c hc => hk c (hpre.subset hc)
  -- the caps follow from the copy
  have hcaps (hmirror : ∀ pre, pre <+: calls → (hookedAfter d operator submitter pre).Mirrored d)
      (pre : List Call) (c : Call) (hpre : pre++[c] <+: calls) :
      c.CapsExposure d (hookedAfter d operator submitter pre) := by
    have hpre' := (List.prefix_append pre [c]).trans hpre
    exact capsExposure_of_mirrored (hhook pre hpre') (hmirror pre hpre') c
  rw [and_iff_left_of_imp hcaps]
  refine forall_prefix_iff (P := fun pre => (hookedAfter d operator submitter pre).Mirrored d)
    ?_ (fun _ h => h) ?_
  · rw [hookedAfter_nil]
    exact fun market => rfl
  · intro pre c hpre hmirror
    refine ⟨?_, id⟩
    have hc : c ∈ calls := hpre.subset (by simp)
    rw [hookedAfter_append]
    by_cases hok : Succeeds (exec d (hookedAfter d operator submitter pre) c)
    · obtain ⟨s', he⟩ := hok
      rw [attempt_of_ok he, forall_prop_of_true ⟨s', he⟩]
      exact (exec_mirrored_iff (hk c hc) (hhook pre ((List.prefix_append pre [c]).trans hpre))
        he).2 hmirror
    · rw [attempt_of_not hok]
      exact iff_of_true hmirror fun h => absurd h hok

end Run

/-- The counterparty, capped at one contract, buys one from user 101 at 100. -/
def counterpartyLong : List Call :=
  funded (100*10^6) (100*10^6)++([.setCap 1 1 (10^18), .mintUsdc 7 (100*10^6),
    .deposit 7 (100*10^6),
    .applyBatch [⟨7, 1, 10^18, 100*10^18, 0⟩, ⟨101, 1, -10^18, 100*10^18, 0⟩] 0 0 8 0] :
      List Call)

theorem mirror_exact_counterpartyLong :
    (hookedAfter devnet 8 9 counterpartyLong).Mirrored devnet ∧
    (hookedAfter devnet 8 9 counterpartyLong).synthetic.position 1 = 10^18 := by
  have hkeeps : ∀ c ∈ counterpartyLong, c.KeepsHook := by
    simp [counterpartyLong, funded, Call.KeepsHook]
  have hspares : ∀ c ∈ counterpartyLong, c.SparesCounterparty devnet := by
    simp [counterpartyLong, funded, Call.SparesCounterparty]
  obtain ⟨hmirror, -⟩ := (mirror_exact_iff devnet 8 9 hkeeps).mpr
    fun pre c hpre _ => hspares c (hpre.subset (by simp))
  exact ⟨hmirror _ (List.prefix_refl _), by decide +kernel⟩

/-- At 110 its long is deleveraged, and it sells two contracts to user 102. -/
def counterpartyDeleveraged : List Call :=
  counterpartyLong++([.oracleAnswer 1 (some (110*10^18)), .adl 1 1 [7] [-10^18],
    .applyBatch [⟨7, 1, -2*10^18, 110*10^18, 0⟩, ⟨102, 1, 2*10^18, 110*10^18, 0⟩] 1 0 8 0] :
      List Call)

/-- The copy says short one contract, within the cap, while the counterparty is short two. -/
theorem forced_close_misses_mirror :
    (∀ c ∈ counterpartyDeleveraged, c.KeepsHook) ∧
    ¬ (hookedAfter devnet 8 9 counterpartyDeleveraged).Mirrored devnet ∧
    (hookedAfter devnet 8 9 counterpartyDeleveraged).synthetic.position 1 = -10^18 ∧
    (hookedAfter devnet 8 9 counterpartyDeleveraged).synthetic.marketCap 1 = 10^18 ∧
    ((hookedAfter devnet 8 9 counterpartyDeleveraged).registry.positions 7 1).size =
      -2*10^18 := by
  have hcopy : (hookedAfter devnet 8 9 counterpartyDeleveraged).synthetic.position 1 =
      -10^18 := by decide +kernel
  have hreal : ((hookedAfter devnet 8 9 counterpartyDeleveraged).registry.positions 7 1).size =
      -2*10^18 := by decide +kernel
  have hkeeps : ∀ c ∈ counterpartyDeleveraged, c.KeepsHook := by
    simp [counterpartyDeleveraged, counterpartyLong, funded, Call.KeepsHook]
  refine ⟨hkeeps, ?_, hcopy, by decide +kernel, hreal⟩
  intro h
  have hsame := (hcopy.symm.trans (h 1)).trans hreal
  norm_num at hsame

end Perplex.Chain
