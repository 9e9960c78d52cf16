import Mathlib.Data.Rat.Defs
import Perplex.Checked
import Perplex.Interleaving

/-!
The funding cron with leader election. Instances of the service share a lease: at a tick an
instance renews or acquires it, and then publishes the premiums of its markets one after the
other, each a call of unbounded length. The renewal between ticks is another branch of the same
`select!`, so it does not run while the markets are published, and the lease may run out then.
-/

namespace Perplex.Funding

/-- `MockBackend`: by key, the token of the holder and the time at which the lease expires. -/
abbrev MockBackend := String → Option (String × ℕ)

namespace MockBackend

def gc (b : MockBackend) (now : ℕ) : MockBackend := fun key => (b key).filter fun e => now < e.2

def tryAcquire (b : MockBackend) (key token : String) (ttl now : ℕ) : Bool × MockBackend :=
  let g := b.gc now
  match g key with
  | some _ => (false,g)
  | none => (true,Function.update g key (some (token,now+ttl)))

def renew (b : MockBackend) (key token : String) (ttl now : ℕ) : Bool × MockBackend :=
  let g := b.gc now
  match g key with
  | some (owner,_) =>
    if owner = token then (true,Function.update g key (some (token,now+ttl))) else (false,g)
  | none => (false,g)

variable {b : MockBackend} {key token owner : String} {ttl now expires : ℕ}

theorem gc_eq (h : b key = some (owner,expires)) (he : now < expires) :
    b.gc now key = some (owner,expires) := by
  simp [gc, h, he]

/-- A lease that has not expired is not acquired. -/
theorem tryAcquire_held (h : b key = some (owner,expires)) (he : now < expires) :
    b.tryAcquire key token ttl now = (false,b.gc now) := by
  simp only [tryAcquire, gc_eq h he]

/-- Nor is it renewed by anybody but its holder. -/
theorem renew_held (h : b key = some (owner,expires)) (he : now < expires) :
    b.renew key token ttl now =
      if owner = token then (true,Function.update (b.gc now) key (some (token,now+ttl)))
      else (false,b.gc now) := by
  simp only [renew, gc_eq h he]

/-- An acquisition or renewal that succeeds gives a new lease. -/
theorem tryAcquire_true (h : (b.tryAcquire key token ttl now).1 = true) :
    (b.tryAcquire key token ttl now).2 key = some (token,now+ttl) := by
  unfold tryAcquire at h ⊢
  cases hg : b.gc now key with
  | none => simp [hg]
  | some e => simp [hg] at h

theorem renew_true (h : (b.renew key token ttl now).1 = true) :
    (b.renew key token ttl now).2 key = some (token,now+ttl) := by
  unfold renew at h ⊢
  cases hg : b.gc now key with
  | none => simp [hg] at h
  | some e =>
    simp only [hg] at h ⊢
    split_ifs at h ⊢
    simp

end MockBackend

structure FundingConfig where
  markets : List String
  lease_ttl : ℕ
  lease_key_prefix : String

def FundingConfig.leaseKey (cfg : FundingConfig) : String :=
  FundingConfig.lease_key_prefix cfg

/-- Instances with their ids, which are random and distinct, and one lease key. -/
structure Fleet (ι : Type) where
  id : ι → String
  id_injective : Function.Injective id
  cfg : ι → FundingConfig
  key : String
  shared_key : ∀ i, (cfg i).leaseKey = key

/-- A call of `submit`: when it was made, and what the backend held for the lease key. -/
structure Submission (ι : Type) where
  caller : ι
  market : String
  premium : ℚ
  made : ℕ
  lease : Option (String × ℕ)

structure Shared (ι : Type) where
  now : ℕ
  backend : MockBackend
  hold_lease : ι → Bool
  submissions : List (Submission ι)

/-- What an instance does between two awaits. A tick comes with the answers that the premium feed
will give, market by market; `since` is the time at which the tick got the lease. -/
inductive Section where
  /-- `tick.tick()` fires. -/
  | tick (premiums : ℕ → Option ℚ)
  | tickRenew (premiums : ℕ → Option ℚ)
  | tickAcquire (premiums : ℕ → Option ℚ)
  /-- `premium_for` returns; a premium is submitted. -/
  | market (m : String) (premium : Option ℚ) (since : ℕ)
  /-- `submit` returns. -/
  | submitted (m : String) (since : ℕ)
  | leave (since : ℕ)
  /-- `renew.tick()` fires. -/
  | renewTick
  | renew
  /-- Time passes. -/
  | advance (duration : ℕ)

variable {ι : Type} [DecidableEq ι]

/-- The loop over the markets, for an instance that got the lease at time `since`. -/
def submitLoop (markets : List String) (premiums : ℕ → Option ℚ) (since : ℕ) : List Section :=
  markets.mapIdx (fun k m => .market m (premiums k) since) ++ [.leave since]

def perform (f : Fleet ι) (i : ι) : Section → Shared ι → Option (Shared ι × List Section)
  | .tick premiums, s =>
    some (s,[if s.hold_lease i then .tickRenew premiums else .tickAcquire premiums])
  | .tickRenew premiums, s =>
    let (renewed,backend) :=
      s.backend.renew (f.cfg i).leaseKey (f.id i) (f.cfg i).lease_ttl s.now
    if renewed then some ({ s with
        backend
        hold_lease := Function.update s.hold_lease i true },
      submitLoop (f.cfg i).markets premiums s.now)
    else some ({ s with backend },[.tickAcquire premiums])
  | .tickAcquire premiums, s =>
    let (acquired,backend) :=
      s.backend.tryAcquire (f.cfg i).leaseKey (f.id i) (f.cfg i).lease_ttl s.now
    some ({ s with
        backend
        hold_lease := Function.update s.hold_lease i acquired },
      if acquired then submitLoop (f.cfg i).markets premiums s.now else [])
  | .market m premium since, s =>
    match premium with
    | some premium =>
      let call := ⟨i,m,premium,s.now,s.backend (f.cfg i).leaseKey⟩
      some ({ s with submissions := call :: s.submissions },[.submitted m since])
    | none => some (s,[])
  | .submitted _ _, s => some (s,[])
  | .leave _, s => some (s,[])
  -- this branch is enabled only while the instance believes that it leads
  | .renewTick, s => some (s,if s.hold_lease i then [.renew] else [])
  | .renew, s =>
    let (ok,backend) :=
      s.backend.renew (f.cfg i).leaseKey (f.id i) (f.cfg i).lease_ttl s.now
    some ({ s with
        backend
        hold_lease := Function.update s.hold_lease i (if ok then s.hold_lease i else false) },[])
  | .advance duration, s => some ({ s with now := s.now+duration },[])

/-- The time since which an instance is in its loop, for the sections of the loop. -/
def Section.since : Section → Option ℕ
  | .market _ _ since | .submitted _ since | .leave since => some since
  | _ => none

/-- The instance is inside the submit loop of a tick that got the lease at time `since`. -/
def InLoop (c : Pool ι Section (Shared ι)) (i : ι) (since : ℕ) : Prop :=
  ∃ w ∈ c.pending i, w.since = some since

/-- The call was made while the caller held the lease and it had not expired. -/
def Submission.Held (f : Fleet ι) (call : Submission ι) : Prop :=
  ∃ expires, call.lease = some (f.id call.caller,expires) ∧ call.made < expires

/-- The lease of an instance in its loop: it got it at time `since`, still holds it, and its time
has not run out. -/
structure Leased (f : Fleet ι) (s : Shared ι) (i : ι) (since : ℕ) : Prop where
  entry : ∃ expires, s.backend f.key = some (f.id i,expires) ∧
    since+(f.cfg i).lease_ttl ≤ expires
  begun : since ≤ s.now
  in_time : s.now < since+(f.cfg i).lease_ttl

/-- A section leaves the lease of an instance in its loop alone, or makes it longer. Only the
passing of time may end it. -/
theorem perform_leased {f : Fleet ι} {i j : ι} {w : Section} {s s' : Shared ι}
    {new : List Section} {since : ℕ} (hs : perform f i w s = some (s',new))
    (h : Leased f s j since)
    (htime : ∀ duration, w = .advance duration → s.now+duration < since+(f.cfg j).lease_ttl) :
    Leased f s' j since := by
  obtain ⟨⟨expires,hentry,hexp⟩,hbegun,hin⟩ := h
  have hlt : s.now < expires := by omega
  have hgc : s.backend.gc s.now f.key = some (f.id j,expires) := MockBackend.gc_eq hentry hlt
  have hrenew : ∃ expires', (s.backend.renew (f.cfg i).leaseKey (f.id i)
      (f.cfg i).lease_ttl s.now).2 f.key = some (f.id j,expires') ∧
        since+(f.cfg j).lease_ttl ≤ expires' := by
    rw [f.shared_key, MockBackend.renew_held hentry hlt]
    split_ifs with he
    · -- its own renewal
      have hij := f.id_injective he
      subst hij
      exact ⟨_,Function.update_self ..,by omega⟩
    · exact ⟨expires,hgc,hexp⟩
  cases w with
  | tick premiums =>
    cases hs
    exact ⟨⟨expires,hentry,hexp⟩,hbegun,hin⟩
  | tickRenew premiums =>
    simp only [perform] at hs
    split_ifs at hs <;> cases hs <;> exact ⟨hrenew,hbegun,hin⟩
  | tickAcquire premiums =>
    have hheld : s.backend.tryAcquire (f.cfg i).leaseKey (f.id i) (f.cfg i).lease_ttl
        s.now = (false,s.backend.gc s.now) := by
      rw [f.shared_key]
      exact MockBackend.tryAcquire_held hentry hlt
    simp only [perform, hheld] at hs
    cases hs
    exact ⟨⟨expires,hgc,hexp⟩,hbegun,hin⟩
  | market m premium since' =>
    cases premium <;> cases hs <;> exact ⟨⟨expires,hentry,hexp⟩,hbegun,hin⟩
  | submitted | leave | renewTick =>
    cases hs
    exact ⟨⟨expires,hentry,hexp⟩,hbegun,hin⟩
  | renew =>
    cases hs
    exact ⟨hrenew,hbegun,hin⟩
  | advance duration =>
    have hd := htime duration rfl
    cases hs
    exact ⟨⟨expires,hentry,hexp⟩,by show since ≤ s.now+duration; omega,hd⟩

/-- A section of the loop follows one of the same tick, or the call that got the lease. -/
theorem perform_new {f : Fleet ι} {i : ι} {w x : Section} {s s' : Shared ι} {new : List Section}
    {since : ℕ} (hs : perform f i w s = some (s',new)) (hx : x ∈ new)
    (hsince : x.since = some since) :
    w.since = some since ∨
      (∃ premiums, w = .tickRenew premiums ∨ w = .tickAcquire premiums) ∧ since = s.now ∧
        s'.now = s.now ∧ s'.backend f.key = some (f.id i,s.now+(f.cfg i).lease_ttl) := by
  have hloop (premiums : ℕ → Option ℚ)
      (hx : x ∈ submitLoop (f.cfg i).markets premiums s.now) : since = s.now := by
    simp only [submitLoop, List.mem_append, List.mem_mapIdx, List.mem_singleton] at hx
    obtain ⟨k,hk,rfl⟩ | rfl := hx <;> exact (Option.some.inj hsince).symm
  cases w with
  | tick premiums =>
    cases hs
    rw [List.mem_singleton.mp hx] at hsince
    split_ifs at hsince <;> cases hsince
  | tickRenew premiums =>
    simp only [perform] at hs
    split_ifs at hs with hr <;> cases hs
    · refine .inr ⟨⟨premiums,.inl rfl⟩,hloop premiums hx,rfl,?_⟩
      rw [f.shared_key] at hr ⊢
      exact MockBackend.renew_true hr
    · rw [List.mem_singleton.mp hx] at hsince
      cases hsince
  | tickAcquire premiums =>
    cases hs
    split_ifs at hx with ha
    · refine .inr ⟨⟨premiums,.inr rfl⟩,hloop premiums hx,rfl,?_⟩
      rw [f.shared_key] at ha ⊢
      exact MockBackend.tryAcquire_true ha
    · cases hx
  | market m premium since' =>
    cases premium with
    | none =>
      cases hs
      cases hx
    | some p =>
      cases hs
      rw [List.mem_singleton.mp hx] at hsince
      exact .inl hsince
  | submitted | leave | renew | advance =>
    cases hs
    cases hx
  | renewTick =>
    cases hs
    split_ifs at hx
    · rw [List.mem_singleton.mp hx] at hsince
      cases hsince
    · cases hx

/-- A call of `submit` is made in the loop, at the present time. -/
theorem perform_submissions {f : Fleet ι} {i : ι} {w : Section} {s s' : Shared ι}
    {new : List Section} (hs : perform f i w s = some (s',new)) {call : Submission ι}
    (hcall : call ∈ s'.submissions) : call ∈ s.submissions ∨
      ∃ since, w.since = some since ∧ call.caller = i ∧ call.made = s.now ∧
        call.lease = s.backend f.key := by
  cases w with
  | market m premium since =>
    cases premium with
    | none =>
      cases hs
      exact .inl hcall
    | some p =>
      cases hs
      rcases List.mem_cons.mp hcall with rfl | hcall
      · exact .inr ⟨since,rfl,rfl,rfl,by simp only [f.shared_key]⟩
      · exact .inl hcall
  | tickRenew premiums =>
    simp only [perform] at hs
    split_ifs at hs <;> cases hs <;> exact .inl hcall
  | tick | tickAcquire | submitted | leave | renewTick | renew | advance =>
    cases hs
    exact .inl hcall

/-- A step of the run is in time: no time passes beyond the lease of a tick that is still in its
loop, and leases have some length. -/
def InTime (f : Fleet ι) (c : Pool ι Section (Shared ι)) (i : ι) : Prop :=
  ∀ w ws, c.pending i = w :: ws →
    (∀ duration, w = .advance duration → ∀ j since, InLoop c j since →
      c.shared.now+duration < since+(f.cfg j).lease_ttl) ∧
    ((∃ premiums, w = .tickRenew premiums ∨ w = .tickAcquire premiums) → 0 < (f.cfg i).lease_ttl)

/-- Every instance in its loop has the lease. -/
def AllLeased (f : Fleet ι) (c : Pool ι Section (Shared ι)) : Prop :=
  ∀ j since, InLoop c j since → Leased f c.shared j since

theorem step_leased {f : Fleet ι} {c : Pool ι Section (Shared ι)} {i : ι} {w : Section}
    {ws new : List Section} {s : Shared ι} (h : AllLeased f c) (htime : InTime f c i)
    (hp : c.pending i = w :: ws) (hs : perform f i w c.shared = some (s,new)) :
    AllLeased f ⟨s,Function.update c.pending i (new++ws)⟩ := by
  obtain ⟨hadvance,hlength⟩ := htime w ws hp
  have hold (j : ι) (since : ℕ) (hin : InLoop c j since) : Leased f s j since :=
    perform_leased hs (h j since hin) fun duration hw => hadvance duration hw j since hin
  rintro j since ⟨x,hx,hsince⟩
  obtain hwaiting | ⟨rfl,hnew⟩ := Pool.mem_pending_update hp hx
  · exact hold j since ⟨x,hwaiting,hsince⟩
  · obtain hw | ⟨hcall,rfl,hnow,hentry⟩ := perform_new hs hnew hsince
    · exact hold j since ⟨w,by simp [hp],hw⟩
    · have hpos := hlength hcall
      refine ⟨⟨_,hentry,le_rfl⟩,hnow.ge,?_⟩
      show s.now < c.shared.now+(f.cfg j).lease_ttl
      omega

omit [DecidableEq ι] in
theorem Leased.held {f : Fleet ι} {s : Shared ι} {i : ι} {since : ℕ} (h : Leased f s i since)
    {call : Submission ι} (hcaller : call.caller = i) (hmade : call.made = s.now)
    (hlease : call.lease = s.backend f.key) : call.Held f := by
  obtain ⟨⟨expires,hentry,hexp⟩,-,hin⟩ := h
  subst hcaller
  exact ⟨expires,hlease.trans hentry,by omega⟩

/-- Ticks, renewals and time that have not begun yet. -/
def Section.Fresh : Section → Prop
  | .tick _ | .renewTick | .advance _ => True
  | _ => False

/-- Services that have just been started; the backend may hold leases of others. -/
structure Start (c : Pool ι Section (Shared ι)) : Prop where
  fresh : ∀ i, ∀ w ∈ c.pending i, w.Fresh
  submissions : c.shared.submissions = []

omit [DecidableEq ι] in
theorem Start.not_inLoop {c : Pool ι Section (Shared ι)} (h : Start c) (i : ι) (since : ℕ) :
    ¬ InLoop c i since := by
  rintro ⟨w,hw,hsince⟩
  have hfresh := h.fresh i w hw
  cases w <;> first | exact hfresh.elim | cases hsince

/-- In a run in which every loop over the markets ends before the lease its tick got runs out,
no two instances are ever inside the loop, and every call of `submit` is made by an instance that
holds the lease. -/
theorem single_leader (f : Fleet ι) (c : Pool ι Section (Shared ι)) (hc : Start c) (is : List ι)
    (htime : ∀ pre i, pre++[i] <+: is → InTime f (c.run (perform f) pre) i) :
    (∀ i j since since', InLoop (c.run (perform f) is) i since →
      InLoop (c.run (perform f) is) j since' → i = j) ∧
    ∀ call ∈ (c.run (perform f) is).shared.submissions, call.Held f := by
  have hinv : AllLeased f (c.run (perform f) is) ∧
      ∀ call ∈ (c.run (perform f) is).shared.submissions, call.Held f := by
    refine Pool.run_invariant
      (P := fun c => AllLeased f c ∧ ∀ call ∈ c.shared.submissions, call.Held f)
      (R := InTime f) ?_ ⟨?_,?_⟩ htime
    · rintro c i w ws s new ⟨hleased,hheld⟩ htime hp hs
      refine ⟨step_leased hleased htime hp hs,?_⟩
      intro call hcall
      obtain hcall | ⟨since,hw,hcaller,hmade,hlease⟩ := perform_submissions hs hcall
      · exact hheld call hcall
      · exact (hleased i since ⟨w,by simp [hp],hw⟩).held hcaller hmade hlease
    · exact fun j since h => absurd h (hc.not_inLoop j since)
    · intro call hcall
      rw [hc.submissions] at hcall
      cases hcall
  refine ⟨?_,hinv.2⟩
  intro i j since since' hi hj
  obtain ⟨_,hentry,-⟩ := (hinv.1 i since hi).entry
  obtain ⟨_,hentry',-⟩ := (hinv.1 j since' hj).entry
  rw [hentry] at hentry'
  exact f.id_injective (congrArg Prod.fst (Option.some.inj hentry'))

/-- Two instances with one market and a lease of a minute. -/
def twoInstances : Fleet Bool where
  id := fun i => if i then "b" else "a"
  id_injective := by
    intro i j
    cases i <;> cases j <;> simp
  cfg := fun _ => ⟨["btc-usd"],60,"perplex:funding:leader"⟩
  key := "perplex:funding:leader"
  shared_key := fun _ => rfl

/-- Both tick once; a minute passes before the second does. -/
def slowFeed : Pool Bool Section (Shared Bool) where
  shared := ⟨0,fun _ => none,fun _ => false,[]⟩
  pending := fun i =>
    if i then [.advance 60,.tick fun _ => some 1] else [.tick fun _ => some 1]

/-- While the first instance waits a minute for its premium, its lease expires and the second one
gets it: both are in the loop, and the first one submits without the lease. -/
theorem slow_feed_two_leaders :
    let c := slowFeed.run (perform twoInstances) [false,false,true,true,true]
    InLoop c false 0 ∧ InLoop c true 60 ∧
      ∃ call ∈ (c.step (perform twoInstances) false).shared.submissions,
        call.caller = false ∧ call.lease = some ("b",120) := by
  have hfirst : (slowFeed.run (perform twoInstances) [false,false,true,true,true]).pending false =
      [.market "btc-usd" (some 1) 0,.leave 0] := rfl
  have hsecond : (slowFeed.run (perform twoInstances) [false,false,true,true,true]).pending true =
      [.market "btc-usd" (some 1) 60,.leave 60] := rfl
  refine ⟨⟨.leave 0,by rw [hfirst]; simp,rfl⟩,⟨.leave 60,by rw [hsecond]; simp,rfl⟩,?_⟩
  exact ⟨⟨false,"btc-usd",1,60,some ("b",120)⟩,List.mem_singleton.mpr rfl,rfl,rfl⟩

/-- The first instance ticks, and its premium comes in time. -/
def fastFeed : Pool Bool Section (Shared Bool) where
  shared := ⟨0,fun _ => none,fun _ => false,[]⟩
  pending := fun i => if i then [.advance 59] else [.tick fun _ => some 1]

theorem fastFeed_start : Start fastFeed where
  fresh := by
    intro i w hw
    cases i <;> rw [List.mem_singleton.mp hw] <;> trivial
  submissions := rfl

theorem single_leader_fastFeed :
    (fastFeed.run (perform twoInstances) [false,false,true,false]).shared.submissions =
        [⟨false,"btc-usd",1,59,some ("a",60)⟩] ∧
      ∀ call ∈ (fastFeed.run (perform twoInstances) [false,false,true,false]).shared.submissions,
        call.Held twoInstances := by
  -- only the third step takes time, and it takes less than the lease
  have hother (c : Pool Bool Section (Shared Bool)) (i : Bool)
      (h : ∀ duration ws, c.pending i ≠ .advance duration :: ws) : InTime twoInstances c i := by
    rintro w ws hp
    refine ⟨?_,fun _ => show 0 < 60 by decide⟩
    rintro duration rfl
    exact absurd hp (h duration ws)
  have hthird : InTime twoInstances (fastFeed.run (perform twoInstances) [false,false]) true := by
    rintro w ws hp
    refine ⟨?_,fun _ => show 0 < 60 by decide⟩
    rintro duration rfl j since ⟨x,hx,hsince⟩
    obtain ⟨he,-⟩ := List.cons.inj (show [Section.advance 59] = _ from hp)
    cases he
    cases j with
    | true =>
      rw [List.mem_singleton.mp hx] at hsince
      cases hsince
    | false =>
      have hfirst : (fastFeed.run (perform twoInstances) [false,false]).pending false =
          [.market "btc-usd" (some 1) 0,.leave 0] := rfl
      rw [hfirst] at hx
      simp only [List.mem_cons, List.not_mem_nil, or_false] at hx
      obtain rfl | rfl := hx <;> cases hsince <;> exact show 0+59 < 0+60 by decide
  refine ⟨rfl,(single_leader twoInstances fastFeed fastFeed_start _ ?_).2⟩
  refine forall_request_cons (hother _ _ ?_) (forall_request_cons (hother _ _ ?_)
    (forall_request_cons hthird (forall_request_cons (hother _ _ ?_) forall_request_nil)))
  · intro duration ws h
    cases h
  · intro duration ws h
    cases h
  · intro duration ws h
    cases h

end Perplex.Funding
