import Mathlib.Data.List.Pairwise
import Perplex.FundingLease
import Perplex.QuoteAgent

/-! The quote agents of one account (`run_quote_agent` and `market_loop` of `quote.rs`). An instance
acquires the lease of its market once, and renews it before each iteration; while an iteration waits
for its answers nothing renews the lease, which may run out and be taken by another instance. -/
namespace Perplex.Cli.Lease

def leaseKey (marketId : String) : String := "perplex:quote-agent:lease:"++marketId

/-- The loop of a market in some process: its token, and what its iterations will meet. -/
structure Instance (F : Type) where
  token : String
  marketId : String
  config : QuoteAgentConfig F
  leaseTtl : ℕ
  ticks : ℕ → Tick F

/-- Tokens are random and distinct. -/
structure Fleet (ι F : Type) where
  loop : ι → Instance F
  token_injective : Function.Injective fun i => (loop i).token

/-- An iteration that got its lease: whose, and when. -/
structure Iterates (ι : Type) where
  caller : ι
  since : ℕ
deriving DecidableEq

/-- A call to the edge: by whom, in the iteration begun when, and when it was made. -/
structure Called (ι : Type) where
  caller : ι
  since : ℕ
  made : ℕ
  call : EdgeCall

/-- What happened last comes first. -/
structure Shared (ι F : Type) where
  now : ℕ
  backend : Funding.MockBackend
  agents : ι → Agent F
  iterations : List (Iterates ι)
  calls : List (Called ι)

/-- What an instance does between two awaits. -/
inductive Section where
  | acquire
  /-- The renewal before the iteration of a number, which begins at once. -/
  | renew (n : ℕ)
  | call (c : EdgeCall) (since : ℕ)
  /-- The iteration of a number has ended, with success or not; the poll interval goes by. -/
  | ended (n : ℕ)
  /-- Time passes. -/
  | advance (duration : ℕ)

section Steps
variable {ι F : Type} [DecidableEq ι] [F64 F] (f : Fleet ι F)

/-- The key of an instance. -/
def Fleet.key (i : ι) : String := leaseKey (f.loop i).marketId

def perform (i : ι) : Section → Shared ι F → Option (Shared ι F × List Section)
  | .acquire, s =>
    let (acquired,backend) :=
      s.backend.tryAcquire (f.key i) (f.loop i).token (f.loop i).leaseTtl s.now
    some ({ s with backend },if acquired then [.renew 0] else [])
  | .renew n, s =>
    let (renewed,backend) := s.backend.renew (f.key i) (f.loop i).token (f.loop i).leaseTtl s.now
    if renewed then
      let agent := s.agents i
      let marketId := (f.loop i).marketId
      let config := (f.loop i).config
      let t := (f.loop i).ticks n
      some ({ s with
          backend
          agents := Function.update s.agents i (agent.step marketId config (.tick t))
          iterations := ⟨i,s.now⟩ :: s.iterations },
        ((runQuoteIteration marketId config t agent.kill agent.state).calls.map
          fun c => .call c s.now)++[.ended n])
    -- another instance has taken over
    else some ({ s with backend },[])
  | .call c since, s => some ({ s with calls := ⟨i,since,s.now,c⟩ :: s.calls },[])
  | .ended n, s => some (s,[.renew (n+1)])
  | .advance duration, s => some ({ s with now := s.now+duration },[])

end Steps

/-- Instances that have not acquired anything yet, and others that only let time pass. -/
structure Start {ι F : Type} (f : Fleet ι F) (c : Pool ι Section (Shared ι F)) : Prop where
  pending : ∀ i, c.pending i = [.acquire] ∨ ∀ w ∈ c.pending i, ∃ duration, w = .advance duration
  tokens : ∀ i key expires, c.shared.backend key ≠ some ((f.loop i).token,expires)
  iterations : c.shared.iterations = []
  calls : c.shared.calls = []

section Backend
variable {b : Funding.MockBackend} {key token : String} {ttl now : ℕ}

theorem gc_eq_some {k : String} {e : String × ℕ} (h : b.gc now k = some e) :
    b k = some e ∧ now < e.2 := by
  unfold Funding.MockBackend.gc at h
  obtain ⟨hb, hexp⟩ := Option.filter_eq_some_iff.mp h
  exact ⟨hb,by simpa using hexp⟩

/-- Besides what has expired, an acquisition changes only a key that nobody holds. -/
theorem tryAcquire_cases (k : String) :
    (b.tryAcquire key token ttl now).2 k = b.gc now k ∨ k = key ∧ b.gc now k = none ∧
      (b.tryAcquire key token ttl now).2 k = some (token,now+ttl) := by
  unfold Funding.MockBackend.tryAcquire
  cases hg : b.gc now key with
  | some e => exact .inl (by simp [hg])
  | none =>
    by_cases hk : k = key
    · subst hk
      exact .inr ⟨rfl,hg,by simp [hg]⟩
    · exact .inl (by simp [hg, Function.update_of_ne hk])

/-- And a renewal only a key that its token holds. -/
theorem renew_cases (k : String) :
    (b.renew key token ttl now).2 k = b.gc now k ∨ k = key ∧
      (∃ expires, b.gc now k = some (token,expires)) ∧
        (b.renew key token ttl now).2 k = some (token,now+ttl) := by
  unfold Funding.MockBackend.renew
  cases hg : b.gc now key with
  | none => exact .inl (by simp [hg])
  | some e =>
    obtain ⟨owner, expires⟩ := e
    by_cases howner : owner = token
    · subst howner
      by_cases hk : k = key
      · subst hk
        exact .inr ⟨rfl,⟨expires,hg⟩,by simp [hg]⟩
      · exact .inl (by simp [hg, Function.update_of_ne hk])
    · exact .inl (by simp [hg, howner])

theorem renew_held_before (h : (b.renew key token ttl now).1 = true) :
    ∃ expires, b key = some (token,expires) := by
  unfold Funding.MockBackend.renew at h
  cases hg : b.gc now key with
  | none => simp [hg] at h
  | some e =>
    obtain ⟨owner, expires⟩ := e
    by_cases howner : owner = token
    · subst howner
      exact ⟨expires,(gc_eq_some hg).1⟩
    · simp [hg, howner] at h

end Backend

section Perform
variable {ι F : Type} [DecidableEq ι] [F64 F] {f : Fleet ι F} {i j : ι} {w : Section}
  {s s' : Shared ι F} {new : List Section}

omit [DecidableEq ι] [F64 F] in
/-- An entry of the backend is the lease of one instance. -/
theorem Fleet.eq_of_entry {e : Option (String × ℕ)} {expires expires' : ℕ}
    (hi : e = some ((f.loop i).token,expires)) (hj : e = some ((f.loop j).token,expires')) :
    i = j :=
  f.token_injective (congrArg Prod.fst (Option.some.inj (hi.symm.trans hj)))

/-- A section leaves the leases alone, or forgets those that have expired and may then give the
instance a new one: if it held one before, or if it acquires one that nobody holds. -/
theorem perform_backend (hs : perform f i w s = some (s',new)) (k : String) :
    s'.backend k = s.backend k ∨ s'.backend k = s.backend.gc s.now k ∨
      k = f.key i ∧ s'.backend k = some ((f.loop i).token,s.now+(f.loop i).leaseTtl) ∧
        (w = .acquire ∧ s.backend.gc s.now k = none ∨
          ∃ expires, s.backend.gc s.now k = some ((f.loop i).token,expires)) := by
  cases w with
  | acquire =>
    cases hs
    rcases tryAcquire_cases (b := s.backend) k with he | ⟨hk, hnone, he⟩
    · exact .inr (.inl he)
    · exact .inr (.inr ⟨hk,he,.inl ⟨rfl,hnone⟩⟩)
  | renew n =>
    have hcases : s'.backend = (s.backend.renew (f.key i) (f.loop i).token
        (f.loop i).leaseTtl s.now).2 := by
      simp only [perform] at hs
      split_ifs at hs <;> cases hs <;> rfl
    rw [hcases]
    rcases renew_cases (b := s.backend) k with he | ⟨hk, hheld, he⟩
    · exact .inr (.inl he)
    · exact .inr (.inr ⟨hk,he,.inr hheld⟩)
  | call | ended | advance =>
    cases hs
    exact .inl rfl

theorem perform_now (hs : perform f i w s = some (s',new)) : s.now ≤ s'.now := by
  cases w with
  | renew n =>
    simp only [perform] at hs
    split_ifs at hs <;> cases hs <;> exact le_rfl
  | acquire | call | ended =>
    cases hs
    exact le_rfl
  | advance duration =>
    cases hs
    exact Nat.le_add_right _ _

/-- The instance has no lease. -/
def Lost (f : Fleet ι F) (s : Shared ι F) (i : ι) : Prop :=
  ∀ expires, s.backend (f.key i) ≠ some ((f.loop i).token,expires)

/-- An iteration begins with a lease that the instance has had and now has anew. -/
theorem perform_iterations (hs : perform f i w s = some (s',new)) :
    s'.iterations = s.iterations ∨ s'.iterations = ⟨i,s.now⟩ :: s.iterations ∧ s'.now = s.now ∧
      ¬ Lost f s i ∧ s'.backend (f.key i) = some ((f.loop i).token,s.now+(f.loop i).leaseTtl) := by
  cases w with
  | renew n =>
    simp only [perform] at hs
    split_ifs at hs with hr <;> cases hs
    · obtain ⟨expires, hheld⟩ := renew_held_before hr
      exact .inr ⟨rfl,rfl,fun hlost => hlost expires hheld,Funding.MockBackend.renew_true hr⟩
    · exact .inl rfl
  | acquire | call | ended | advance =>
    cases hs
    exact .inl rfl

theorem perform_calls (hs : perform f i w s = some (s',new)) : s'.calls = s.calls ∨
    ∃ c since, w = .call c since ∧ s'.calls = ⟨i,since,s.now,c⟩ :: s.calls := by
  cases w with
  | call c since =>
    cases hs
    exact .inr ⟨c,since,rfl,rfl⟩
  | renew n =>
    simp only [perform] at hs
    split_ifs at hs <;> cases hs <;> exact .inl rfl
  | acquire | ended | advance =>
    cases hs
    exact .inl rfl

/-- Nothing acquires again, and the calls that come are those of the iteration that begins. -/
theorem perform_new (hs : perform f i w s = some (s',new)) {x : Section} (hx : x ∈ new) :
    x ≠ .acquire ∧ ∀ c since, x = .call c since → ⟨i,since⟩ ∈ s'.iterations := by
  cases w with
  | acquire =>
    cases hs
    split_ifs at hx
    · obtain rfl := List.mem_singleton.mp hx
      exact ⟨nofun,nofun⟩
    · cases hx
  | renew n =>
    simp only [perform] at hs
    split_ifs at hs with hr <;> cases hs
    · rcases List.mem_append.mp hx with hx | hx
      · obtain ⟨c, -, rfl⟩ := List.mem_map.mp hx
        refine ⟨nofun,?_⟩
        rintro _ _ ⟨⟩
        exact List.mem_cons_self
      · obtain rfl := List.mem_singleton.mp hx
        exact ⟨nofun,nofun⟩
    · cases hx
  | ended n =>
    cases hs
    obtain rfl := List.mem_singleton.mp hx
    exact ⟨nofun,nofun⟩
  | call | advance =>
    cases hs
    cases hx

/-- Only its own acquisition gives an instance a lease that it has not got. -/
theorem Lost.perform (h : Lost f s j) (hs : perform f i w s = some (s',new))
    (hne : w = .acquire → i ≠ j) : Lost f s' j := by
  intro expires he
  rcases perform_backend hs (f.key j) with hk | hk | ⟨hk, hnew, hwhy⟩
  · exact h expires (hk.symm.trans he)
  · exact h expires (gc_eq_some (hk.symm.trans he)).1
  · have hij : i = j := Fleet.eq_of_entry hnew he
    rcases hwhy with ⟨hw, -⟩ | ⟨e, hheld⟩
    · exact hne hw hij
    · subst hij
      exact h e (gc_eq_some hheld).1

/-- The lease of an iteration: the instance has it, for at least its time from then on, or that
time is over and the instance has lost it. -/
def Settled (f : Fleet ι F) (s : Shared ι F) (x : Iterates ι) : Prop :=
  (∃ expires, s.backend (f.key x.caller) = some ((f.loop x.caller).token,expires) ∧
    x.since+(f.loop x.caller).leaseTtl ≤ expires) ∨
  Lost f s x.caller ∧ x.since+(f.loop x.caller).leaseTtl ≤ s.now

theorem Settled.perform {x : Iterates ι} (h : Settled f s x) (hpast : x.since ≤ s.now)
    (hs : perform f i w s = some (s',new)) (hne : w = .acquire → i ≠ x.caller) :
    Settled f s' x := by
  have hnow := perform_now hs
  rcases h with ⟨expires, hentry, hexp⟩ | ⟨hlost, hover⟩
  · rcases perform_backend hs (f.key x.caller) with hk | hk | ⟨hk, hnew, hwhy⟩
    · exact .inl ⟨expires,hk.trans hentry,hexp⟩
    · by_cases hlive : s.now < expires
      · exact .inl ⟨expires,hk.trans (Funding.MockBackend.gc_eq hentry hlive),hexp⟩
      · refine .inr ⟨?_,by omega⟩
        intro e he
        have hgc := gc_eq_some (hk.symm.trans he)
        obtain ⟨-, rfl⟩ := Prod.mk.inj (Option.some.inj (hentry.symm.trans hgc.1))
        exact hlive hgc.2
    · rcases hwhy with ⟨hw, hnone⟩ | ⟨e, hheld⟩
      · -- somebody else acquires it, as it has expired
        have hdead : ¬ s.now < expires := by
          intro hlive
          rw [Funding.MockBackend.gc_eq hentry hlive] at hnone
          cases hnone
        refine .inr ⟨?_,by omega⟩
        intro e he
        exact hne hw (Fleet.eq_of_entry hnew he)
      · obtain rfl : x.caller = i := Fleet.eq_of_entry hentry (gc_eq_some hheld).1
        exact .inl ⟨_,hnew,by omega⟩
  · exact .inr ⟨hlost.perform hs hne,by omega⟩

end Perform

section Runs
variable {ι F : Type} [DecidableEq ι] [F64 F] (f : Fleet ι F)

/-- Two instances of one market. -/
def Rivals (i j : ι) : Prop := (f.loop i).marketId = (f.loop j).marketId ∧ i ≠ j

/-- An instance that has still to acquire its lease. -/
structure Fresh (c : Pool ι Section (Shared ι F)) (i : ι) : Prop where
  pending : c.pending i = [.acquire]
  token : ∀ key expires, c.shared.backend key ≠ some ((f.loop i).token,expires)
  iterations : ∀ x ∈ c.shared.iterations, x.caller ≠ i

/-- Once a market has gone over to another instance, the one before has lost it for good. -/
structure Invariant (c : Pool ι Section (Shared ι F)) : Prop where
  fresh : ∀ i, .acquire ∈ c.pending i → Fresh f c i
  past : ∀ x ∈ c.shared.iterations, x.since ≤ c.shared.now
  settled : ∀ x ∈ c.shared.iterations, Settled f c.shared x
  handed : c.shared.iterations.Pairwise fun x y => Rivals f x.caller y.caller →
    y.since+(f.loop y.caller).leaseTtl ≤ x.since ∧ Lost f c.shared y.caller
  terms : ∀ x y z, [x,y,z].Sublist c.shared.iterations →
    ¬ (Rivals f y.caller z.caller ∧ x.caller = z.caller)
  pending : ∀ i call since, .call call since ∈ c.pending i → ⟨i,since⟩ ∈ c.shared.iterations
  calls : ∀ x ∈ c.shared.calls, ⟨x.caller,x.since⟩ ∈ c.shared.iterations ∧ x.since ≤ x.made ∧
    x.made ≤ c.shared.now
  order : c.shared.calls.Pairwise fun x y => y.made ≤ x.made

variable {f} {c : Pool ι Section (Shared ι F)} {i : ι} {w : Section} {ws new : List Section}
  {s' : Shared ι F}

omit [DecidableEq ι] [F64 F] in
/-- An instance that acquires has not iterated. -/
theorem Invariant.not_acquired (h : Invariant f c) (hp : c.pending i = w :: ws) {x : Iterates ι}
    (hx : x ∈ c.shared.iterations) : w = .acquire → i ≠ x.caller := by
  rintro rfl he
  exact (h.fresh i (by simp [hp])).iterations x hx he.symm

theorem Invariant.step_fresh (h : Invariant f c) (hp : c.pending i = w :: ws)
    (hs : perform f i w c.shared = some (s',new)) (j : ι)
    (hj : .acquire ∈ Function.update c.pending i (new++ws) j) :
    Fresh f ⟨s', Function.update c.pending i (new++ws)⟩ j := by
  by_cases hji : j = i
  · -- nothing is left of an instance that acquires but what follows
    subst hji
    rw [Function.update_self] at hj
    rcases List.mem_append.mp hj with hj | hj
    · exact absurd rfl (perform_new hs hj).1
    · have hpending := (h.fresh j (hp ▸ List.mem_cons_of_mem _ hj)).pending
      obtain ⟨-, rfl⟩ := List.cons.inj (hp.symm.trans hpending)
      cases hj
  · rw [Function.update_of_ne hji] at hj
    obtain ⟨hpending, htoken, hiterations⟩ := h.fresh j hj
    refine ⟨(Function.update_of_ne hji _ _).trans hpending,?_,?_⟩
    · intro key expires he
      rcases perform_backend hs key with hk | hk | ⟨-, hnew, -⟩
      · exact htoken key expires (hk.symm.trans he)
      · exact htoken key expires (gc_eq_some (hk.symm.trans he)).1
      · exact hji (Fleet.eq_of_entry he hnew)
    · intro x hx
      rcases perform_iterations hs with he | ⟨he, -, -, -⟩
      · exact hiterations x (he ▸ hx)
      · rcases List.mem_cons.mp (he ▸ hx) with rfl | hx
        · exact fun hij => hji hij.symm
        · exact hiterations x hx

theorem Invariant.step_handed (h : Invariant f c) (hp : c.pending i = w :: ws)
    (hs : perform f i w c.shared = some (s',new)) :
    s'.iterations.Pairwise fun x y => Rivals f x.caller y.caller →
      y.since+(f.loop y.caller).leaseTtl ≤ x.since ∧ Lost f s' y.caller := by
  have hold : c.shared.iterations.Pairwise fun x y => Rivals f x.caller y.caller →
      y.since+(f.loop y.caller).leaseTtl ≤ x.since ∧ Lost f s' y.caller := by
    refine h.handed.imp_of_mem ?_
    intro x y _ hy hxy hrivals
    obtain ⟨hover, hlost⟩ := hxy hrivals
    exact ⟨hover,hlost.perform hs (h.not_acquired hp hy)⟩
  rcases perform_iterations hs with he | ⟨he, hnow, -, hentry⟩
  · rwa [he]
  · rw [he]
    refine List.pairwise_cons.mpr ⟨?_,hold⟩
    intro y hy hrivals
    -- the key is the newcomer's now
    have hlost : Lost f s' y.caller := by
      intro expires hheld
      have hkey : f.key i = f.key y.caller := congrArg leaseKey hrivals.1
      rw [hkey] at hentry
      exact hrivals.2 (Fleet.eq_of_entry hentry hheld)
    refine ⟨?_,hlost⟩
    rcases (h.settled y hy).perform (h.past y hy) hs (h.not_acquired hp hy) with
      ⟨expires, hheld, -⟩ | ⟨-, hover⟩
    · exact absurd hheld (hlost expires)
    · exact hover.trans hnow.le

theorem Invariant.step_terms (h : Invariant f c) (hs : perform f i w c.shared = some (s',new))
    {x y z : Iterates ι} (hsub : [x,y,z].Sublist s'.iterations) :
    ¬ (Rivals f y.caller z.caller ∧ x.caller = z.caller) := by
  rcases perform_iterations hs with he | ⟨he, -, hheld, -⟩
  · exact h.terms x y z (he ▸ hsub)
  · rw [he] at hsub
    cases hsub with
    | cons _ hsub => exact h.terms x y z hsub
    | cons_cons _ hsub =>
      rintro ⟨hrivals, hback⟩
      have hpair := List.pairwise_cons.mp (h.handed.sublist hsub)
      have hlost := (hpair.1 z List.mem_cons_self hrivals).2
      rw [← hback] at hlost
      exact hheld hlost

theorem Invariant.step (h : Invariant f c) (hp : c.pending i = w :: ws)
    (hs : perform f i w c.shared = some (s',new)) :
    Invariant f ⟨s', Function.update c.pending i (new++ws)⟩ := by
  have hnow := perform_now hs
  have hiterations (x : Iterates ι) (hx : x ∈ s'.iterations) : x ∈ c.shared.iterations ∨
      x.since = c.shared.now ∧
        s'.backend (f.key x.caller) =
          some ((f.loop x.caller).token,x.since+(f.loop x.caller).leaseTtl) := by
    rcases perform_iterations hs with he | ⟨he, -, -, hentry⟩
    · exact .inl (he ▸ hx)
    · rcases List.mem_cons.mp (he ▸ hx) with rfl | hx
      · exact .inr ⟨rfl,hentry⟩
      · exact .inl hx
  have hkept (x : Iterates ι) (hx : x ∈ c.shared.iterations) : x ∈ s'.iterations := by
    rcases perform_iterations hs with he | ⟨he, -⟩
    · exact he ▸ hx
    · exact he ▸ List.mem_cons_of_mem _ hx
  refine ⟨h.step_fresh hp hs,?_,?_,h.step_handed hp hs,fun x y z => h.step_terms hs,?_,?_,?_⟩
  · intro x hx
    rcases hiterations x hx with hx | ⟨hsince, -⟩
    · exact (h.past x hx).trans hnow
    · exact hsince.trans_le hnow
  · intro x hx
    rcases hiterations x hx with hx | ⟨-, hentry⟩
    · exact (h.settled x hx).perform (h.past x hx) hs (h.not_acquired hp hx)
    · exact .inl ⟨_,hentry,le_rfl⟩
  · intro j call since hcall
    rcases Pool.mem_pending_update hp hcall with hold | ⟨rfl, hnew⟩
    · exact hkept _ (h.pending j call since hold)
    · exact (perform_new hs hnew).2 call since rfl
  · intro x hx
    rcases perform_calls hs with he | ⟨call, since, rfl, he⟩
    · obtain ⟨hbegun, hsince, hmade⟩ := h.calls x (he ▸ hx)
      exact ⟨hkept _ hbegun,hsince,hmade.trans hnow⟩
    · rcases List.mem_cons.mp (he ▸ hx) with rfl | hx
      · have hbegun := h.pending i call since (by simp [hp])
        exact ⟨hkept _ hbegun,h.past _ hbegun,hnow⟩
      · obtain ⟨hbegun, hsince, hmade⟩ := h.calls x hx
        exact ⟨hkept _ hbegun,hsince,hmade.trans hnow⟩
  · rcases perform_calls hs with he | ⟨call, since, -, he⟩
    · exact he ▸ h.order
    · rw [he]
      exact List.pairwise_cons.mpr ⟨fun y hy => (h.calls y hy).2.2,h.order⟩

omit [DecidableEq ι] [F64 F] in
theorem Start.invariant (h : Start f c) : Invariant f c where
  fresh := by
    intro i hi
    rcases h.pending i with hp | hp
    · refine ⟨hp,h.tokens i,?_⟩
      intro x hx
      rw [h.iterations] at hx
      cases hx
    · obtain ⟨duration, he⟩ := hp _ hi
      cases he
  past := by simp [h.iterations]
  settled := by simp [h.iterations]
  handed := by simp [h.iterations]
  terms := by simp [h.iterations]
  pending := by
    intro i call since hcall
    rcases h.pending i with hp | hp
    · simp [hp] at hcall
    · obtain ⟨duration, he⟩ := hp _ hcall
      cases he
  calls := by simp [h.calls]
  order := by simp [h.calls]

theorem run_lease_invariant (h : Start f c) (is : List ι) :
    Invariant f (c.run (perform f) is) := by
  refine Pool.run_invariant (P := Invariant f) (R := fun _ _ => True) ?_ h.invariant
    fun _ _ _ => trivial
  exact fun c i w ws s new hc _ hp hs => hc.step hp hs

/-- A market that has gone from one instance to another does not go back, and it goes only when
the leases of all iterations of the first are over. Calls to the edge are made in iterations that
got their lease; one that is made before that lease is over comes after the leases of all the others
that have called. -/
theorem single_quoter (f : Fleet ι F) (c : Pool ι Section (Shared ι F)) (hc : Start f c)
    (is : List ι) :
    let s := (c.run (perform f) is).shared
    (s.iterations.Pairwise fun x y => Rivals f x.caller y.caller →
        y.since+(f.loop y.caller).leaseTtl ≤ x.since) ∧
      (∀ x y z, [x,y,z].Sublist s.iterations →
        ¬ (Rivals f y.caller z.caller ∧ x.caller = z.caller)) ∧
      (∀ x ∈ s.calls, ⟨x.caller,x.since⟩ ∈ s.iterations ∧ x.since ≤ x.made) ∧
      s.calls.Pairwise fun x y => Rivals f x.caller y.caller →
        x.made < x.since+(f.loop x.caller).leaseTtl →
          y.since+(f.loop y.caller).leaseTtl ≤ x.since := by
  have h := run_lease_invariant hc is
  refine ⟨?_,h.terms,?_,?_⟩
  · exact h.handed.imp fun hxy hrivals => (hxy hrivals).1
  · intro x hx
    obtain ⟨hbegun, hsince, -⟩ := h.calls x hx
    exact ⟨hbegun,hsince⟩
  · -- of two iterations that both called, one was handed the market by the other
    let Apart (x y : Iterates ι) : Prop := Rivals f x.caller y.caller →
      y.since+(f.loop y.caller).leaseTtl ≤ x.since ∨ x.since+(f.loop x.caller).leaseTtl ≤ y.since
    have hsymm : Std.Symm Apart :=
      ⟨fun x y hxy hyx => (hxy ⟨hyx.1.symm,hyx.2.symm⟩).symm⟩
    have hapart : (c.run (perform f) is).shared.iterations.Pairwise Apart :=
      h.handed.imp fun hxy hrivals => .inl (hxy hrivals).1
    refine h.order.imp_of_mem ?_
    intro x y hx hy horder hrivals htime
    obtain ⟨hx, -, -⟩ := h.calls x hx
    obtain ⟨hy, hsince, -⟩ := h.calls y hy
    have hne : (⟨x.caller,x.since⟩ : Iterates ι) ≠ ⟨y.caller,y.since⟩ :=
      fun he => hrivals.2 (congrArg Iterates.caller he)
    rcases hapart.forall hx hy hne hrivals with hover | hover
    · exact hover
    · dsimp only at hover
      omega

end Runs

/-- Two instances of one market with a lease of half a minute, and a third that is another's. -/
def twoLoops : Fleet (Fin 3) Fraction where
  loop i := {
    token := ["a", "b", "c"].get i
    marketId := ["btc-usd", "btc-usd", "eth-usd"].get i
    config := defaultConfig
    leaseTtl := 30
    ticks := fun n => ⟨n, some ⟨100⟩, some ⟨⟨0⟩, ⟨0⟩⟩, true, true, some "bid", some "ask", 0, 1⟩ }
  token_injective := by
    intro i j
    revert i j
    decide

/-- The third only lets time pass. -/
def slowEdge : Pool (Fin 3) Section (Shared (Fin 3) Fraction) where
  shared := ⟨0, fun _ => none,
    fun _ => ⟨MarketState.new defaultConfig.volWindow, ⟨⟨500⟩, false⟩, []⟩, [], []⟩
  pending i := if i = 2 then [.advance 30] else [.acquire]

theorem slowEdge_start : Start twoLoops slowEdge where
  pending := by
    intro i
    by_cases hi : i = 2
    · subst hi
      exact .inr fun w hw => ⟨30,List.mem_singleton.mp hw⟩
    · exact .inl (if_neg hi)
  tokens := nofun
  iterations := rfl
  calls := rfl

/-- The edge takes half a minute to answer the first instance; the second takes over, and then both
place their bids. -/
theorem single_quoter_slowEdge :
    let s := (slowEdge.run (perform twoLoops) [0, 0, 0, 2, 1, 1, 1, 0]).shared
    s.iterations = [⟨1, 30⟩, ⟨0, 0⟩] ∧
      s.calls.map (fun x => (x.caller,x.made)) = [(0,30), (1,30), (0,0)] ∧
      ∀ x ∈ s.calls, ⟨x.caller,x.since⟩ ∈ s.iterations ∧ x.since ≤ x.made :=
  ⟨by decide +kernel,by decide +kernel,
    (single_quoter twoLoops slowEdge slowEdge_start _).2.2.1⟩

end Perplex.Cli.Lease
