import Perplex.Interleaving
import Perplex.SessionModel

/-!
Orders that are verified side by side while sessions are registered and revoked. The chain looks
a session up, checks a copy of it, and debits the session later, in sections between which other
requests run. The debit itself checks activity, expiry and cap again, but not the owner.
-/

namespace Perplex.SessionKeys

inductive Section where
  /-- `verify_order_chain` is entered, up to the lookup. -/
  | lookup (o : Order)
  /-- Its checks on the copy it got. -/
  | check (o : Order) (session_pub : String) (session : Session)
  /-- Its debit, and its return. -/
  | consume (o : Order) (session_pub : String)
  | register (session_pub owner : String) (expires_at_secs max_notional_usdc : ℕ)
  | revoke (session_pub : String)
  /-- The system clock moves. -/
  | clock (now_secs : ℕ)
deriving DecidableEq

/-- A call that returned `Ok`: the key, the session it found at its debit and the time. -/
structure Debit (ι : Type) where
  call : ι
  order : Order
  key : String
  session : Option Session
  now_secs : ℕ
deriving DecidableEq

inductive Event (ι : Type) where
  | registered (key : String)
  | debited (d : Debit ι)
  | failed (call : ι) (order : Order) (e : SessionError)
deriving DecidableEq

/-- The registry, the clock, and what has happened, the latest first. -/
structure Shared (ι : Type) where
  registry : InMemoryRegistry
  now_secs : ℕ
  log : List (Event ι)

variable {ι : Type}

def Shared.record (s : Shared ι) (e : Event ι) : Shared ι := { s with log := e :: s.log }

def perform (ext : Recovery) (i : ι) : Section → Shared ι → Option (Shared ι × List Section)
  | .lookup o, s =>
    match ext.recoverSigner o.digest o.signature_hex with
    | .error e => some (s.record (.failed i o e),[])
    | .ok session_pub =>
      match s.registry.lookup session_pub with
      | none => some (s.record (.failed i o .notRegistered),[])
      | some session => some (s,[.check o session_pub session])
  | .check o session_pub session, s =>
    match checkSession session o.jwt_caller_address s.now_secs with
    | .error e => some (s.record (.failed i o e),[])
    | .ok () => some (s,[.consume o session_pub])
  | .consume o session_pub, s =>
    match s.registry.consume session_pub o.notional_usdc s.now_secs with
    | .error e => some (s.record (.failed i o e),[])
    | .ok (_,registry) =>
      let d := ⟨i,o,session_pub.toLower,s.registry.lookup session_pub,s.now_secs⟩
      some ({ s with registry }.record (.debited d),[])
  | .register session_pub owner expires_at_secs max_notional_usdc, s =>
    let registry := s.registry.register session_pub owner expires_at_secs max_notional_usdc
    some ({ s with registry }.record (.registered session_pub.toLower),[])
  | .revoke session_pub, s => some ({ s with registry := s.registry.revoke session_pub },[])
  | .clock now_secs, s => some ({ s with now_secs },[])

/-- The amounts debited of a key since it was last registered. -/
def debits (key : String) : List (Event ι) → ℕ
  | [] => 0
  | .registered k :: log => if k = key then 0 else debits key log
  | .debited d :: log => (if d.key = key then d.order.notional_usdc else 0)+debits key log
  | .failed .. :: log => debits key log

/-- What is debited of a key since it was registered is what its session has spent, within the
cap; a key that is not in the registry was never debited. -/
def Accounted (s : Shared ι) (key : String) : Prop :=
  match s.registry key with
  | none => debits key s.log = 0
  | some session => session.spent_notional_usdc = debits key s.log ∧
    session.spent_notional_usdc ≤ session.max_notional_usdc

/-- The debited session was active and had not expired. -/
def Debit.Live (d : Debit ι) : Prop :=
  ∃ session, d.session = some session ∧ session.active = true ∧
    d.now_secs < session.expires_at_secs

/-- It was owned by the caller, ignoring letter case. -/
def Debit.Owned (d : Debit ι) : Prop :=
  ∃ session, d.session = some session ∧
    session.owner.toLower = d.order.jwt_caller_address.toLower

/-- The debit of a section `consume`: the session it found, and the session after it. -/
structure Debited (i : ι) (o : Order) (session_pub : String) (s s' : Shared ι)
    (session : Session) : Prop where
  found : s.registry session_pub.toLower = some session
  active : session.active = true
  unexpired : s.now_secs < session.expires_at_secs
  capped : session.spent_notional_usdc+o.notional_usdc ≤ session.max_notional_usdc
  registry : s'.registry = Function.update s.registry session_pub.toLower
    (some { session with spent_notional_usdc := session.spent_notional_usdc+o.notional_usdc })
  log : s'.log = .debited ⟨i,o,session_pub.toLower,some session,s.now_secs⟩ :: s.log

/-- A section leaves the registry alone, or debits, registers or revokes. -/
theorem perform_cases {ext : Recovery} {i : ι} {w : Section} {s s' : Shared ι}
    {new : List Section} (hs : perform ext i w s = some (s',new)) :
    (s'.registry = s.registry ∧ (s'.log = s.log ∨ ∃ o e, s'.log = .failed i o e :: s.log)) ∨
    (∃ o session_pub session, w = .consume o session_pub ∧ Debited i o session_pub s s' session) ∨
    (∃ session_pub owner expires cap, w = .register session_pub owner expires cap ∧
      new = [] ∧ s'.registry = s.registry.register session_pub owner expires cap ∧
      s'.log = .registered session_pub.toLower :: s.log) ∨
    (∃ session_pub, s'.registry = s.registry.revoke session_pub ∧ s'.log = s.log) := by
  cases w with
  | lookup o =>
    simp only [perform] at hs
    split at hs
    · cases hs
      exact .inl ⟨rfl,.inr ⟨o,_,rfl⟩⟩
    · split at hs
      · cases hs
        exact .inl ⟨rfl,.inr ⟨o,_,rfl⟩⟩
      · cases hs
        exact .inl ⟨rfl,.inl rfl⟩
  | check o session_pub session =>
    simp only [perform] at hs
    split at hs
    · cases hs
      exact .inl ⟨rfl,.inr ⟨o,_,rfl⟩⟩
    · cases hs
      exact .inl ⟨rfl,.inl rfl⟩
  | consume o session_pub =>
    simp only [perform] at hs
    split at hs
    · cases hs
      exact .inl ⟨rfl,.inr ⟨o,_,rfl⟩⟩
    · next spent registry hc =>
      cases hs
      obtain ⟨session,hget,hact,hexp,-,hcap,-,rfl⟩ := InMemoryRegistry.consume_eq_ok.mp hc
      refine .inr (.inl ⟨o,session_pub,session,rfl,hget,hact,hexp,hcap,rfl,?_⟩)
      simp only [Shared.record, InMemoryRegistry.lookup, hget]
  | register session_pub owner expires cap =>
    cases hs
    exact .inr (.inr (.inl ⟨session_pub,owner,expires,cap,rfl,rfl,rfl,rfl⟩))
  | revoke session_pub =>
    cases hs
    exact .inr (.inr (.inr ⟨session_pub,rfl,rfl⟩))
  | clock now =>
    cases hs
    exact .inl ⟨rfl,.inl rfl⟩

/-- What a section puts in front of its call: the checks on what was looked up, or the debit once
they have passed. -/
theorem perform_new {ext : Recovery} {i : ι} {w x : Section} {s s' : Shared ι}
    {new : List Section} (hs : perform ext i w s = some (s',new)) (hx : x ∈ new) :
    (∃ o session_pub session, x = .check o session_pub session ∧
      s.registry session_pub.toLower = some session) ∨
    (∃ o session_pub session, w = .check o session_pub session ∧ x = .consume o session_pub ∧
      session.owner.toLower = o.jwt_caller_address.toLower) := by
  cases w with
  | lookup o =>
    simp only [perform] at hs
    split at hs
    · cases hs
      cases hx
    · split at hs
      · cases hs
        cases hx
      · next session hget =>
        cases hs
        exact .inl ⟨o,_,session,List.mem_singleton.mp hx,hget⟩
  | check o session_pub session =>
    simp only [perform] at hs
    split at hs
    · cases hs
      cases hx
    · next hcheck =>
      cases hs
      simp only [checkSession, chain_ok_iff, ensure_eq_ok, and_true, exists_const] at hcheck
      exact .inr ⟨o,session_pub,session,rfl,List.mem_singleton.mp hx,hcheck.2.2⟩
  | consume o session_pub =>
    simp only [perform] at hs
    split at hs <;> cases hs <;> cases hx
  | register | revoke | clock =>
    cases hs
    cases hx

/-- Run without interruption, the sections of a call are `verify_order_chain`. -/
theorem verify_finishes (ext : Recovery) (i : ι) (o : Order) (s : Shared ι) :
    ∃ s', Pool.Finishes (perform ext) i s [.lookup o] s' ∧
      match verifyOrderChain ext o s.registry s.now_secs with
      | .error e => s' = s.record (.failed i o e)
      | .ok (_,registry) => s'.registry = registry ∧ s'.now_secs = s.now_secs ∧
        ∃ d, d.call = i ∧ d.order = o ∧ s'.log = .debited d :: s.log := by
  have hfail (w : Section) (e : SessionError)
      (h : perform ext i w s = some (s.record (.failed i o e),[])) :
      Pool.Finishes (perform ext) i s [w] (s.record (.failed i o e)) := .cons h (.nil _)
  unfold verifyOrderChain
  cases hrec : ext.recoverSigner o.digest o.signature_hex with
  | error e => exact ⟨_,hfail _ e (by simp only [perform, hrec]),rfl⟩
  | ok pub =>
    simp only [bind, Except.bind]
    cases hget : s.registry.lookup pub with
    | none => exact ⟨_,hfail _ .notRegistered (by simp only [perform, hrec, hget]),rfl⟩
    | some session =>
      have hlookup : perform ext i (.lookup o) s = some (s,[.check o pub session]) := by
        simp only [perform, hrec, hget]
      dsimp only
      cases hcheck : checkSession session o.jwt_caller_address s.now_secs with
      | error e => exact ⟨_,.cons hlookup (hfail _ e (by simp only [perform, hcheck])),rfl⟩
      | ok _ =>
        have hchecked : perform ext i (.check o pub session) s = some (s,[.consume o pub]) := by
          simp only [perform, hcheck]
        cases hcons : s.registry.consume pub o.notional_usdc s.now_secs with
        | error e =>
          exact ⟨_,.cons hlookup (.cons hchecked (hfail _ e (by simp only [perform, hcons]))),rfl⟩
        | ok r =>
          have hconsumed : perform ext i (.consume o pub) s =
              some (({ s with registry := r.2 } : Shared ι).record
                (.debited ⟨i,o,pub.toLower,s.registry.lookup pub,s.now_secs⟩),[]) := by
            simp only [perform, hcons]
          exact ⟨_,.cons hlookup (.cons hchecked (.cons hconsumed (.nil _))),rfl,rfl,_,rfl,rfl,rfl⟩

theorem perform_accounted {ext : Recovery} {i : ι} {w : Section} {s s' : Shared ι}
    {new : List Section} (h : ∀ key, Accounted s key) (hs : perform ext i w s = some (s',new))
    (key : String) : Accounted s' key := by
  have hkey := h key
  unfold Accounted at hkey ⊢
  obtain ⟨hr,hl | ⟨o,e,hl⟩⟩ | ⟨o,pub,session,-,hd⟩ | ⟨pub,owner,expires,cap,-,-,hr,hl⟩ |
    ⟨pub,hr,hl⟩ := perform_cases hs
  · rw [hr, hl]
    exact hkey
  · rw [hr, hl]
    exact hkey
  · rw [hd.registry, hd.log]
    by_cases he : pub.toLower = key
    · subst he
      rw [hd.found] at hkey
      simp only [Function.update_self, debits, if_true]
      exact ⟨by omega,hd.capped⟩
    · simp only [Function.update_of_ne (Ne.symm he), debits, if_neg he, Nat.zero_add]
      exact hkey
  · rw [hr, hl, InMemoryRegistry.register]
    by_cases he : pub.toLower = key
    · subst he
      simp [debits]
    · simp only [Function.update_of_ne (Ne.symm he), debits, if_neg he]
      exact hkey
  · rw [hr, hl, InMemoryRegistry.revoke]
    cases hget : s.registry pub.toLower with
    | none => exact hkey
    | some session =>
      by_cases he : pub.toLower = key
      · subst he
        rw [hget] at hkey
        simpa using hkey
      · simp only [Function.update_of_ne (Ne.symm he)]
        exact hkey

/-- A debit that a section adds to the log is of a live session. -/
theorem perform_debited {ext : Recovery} {i : ι} {w : Section} {s s' : Shared ι}
    {new : List Section} (hs : perform ext i w s = some (s',new)) {d : Debit ι}
    (hd : .debited d ∈ s'.log) : .debited d ∈ s.log ∨
      ∃ o session_pub session, w = .consume o session_pub ∧
        s.registry session_pub.toLower = some session ∧ session.active = true ∧
        s.now_secs < session.expires_at_secs ∧
        d = ⟨i,o,session_pub.toLower,some session,s.now_secs⟩ := by
  obtain ⟨-,hl | ⟨o,e,hl⟩⟩ | ⟨o,pub,session,hw,h⟩ | ⟨pub,owner,expires,cap,-,-,-,hl⟩ |
    ⟨pub,-,hl⟩ := perform_cases hs
  · exact .inl (hl ▸ hd)
  · rw [hl] at hd
    exact .inl (by simpa using hd)
  · rw [h.log, List.mem_cons, Event.debited.injEq] at hd
    obtain rfl | hd := hd
    · exact .inr ⟨o,pub,session,hw,h.found,h.active,h.unexpired,rfl⟩
    · exact .inl hd
  · rw [hl] at hd
    exact .inl (by simpa using hd)
  · exact .inl (hl ▸ hd)

/-- A call that will debit `key` on behalf of `caller` unless something else stops it: its owner
check has passed, or will pass on the copy it holds. -/
def Section.Committed (key caller : String) : Section → Prop
  | .check o session_pub session => session_pub.toLower = key ∧ o.jwt_caller_address = caller ∧
    session.owner.toLower = caller.toLower
  | .consume o session_pub => session_pub.toLower = key ∧ o.jwt_caller_address = caller
  | _ => False

/-- The next section of call `i` does not register a key for somebody other than the caller of an
order between its lookup and its debit. -/
def NoTakeover (c : Pool ι Section (Shared ι)) (i : ι) : Prop :=
  ∀ session_pub owner expires cap ws, c.pending i = .register session_pub owner expires cap :: ws →
    ∀ caller, c.Awaits (Section.Committed session_pub.toLower caller) →
      owner.toLower = caller.toLower

/-- The sessions that calls are about to debit belong to their callers. -/
def Entitled (c : Pool ι Section (Shared ι)) : Prop :=
  ∀ key caller, c.Awaits (Section.Committed key caller) →
    ∃ session, c.shared.registry key = some session ∧ session.owner.toLower = caller.toLower

/-- The owner of a session changes only when its key is registered again. -/
theorem perform_owner {ext : Recovery} {i : ι} {w : Section} {s s' : Shared ι}
    {new : List Section} (hs : perform ext i w s = some (s',new)) {key caller : String}
    {session : Session} (hget : s.registry key = some session)
    (howner : session.owner.toLower = caller.toLower)
    (hreg : ∀ pub owner expires cap, w = .register pub owner expires cap → pub.toLower = key →
      owner.toLower = caller.toLower) :
    ∃ session, s'.registry key = some session ∧ session.owner.toLower = caller.toLower := by
  obtain ⟨hr,-⟩ | ⟨o,pub,old,-,hd⟩ | ⟨pub,owner,expires,cap,hw,-,hr,-⟩ | ⟨pub,hr,-⟩ :=
    perform_cases hs
  · exact ⟨session,hr ▸ hget,howner⟩
  · rw [hd.registry]
    by_cases he : pub.toLower = key
    · subst he
      have hfound := hd.found
      rw [hget] at hfound
      cases hfound
      exact ⟨_,Function.update_self ..,howner⟩
    · rw [Function.update_of_ne (Ne.symm he)]
      exact ⟨session,hget,howner⟩
  · rw [hr, InMemoryRegistry.register]
    by_cases he : pub.toLower = key
    · subst he
      exact ⟨_,Function.update_self ..,hreg pub owner expires cap hw rfl⟩
    · rw [Function.update_of_ne (Ne.symm he)]
      exact ⟨session,hget,howner⟩
  · rw [hr, InMemoryRegistry.revoke]
    by_cases he : pub.toLower = key
    · subst he
      simp only [hget]
      exact ⟨_,Function.update_self ..,howner⟩
    · cases s.registry pub.toLower with
      | none => exact ⟨session,hget,howner⟩
      | some old =>
        simp only [Function.update_of_ne (Ne.symm he)]
        exact ⟨session,hget,howner⟩

variable [DecidableEq ι]

theorem step_entitled {ext : Recovery} {c : Pool ι Section (Shared ι)} {i : ι} {w : Section}
    {ws new : List Section} {s : Shared ι} (h : Entitled c) (hno : NoTakeover c i)
    (hp : c.pending i = w :: ws) (hs : perform ext i w c.shared = some (s,new)) :
    Entitled ⟨s,Function.update c.pending i (new++ws)⟩ := by
  rintro key caller ⟨j,x,hx,hcommit⟩
  obtain hold | ⟨-,hnew⟩ := Pool.mem_pending_update hp hx
  · -- a section that was waiting before: only a takeover changes the owner it relies on
    have hawaits : c.Awaits (Section.Committed key caller) := ⟨j,x,hold,hcommit⟩
    obtain ⟨session,hget,howner⟩ := h key caller hawaits
    refine perform_owner hs hget howner ?_
    rintro pub owner expires cap rfl rfl
    exact hno pub owner expires cap ws hp caller hawaits
  · -- a section that was put in front by a lookup or a check
    have hnotReg (pub owner : String) (expires cap : ℕ) : w ≠ .register pub owner expires cap := by
      rintro rfl
      cases hs
      cases hnew
    have hentitled : ∃ session, c.shared.registry key = some session ∧
        session.owner.toLower = caller.toLower := by
      obtain ⟨o,pub,session,rfl,hget⟩ | ⟨o,pub,session,rfl,rfl,howner⟩ := perform_new hs hnew
      · obtain ⟨rfl,-,howner⟩ := hcommit
        exact ⟨session,hget,howner⟩
      · obtain ⟨rfl,rfl⟩ := hcommit
        exact h _ _ (Pool.Awaits.of_next hp ⟨rfl,rfl,howner⟩)
    obtain ⟨session,hget,howner⟩ := hentitled
    exact perform_owner hs hget howner fun pub owner expires cap hw => absurd hw (hnotReg _ _ _ _)

omit [DecidableEq ι] in
/-- A debit made by an entitled call is of a session of its caller. -/
theorem step_owned {ext : Recovery} {c : Pool ι Section (Shared ι)} {i : ι} {w : Section}
    {ws new : List Section} {s : Shared ι} (h : Entitled c)
    (hlog : ∀ d, .debited d ∈ c.shared.log → d.Owned) (hp : c.pending i = w :: ws)
    (hs : perform ext i w c.shared = some (s,new)) (d : Debit ι) (hd : .debited d ∈ s.log) :
    d.Owned := by
  obtain hd | ⟨o,pub,session,rfl,hget,-,-,rfl⟩ := perform_debited hs hd
  · exact hlog d hd
  · obtain ⟨session',hget',howner⟩ := h _ _ (Pool.Awaits.of_next hp ⟨rfl,rfl⟩)
    rw [hget] at hget'
    cases hget'
    exact ⟨session,rfl,howner⟩

def Section.Registers : Section → Bool
  | .register .. => true
  | _ => false

/-- A request that has not started. -/
def Section.Fresh : Section → Prop
  | .check .. | .consume .. => False
  | _ => True

/-- A new registry, and requests that have not started. -/
structure Start (c : Pool ι Section (Shared ι)) : Prop where
  registry : c.shared.registry = fun _ => none
  log : c.shared.log = []
  fresh : ∀ i, ∀ w ∈ c.pending i, w.Fresh

omit [DecidableEq ι] in
theorem Start.not_committed {c : Pool ι Section (Shared ι)} (h : Start c) (key caller : String) :
    ¬ c.Awaits (Section.Committed key caller) := by
  rintro ⟨i,w,hw,hcommit⟩
  have hfresh := h.fresh i w hw
  cases w <;> first | exact hcommit.elim | exact hfresh.elim

/-- In every run the debits of a key since its registration add up to what its session has spent,
within the cap, and every debit is of an active session that has not expired. It is of a session
of the caller in every run in which no key is registered for somebody else while an order of its
owner is between lookup and debit. -/
theorem debit_safety (ext : Recovery) (c : Pool ι Section (Shared ι)) (hc : Start c)
    (is : List ι) :
    (∀ key, Accounted (c.run (perform ext) is).shared key) ∧
    (∀ d, .debited d ∈ (c.run (perform ext) is).shared.log → d.Live) ∧
    ((∀ pre i, pre++[i] <+: is → NoTakeover (c.run (perform ext) pre) i) →
      ∀ d, .debited d ∈ (c.run (perform ext) is).shared.log → d.Owned) := by
  refine ⟨?_,?_,fun hno => ?_⟩
  · refine Pool.run_invariant (P := fun c => ∀ key, Accounted c.shared key)
      (R := fun _ _ => True) ?_ ?_ fun _ _ _ => trivial
    · exact fun c i w ws s new h _ _ hs => perform_accounted h hs
    · intro key
      simp [Accounted, hc.registry, hc.log, debits]
  · refine Pool.run_invariant
      (P := fun c : Pool ι Section (Shared ι) => ∀ d, .debited d ∈ c.shared.log → d.Live)
      (R := fun _ _ => True) ?_ ?_ fun _ _ _ => trivial
    · intro c i w ws s new h _ _ hs d hd
      obtain hd | ⟨o,pub,session,-,-,hact,hexp,rfl⟩ := perform_debited hs hd
      · exact h d hd
      · exact ⟨session,rfl,hact,hexp⟩
    · intro d hd
      rw [hc.log] at hd
      cases hd
  · refine (Pool.run_invariant (P := fun c => Entitled c ∧ ∀ d, .debited d ∈ c.shared.log → d.Owned)
      (R := NoTakeover) ?_ ⟨?_,?_⟩ hno).2
    · intro c i w ws s new h hno hp hs
      exact ⟨step_entitled h.1 hno hp hs,step_owned h.1 h.2 hp hs⟩
    · exact fun key caller h => absurd h (hc.not_committed key caller)
    · intro d hd
      rw [hc.log] at hd
      cases hd

def keyText : String := "0x0000000000000000000000000000000000000003"

def aliceText : String := "0xaaaa"

def bobText : String := "0xbbbb"

/-- Every signature of the right form recovers to the one key. -/
def keyRecovery : Recovery := ⟨fun _ => .ok (List.replicate 65 0),fun _ _ _ => some keyText⟩

def aliceOrder : Order := ⟨[],"0x00",aliceText,40⟩

/-- Call 0 verifies an order of Alice's; call 1 registers the key for her and then for Bob. -/
def takeover : Pool ℕ Section (Shared ℕ) where
  shared := ⟨fun _ => none,5,[]⟩
  pending := fun i =>
    if i = 0 then [.lookup aliceOrder]
    else if i = 1 then [.register keyText aliceText 100 50,.register keyText bobText 100 50]
    else []

/-- The order of Alice's is paid by the session of Bob's. -/
theorem takeover_debits_other_owner :
    (takeover.run (perform keyRecovery) [1,0,0,1,0]).shared.log =
        [.debited ⟨0,aliceOrder,keyText,some ⟨bobText,100,50,0,true⟩,5⟩,.registered keyText,
          .registered keyText] ∧
      ¬ (⟨0,aliceOrder,keyText,some ⟨bobText,100,50,0,true⟩,5⟩ : Debit ℕ).Owned := by
  refine ⟨by decide +kernel,?_⟩
  rintro ⟨session,hget,howner⟩
  cases hget
  revert howner
  decide +kernel

/-- A client that registers its key and then sends an order. -/
def oneOrder : Pool ℕ Section (Shared ℕ) where
  shared := ⟨fun _ => none,5,[]⟩
  pending := fun i =>
    if i = 0 then [.register keyText aliceText 100 50,.lookup aliceOrder] else []

theorem oneOrder_start : Start oneOrder where
  registry := rfl
  log := rfl
  fresh := by
    intro i w hw
    simp only [oneOrder] at hw
    split_ifs at hw
    · simp only [List.mem_cons, List.not_mem_nil, or_false] at hw
      obtain rfl | rfl := hw <;> trivial
    · cases hw

theorem debit_safety_oneOrder : Start oneOrder ∧
    (oneOrder.run (perform keyRecovery) [0,0,0,0]).shared.log =
      [.debited ⟨0,aliceOrder,keyText,some ⟨aliceText,100,50,0,true⟩,5⟩,.registered keyText] ∧
    (⟨0,aliceOrder,keyText,some ⟨aliceText,100,50,0,true⟩,5⟩ : Debit ℕ).Owned := by
  have hlog : (oneOrder.run (perform keyRecovery) [0,0,0,0]).shared.log =
      [.debited ⟨0,aliceOrder,keyText,some ⟨aliceText,100,50,0,true⟩,5⟩,.registered keyText] := by
    decide +kernel
  have hother (pre : List ℕ)
      (hpre : ∀ w ∈ ((oneOrder.run (perform keyRecovery) pre).pending 0).head?,
        w.Registers = false) : NoTakeover (oneOrder.run (perform keyRecovery) pre) 0 := by
    intro pub owner expires cap ws hp
    have := hpre (.register pub owner expires cap) (by rw [hp]; rfl)
    cases this
  have hfirst : NoTakeover oneOrder 0 := by
    rintro pub owner expires cap ws - caller hawaits
    exact absurd hawaits (oneOrder_start.not_committed _ _)
  refine ⟨oneOrder_start,hlog,?_⟩
  refine (debit_safety keyRecovery oneOrder oneOrder_start [0,0,0,0]).2.2 ?_ _
    (hlog ▸ List.mem_cons_self)
  refine forall_request_cons hfirst (forall_request_cons ?_ (forall_request_cons ?_
    (forall_request_cons ?_ forall_request_nil)))
  all_goals
    apply hother
    decide +kernel

end Perplex.SessionKeys
