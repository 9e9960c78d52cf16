import Perplex.SessionModel

/-!
The registry in memory against the contract it mirrors. Both get the same requests; the registry
registers and revokes without the contract's guards, so the two agree along a run exactly when
the requests pass these guards.
-/

namespace Perplex.SessionKeys

/-- The text of a session key; the zero address is none. -/
structure SessionPub extends AddressText where
  ne_zero : address ≠ 0

/-- An operation issued to both, with the reading of the clock they share. -/
inductive Request where
  | register (key : SessionPub) (caller : AddressText) (expiresAt maxNotionalUsdc now : ℕ)
  | revoke (key : SessionPub) (caller : AddressText)
  | consume (key : SessionPub) (amount now : ℕ)
  | lookup (key : SessionPub)

def memoryExec (r : InMemoryRegistry) : Request → Except SessionError InMemoryRegistry
  | .register key caller expiresAt maxNotionalUsdc _ =>
    return r.register key.text caller.text expiresAt maxNotionalUsdc
  | .revoke key _ => return r.revoke key.text
  | .consume key amount now => return (← r.consume key.text amount now).2
  | .lookup _ => return r

/-- The contract; `consume` is called by the authorised consumer. -/
def contractExec (c : SessionKey) : Request → Except KeyError SessionKey
  | .register key caller expiresAt maxNotionalUsdc now =>
    c.register caller.address key.address expiresAt maxNotionalUsdc now
  | .revoke key caller => c.revoke caller.address key.address
  | .consume key amount now => c.consume c.consumer key.address amount now
  | .lookup _ => return c

/-- The two side by side. -/
structure Both where
  memory : InMemoryRegistry
  contract : SessionKey

/-- A request goes to both; either may refuse it. -/
def bothExec (p : Both) (q : Request) : Except Empty Both :=
  .ok ⟨attempt memoryExec p.memory q,attempt contractExec p.contract q⟩

def start (consumer : Address) : Both := ⟨fun _ => none,SessionKey.deployed consumer⟩

/-- Owner, expiry, cap, spent amount and activity are the same; a key that is not in memory has
the zero record. -/
def SameRecord : Option Session → KeyRecord → Prop
  | none, k => k = ⟨0,0,0,0,false⟩
  | some s, k => s.owner.toLower = hexText k.owner ∧ s.expires_at_secs = k.expiresAt ∧
    s.max_notional_usdc = k.maxNotionalUsdc ∧ s.spent_notional_usdc = k.spentNotionalUsdc ∧
    s.active = k.active

/-- The records of all keys are the same. -/
def Both.Same (p : Both) : Prop :=
  ∀ a, SameRecord (p.memory (hexText a)) (p.contract.sessions a)

/-- Both accept the request or both refuse it. -/
def Both.Agree (p : Both) (q : Request) : Prop :=
  Succeeds (memoryExec p.memory q) ↔ Succeeds (contractExec p.contract q)

/-- The request passes the guards that only the contract has. -/
def Guarded (c : SessionKey) : Request → Prop
  | .register key _ expiresAt _ now =>
    now < expiresAt ∧ (c.sessions key.address).active = false
  | .revoke key caller =>
    (c.sessions key.address).active = true ∧ (c.sessions key.address).owner = caller.address
  | .consume .. | .lookup _ => True

section Step
variable {r : InMemoryRegistry} {c : SessionKey}

theorem same_update {a : Address} {s : Session} {k : KeyRecord} (h : (⟨r,c⟩ : Both).Same)
    (hk : SameRecord (some s) k) :
    (⟨Function.update r (hexText a) (some s),
      { c with sessions := Function.update c.sessions a k }⟩ : Both).Same := by
  intro b
  by_cases hb : b = a
  · subst hb
    simpa using hk
  · have hne : hexText b ≠ hexText a := fun he => hb (hexText_inj he)
    simp only [Function.update_of_ne hne, Function.update_of_ne hb]
    exact h b

/-- Registration: the registry never refuses, the contract does unless the request is guarded. -/
theorem register_step (h : (⟨r,c⟩ : Both).Same) (key : SessionPub) (caller : AddressText)
    (expiresAt cap now : ℕ) :
    let q := Request.register key caller expiresAt cap now
    Guarded c q ↔ (⟨attempt memoryExec r q,attempt contractExec c q⟩ : Both).Same ∧
      (⟨r,c⟩ : Both).Agree q := by
  intro q
  have hmem : memoryExec r q = .ok (r.register key.text caller.text expiresAt cap) := rfl
  constructor
  · intro hg
    have hcon : contractExec c q = .ok { c with
        sessions := Function.update c.sessions key.address
          ⟨caller.address,expiresAt,cap,0,true⟩ } := by
      simp [q, contractExec, SessionKey.register, ensure, key.ne_zero, hg.1, hg.2]
    refine ⟨?_,iff_of_true ⟨_,hmem⟩ ⟨_,hcon⟩⟩
    rw [attempt_of_ok hmem, attempt_of_ok hcon, InMemoryRegistry.register, key.denotes]
    exact same_update h ⟨caller.denotes,rfl,rfl,rfl,rfl⟩
  · rintro ⟨-,hagree⟩
    obtain ⟨c',hc⟩ := hagree.mp ⟨_,hmem⟩
    simp only [q, contractExec, SessionKey.register, chain_ok_iff, ensure_eq_ok] at hc
    obtain ⟨-,-,-,⟨hexp,-⟩,-,⟨hact,-⟩,-⟩ := hc
    exact ⟨by omega,hact⟩

/-- Revocation: the registry accepts it from anyone, and of any key. -/
theorem revoke_step (h : (⟨r,c⟩ : Both).Same) (key : SessionPub) (caller : AddressText) :
    let q := Request.revoke key caller
    Guarded c q ↔ (⟨attempt memoryExec r q,attempt contractExec c q⟩ : Both).Same ∧
      (⟨r,c⟩ : Both).Agree q := by
  intro q
  have hmem : memoryExec r q = .ok (r.revoke key.text) := rfl
  constructor
  · intro hg
    have hcon : contractExec c q = .ok { c with
        sessions := Function.update c.sessions key.address
          { c.sessions key.address with active := false } } := by
      simp [q, contractExec, SessionKey.revoke, ensure, hg.1, hg.2]
    refine ⟨?_,iff_of_true ⟨_,hmem⟩ ⟨_,hcon⟩⟩
    rw [attempt_of_ok hmem, attempt_of_ok hcon, InMemoryRegistry.revoke, key.denotes]
    have hkey : SameRecord (r (hexText key.address)) (c.sessions key.address) := h key.address
    cases hs : r (hexText key.address) with
    | none =>
      -- the contract has an active session, so it is in memory
      rw [hs] at hkey
      have hact := hg.1
      rw [hkey] at hact
      cases hact
    | some s =>
      rw [hs] at hkey
      exact same_update h ⟨hkey.1,hkey.2.1,hkey.2.2.1,hkey.2.2.2.1,rfl⟩
  · rintro ⟨-,hagree⟩
    obtain ⟨c',hc⟩ := hagree.mp ⟨_,hmem⟩
    simp only [q, contractExec, SessionKey.revoke, chain_ok_iff, ensure_eq_ok] at hc
    obtain ⟨-,⟨hact,-⟩,-,⟨howner,-⟩,-⟩ := hc
    exact ⟨hact,howner⟩

/-- The debit makes the same checks on both sides. -/
theorem consume_step (h : (⟨r,c⟩ : Both).Same) (key : SessionPub) (amount now : ℕ) :
    let q := Request.consume key amount now
    (⟨attempt memoryExec r q,attempt contractExec c q⟩ : Both).Same ∧
      (⟨r,c⟩ : Both).Agree q := by
  intro q
  have hkey : SameRecord (r (hexText key.address)) (c.sessions key.address) := h key.address
  have hmem (r' : InMemoryRegistry) : memoryExec r q = .ok r' ↔
      ∃ spent, r.consume key.text amount now = .ok (spent,r') := by
    simp only [q, memoryExec, chain_ok_iff]
    constructor
    · rintro ⟨p,hp,hr⟩
      cases hr
      exact ⟨p.1,hp⟩
    · rintro ⟨spent,hp⟩
      exact ⟨_,hp,rfl⟩
  simp only [InMemoryRegistry.consume_eq_ok, key.denotes] at hmem
  have hcon (c' : SessionKey) : contractExec c q = .ok c' ↔ _ := SessionKey.consume_eq_ok
  cases hs : r (hexText key.address) with
  | none =>
    rw [hs] at hkey
    have hr : ¬ Succeeds (memoryExec r q) := by
      rintro ⟨r',hr⟩
      obtain ⟨_,_,hsome,-⟩ := (hmem r').mp hr
      rw [hs] at hsome
      cases hsome
    have hc : ¬ Succeeds (contractExec c q) := by
      rintro ⟨c',hc⟩
      have hact := ((hcon c').mp hc).1
      rw [hkey] at hact
      cases hact
    rw [attempt_of_not hr, attempt_of_not hc]
    exact ⟨h,iff_of_false hr hc⟩
  | some s =>
    rw [hs] at hkey
    obtain ⟨howner,hexp,hcap,hspent,hact⟩ := hkey
    rw [← hexp, ← hcap, ← hspent, ← hact] at hcon
    by_cases hok : Succeeds (contractExec c q)
    · obtain ⟨c',hc⟩ := hok
      obtain ⟨hactive,hlive,hlt,hle,rfl⟩ := (hcon c').mp hc
      have hr := (hmem _).mpr ⟨_,s,hs,hactive,hlive,hlt,hle,rfl,rfl⟩
      rw [attempt_of_ok hr, attempt_of_ok hc]
      exact ⟨same_update h ⟨howner,hexp,hcap,rfl,hact⟩,iff_of_true ⟨_,hr⟩ ⟨_,hc⟩⟩
    · have hr : ¬ Succeeds (memoryExec r q) := by
        rintro ⟨r',hr⟩
        obtain ⟨_,s',hs',hactive,hlive,hlt,hle,-,-⟩ := (hmem r').mp hr
        rw [hs] at hs'
        cases hs'
        exact hok ⟨_,(hcon _).mpr ⟨hactive,hlive,hlt,hle,rfl⟩⟩
      rw [attempt_of_not hr, attempt_of_not hok]
      exact ⟨h,iff_of_false hr hok⟩

theorem both_step {p : Both} (h : p.Same) (q : Request) :
    Guarded p.contract q ↔ (attempt bothExec p q).Same ∧ p.Agree q := by
  obtain ⟨r,c⟩ := p
  cases q with
  | register key caller expiresAt cap now => exact register_step h key caller expiresAt cap now
  | revoke key caller => exact revoke_step h key caller
  | consume key amount now => exact iff_of_true trivial (consume_step h key amount now)
  | lookup key => exact iff_of_true trivial ⟨h,iff_of_true ⟨r,rfl⟩ ⟨c,rfl⟩⟩

end Step

theorem start_same (consumer : Address) : (start consumer).Same := fun _ => rfl

/-- The registry agrees with the contract on every request of a run, and on every record after
it, exactly when each registration is of a key that is not active with an expiry still to come,
and each revocation is by the owner of an active key. -/
theorem registry_mirrors_iff (consumer : Address) (qs : List Request) :
    ((∀ pre, pre <+: qs → (runAll bothExec (start consumer) pre).Same) ∧
      ∀ pre q, pre++[q] <+: qs → (runAll bothExec (start consumer) pre).Agree q) ↔
    ∀ pre q, pre++[q] <+: qs → Guarded (runAll bothExec (start consumer) pre).contract q :=
  runAll_prefix_iff (R := fun p q => Guarded p.contract q) (start_same consumer) qs
    fun _ q h => both_step h q

/-- An address by its own lower-case text. -/
def addressText (a : Address) (h : (hexText a).toLower = hexText a) : AddressText :=
  ⟨hexText a,a,h⟩

def alice : AddressText := addressText 1 (by decide +kernel)

def mallory : AddressText := addressText 2 (by decide +kernel)

def aliceKey : SessionPub := ⟨addressText 3 (by decide +kernel),by decide⟩

/-- A debit, a second registration of the key that is still active, and a revocation by somebody
else: the registry takes all of them, the contract only the debit. -/
def unguarded : List Request :=
  [.register aliceKey alice 100 50 10,.consume aliceKey 40 11,.register aliceKey alice 100 50 12,
    .revoke aliceKey mallory]

/-- The second registration lets the spent amount start again at zero. -/
theorem reregistration_resets_spent :
    let before := runAll bothExec (start 9) (unguarded.take 2)
    let after := runAll bothExec (start 9) (unguarded.take 3)
    Succeeds (memoryExec before.memory (.register aliceKey alice 100 50 12)) ∧
      ¬ Succeeds (contractExec before.contract (.register aliceKey alice 100 50 12)) ∧
      after.memory (hexText 3) = some ⟨alice.text,100,50,0,true⟩ ∧
      (after.contract.sessions 3).spentNotionalUsdc = 40 ∧
      Succeeds (memoryExec after.memory (.revoke aliceKey mallory)) ∧
      ¬ Succeeds (contractExec after.contract (.revoke aliceKey mallory)) := by
  refine ⟨?_,?_,?_,?_,?_,?_⟩ <;> decide +kernel

end Perplex.SessionKeys
