import Mathlib.Tactic.IntervalCases
import Perplex.Checked
import Perplex.Types

/-!
Session keys: the contract that binds a signing key to its owner with an expiry and a cap on the
notional, the edge's registry in memory, and the chain of checks an order goes through. Amounts
and times are natural numbers; the sums of amounts that the source keeps in 128 bits are checked
there. `String.toLower` changes ASCII letters only, as `to_ascii_lowercase` does.
-/

namespace Perplex.SessionKeys

/-- The last `w` hexadecimal digits of `n`. -/
def hexDigits : ℕ → ℕ → List Char
  | 0, _ => []
  | w+1, n => hexDigits w (n/16) ++ [Nat.digitChar (n%16)]

/-- The lower-case text of an address. -/
def hexText (a : Address) : String := String.ofList ('0' :: 'x' :: hexDigits 40 a.val)

/-- An address in any mixture of upper and lower case. -/
structure AddressText where
  text : String
  address : Address
  denotes : text.toLower = hexText address

theorem digitChar_inj {a b : ℕ} (ha : a < 16) (hb : b < 16)
    (h : Nat.digitChar a = Nat.digitChar b) : a = b := by
  revert h
  interval_cases a <;> interval_cases b <;> decide

theorem hexDigits_inj {w m n : ℕ} (hm : m < 16^w) (hn : n < 16^w)
    (h : hexDigits w m = hexDigits w n) : m = n := by
  induction w generalizing m n with
  | zero =>
    rw [pow_zero] at hm hn
    omega
  | succ w ih =>
    obtain ⟨hrest,hlast⟩ := List.append_inj' h rfl
    have hmod : m%16 = n%16 :=
      digitChar_inj (Nat.mod_lt _ (by decide)) (Nat.mod_lt _ (by decide)) (List.cons.inj hlast).1
    rw [pow_succ] at hm hn
    have hdiv : m/16 = n/16 :=
      ih (Nat.div_lt_of_lt_mul (by omega)) (Nat.div_lt_of_lt_mul (by omega)) hrest
    omega

theorem hexText_inj {a b : Address} (h : hexText a = hexText b) : a = b := by
  have hlist := congrArg String.toList h
  simp only [hexText, String.toList_ofList, List.cons.injEq, true_and] at hlist
  have hlt (x : Address) : x.val < 16^40 := x.isLt
  exact Fin.ext (hexDigits_inj (hlt a) (hlt b) hlist)

attribute [irreducible] hexText

inductive SessionError where
  | badEncoding (why : String)
  | recoverFailed
  | notRegistered
  | inactive
  | expired
  | ownerMismatch (recovered claimed : String)
  | capExceeded (spent amount cap : ℕ)
deriving DecidableEq, Repr

structure Session where
  owner : String
  expires_at_secs : ℕ
  max_notional_usdc : ℕ
  spent_notional_usdc : ℕ
  active : Bool
deriving DecidableEq, Repr

/-- Sessions by the lower-case text of their key. -/
abbrev InMemoryRegistry := String → Option Session

namespace InMemoryRegistry

def register (r : InMemoryRegistry) (session_pub owner : String)
    (expires_at_secs max_notional_usdc : ℕ) : InMemoryRegistry :=
  Function.update r session_pub.toLower
    (some ⟨owner,expires_at_secs,max_notional_usdc,0,true⟩)

def revoke (r : InMemoryRegistry) (session_pub : String) : InMemoryRegistry :=
  match r session_pub.toLower with
  | some s => Function.update r session_pub.toLower (some { s with active := false })
  | none => r

def lookup (r : InMemoryRegistry) (session_pub : String) : Option Session :=
  r session_pub.toLower

/-- The new total and the registry after the debit. -/
def consume (r : InMemoryRegistry) (session_pub : String) (amount now_secs : ℕ) :
    Except SessionError (ℕ × InMemoryRegistry) :=
  match r session_pub.toLower with
  | none => .error .notRegistered
  | some s => do
    ensure (s.active = true) .inactive ()
    ensure (now_secs < s.expires_at_secs) .expired ()
    let new_spent ← boundU 128
      (.capExceeded s.spent_notional_usdc amount s.max_notional_usdc) (s.spent_notional_usdc+amount)
    ensure (new_spent ≤ s.max_notional_usdc)
      (.capExceeded s.spent_notional_usdc amount s.max_notional_usdc) ()
    return (new_spent,Function.update r session_pub.toLower
      (some { s with spent_notional_usdc := new_spent }))

/-- A debit is made of a session that is active, not expired and has room under its cap. -/
theorem consume_eq_ok {r r' : InMemoryRegistry} {session_pub : String} {amount now_secs spent : ℕ} :
    r.consume session_pub amount now_secs = .ok (spent,r') ↔
      ∃ s, r session_pub.toLower = some s ∧ s.active = true ∧ now_secs < s.expires_at_secs ∧
        s.spent_notional_usdc+amount < 2^128 ∧
        s.spent_notional_usdc+amount ≤ s.max_notional_usdc ∧ spent = s.spent_notional_usdc+amount ∧
        r' = Function.update r session_pub.toLower
          (some { s with spent_notional_usdc := s.spent_notional_usdc+amount }) := by
  unfold consume
  cases r session_pub.toLower with
  | none => simp
  | some s =>
    simp only [chain_ok_iff, ensure_eq_ok, boundU_eq_ok, Option.some.injEq, exists_eq_left']
    constructor
    · rintro ⟨_,⟨hact,-⟩,_,⟨hexp,-⟩,_,⟨hlt,rfl⟩,_,⟨hcap,-⟩,h⟩
      cases h
      exact ⟨hact,hexp,hlt,hcap,rfl,rfl⟩
    · rintro ⟨hact,hexp,hlt,hcap,rfl,rfl⟩
      exact ⟨(),⟨hact,trivial⟩,(),⟨hexp,trivial⟩,_,⟨hlt,rfl⟩,(),⟨hcap,trivial⟩,rfl⟩

end InMemoryRegistry

/-- The libraries behind signature recovery: `decode` reads hexadecimal text, `recover` gives the
address of the key that signed a digest, from the signature's 64 bytes and the recovery id. -/
structure Recovery where
  decode : String → Except String (List UInt8)
  recover : List UInt8 → List UInt8 → Bool → Option String

/-- `recover_signer`. -/
def Recovery.recoverSigner (ext : Recovery) (digest : List UInt8) (signature_hex : String) :
    Except SessionError String := do
  let hex ← (match signature_hex.toList with
    | '0' :: 'x' :: hex => .ok (String.ofList hex)
    | _ => .error (.badEncoding "missing 0x prefix"))
  let raw ← (ext.decode hex).mapError .badEncoding
  ensure (raw.length = 65)
    (.badEncoding ("expected 65 bytes, got " ++ toString raw.length)) ()
  let rec_id ← (match raw.getD 64 0 with
    | 0 | 27 => .ok false
    | 1 | 28 => .ok true
    | _ => .error .recoverFailed)
  match ext.recover digest (raw.take 64) rec_id with
  | some session_pub => return session_pub
  | none => .error .recoverFailed

/-- An order as it reaches the chain, with the address of the JWT that came with it. -/
structure Order where
  digest : List UInt8
  signature_hex : String
  jwt_caller_address : String
  notional_usdc : ℕ
deriving DecidableEq, Repr

/-- The checks `verify_order_chain` makes on the session it looked up. -/
def checkSession (session : Session) (caller : String) (now_secs : ℕ) :
    Except SessionError Unit := do
  ensure (session.active = true) .inactive ()
  ensure (now_secs < session.expires_at_secs) .expired ()
  ensure (session.owner.toLower = caller.toLower) (.ownerMismatch session.owner caller) ()

/-- `verify_order_chain`, when nothing runs in between. -/
def verifyOrderChain (ext : Recovery) (o : Order) (r : InMemoryRegistry) (now_secs : ℕ) :
    Except SessionError (ℕ × InMemoryRegistry) := do
  let session_pub ← ext.recoverSigner o.digest o.signature_hex
  match r.lookup session_pub with
  | none => .error .notRegistered
  | some session =>
    checkSession session o.jwt_caller_address now_secs
    r.consume session_pub o.notional_usdc now_secs

/-- Reverts of `SessionKey`; `panic` is checked arithmetic. -/
inductive KeyError where
  | notOwner
  | zeroAddress
  | alreadyRegistered
  | notActive
  | expired
  | notAuthorizedConsumer
  | capExceeded (spent cap : ℕ)
  | panic
deriving DecidableEq, Repr

/-- A record of `_sessions`; a key that was never registered has the zero record. -/
structure KeyRecord where
  owner : Address
  expiresAt : ℕ
  maxNotionalUsdc : ℕ
  spentNotionalUsdc : ℕ
  active : Bool
deriving DecidableEq

structure SessionKey where
  consumer : Address
  sessions : Address → KeyRecord

namespace SessionKey

/-- The contract right after its deployment. -/
def deployed (consumer : Address) : SessionKey := ⟨consumer,fun _ => ⟨0,0,0,0,false⟩⟩

def register (c : SessionKey) (sender sessionPubKey : Address) (expiresAt maxNotionalUsdc : ℕ)
    (now : ℕ) : Except KeyError SessionKey := do
  ensure (sessionPubKey ≠ 0) .zeroAddress ()
  ensure (¬ expiresAt ≤ now) .expired ()
  ensure ((c.sessions sessionPubKey).active = false) .alreadyRegistered ()
  return { c with
    sessions := Function.update c.sessions sessionPubKey
      ⟨sender,expiresAt,maxNotionalUsdc,0,true⟩ }

def revoke (c : SessionKey) (sender sessionPubKey : Address) : Except KeyError SessionKey := do
  let s := c.sessions sessionPubKey
  ensure (s.active = true) .notActive ()
  ensure (s.owner = sender) .notOwner ()
  return { c with sessions := Function.update c.sessions sessionPubKey { s with active := false } }

def consume (c : SessionKey) (sender sessionPubKey : Address) (amount now : ℕ) :
    Except KeyError SessionKey := do
  ensure (sender = c.consumer) .notAuthorizedConsumer ()
  let s := c.sessions sessionPubKey
  ensure (s.active = true) .notActive ()
  ensure (¬ s.expiresAt ≤ now) .expired ()
  let newSpent ← boundU 128 .panic (s.spentNotionalUsdc+amount)
  ensure (newSpent ≤ s.maxNotionalUsdc) (.capExceeded newSpent s.maxNotionalUsdc) ()
  return { c with
    sessions := Function.update c.sessions sessionPubKey { s with spentNotionalUsdc := newSpent } }

theorem consume_eq_ok {c c' : SessionKey} {sessionPubKey : Address} {amount now : ℕ} :
    c.consume c.consumer sessionPubKey amount now = .ok c' ↔
      (c.sessions sessionPubKey).active = true ∧ now < (c.sessions sessionPubKey).expiresAt ∧
        (c.sessions sessionPubKey).spentNotionalUsdc+amount < 2^128 ∧
        (c.sessions sessionPubKey).spentNotionalUsdc+amount ≤
          (c.sessions sessionPubKey).maxNotionalUsdc ∧
        c' = { c with
          sessions := Function.update c.sessions sessionPubKey { c.sessions sessionPubKey with
            spentNotionalUsdc := (c.sessions sessionPubKey).spentNotionalUsdc+amount } } := by
  simp only [consume, chain_ok_iff, ensure_eq_ok, boundU_eq_ok, not_le]
  constructor
  · rintro ⟨_,-,_,⟨hact,-⟩,_,⟨hexp,-⟩,_,⟨hlt,rfl⟩,_,⟨hcap,-⟩,h⟩
    cases h
    exact ⟨hact,hexp,hlt,hcap,rfl⟩
  · rintro ⟨hact,hexp,hlt,hcap,rfl⟩
    exact ⟨(),⟨trivial,trivial⟩,(),⟨hact,trivial⟩,(),⟨hexp,trivial⟩,_,⟨hlt,rfl⟩,
      (),⟨hcap,trivial⟩,rfl⟩

/-- `session`. -/
def session (c : SessionKey) (sessionPubKey : Address) : KeyRecord := c.sessions sessionPubKey

end SessionKey

end Perplex.SessionKeys
