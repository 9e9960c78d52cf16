import Mathlib.Data.List.DropRight
import Mathlib.Data.List.Nodup
import Mathlib.Data.List.Perm.Subperm
import Perplex.Interleaving
import Perplex.Checked

/-!
Sign-in with Ethereum. The server issues nonces, one at a time for an address, and a message that
names the address and the nonce, with a signature that recovers to the address, uses the nonce
up. Calls run side by side; the accesses to the nonce map are their atomic sections. Signature
recovery and Unicode lower case are parameters.
-/

namespace Perplex.Siwe

/-- The line that ends at a newline, without a carriage return before it. -/
def stripCr (line : List Char) : List Char :=
  if line.getLast? = some '\r' then line.dropLast else line

/-- `str::lines`, from the characters of the line read so far. -/
def linesFrom (line : List Char) : List Char → List (List Char)
  | [] => if line = [] then [] else [line]
  | c :: cs => if c = '\n' then stripCr line :: linesFrom [] cs else linesFrom (line ++ [c]) cs

def lines (msg : String) : List (List Char) := linesFrom [] msg.toList

/-- `char::is_whitespace`: the property `White_Space` of Unicode. -/
def isWhitespace (c : Char) : Bool :=
  let n := c.toNat
  (9 ≤ n ∧ n ≤ 13) ∨ n = 0x20 ∨ n = 0x85 ∨ n = 0xa0 ∨ n = 0x1680 ∨ (0x2000 ≤ n ∧ n ≤ 0x200a) ∨
    n = 0x2028 ∨ n = 0x2029 ∨ n = 0x202f ∨ n = 0x205f ∨ n = 0x3000

def trim (cs : List Char) : List Char := (cs.dropWhile isWhitespace).rdropWhile isWhitespace

/-- `trim_start_matches`: takes the pattern off as often as it is there; each time takes at least
a character. -/
def trimStartMatches (pat : List Char) : ℕ → List Char → List Char
  | 0, cs => cs
  | n+1, cs => if pat.isPrefixOf cs then trimStartMatches pat n (cs.drop pat.length) else cs

/-- The trimmed rest of the first line that starts with the tag. -/
def taggedLine (tag msg : String) : Option String :=
  ((lines msg).find? fun l => tag.toList.isPrefixOf l).map fun l =>
    String.ofList (trim (trimStartMatches tag.toList l.length l))

def parseSiweAddress (msg : String) : Option String :=
  (taggedLine "Address: " msg).or
    -- the second line of the preamble
    ((lines msg)[1]?.map fun l => String.ofList (trim l))

def parseSiweNonce (msg : String) : Option String := taggedLine "Nonce: " msg

theorem trimStartMatches_suffix (pat : List Char) (n : ℕ) (cs : List Char) :
    trimStartMatches pat n cs <:+ cs := by
  induction n generalizing cs with
  | zero => exact List.suffix_refl cs
  | succ n ih =>
    simp only [trimStartMatches]
    split_ifs
    · exact (ih _).trans (List.drop_suffix _ _)
    · exact List.suffix_refl cs

theorem trim_isInfix (cs : List Char) : trim cs <:+: cs :=
  (List.rdropWhile_prefix ..).isInfix.trans (List.dropWhile_suffix _).isInfix

/-- What is read after a tag stands in a line that starts with the tag. -/
theorem taggedLine_eq_some {tag msg text : String} (h : taggedLine tag msg = some text) :
    ∃ l ∈ lines msg, tag.toList <+: l ∧ text.toList <:+: l := by
  simp only [taggedLine, Option.map_eq_some_iff] at h
  obtain ⟨l,hl,rfl⟩ := h
  refine ⟨l,List.mem_of_find?_eq_some hl,?_,?_⟩
  · simpa using List.find?_some hl
  · rw [String.toList_ofList]
    exact (trim_isInfix _).trans (trimStartMatches_suffix _ _ _).isInfix

inductive ApiError where
  | badRequest (why : String)
  | unauthorized (why : String)
  | invalidSignature
deriving DecidableEq, Repr

/-- `recover_personal_sign` as a function of message and signature, and `to_lowercase`. -/
structure Env where
  recover : String → String → Option String
  lower : String → String

/-- A call of `verify_siwe` that returned `Ok`, with the nonce it used up. -/
structure Login (ι : Type) where
  call : ι
  message : String
  signature : String
  address : String
  nonce : String
deriving DecidableEq

inductive Event (ι : Type) where
  | issued (address nonce : String)
  | verified (l : Login ι)
  | failed (call : ι) (e : ApiError)
deriving DecidableEq

/-- The nonce map, and what has happened, the latest first. -/
structure Shared (ι : Type) where
  siwe_nonces : String → Option String
  log : List (Event ι)

inductive Section where
  /-- The handler `siwe_nonce`, with the nonce it draws. -/
  | siweNonce (address nonce : String)
  /-- `verify_siwe` is entered, up to its access to the nonce map. -/
  | verify (message signature : String)
  /-- It takes the nonce of the address and returns. -/
  | consume (message signature address expected_nonce : String)
deriving DecidableEq

variable {ι : Type}

def Shared.record (s : Shared ι) (e : Event ι) : Shared ι := { s with log := e :: s.log }

def Shared.issueSiweNonce (s : Shared ι) (address nonce : String) : Shared ι :=
  { s with siwe_nonces := Function.update s.siwe_nonces address (some nonce) }

def Shared.consumeSiweNonce (s : Shared ι) (address : String) : Option String × Shared ι :=
  (s.siwe_nonces address,{ s with siwe_nonces := Function.update s.siwe_nonces address none })

/-- The checks of `verify_siwe` before it takes the nonce: the address and the expected nonce. -/
def verifyChecks (env : Env) (message signature : String) : Except ApiError (String × String) := do
  let address ← (match parseSiweAddress message with
    | some address => .ok (env.lower address)
    | none => .error (.badRequest "siwe message missing Address line"))
  let expected_nonce ← (match parseSiweNonce message with
    | some nonce => .ok nonce
    | none => .error (.badRequest "siwe message missing Nonce line"))
  let recovered ← (match env.recover message signature with
    | some recovered => .ok recovered
    | none => .error .invalidSignature)
  ensure (recovered = address) (.unauthorized "signature does not match address")
    (address,expected_nonce)

def perform (env : Env) (i : ι) : Section → Shared ι → Option (Shared ι × List Section)
  | .siweNonce address nonce, s =>
    if address.startsWith "0x" = false ∨ address.utf8ByteSize ≠ 42 then
      some (s.record (.failed i (.badRequest "invalid address")),[])
    else some ((s.issueSiweNonce address nonce).record (.issued address nonce),[])
  | .verify message signature, s =>
    match verifyChecks env message signature with
    | .error e => some (s.record (.failed i e),[])
    | .ok (address,expected_nonce) => some (s,[.consume message signature address expected_nonce])
  | .consume message signature address expected_nonce, s =>
    match s.consumeSiweNonce address with
    | (none,s) =>
      some (s.record (.failed i (.unauthorized "nonce not issued or already used")),[])
    | (some issued,s) =>
      -- a nonce that does not match is gone all the same
      if issued = expected_nonce then
        some (s.record (.verified ⟨i,message,signature,address,issued⟩),[])
      else some (s.record (.failed i (.unauthorized "nonce mismatch")),[])

/-- The message carries the nonce and the signature is one of the address over it. -/
structure Checked (env : Env) (message signature address nonce : String) : Prop where
  parsed : parseSiweNonce message = some nonce
  recovered : env.recover message signature = some address

theorem verifyChecks_ok {env : Env} {message signature address nonce : String}
    (h : verifyChecks env message signature = .ok (address,nonce)) :
    Checked env message signature address nonce := by
  simp only [verifyChecks, chain_ok_iff, ensure_eq_ok, Prod.mk.injEq] at h
  obtain ⟨a,-,n,hn,r,hr,rfl,rfl,rfl⟩ := h
  constructor
  · split at hn <;> cases hn
    assumption
  · split at hr <;> cases hr
    assumption

/-- What a section does to the map and the log. -/
theorem perform_cases {env : Env} {i : ι} {w : Section} {s s' : Shared ι} {new : List Section}
    (hs : perform env i w s = some (s',new)) :
    (s'.siwe_nonces = s.siwe_nonces ∧ (s'.log = s.log ∨ ∃ e, s'.log = .failed i e :: s.log)) ∨
    (∃ address nonce, s'.siwe_nonces = Function.update s.siwe_nonces address (some nonce) ∧
      s'.log = .issued address nonce :: s.log) ∨
    (∃ message signature address nonce, w = .consume message signature address nonce ∧
      s'.siwe_nonces = Function.update s.siwe_nonces address none ∧
      ((s.siwe_nonces address = some nonce ∧
        s'.log = .verified ⟨i,message,signature,address,nonce⟩ :: s.log) ∨
        ∃ e, s'.log = .failed i e :: s.log)) := by
  cases w with
  | siweNonce address nonce =>
    simp only [perform] at hs
    split_ifs at hs <;> cases hs
    · exact .inl ⟨rfl,.inr ⟨_,rfl⟩⟩
    · exact .inr (.inl ⟨address,nonce,rfl,rfl⟩)
  | verify message signature =>
    simp only [perform] at hs
    split at hs <;> cases hs
    · exact .inl ⟨rfl,.inr ⟨_,rfl⟩⟩
    · exact .inl ⟨rfl,.inl rfl⟩
  | consume message signature address nonce =>
    refine .inr (.inr ⟨message,signature,address,nonce,rfl,?_⟩)
    simp only [perform, Shared.consumeSiweNonce] at hs
    cases hget : s.siwe_nonces address with
    | none =>
      simp only [hget] at hs
      cases hs
      exact ⟨rfl,.inr ⟨_,rfl⟩⟩
    | some issued =>
      simp only [hget] at hs
      split_ifs at hs with he <;> cases hs
      · subst he
        exact ⟨rfl,.inl ⟨rfl,rfl⟩⟩
      · exact ⟨rfl,.inr ⟨_,rfl⟩⟩

/-- The section a call waits for comes from its checks. -/
theorem perform_new {env : Env} {i : ι} {w x : Section} {s s' : Shared ι} {new : List Section}
    (hs : perform env i w s = some (s',new)) (hx : x ∈ new) :
    ∃ message signature address nonce, x = .consume message signature address nonce ∧
      Checked env message signature address nonce := by
  cases w with
  | siweNonce address nonce =>
    simp only [perform] at hs
    split_ifs at hs <;> cases hs <;> cases hx
  | verify message signature =>
    simp only [perform] at hs
    split at hs
    · cases hs
      cases hx
    · next address nonce h =>
      cases hs
      exact ⟨message,signature,address,nonce,List.mem_singleton.mp hx,verifyChecks_ok h⟩
  | consume message signature address nonce =>
    simp only [perform, Shared.consumeSiweNonce] at hs
    split at hs
    · cases hs
      cases hx
    · split_ifs at hs <;> cases hs <;> cases hx

/-- The nonces issued, with their addresses. -/
def issues : List (Event ι) → List (String × String)
  | [] => []
  | .issued address nonce :: log => (address,nonce) :: issues log
  | _ :: log => issues log

/-- The calls that returned `Ok`. -/
def logins : List (Event ι) → List (Login ι)
  | [] => []
  | .verified l :: log => l :: logins log
  | _ :: log => logins log

theorem issues_append (log log' : List (Event ι)) :
    issues (log ++ log') = issues log ++ issues log' := by
  induction log with
  | nil => rfl
  | cons e log ih => cases e <;> simp [issues, ih]

theorem logins_append (log log' : List (Event ι)) :
    logins (log ++ log') = logins log ++ logins log' := by
  induction log with
  | nil => rfl
  | cons e log ih => cases e <;> simp [logins, ih]

theorem mem_logins {l : Login ι} {log : List (Event ι)} : l ∈ logins log ↔ .verified l ∈ log := by
  induction log with
  | nil => simp [logins]
  | cons e log ih => cases e <;> simp [logins, ih]

/-- The nonces drawn by the generator are pairwise distinct. -/
def Distinct (log : List (Event ι)) : Prop := ((issues log).map Prod.snd).Nodup

theorem Distinct.of_cons {e : Event ι} {log : List (Event ι)} (h : Distinct (e :: log)) :
    Distinct log := by
  cases e with
  | issued address nonce => exact (List.nodup_cons.mp h).2
  | verified l => exact h
  | failed i e => exact h

/-- What the map holds was issued and is not used yet; what was used was used once, by a message
that passed its checks after the nonce was issued. -/
structure Inv (env : Env) (s : Shared ι) : Prop where
  issued : ∀ a n, s.siwe_nonces a = some n → (a,n) ∈ issues s.log
  unused : ∀ a n, s.siwe_nonces a = some n → n ∉ (logins s.log).map Login.nonce
  nodup : ((logins s.log).map Login.nonce).Nodup
  sound : ∀ later l earlier, s.log = later ++ .verified l :: earlier →
    Checked env l.message l.signature l.address l.nonce ∧ (l.address,l.nonce) ∈ issues earlier

namespace Inv
variable {env : Env} {s s' : Shared ι}

/-- A nonce that was used was issued. -/
theorem used_issued (h : Inv env s) {n : String} (hn : n ∈ (logins s.log).map Login.nonce) :
    n ∈ (issues s.log).map Prod.snd := by
  obtain ⟨l,hl,rfl⟩ := List.mem_map.mp hn
  obtain ⟨later,earlier,hlog⟩ := List.append_of_mem (mem_logins.mp hl)
  have hissued := (h.sound later l earlier hlog).2
  rw [hlog, issues_append]
  exact List.mem_map.mpr ⟨_,List.mem_append_right _ hissued,rfl⟩

/-- An event other than a login leaves the logins alone. -/
theorem sound_cons (h : Inv env s) {e : Event ι} (he : ∀ l, e ≠ .verified l)
    (later : List (Event ι)) (l : Login ι) (earlier : List (Event ι))
    (hlog : e :: s.log = later ++ .verified l :: earlier) :
    Checked env l.message l.signature l.address l.nonce ∧ (l.address,l.nonce) ∈ issues earlier := by
  cases later with
  | nil => exact absurd (List.cons.inj hlog).1 (he l)
  | cons _ later => exact h.sound later l earlier (List.cons.inj hlog).2

theorem failed (h : Inv env s) {i : ι} {e : ApiError} (hlog : s'.log = .failed i e :: s.log)
    (hmap : ∀ a n, s'.siwe_nonces a = some n → s.siwe_nonces a = some n) : Inv env s' where
  issued a n hn := by
    rw [hlog]
    exact h.issued a n (hmap a n hn)
  unused a n hn := by
    rw [hlog]
    exact h.unused a n (hmap a n hn)
  nodup := by
    rw [hlog]
    exact h.nodup
  sound := by
    rw [hlog]
    exact h.sound_cons (by simp)

/-- A new nonce replaces the one its address had. -/
theorem issue (h : Inv env s) {address nonce : String}
    (hmap : s'.siwe_nonces = Function.update s.siwe_nonces address (some nonce))
    (hlog : s'.log = .issued address nonce :: s.log) (hdistinct : Distinct s'.log) :
    Inv env s' := by
  have hfresh : nonce ∉ (logins s.log).map Login.nonce := by
    rw [hlog] at hdistinct
    exact fun hn => (List.nodup_cons.mp hdistinct).1 (h.used_issued hn)
  have hget (a n : String) (hn : s'.siwe_nonces a = some n) :
      (a,n) = (address,nonce) ∨ s.siwe_nonces a = some n := by
    rw [hmap] at hn
    by_cases ha : a = address
    · subst ha
      rw [Function.update_self] at hn
      cases hn
      exact .inl rfl
    · rw [Function.update_of_ne ha] at hn
      exact .inr hn
  refine ⟨?_,?_,by rw [hlog]; exact h.nodup,by rw [hlog]; exact h.sound_cons (by simp)⟩
  · intro a n hn
    rw [hlog, issues, List.mem_cons]
    obtain he | hold := hget a n hn
    · exact .inl he
    · exact .inr (h.issued a n hold)
  · intro a n hn
    rw [hlog]
    change n ∉ (logins s.log).map Login.nonce
    obtain he | hold := hget a n hn
    · cases he
      exact hfresh
    · exact h.unused a n hold

/-- A login uses up the nonce that its address had. -/
theorem login (h : Inv env s) {i : ι} {message signature address nonce : String}
    (hchecked : Checked env message signature address nonce)
    (hget : s.siwe_nonces address = some nonce)
    (hmap : s'.siwe_nonces = Function.update s.siwe_nonces address none)
    (hlog : s'.log = .verified ⟨i,message,signature,address,nonce⟩ :: s.log)
    (hdistinct : Distinct s.log) : Inv env s' := by
  have hissued := h.issued address nonce hget
  have hother (a n : String) (hn : s'.siwe_nonces a = some n) :
      s.siwe_nonces a = some n ∧ a ≠ address := by
    rw [hmap] at hn
    by_cases ha : a = address
    · subst ha
      rw [Function.update_self] at hn
      cases hn
    · rw [Function.update_of_ne ha] at hn
      exact ⟨hn,ha⟩
  refine ⟨?_,?_,?_,?_⟩
  · intro a n hn
    rw [hlog]
    exact h.issued a n (hother a n hn).1
  · intro a n hn
    obtain ⟨hold,ha⟩ := hother a n hn
    rw [hlog, logins, List.map_cons, List.mem_cons, not_or]
    refine ⟨?_,h.unused a n hold⟩
    -- the nonce of another address is another nonce
    rintro rfl
    have hpair := List.inj_on_of_nodup_map hdistinct (h.issued a _ hold) hissued rfl
    exact ha (congrArg Prod.fst hpair)
  · rw [hlog, logins, List.map_cons, List.nodup_cons]
    exact ⟨h.unused address nonce hget,h.nodup⟩
  · intro later l earlier hsplit
    rw [hlog] at hsplit
    cases later with
    | nil =>
      obtain ⟨he,rfl⟩ := List.cons.inj hsplit
      cases he
      exact ⟨hchecked,hissued⟩
    | cons _ later => exact h.sound later l earlier (List.cons.inj hsplit).2

end Inv

/-- The debit sections that wait come from checks that have passed. -/
def Prepared (env : Env) (c : Pool ι Section (Shared ι)) : Prop :=
  ∀ i, ∀ w ∈ c.pending i, ∀ message signature address nonce,
    w = .consume message signature address nonce → Checked env message signature address nonce

/-- A call that has not started. -/
def Section.Fresh : Section → Prop
  | .consume .. => False
  | _ => True

/-- No nonce is issued yet, and no call has started. -/
structure Start (c : Pool ι Section (Shared ι)) : Prop where
  nonces : c.shared.siwe_nonces = fun _ => none
  log : c.shared.log = []
  fresh : ∀ i, ∀ w ∈ c.pending i, w.Fresh

theorem Start.prepared {c : Pool ι Section (Shared ι)} (h : Start c) (env : Env) :
    Prepared env c := by
  rintro i w hw message signature address nonce rfl
  exact (h.fresh i _ hw).elim

theorem Start.inv {c : Pool ι Section (Shared ι)} (h : Start c) (env : Env) :
    Inv env c.shared where
  issued a n hn := by
    rw [h.nonces] at hn
    cases hn
  unused a n hn := by
    rw [h.nonces] at hn
    cases hn
  nodup := by
    rw [h.log]
    exact List.nodup_nil
  sound later l earlier hlog := by
    rw [h.log] at hlog
    simp at hlog

variable [DecidableEq ι]

theorem step_prepared {env : Env} {c : Pool ι Section (Shared ι)} {i : ι} {w : Section}
    {ws new : List Section} {s : Shared ι} (h : Prepared env c) (hp : c.pending i = w :: ws)
    (hs : perform env i w c.shared = some (s,new)) :
    Prepared env ⟨s,Function.update c.pending i (new++ws)⟩ := by
  intro j x hx message signature address nonce hxe
  obtain hold | ⟨-,hnew⟩ := Pool.mem_pending_update hp hx
  · exact h j x hold message signature address nonce hxe
  · obtain ⟨m,g,a,n,rfl,hchecked⟩ := perform_new hs hnew
    cases hxe
    exact hchecked

omit [DecidableEq ι] in
theorem step_inv {env : Env} {c : Pool ι Section (Shared ι)} {i : ι} {w : Section}
    {ws new : List Section} {s : Shared ι} (hprep : Prepared env c)
    (h : Distinct c.shared.log → Inv env c.shared) (hp : c.pending i = w :: ws)
    (hs : perform env i w c.shared = some (s,new)) (hdistinct : Distinct s.log) : Inv env s := by
  obtain ⟨hmap,hlog | ⟨e,hlog⟩⟩ | ⟨address,nonce,hmap,hlog⟩ |
    ⟨message,signature,address,nonce,rfl,hmap,⟨hget,hlog⟩ | ⟨e,hlog⟩⟩ := perform_cases hs
  · obtain ⟨nonces,log⟩ := s
    dsimp only at hmap hlog hdistinct
    subst hmap hlog
    exact h hdistinct
  · refine (h ?_).failed hlog fun a n hn => hmap ▸ hn
    rw [hlog] at hdistinct
    exact hdistinct.of_cons
  · refine (h ?_).issue hmap hlog hdistinct
    rw [hlog] at hdistinct
    exact hdistinct.of_cons
  · rw [hlog] at hdistinct
    have hchecked := hprep i _ (hp ▸ List.mem_cons_self) _ _ _ _ rfl
    exact (h hdistinct.of_cons).login hchecked hget hmap hlog hdistinct.of_cons
  · rw [hlog] at hdistinct
    refine (h hdistinct.of_cons).failed hlog fun a n hn => ?_
    rw [hmap] at hn
    by_cases ha : a = address
    · subst ha
      rw [Function.update_self] at hn
      cases hn
    · rwa [Function.update_of_ne ha] at hn

theorem run_inv {env : Env} {c : Pool ι Section (Shared ι)} (hc : Start c) (is : List ι)
    (hdistinct : Distinct (c.run (perform env) is).shared.log) :
    Inv env (c.run (perform env) is).shared := by
  refine (Pool.run_invariant
    (P := fun c => Prepared env c ∧ (Distinct c.shared.log → Inv env c.shared))
    (R := fun _ _ => True) ?_ ⟨hc.prepared env,fun _ => hc.inv env⟩ fun _ _ _ => trivial).2
    hdistinct
  intro c i w ws s new h _ hp hs
  exact ⟨step_prepared h.1 hp hs,step_inv h.1 h.2 hp hs⟩

namespace Inv
variable {env : Env} {s : Shared ι}

omit [DecidableEq ι]

/-- No other login has the nonce. -/
theorem nonce_ne (h : Inv env s) {later earlier : List (Event ι)} {l l' : Login ι}
    (hlog : s.log = later ++ .verified l :: earlier) (hl' : .verified l' ∈ later ++ earlier) :
    l'.nonce ≠ l.nonce := by
  have hnodup := h.nodup
  have hlogins : logins s.log = logins later ++ l :: logins earlier := by
    rw [hlog, logins_append]
    rfl
  rw [hlogins, List.map_append, List.map_cons, List.nodup_middle, List.nodup_cons] at hnodup
  rw [← mem_logins, logins_append] at hl'
  rw [← List.map_append] at hnodup
  exact fun he => hnodup.1 (List.mem_map.mpr ⟨l',hl',he⟩)

theorem checked_of_mem (h : Inv env s) {l : Login ι} (hl : l ∈ logins s.log) :
    Checked env l.message l.signature l.address l.nonce ∧ (l.address,l.nonce) ∈ issues s.log := by
  obtain ⟨later,earlier,hlog⟩ := List.append_of_mem (mem_logins.mp hl)
  obtain ⟨hchecked,hissued⟩ := h.sound later l earlier hlog
  refine ⟨hchecked,?_⟩
  rw [hlog, issues_append]
  exact List.mem_append_right _ hissued

/-- Logins of an address use up as many of its nonces. -/
theorem length_logins_le (h : Inv env s) (a : String) :
    ((logins s.log).filter fun l => l.address = a).length ≤
      ((issues s.log).filter fun p => p.1 = a).length := by
  have hnodup : (((logins s.log).filter fun l => l.address = a).map Login.nonce).Nodup :=
    h.nodup.sublist (List.filter_sublist.map _)
  have hsub : (((logins s.log).filter fun l => l.address = a).map Login.nonce) ⊆
      ((issues s.log).filter fun p => p.1 = a).map Prod.snd := by
    intro n hn
    obtain ⟨l,hl,rfl⟩ := List.mem_map.mp hn
    simp only [List.mem_filter, decide_eq_true_eq] at hl
    refine List.mem_map.mpr ⟨(l.address,l.nonce),?_,rfl⟩
    simp only [List.mem_filter, decide_eq_true_eq]
    exact ⟨(h.checked_of_mem hl.1).2,hl.2⟩
  simpa using (hnodup.subperm hsub).length_le

/-- Logins with one message have one nonce, so they are one login. -/
theorem length_replays_le (h : Inv env s) (message signature : String) :
    ((logins s.log).filter fun l => l.message = message ∧ l.signature = signature).length ≤ 1 := by
  have hnodup : (((logins s.log).filter fun l => l.message = message ∧
      l.signature = signature).map Login.nonce).Nodup := h.nodup.sublist (List.filter_sublist.map _)
  have hsame (n : String) (hn : n ∈ ((logins s.log).filter fun l => l.message = message ∧
      l.signature = signature).map Login.nonce) : parseSiweNonce message = some n := by
    obtain ⟨l,hl,rfl⟩ := List.mem_map.mp hn
    simp only [List.mem_filter, decide_eq_true_eq] at hl
    have hparsed := (h.checked_of_mem hl.1).1.parsed
    rwa [hl.2.1] at hparsed
  rw [← List.length_map Login.nonce]
  generalize (((logins s.log).filter fun l => l.message = message ∧
    l.signature = signature).map Login.nonce) = ns at hnodup hsame
  match ns with
  | [] => simp
  | [_] => simp
  | n :: n' :: ns =>
    have heq : n = n' := by
      have h₁ := hsame n (by simp)
      rw [hsame n' (by simp)] at h₁
      exact (Option.some.inj h₁).symm
    simp [heq] at hnodup

end Inv

omit [DecidableEq ι] in
theorem mem_issues {a n : String} {log : List (Event ι)} :
    (a,n) ∈ issues log ↔ .issued a n ∈ log := by
  induction log with
  | nil => simp [issues]
  | cons e log ih => cases e <;> simp [issues, ih]

/-- Every login is by a signature over its message that recovers to its address, and uses up a
nonce that was issued for the address before, stands in a `Nonce` line of the message and is used
by no other login. So an address has no more logins than nonces, and a message no more than one. -/
theorem siwe_sound (env : Env) (c : Pool ι Section (Shared ι)) (hc : Start c) (is : List ι)
    (hdistinct : Distinct (c.run (perform env) is).shared.log) :
    let log := (c.run (perform env) is).shared.log
    (∀ later l earlier, log = later ++ .verified l :: earlier →
      env.recover l.message l.signature = some l.address ∧
      .issued l.address l.nonce ∈ earlier ∧
      (∃ line ∈ lines l.message, "Nonce: ".toList <+: line ∧ l.nonce.toList <:+: line) ∧
      ∀ l', .verified l' ∈ later ++ earlier → l'.nonce ≠ l.nonce) ∧
    (∀ a, ((logins log).filter fun l => l.address = a).length ≤
      ((issues log).filter fun p => p.1 = a).length) ∧
    ∀ message signature, ((logins log).filter fun l =>
      l.message = message ∧ l.signature = signature).length ≤ 1 := by
  have h := run_inv hc is hdistinct
  refine ⟨?_,h.length_logins_le,h.length_replays_le⟩
  intro later l earlier hlog
  obtain ⟨hchecked,hissued⟩ := h.sound later l earlier hlog
  exact ⟨hchecked.recovered,mem_issues.mp hissued,taggedLine_eq_some hchecked.parsed,
    fun l' hl' => h.nonce_ne hlog hl'⟩

def aliceAddress : String := "0x00000000000000000000000000000000000000aa"

def aliceMessage : String :=
  "perplex wants you to sign in\nAddress: 0x00000000000000000000000000000000000000aa\nNonce: 01J"

/-- Alice's key has signed her message, and `lower` leaves it alone. -/
def aliceEnv : Env where
  recover := fun m g => if m = aliceMessage ∧ g = "0x5e" then some aliceAddress else none
  lower := id

/-- She asks for a nonce and sends the same message twice, by two calls. -/
def aliceCalls : Pool ℕ Section (Shared ℕ) where
  shared := ⟨fun _ => none,[]⟩
  pending := fun i =>
    if i = 0 then [.siweNonce aliceAddress "01J",.verify aliceMessage "0x5e"]
    else if i = 1 then [.verify aliceMessage "0x5e"]
    else []

theorem aliceCalls_start : Start aliceCalls where
  nonces := rfl
  log := rfl
  fresh := by
    intro i w hw
    simp only [aliceCalls] at hw
    split_ifs at hw
    · simp only [List.mem_cons, List.not_mem_nil, or_false] at hw
      obtain rfl | rfl := hw <;> trivial
    · rw [List.mem_singleton.mp hw]
      trivial
    · cases hw

theorem siwe_sound_aliceCalls :
    (aliceCalls.run (perform aliceEnv) [0,1,0,0,1]).shared.log =
        [.failed 1 (.unauthorized "nonce not issued or already used"),
          .verified ⟨0,aliceMessage,"0x5e",aliceAddress,"01J"⟩,.issued aliceAddress "01J"] ∧
      ((logins (aliceCalls.run (perform aliceEnv) [0,1,0,0,1]).shared.log).filter fun l =>
        l.message = aliceMessage ∧ l.signature = "0x5e").length ≤ 1 := by
  have hlog : (aliceCalls.run (perform aliceEnv) [0,1,0,0,1]).shared.log =
      [.failed 1 (.unauthorized "nonce not issued or already used"),
        .verified ⟨0,aliceMessage,"0x5e",aliceAddress,"01J"⟩,.issued aliceAddress "01J"] := by
    decide +kernel
  refine ⟨hlog,(siwe_sound aliceEnv aliceCalls aliceCalls_start [0,1,0,0,1] ?_).2.2 _ _⟩
  rw [hlog]
  exact List.nodup_singleton _

end Perplex.Siwe
