import Perplex.SiweNonces

/-! Sessions of the edge: `siwe_verify` gives a login its token, and every authenticated request
is checked for one (`auth.rs`, `handlers.rs`). The router is the one without the route that hands
out tokens for development. -/
namespace Perplex.Siwe

structure Claims where
  sub : String
  exp : ℕ
  iat : ℕ
deriving DecidableEq, Repr

def JWT_TTL_SECS : ℕ := 3600

/-- `Validation::default()` forgives a token this long. -/
def LEEWAY_SECS : ℕ := 60

/-- The token library under the server's secret. What `decode` makes of a text that it did not
encode is left open; its own tokens are decoded until they have expired for longer than the
leeway. -/
structure Jwt where
  encode : Claims → String
  decode : String → ℕ → Except String Claims
  decode_encode : ∀ claims now, decode (encode claims) now =
    if claims.exp < now-LEEWAY_SECS then .error "ExpiredSignature" else .ok claims

section Calls
variable (env : Env) (jwt : Jwt)

/-- The token and the time at which it expires. -/
def issueJwt (address : String) (now : ℕ) : String × ℕ :=
  let exp := now+JWT_TTL_SECS
  (jwt.encode ⟨env.lower address, exp, now⟩,exp)

def verifyJwt (token : String) (now : ℕ) : Except ApiError Claims :=
  match jwt.decode token now with
  | .error e => .error (.unauthorized ("jwt: " ++ e))
  | .ok claims => .ok claims

/-- `HeaderValue::to_str`. -/
def visibleAscii (c : Char) : Bool := c = '\t' || 32 ≤ c.toNat && c.toNat < 127

/-- The token of the `Authorization` header. -/
def bearer (header : Option String) : Except ApiError String :=
  match header with
  | none => .error (.unauthorized "missing bearer")
  | some header =>
    if !header.toList.all visibleAscii then .error (.unauthorized "bad header")
    else if "Bearer ".toList.isPrefixOf header.toList then
      .ok (String.ofList (header.toList.drop 7))
    else .error (.unauthorized "bad scheme")

/-- `AuthedUser::from_request_parts`: the address the request acts for. -/
def authedUser (header : Option String) (now : ℕ) : Except ApiError String := do
  let token ← bearer header
  let claims ← verifyJwt jwt token now
  return env.lower claims.sub

end Calls

/-- A token of the library's own acts for its subject until its time is over. -/
theorem authedUser_encode (env : Env) {jwt : Jwt} {header : Option String} {claims : Claims}
    (hbearer : bearer header = .ok (jwt.encode claims)) (now : ℕ) : authedUser env jwt header now =
      if claims.exp < now-LEEWAY_SECS then .error (.unauthorized "jwt: ExpiredSignature")
      else .ok (env.lower claims.sub) := by
  rw [authedUser, hbearer]
  change (verifyJwt jwt (jwt.encode claims) now >>= fun claims => pure (env.lower claims.sub)) = _
  rw [verifyJwt, jwt.decode_encode]
  split_ifs <;> rfl

/-- A token that was handed out, with the login it was for. -/
structure Session (ι : Type) where
  login : Login ι
  token : String
  issuedAt : ℕ
  expiresAt : ℕ
deriving DecidableEq

structure Sessions (ι : Type) where
  pool : Pool ι Section (Shared ι)
  issued : List (Session ι)

/-- A section of a call runs, a verified call returns its token, or a request comes in. -/
inductive Turn (ι : Type) where
  | siwe (i : ι)
  | token (l : Login ι) (now : ℕ)
  | request (header : Option String) (now : ℕ)

namespace Sessions
variable {ι : Type} [DecidableEq ι] (env : Env) (jwt : Jwt)

def step (s : Sessions ι) : Turn ι → Sessions ι
  | .siwe i => { s with pool := s.pool.step (perform env) i }
  | .token l now =>
    -- the call has been verified and has not returned yet
    if .verified l ∈ s.pool.shared.log ∧ l ∉ s.issued.map Session.login then
      let (token,exp) := issueJwt env jwt (env.lower l.address) now
      { s with issued := ⟨l, token, now, exp⟩ :: s.issued }
    else s
  | .request .. => s

def run (s : Sessions ι) (turns : List (Turn ι)) : Sessions ι := turns.foldl (step env jwt) s

def start (c : Pool ι Section (Shared ι)) : Sessions ι := ⟨c,[]⟩

/-- Every token was made for a verified login, one for each. -/
structure Sound (s : Sessions ι) : Prop where
  verified : ∀ x ∈ s.issued, .verified x.login ∈ s.pool.shared.log
  made : ∀ x ∈ s.issued,
    (x.token,x.expiresAt) = issueJwt env jwt (env.lower x.login.address) x.issuedAt
  nodup : (s.issued.map Session.login).Nodup

variable {env jwt} {s : Sessions ι}

omit [DecidableEq ι] in
theorem sound_start (env : Env) (jwt : Jwt) (c : Pool ι Section (Shared ι)) :
    (start c).Sound env jwt :=
  ⟨by simp [start],by simp [start],List.nodup_nil⟩

/-- The log of the calls only grows. -/
theorem log_step (c : Pool ι Section (Shared ι)) (i : ι) :
    c.shared.log <:+ (c.step (perform env) i).shared.log := by
  rcases c.step_cases (perform env) i with he | ⟨w, ws, s, new, -, hs, he⟩
  · have hsame : (c.step (perform env) i).shared.log = c.shared.log := by rw [he]
    exact ⟨[],hsame.symm⟩
  · rw [he]
    change c.shared.log <:+ s.log
    obtain ⟨-, hlog | ⟨e, hlog⟩⟩ | ⟨address, nonce, -, hlog⟩ |
      ⟨message, signature, address, nonce, -, -, ⟨-, hlog⟩ | ⟨e, hlog⟩⟩ := perform_cases hs
    all_goals rw [hlog]
    all_goals first
    | exact List.suffix_refl _
    | exact List.suffix_cons _ _

theorem Sound.step (h : s.Sound env jwt) (t : Turn ι) : (s.step env jwt t).Sound env jwt := by
  cases t with
  | siwe i =>
    refine ⟨fun x hx => ?_,h.made,h.nodup⟩
    exact (log_step s.pool i).subset (h.verified x hx)
  | token l now =>
    unfold Sessions.step
    dsimp only
    split_ifs with hnew
    · refine ⟨fun x hx => ?_,fun x hx => ?_,List.nodup_cons.mpr ⟨hnew.2,h.nodup⟩⟩
      · rcases List.mem_cons.mp hx with rfl | hx
        · exact hnew.1
        · exact h.verified x hx
      · rcases List.mem_cons.mp hx with rfl | hx
        · rfl
        · exact h.made x hx
    · exact h
  | request header now => exact h

theorem sound_run (h : s.Sound env jwt) (turns : List (Turn ι)) :
    (s.run env jwt turns).Sound env jwt := by
  refine foldl_invariant (P := Sound env jwt) (R := fun _ _ => True)
    (fun s t h _ => h.step t) h fun _ _ _ => trivial

/-- The calls see a schedule of their own. -/
theorem exists_pool_run (env : Env) (jwt : Jwt) (s : Sessions ι) (turns : List (Turn ι)) :
    ∃ is, (s.run env jwt turns).pool = s.pool.run (perform env) is := by
  induction turns generalizing s with
  | nil => exact ⟨[],rfl⟩
  | cons t turns ih =>
    obtain ⟨is, his⟩ := ih (s.step env jwt t)
    cases t with
    | siwe i => exact ⟨i :: is,his⟩
    | token l now =>
      refine ⟨is,his.trans ?_⟩
      unfold Sessions.step
      dsimp only
      split_ifs <;> rfl
    | request header now => exact ⟨is,his⟩

theorem log_run (env : Env) (jwt : Jwt) (s : Sessions ι) (turns : List (Turn ι)) :
    s.pool.shared.log <:+ (s.run env jwt turns).pool.shared.log := by
  induction turns generalizing s with
  | nil => exact List.suffix_refl _
  | cons t turns ih =>
    refine List.IsSuffix.trans ?_ (ih (s.step env jwt t))
    cases t with
    | siwe i => exact log_step s.pool i
    | token l now =>
      unfold Sessions.step
      dsimp only
      split_ifs <;> exact List.suffix_refl _
    | request header now => exact List.suffix_refl _

/-- The token of a request was handed out, if it is one: the library accepts no signature that
was not made with the secret. -/
def Unforged (jwt : Jwt) (s : Sessions ι) : Turn ι → Prop
  | .request header now => ∀ token claims, bearer header = .ok token →
      jwt.decode token now = .ok claims → token ∈ s.issued.map Session.token
  | _ => True

omit [DecidableEq ι] in
/-- An accepted request carries a token that is not much older than an hour. -/
theorem Sound.authedUser (h : s.Sound env jwt) {header : Option String} {now : ℕ}
    {address : String} (hunforged : Unforged jwt s (.request header now))
    (hlower : ∀ a, env.lower (env.lower a) = env.lower a)
    (hauthed : Siwe.authedUser env jwt header now = .ok address) :
    ∃ x ∈ s.issued, address = env.lower x.login.address ∧
      now ≤ x.issuedAt+JWT_TTL_SECS+LEEWAY_SECS := by
  simp only [Siwe.authedUser, chain_ok_iff] at hauthed
  obtain ⟨token, htoken, claims, hclaims, haddress⟩ := hauthed
  unfold verifyJwt at hclaims
  cases hdecode : jwt.decode token now with
  | error e =>
    rw [hdecode] at hclaims
    cases hclaims
  | ok decoded =>
    rw [hdecode] at hclaims
    obtain rfl := Except.ok.inj hclaims
    obtain ⟨x, hx, rfl⟩ := List.mem_map.mp (hunforged token decoded htoken hdecode)
    have hmade := congrArg Prod.fst (h.made x hx)
    have hencoded : x.token = jwt.encode ⟨env.lower (env.lower x.login.address),
        x.issuedAt+JWT_TTL_SECS, x.issuedAt⟩ := hmade
    rw [hencoded, jwt.decode_encode] at hdecode
    split_ifs at hdecode with hfresh
    obtain rfl := Except.ok.inj hdecode
    have hsub := Except.ok.inj haddress
    dsimp only at hsub hfresh
    rw [hlower, hlower] at hsub
    exact ⟨x,hx,hsub.symm,by omega⟩

/-- In every interleaving of logins and requests: a request acts for an address only with a token
that was handed out, at most an hour and a minute ago, to a login with a signature of this
address over its message; each login got one token, and no two of them used one nonce. -/
theorem session_from_login (env : Env) (jwt : Jwt)
    (hlower : ∀ a, env.lower (env.lower a) = env.lower a) (c : Pool ι Section (Shared ι))
    (hc : Start c) (turns : List (Turn ι))
    (hdistinct : Distinct ((start c).run env jwt turns).pool.shared.log)
    (hunforged : ∀ pre t, pre++[t] <+: turns → Unforged jwt ((start c).run env jwt pre) t) :
    (∀ pre header now address, pre++[.request header now] <+: turns →
      Siwe.authedUser env jwt header now = .ok address →
      ∃ x ∈ ((start c).run env jwt pre).issued, address = env.lower x.login.address ∧
        now ≤ x.issuedAt+JWT_TTL_SECS+LEEWAY_SECS ∧
        .verified x.login ∈ ((start c).run env jwt pre).pool.shared.log ∧
        env.recover x.login.message x.login.signature = some x.login.address) ∧
    (((start c).run env jwt turns).issued.map fun x => x.login.nonce).Nodup := by
  have hstart := sound_start env jwt c
  obtain ⟨is, his⟩ := exists_pool_run env jwt (start c) turns
  rw [his] at hdistinct
  have hinv := run_inv hc is hdistinct
  constructor
  · intro pre header now address hpre hauthed
    have hsound := sound_run hstart pre
    obtain ⟨x, hx, haddress, hnow⟩ :=
      hsound.authedUser (hunforged pre _ hpre) hlower hauthed
    have hverified := hsound.verified x hx
    refine ⟨x,hx,haddress,hnow,hverified,?_⟩
    -- the login is still in the log at the end
    obtain ⟨rest, hrest⟩ := (List.prefix_append pre [Turn.request header now]).trans hpre
    have hlater := log_run env jwt ((start c).run env jwt pre) rest
    have hall : ((start c).run env jwt pre).run env jwt rest = (start c).run env jwt turns := by
      rw [← hrest, run, run, run, List.foldl_append]
    rw [hall, his] at hlater
    exact (hinv.checked_of_mem (mem_logins.mpr (hlater.subset hverified))).1.recovered
  · have hsound := sound_run hstart turns
    have hinjective := List.inj_on_of_nodup_map hinv.nodup
    have hmem (x : Session ι) (hx : x ∈ ((start c).run env jwt turns).issued) :
        x.login ∈ logins (c.run (perform env) is).shared.log := by
      have hverified := hsound.verified x hx
      rw [his] at hverified
      exact mem_logins.mpr hverified
    have hmap : ((start c).run env jwt turns).issued.map (fun x => x.login.nonce) =
        (((start c).run env jwt turns).issued.map Session.login).map Login.nonce := by
      rw [List.map_map]
      rfl
    rw [hmap]
    refine List.Nodup.map_on ?_ hsound.nodup
    intro l hl l' hl' hnonce
    obtain ⟨x, hx, rfl⟩ := List.mem_map.mp hl
    obtain ⟨x', hx', rfl⟩ := List.mem_map.mp hl'
    exact hinjective (hmem x hx) (hmem x' hx') hnonce

end Sessions

/-- A token in unary: `exp` and `iat` as runs of one letter, then the subject. -/
def unary (n : ℕ) (rest : List Char) : List Char := List.replicate n 'a' ++ ('.' :: rest)

def unaryJwt : Jwt where
  encode claims := String.ofList (unary claims.exp (unary claims.iat claims.sub.toList))
  decode token now :=
    let exp := token.toList.takeWhile (· = 'a')
    let rest := (token.toList.dropWhile (· = 'a')).drop 1
    let iat := rest.takeWhile (· = 'a')
    let sub := (rest.dropWhile (· = 'a')).drop 1
    if token.toList = unary exp.length (unary iat.length sub) then
      if exp.length < now-LEEWAY_SECS then .error "ExpiredSignature"
      else .ok ⟨String.ofList sub, exp.length, iat.length⟩
    else .error "InvalidToken"
  decode_encode claims now := by
    simp [unary]

/-- The header of a token is read back. -/
theorem bearer_append {token : String} (h : token.toList.all visibleAscii = true) :
    bearer (some ("Bearer " ++ token)) = .ok token := by
  have hscheme : "Bearer ".toList.all visibleAscii = true := by decide
  have hprefix : "Bearer ".toList.isPrefixOf ("Bearer ".toList++token.toList) = true :=
    List.isPrefixOf_iff_prefix.mpr (List.prefix_append _ _)
  have hdrop : ("Bearer ".toList++token.toList).drop 7 = token.toList :=
    List.drop_left' (by decide)
  simp only [bearer, String.toList_append, List.all_append, hscheme, h, hprefix, hdrop,
    String.ofList_toList, Bool.and_self, Bool.not_true, Bool.false_eq_true, if_false, if_true]

def aliceToken : String := unaryJwt.encode ⟨aliceAddress, 3600, 0⟩

/-- She logs in at time zero and uses the token for as long as it is taken. -/
def aliceTurns : List (Turn ℕ) :=
  [.siwe 0, .siwe 0, .siwe 0, .token ⟨0,aliceMessage,"0x5e",aliceAddress,"01J"⟩ 0,
   .request (some ("Bearer " ++ aliceToken)) 3660]

theorem bearer_aliceToken : bearer (some ("Bearer " ++ aliceToken)) = .ok aliceToken := by
  apply bearer_append
  have hname : aliceAddress.toList.all visibleAscii = true := by decide +kernel
  have hletters : visibleAscii 'a' = true ∧ visibleAscii '.' = true := by decide
  simp only [aliceToken, unaryJwt, unary, String.toList_ofList, List.all_append, List.all_cons,
    List.all_replicate, hletters, hname]
  decide

theorem session_from_login_alice :
    authedUser aliceEnv unaryJwt (some ("Bearer " ++ aliceToken)) 3660 = .ok aliceAddress ∧
    authedUser aliceEnv unaryJwt (some ("Bearer " ++ aliceToken)) 3661 =
      .error (.unauthorized "jwt: ExpiredSignature") ∧
    ∃ x ∈ ((Sessions.start aliceCalls).run aliceEnv unaryJwt (aliceTurns.take 4)).issued,
      aliceEnv.recover x.login.message x.login.signature = some x.login.address := by
  have hverify (now : ℕ) := authedUser_encode aliceEnv bearer_aliceToken now
  have haccepted := hverify 3660
  rw [if_neg (by decide)] at haccepted
  refine ⟨haccepted,by rw [hverify, if_pos (by decide)],?_⟩
  have hlog : ((Sessions.start aliceCalls).run aliceEnv unaryJwt aliceTurns).pool.shared.log =
      [.verified ⟨0,aliceMessage,"0x5e",aliceAddress,"01J"⟩,.issued aliceAddress "01J"] := by
    decide +kernel
  have hsession := (Sessions.session_from_login aliceEnv unaryJwt (fun _ => rfl) aliceCalls
    aliceCalls_start aliceTurns (by rw [hlog]; exact List.nodup_singleton _) ?_).1
    (aliceTurns.take 4) _ 3660 aliceAddress (List.prefix_refl _) haccepted
  · obtain ⟨x, hx, -, -, -, hrecovered⟩ := hsession
    exact ⟨x,hx,hrecovered⟩
  · refine forall_request_cons trivial (forall_request_cons trivial (forall_request_cons trivial
      (forall_request_cons trivial (forall_request_cons ?_ forall_request_nil))))
    intro token claims htoken _
    obtain rfl := Except.ok.inj (bearer_aliceToken.symm.trans htoken)
    have hissued : ((Sessions.start aliceCalls).run aliceEnv unaryJwt
        (aliceTurns.take 4)).issued.map (fun x => (x.login,x.issuedAt)) =
        [(⟨0,aliceMessage,"0x5e",aliceAddress,"01J"⟩,0)] := by
      decide +kernel
    obtain ⟨x, hx, heq⟩ := List.mem_map.mp (hissued ▸ List.mem_singleton_self _)
    obtain ⟨hlogin, htime⟩ := Prod.mk.inj heq
    have hsound := Sessions.sound_run (Sessions.sound_start aliceEnv unaryJwt aliceCalls)
      (aliceTurns.take 4)
    have hmade := congrArg Prod.fst (hsound.made x hx)
    rw [hlogin, htime] at hmade
    exact List.mem_map.mpr ⟨x,hx,hmade⟩

end Perplex.Siwe
