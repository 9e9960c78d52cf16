import Perplex.EdgeSessions
import Perplex.RateLimit

/-! The rate limit in front of every request (`rate_limit_layer`): callers with a token have a
bucket for their wallet, the others one for their address, in the bucket of the process. -/
namespace Perplex.RateLimit
open TokenBucket Siwe

structure RateLimiter where
  public_limit : Limit
  authed_limit : Limit

def RateLimiter.in_memory : RateLimiter := ⟨.PUBLIC,.AUTHED⟩

/-- A request with the text of its peer's address and the reading of the clock. -/
structure Request where
  peer : String
  header : Option String
  now_ms : ℕ

section Layer
variable (jwt : Jwt) (limiter : RateLimiter)

/-- The bucket of a request. -/
def classify (r : Request) : String × Limit :=
  match bearer r.header with
  | .error _ => ("rl:ip:" ++ r.peer,limiter.public_limit)
  | .ok token =>
    match verifyJwt jwt token (r.now_ms/1000) with
    | .ok claims => ("rl:wallet:" ++ claims.sub,limiter.authed_limit)
    | .error _ => ("rl:ip:" ++ r.peer,limiter.public_limit)

def rateLimitLayer (inner : Inner) (r : Request) : CheckResult × Inner :=
  let (key,limit) := classify jwt limiter r
  InMemoryBucket.check inner key limit r.now_ms

/-- The buckets after the requests. -/
def serve (inner : Inner) (rs : List Request) : Inner :=
  rs.foldl (fun inner r => (rateLimitLayer jwt limiter inner r).2) inner

end Layer

section Served
variable {jwt : Jwt}

theorem wallet_ne_ip (sub peer : String) : "rl:wallet:" ++ sub ≠ "rl:ip:" ++ peer := by
  intro h
  have hlist := congrArg String.toList h
  rw [String.toList_append, String.toList_append] at hlist
  have hfourth := congrArg (fun l : List Char => l[3]?) hlist
  simp at hfourth

/-- A key goes with one limit, which lets a request a second through at least. -/
theorem classify_cases (jwt : Jwt) (r : Request) :
    ((∃ sub, (classify jwt .in_memory r).1 = "rl:wallet:" ++ sub) ∧
        (classify jwt .in_memory r).2 = .AUTHED) ∨
      (∃ peer, (classify jwt .in_memory r).1 = "rl:ip:" ++ peer) ∧
        (classify jwt .in_memory r).2 = .PUBLIC := by
  unfold classify
  split
  · exact .inr ⟨⟨_,rfl⟩,rfl⟩
  · split
    · exact .inl ⟨⟨_,rfl⟩,rfl⟩
    · exact .inr ⟨⟨_,rfl⟩,rfl⟩

theorem classify_limit {r r' : Request}
    (h : (classify jwt .in_memory r').1 = (classify jwt .in_memory r).1) :
    (classify jwt .in_memory r').2 = (classify jwt .in_memory r).2 := by
  rcases classify_cases jwt r with ⟨⟨sub, hkey⟩, hlimit⟩ | ⟨⟨peer, hkey⟩, hlimit⟩ <;>
    rcases classify_cases jwt r' with ⟨⟨sub', hkey'⟩, hlimit'⟩ | ⟨⟨peer', hkey'⟩, hlimit'⟩
  · rw [hlimit, hlimit']
  · rw [hkey, hkey'] at h
    exact absurd h.symm (wallet_ne_ip sub peer')
  · rw [hkey, hkey'] at h
    exact absurd h (wallet_ne_ip sub' peer)
  · rw [hlimit, hlimit']

theorem classify_rate (jwt : Jwt) (r : Request) :
    1 ≤ (classify jwt .in_memory r).2.cap ∧ 1/10 ≤ (classify jwt .in_memory r).2.rate := by
  have hnumbers : (2000 : UInt32).toNat = 2000 ∧ (1000 : UInt32).toNat = 1000 ∧
      (200 : UInt32).toNat = 200 ∧ (100 : UInt32).toNat = 100 := by decide
  rcases classify_cases jwt r with ⟨-, hlimit⟩ | ⟨-, hlimit⟩ <;> rw [hlimit]
  · constructor <;> norm_num [Limit.cap, Limit.rate, Limit.AUTHED, hnumbers]
  · constructor <;> norm_num [Limit.cap, Limit.rate, Limit.PUBLIC, hnumbers]

theorem layer_eq (inner : Inner) (r : Request) :
    (rateLimitLayer jwt .in_memory inner r).1.isOk =
        (draw (inner (classify jwt .in_memory r).1) (classify jwt .in_memory r).2 r.now_ms).1 ∧
      (rateLimitLayer jwt .in_memory inner r).2 =
        Function.update inner (classify jwt .in_memory r).1
          (some ((draw (inner (classify jwt .in_memory r).1)
            (classify jwt .in_memory r).2 r.now_ms).2.tokens,r.now_ms)) :=
  memory_check inner (classify jwt .in_memory r).1 (classify jwt .in_memory r).2 r.now_ms

/-- No bucket is in debt. -/
def NoDebt (inner : Inner) : Prop := ∀ key p, inner key = some p → 0 ≤ p.1

theorem draw_nonneg {bucket : Option (ℚ × ℕ)} (h : ∀ p, bucket = some p → 0 ≤ p.1)
    (limit : Limit) (now : ℕ) : 0 ≤ (draw bucket limit now).2.tokens :=
  (take_bounds now limit.cap_nonneg limit.rate_nonneg (level_nonneg limit now h)).1

theorem noDebt_layer {inner : Inner} (h : NoDebt inner) (r : Request) :
    NoDebt (rateLimitLayer jwt .in_memory inner r).2 := by
  intro key p hp
  rw [(layer_eq inner r).2] at hp
  by_cases hk : key = (classify jwt .in_memory r).1
  · subst hk
    rw [Function.update_self] at hp
    obtain rfl := Option.some.inj hp
    exact draw_nonneg (h _) _ _
  · rw [Function.update_of_ne hk] at hp
    exact h key p hp

theorem noDebt_serve (jwt : Jwt) (rs : List Request) :
    NoDebt (serve jwt .in_memory (fun _ => none) rs) := by
  refine foldl_invariant (P := NoDebt) (R := fun _ _ => True)
    (fun inner r h _ => noDebt_layer h r) ?_ fun _ _ _ => trivial
  intro key p hp
  cases hp

/-- The wait that a denial tells is one second. -/
theorem retry_after_eq {inner : Inner} (h : NoDebt inner) {r : Request} {denied : Denied}
    (hdenied : (rateLimitLayer jwt .in_memory inner r).1 = .error denied) :
    denied.retry_after_secs = 1 := by
  obtain ⟨hcap, hrate⟩ := classify_rate jwt r
  unfold rateLimitLayer at hdenied
  dsimp only at hdenied
  generalize (classify jwt .in_memory r).1 = key at hdenied
  generalize (classify jwt .in_memory r).2 = limit at hdenied hcap hrate
  have hfill := fill_eq_memory (inner key) limit r.now_ms
  have hlevel : 0 ≤ (level (inner key) limit r.now_ms).fill limit.cap limit.rate r.now_ms := by
    refine le_min limit.cap_nonneg (add_nonneg (level_nonneg limit _ (h key)) ?_)
    exact mul_nonneg (Nat.cast_nonneg _) limit.rate_nonneg
  have hrefill : (100 : ℚ) ≤ limit.refill_per_sec.toNat := by
    unfold Limit.rate at hrate
    linarith
  simp only [InMemoryBucket.check, hfill] at hdenied
  split_ifs at hdenied with hfull hzero
  · rw [hzero] at hrefill
    norm_num at hrefill
  · -- less than one token is missing, and many come in a second
    have hceil : ⌈(1-(level (inner key) limit r.now_ms).fill limit.cap limit.rate r.now_ms)/
        (limit.refill_per_sec.toNat : ℚ)⌉ ≤ 1 := by
      rw [Int.ceil_le, div_le_iff₀ (by linarith)]
      push_cast
      linarith
    have hmax : max (((⌈(1-(level (inner key) limit r.now_ms).fill limit.cap limit.rate
        r.now_ms)/(limit.refill_per_sec.toNat : ℚ)⌉ : ℤ) : ℚ) : WithTop ℚ) 1 = 1 := by
      apply max_eq_right
      exact_mod_cast hceil
    obtain rfl := Except.error.inj hdenied
    dsimp only
    rw [hmax]
    change UInt32.ofNatClamp ⌊(1 : ℚ)⌋.toNat = 1
    rw [Int.floor_one]
    decide

/-- A request at reading `z` will find a token. -/
def Promised (inner : Inner) (key : String) (limit : Limit) (z : ℕ) : Prop :=
  ∃ p, inner key = some p ∧ 1 ≤ p.1+((z-p.2 : ℕ) : ℚ)*limit.rate

/-- Other requests, and denied ones of the caller, take nothing from him. -/
theorem Promised.layer {inner : Inner} {r q : Request} {z : ℕ}
    (h : Promised inner (classify jwt .in_memory r).1 (classify jwt .in_memory r).2 z)
    (hq : (classify jwt .in_memory q).1 = (classify jwt .in_memory r).1 →
      (rateLimitLayer jwt .in_memory inner q).1.isOk = false) :
    Promised (rateLimitLayer jwt .in_memory inner q).2 (classify jwt .in_memory r).1
      (classify jwt .in_memory r).2 z := by
  obtain ⟨p, hp, htokens⟩ := h
  obtain ⟨hok, hnext⟩ := @layer_eq jwt inner q
  rw [hnext]
  by_cases hkey : (classify jwt .in_memory q).1 = (classify jwt .in_memory r).1
  · obtain ⟨hcap, hrate⟩ := classify_rate jwt r
    have hnot := hq hkey
    rw [hok, hkey, classify_limit hkey, hp] at hnot
    rw [hkey, classify_limit hkey, hp]
    have hkept := le_of_not_take hcap (by linarith) hnot z
    refine ⟨_,Function.update_self ..,?_⟩
    exact htokens.trans hkept
  · exact ⟨p,by rw [Function.update_of_ne (fun he => hkey he.symm)]; exact hp,htokens⟩

/-- A caller who was denied and waits as long as he is told is served, whatever the callers of
other buckets do, when nobody is served from his own bucket meanwhile; requests in between that
are denied as well cost him nothing. -/
theorem retry_after_honest (jwt : Jwt) (before between : List Request) (r r' : Request)
    (denied : Denied)
    (hdenied : (rateLimitLayer jwt .in_memory (serve jwt .in_memory (fun _ => none) before) r).1 =
      .error denied)
    (hbetween : ∀ pre q, pre++[q] <+: between →
      (classify jwt .in_memory q).1 = (classify jwt .in_memory r).1 →
      (rateLimitLayer jwt .in_memory (serve jwt .in_memory (fun _ => none) (before++r :: pre))
        q).1.isOk = false)
    (hkey : (classify jwt .in_memory r').1 = (classify jwt .in_memory r).1)
    (hwait : r.now_ms+1000*denied.retry_after_secs.toNat ≤ r'.now_ms) :
    denied.retry_after_secs = 1 ∧
    (rateLimitLayer jwt .in_memory (serve jwt .in_memory (fun _ => none) (before++r :: between))
      r').1.isOk = true := by
  have hnoDebt := noDebt_serve jwt before
  obtain ⟨hcap, hrate⟩ := classify_rate jwt r
  have hsecs := retry_after_eq hnoDebt hdenied
  refine ⟨hsecs,?_⟩
  rw [hsecs] at hwait
  have hsecond : r.now_ms+1000 ≤ r'.now_ms := by simpa using hwait
  -- from the denial on a token is due at the later reading
  have hpromised (pre : List Request) (hpre : pre <+: between) :
      Promised (serve jwt .in_memory (fun _ => none) (before++r :: pre))
        (classify jwt .in_memory r).1 (classify jwt .in_memory r).2 r'.now_ms := by
    induction pre using List.reverseRecOn with
    | nil =>
      have hserve : serve jwt .in_memory (fun _ => none) (before++[r]) =
          (rateLimitLayer jwt .in_memory (serve jwt .in_memory (fun _ => none) before) r).2 := by
        rw [serve, List.foldl_append]
        rfl
      rw [hserve, (layer_eq _ r).2]
      refine ⟨_,Function.update_self ..,?_⟩
      have hnonneg := draw_nonneg (hnoDebt (classify jwt .in_memory r).1)
        (classify jwt .in_memory r).2 r.now_ms
      have htime : (1000 : ℚ) ≤ ((r'.now_ms-r.now_ms : ℕ) : ℚ) := by
        exact_mod_cast (by omega : 1000 ≤ r'.now_ms-r.now_ms)
      have hmul := mul_le_mul_of_nonneg_right htime (by linarith :
        0 ≤ (classify jwt .in_memory r).2.rate)
      dsimp only
      linarith
    | append_singleton pre q ih =>
      have hserve : serve jwt .in_memory (fun _ => none) (before++r :: (pre++[q])) =
          (rateLimitLayer jwt .in_memory
            (serve jwt .in_memory (fun _ => none) (before++r :: pre)) q).2 := by
        rw [← List.cons_append, ← List.append_assoc, serve, List.foldl_append]
        rfl
      rw [hserve]
      exact (ih ((List.prefix_append _ _).trans hpre)).layer (hbetween pre q hpre)
  obtain ⟨p, hp, htokens⟩ := hpromised between (List.prefix_refl _)
  rw [(layer_eq _ r').1, hkey, classify_limit hkey, hp, draw, take_fst, decide_eq_true_eq]
  exact le_min hcap htokens

end Served

/-- A caller without a token. -/
def visit (peer : String) (now_ms : ℕ) : Request := ⟨peer,none,now_ms⟩

/-- He uses up his burst, is denied, tries again too early while another caller comes in, and is
served after a second. -/
theorem retry_after_honest_visit :
    (rateLimitLayer unaryJwt .in_memory (serve unaryJwt .in_memory (fun _ => none)
      (List.replicate 200 (visit "10.0.0.1" 0))) (visit "10.0.0.1" 0)).1 = .error ⟨1⟩ ∧
    (rateLimitLayer unaryJwt .in_memory (serve unaryJwt .in_memory (fun _ => none)
      (List.replicate 200 (visit "10.0.0.1" 0)++visit "10.0.0.1" 0 ::
        [visit "10.0.0.2" 3, visit "10.0.0.1" 5])) (visit "10.0.0.1" 1000)).1.isOk = true := by
  have hdenied : (rateLimitLayer unaryJwt .in_memory (serve unaryJwt .in_memory (fun _ => none)
      (List.replicate 200 (visit "10.0.0.1" 0))) (visit "10.0.0.1" 0)).1 = .error ⟨1⟩ := by
    decide +kernel
  have hkey : (classify unaryJwt .in_memory (visit "10.0.0.1" 1000)).1 =
      (classify unaryJwt .in_memory (visit "10.0.0.1" 0)).1 := by decide +kernel
  refine ⟨hdenied,(retry_after_honest unaryJwt (List.replicate 200 (visit "10.0.0.1" 0))
    [visit "10.0.0.2" 3, visit "10.0.0.1" 5] (visit "10.0.0.1" 0) (visit "10.0.0.1" 1000) ⟨1⟩
    hdenied ?_ hkey (by decide)).2⟩
  refine forall_request_cons ?_ (forall_request_cons ?_ forall_request_nil)
  · exact fun hkey => absurd hkey (by decide +kernel)
  · exact fun _ => by decide +kernel

end Perplex.RateLimit
