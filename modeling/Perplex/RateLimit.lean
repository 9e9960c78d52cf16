import Mathlib.Algebra.Order.Floor.Ring
import Mathlib.Data.Rat.Floor
import Mathlib.Data.List.Pairwise
import Mathlib.Order.WithBot
import Perplex.TokenBucket

/-!
The edge's rate limiter: the token bucket as a script in Redis, shared by the replicas, and the
process-local bucket. Floating-point values are exact rationals. A call is made with the clock
reading of the replica; the key of the script expires by the clock of the server.
-/

namespace Perplex.RateLimit
open TokenBucket

/-- Bucket parameters per request class. -/
structure Limit where
  /-- Maximum tokens the bucket can hold. -/
  capacity : UInt32
  /-- Tokens refilled per second. -/
  refill_per_sec : UInt32
deriving DecidableEq, Repr

def Limit.PUBLIC : Limit := ⟨200,100⟩
def Limit.AUTHED : Limit := ⟨2000,1000⟩

structure Allowed where
  remaining : UInt32
deriving DecidableEq, Repr

structure Denied where
  retry_after_secs : UInt32
deriving DecidableEq, Repr

abbrev CheckResult := Except Denied Allowed

/-- What the script returns. The last number is infinite when nothing is ever refilled. -/
structure Reply where
  allowed : ℤ
  remaining : ℤ
  retry_after : WithTop ℤ

/-- The script: the hash at the key (`tokens`, `updated`) if there is one, and the hash after. -/
def tokenBucketLua (bucket : Option (ℚ × ℕ)) (now_ms capacity refill : ℕ) : Reply × (ℚ × ℕ) :=
  let (tokens,updated) := bucket.getD (capacity,now_ms)
  let elapsed_ms := max 0 ((now_ms : ℚ)-updated)
  let refilled := elapsed_ms*refill/1000
  let tokens := min (capacity : ℚ) (tokens+refilled)
  if 1 ≤ tokens then (⟨1,⌊tokens-1⌋,0⟩,(tokens-1,now_ms))
  else
    let need := 1-tokens
    let retry_after := if refill = 0 then ⊤ else ((⌈need*1000/refill/1000⌉ : ℤ) : WithTop ℤ)
    (⟨0,⌊tokens⌋,max retry_after 1⟩,(tokens,now_ms))

/-- A call: the clock reading of the replica and the server's clock. -/
structure Call where
  now_ms : ℕ
  server_ms : ℕ
deriving DecidableEq, Repr

/-- A hash in Redis with the time at which it expires. -/
structure Entry where
  hash : ℚ × ℕ
  expires : ℕ
deriving DecidableEq

abbrev Store := String → Option Entry

/-- The hash a script finds at a key. -/
def Store.hmget (store : Store) (key : String) (server_ms : ℕ) : Option (ℚ × ℕ) :=
  (store key).bind fun e => if e.expires ≤ server_ms then none else some e.hash

/-- The number as an integer reply; `inf` is what the server makes of the infinite one. -/
def toInteger (inf : ℤ) : WithTop ℤ → ℤ
  | ⊤ => inf
  | (n : ℤ) => n

def RedisBucket.check (inf : ℤ) (store : Store) (key : String) (limit : Limit) (c : Call) :
    CheckResult × Store :=
  let (res,hash) := tokenBucketLua (store.hmget key c.server_ms) c.now_ms limit.capacity.toNat
    limit.refill_per_sec.toNat
  let result : CheckResult :=
    if res.allowed = 1 then .ok ⟨UInt32.ofInt (max res.remaining 0)⟩
    else .error ⟨UInt32.ofInt (max (toInteger inf res.retry_after) 1)⟩
  (result,Function.update store key (some ⟨hash,c.server_ms+60000⟩))

/-- `f64 as u32`. -/
def asU32 : WithTop ℚ → UInt32
  | ⊤ => UInt32.ofNatClamp (2^32)
  | (x : ℚ) => UInt32.ofNatClamp ⌊x⌋.toNat

abbrev Inner := String → Option (ℚ × ℕ)

def InMemoryBucket.check (inner : Inner) (key : String) (limit : Limit) (now_ms : ℕ) :
    CheckResult × Inner :=
  let (tokens,updated) := (inner key).getD (limit.capacity.toNat,now_ms)
  let elapsed_ms := ((now_ms-updated : ℕ) : ℚ)
  let refilled := elapsed_ms*limit.refill_per_sec.toNat/1000
  let tokens := min (tokens+refilled) (limit.capacity.toNat : ℚ)
  if 1 ≤ tokens then
    (.ok ⟨asU32 ((tokens-1 : ℚ) : WithTop ℚ)⟩,Function.update inner key (some (tokens-1,now_ms)))
  else
    let need := 1-tokens
    let secs : WithTop ℚ := if limit.refill_per_sec = 0 then ⊤
      else max ((⌈need/limit.refill_per_sec.toNat⌉ : ℤ) : ℚ) 1
    (.error ⟨asU32 secs⟩,Function.update inner key (some (tokens,now_ms)))

/-- Checks of one key, one after the other, with the results. -/
def RedisBucket.checks (inf : ℤ) (store : Store) (key : String) (limit : Limit) :
    List Call → List CheckResult
  | [] => []
  | c :: cs =>
    let r := RedisBucket.check inf store key limit c
    r.1 :: RedisBucket.checks inf r.2 key limit cs

def InMemoryBucket.checks (inner : Inner) (key : String) (limit : Limit) :
    List ℕ → List CheckResult
  | [] => []
  | now_ms :: rs =>
    let r := InMemoryBucket.check inner key limit now_ms
    r.1 :: InMemoryBucket.checks r.2 key limit rs

/-- How many of the checks were allowed. -/
def allowed (rs : List CheckResult) : ℕ := (rs.map Except.isOk).count true

def Limit.cap (limit : Limit) : ℚ := limit.capacity.toNat

/-- Tokens per millisecond. -/
def Limit.rate (limit : Limit) : ℚ := limit.refill_per_sec.toNat/1000

theorem Limit.cap_nonneg (limit : Limit) : 0 ≤ limit.cap := Nat.cast_nonneg _

theorem Limit.rate_nonneg (limit : Limit) : 0 ≤ limit.rate :=
  div_nonneg (Nat.cast_nonneg _) (by norm_num)

/-- The level a check starts from; a bucket that is not there is full. -/
def level (bucket : Option (ℚ × ℕ)) (limit : Limit) (now : ℕ) : Level ℚ :=
  let p := bucket.getD (limit.cap,now)
  ⟨p.1,p.2⟩

/-- The draw of a check. -/
def draw (bucket : Option (ℚ × ℕ)) (limit : Limit) (now : ℕ) : Bool × Level ℚ :=
  (level bucket limit now).take limit.cap limit.rate now

theorem cast_sub_eq_max (a b : ℕ) : ((a-b : ℕ) : ℚ) = max 0 ((a : ℚ)-b) := by
  obtain h | h := le_total b a
  · rw [Nat.cast_sub h, max_eq_right (sub_nonneg.mpr (Nat.cast_le.mpr h))]
  · rw [Nat.sub_eq_zero_of_le h, Nat.cast_zero, max_eq_left]
    exact sub_nonpos.mpr (Nat.cast_le.mpr h)

/-- The script's token count is the level of the bucket. -/
theorem fill_eq_lua (bucket : Option (ℚ × ℕ)) (limit : Limit) (now : ℕ) :
    min (limit.capacity.toNat : ℚ) ((bucket.getD (limit.capacity.toNat,now)).1+
      max 0 ((now : ℚ)-(bucket.getD (limit.capacity.toNat,now)).2)*
        limit.refill_per_sec.toNat/1000) =
      (level bucket limit now).fill limit.cap limit.rate now := by
  simp only [Level.fill, level, Limit.cap, Limit.rate, cast_sub_eq_max, mul_div_assoc]

theorem fill_eq_memory (bucket : Option (ℚ × ℕ)) (limit : Limit) (now : ℕ) :
    min ((bucket.getD (limit.capacity.toNat,now)).1+
      ((now-(bucket.getD (limit.capacity.toNat,now)).2 : ℕ) : ℚ)*
        limit.refill_per_sec.toNat/1000) (limit.capacity.toNat : ℚ) =
      (level bucket limit now).fill limit.cap limit.rate now := by
  rw [min_comm, cast_sub_eq_max, fill_eq_lua]

theorem lua_eq (bucket : Option (ℚ × ℕ)) (limit : Limit) (now : ℕ) :
    (tokenBucketLua bucket now limit.capacity.toNat limit.refill_per_sec.toNat).2 =
        ((draw bucket limit now).2.tokens,now) ∧
      (tokenBucketLua bucket now limit.capacity.toNat limit.refill_per_sec.toNat).1.allowed =
        if (draw bucket limit now).1 then 1 else 0 := by
  simp only [tokenBucketLua, fill_eq_lua, draw, take_fst, take_tokens]
  by_cases h : 1 ≤ (level bucket limit now).fill limit.cap limit.rate now <;> simp [h]

theorem redis_check (inf : ℤ) (store : Store) (key : String) (limit : Limit) (c : Call) :
    (RedisBucket.check inf store key limit c).1.isOk =
        (draw (store.hmget key c.server_ms) limit c.now_ms).1 ∧
      (RedisBucket.check inf store key limit c).2 = Function.update store key
        (some ⟨((draw (store.hmget key c.server_ms) limit c.now_ms).2.tokens,c.now_ms),
          c.server_ms+60000⟩) := by
  obtain ⟨hhash,hallow⟩ := lua_eq (store.hmget key c.server_ms) limit c.now_ms
  simp only [RedisBucket.check, hhash, hallow, and_true]
  cases (draw (store.hmget key c.server_ms) limit c.now_ms).1 <;> simp [Except.isOk, Except.toBool]

theorem memory_check (inner : Inner) (key : String) (limit : Limit) (now : ℕ) :
    (InMemoryBucket.check inner key limit now).1.isOk = (draw (inner key) limit now).1 ∧
      (InMemoryBucket.check inner key limit now).2 =
        Function.update inner key (some ((draw (inner key) limit now).2.tokens,now)) := by
  simp only [InMemoryBucket.check, fill_eq_memory, draw, take_fst, take_tokens]
  by_cases h : 1 ≤ (level (inner key) limit now).fill limit.cap limit.rate now <;>
    simp [h, Except.isOk, Except.toBool]

/-- A call at which the hash is still there, with the expiry each call sets. -/
def Live (expires : ℕ) : List Call → Prop
  | [] => True
  | c :: cs => c.server_ms < expires ∧ Live (c.server_ms+60000) cs

/-- The key does not expire between two of the calls. -/
def NoExpiry : List Call → Prop
  | [] => True
  | c :: cs => Live (c.server_ms+60000) cs

/-- The hash a draw stored is the level the next check starts from. -/
theorem level_draw (bucket : Option (ℚ × ℕ)) (limit : Limit) (now next : ℕ) :
    level (some ((draw bucket limit now).2.tokens,now)) limit next = (draw bucket limit now).2 := by
  have h : (draw bucket limit now).2.stamp = now := take_stamp
  simp only [level, Option.getD_some]
  nth_rewrite 2 [← h]
  rfl

/-- Checks between which the key does not expire draw from one bucket. -/
theorem redis_checks_eq (inf : ℤ) (store : Store) (key : String) (limit : Limit) (c : Call)
    (cs : List Call) (hlive : NoExpiry (c :: cs)) :
    (RedisBucket.checks inf store key limit (c :: cs)).map Except.isOk =
      ((level (store.hmget key c.server_ms) limit c.now_ms).takes limit.cap limit.rate
        ((c :: cs).map Call.now_ms)).1 := by
  induction cs generalizing store c with
  | nil => simp [RedisBucket.checks, Level.takes, redis_check, draw]
  | cons c' cs ih =>
    obtain ⟨hok,hnext⟩ := redis_check inf store key limit c
    have hget : (RedisBucket.check inf store key limit c).2.hmget key c'.server_ms =
        some ((draw (store.hmget key c.server_ms) limit c.now_ms).2.tokens,c.now_ms) := by
      have hlt : ¬ c.server_ms+60000 ≤ c'.server_ms := not_le.mpr hlive.1
      rw [hnext, Store.hmget, Function.update_self, Option.bind_some, if_neg hlt]
    have hrest := ih (RedisBucket.check inf store key limit c).2 c' hlive.2
    rw [hget, level_draw] at hrest
    rw [RedisBucket.checks, List.map_cons, hok, hrest]
    rfl

theorem memory_checks_eq (inner : Inner) (key : String) (limit : Limit) (r : ℕ) (rs : List ℕ) :
    (InMemoryBucket.checks inner key limit (r :: rs)).map Except.isOk =
      ((level (inner key) limit r).takes limit.cap limit.rate (r :: rs)).1 := by
  induction rs generalizing inner r with
  | nil => simp [InMemoryBucket.checks, Level.takes, memory_check, draw]
  | cons r' rs ih =>
    obtain ⟨hok,hnext⟩ := memory_check inner key limit r
    have hrest := ih (InMemoryBucket.check inner key limit r).2 r'
    rw [hnext, Function.update_self, level_draw, ← hnext] at hrest
    rw [InMemoryBucket.checks, List.map_cons, hok, hrest]
    rfl

/-- The upward moves of the readings of the calls. -/
def climbs : List Call → ℕ
  | [] => 0
  | c :: cs => climb c.now_ms (cs.map Call.now_ms)

/-- All readings lie in the window of length `T` from `t₀` on. -/
def InWindow (t₀ T : ℕ) (cs : List Call) : Prop := ∀ c ∈ cs, t₀ ≤ c.now_ms ∧ c.now_ms ≤ t₀+T

/-- From any bucket, both implementations allow at most the capacity and the refill of time `T`. -/
def Within (limit : Limit) (T : ℕ) (cs : List Call) : Prop :=
  ∀ (inf : ℤ) (key : String) (store : Store) (inner : Inner),
    (∀ e, store key = some e → 0 ≤ e.hash.1) → (∀ p, inner key = some p → 0 ≤ p.1) →
    (allowed (RedisBucket.checks inf store key limit cs) : ℚ) ≤
        limit.capacity.toNat+limit.refill_per_sec.toNat*T/1000 ∧
      (allowed (InMemoryBucket.checks inner key limit (cs.map Call.now_ms)) : ℚ) ≤
        limit.capacity.toNat+limit.refill_per_sec.toNat*T/1000

/-- What is drawn is at most the capacity and the refill of the time climbed. -/
theorem count_takes_le (limit : Limit) {s : Level ℚ} (hs : 0 ≤ s.tokens) (r : ℕ) (rs : List ℕ) :
    ((s.takes limit.cap limit.rate (r :: rs)).1.count true : ℚ) ≤
      limit.cap+(climb r rs : ℚ)*limit.rate := by
  -- the first draw leaves at most a full bucket, less the token it took
  have hfirst : (s.takes limit.cap limit.rate (r :: rs)).1 =
      ((⟨s.fill limit.cap limit.rate r,r⟩ : Level ℚ).takes limit.cap limit.rate (r :: rs)).1 := by
    have hfill : s.fill limit.cap limit.rate r =
        (⟨s.fill limit.cap limit.rate r,r⟩ : Level ℚ).fill limit.cap limit.rate r := by
      simp [Level.fill]
    simp only [Level.takes, take_congr hfill]
  have hfull : 0 ≤ s.fill limit.cap limit.rate r :=
    le_min limit.cap_nonneg (add_nonneg hs (mul_nonneg (Nat.cast_nonneg _) limit.rate_nonneg))
  have hcap : s.fill limit.cap limit.rate r ≤ limit.cap := min_le_left _ _
  have hpot := count_add_tokens_le limit.cap limit.rate ⟨s.fill limit.cap limit.rate r,r⟩ (r :: rs)
  have hend := (takes_bounds (s := ⟨s.fill limit.cap limit.rate r,r⟩) limit.cap_nonneg
    limit.rate_nonneg hfull hcap (r :: rs)).1
  simp only [climb, Nat.sub_self, Nat.zero_add] at hpot
  rw [hfirst]
  linarith

/-- The level a check finds holds no debt. -/
theorem level_nonneg {bucket : Option (ℚ × ℕ)} (limit : Limit) (now : ℕ)
    (h : ∀ p, bucket = some p → 0 ≤ p.1) : 0 ≤ (level bucket limit now).tokens := by
  cases bucket with
  | none => exact limit.cap_nonneg
  | some p => exact h p rfl

theorem hmget_nonneg {store : Store} {key : String} {server_ms : ℕ}
    (h : ∀ e, store key = some e → 0 ≤ e.hash.1) (p : ℚ × ℕ)
    (hp : store.hmget key server_ms = some p) : 0 ≤ p.1 := by
  simp only [Store.hmget, Option.bind_eq_some_iff] at hp
  obtain ⟨e,he,hp⟩ := hp
  split_ifs at hp
  cases hp
  exact h e he

/-- A bound on what is drawn from any bucket is a bound on both implementations. -/
theorem within_of_takes {limit : Limit} {T : ℕ} {c : Call} {cs : List Call}
    (hlive : NoExpiry (c :: cs)) (h : ∀ s : Level ℚ, 0 ≤ s.tokens →
      ((s.takes limit.cap limit.rate ((c :: cs).map Call.now_ms)).1.count true : ℚ) ≤
        limit.capacity.toNat+limit.refill_per_sec.toNat*T/1000) : Within limit T (c :: cs) := by
  intro inf key store inner hstore hinner
  constructor
  · rw [allowed, redis_checks_eq inf store key limit c cs hlive]
    exact h _ (level_nonneg limit _ (hmget_nonneg hstore))
  · rw [allowed, List.map_cons, memory_checks_eq inner key limit c.now_ms]
    exact h _ (level_nonneg limit _ hinner)

theorem within_nil (limit : Limit) (T : ℕ) : Within limit T [] := by
  intro inf key store inner _ _
  have h : (0 : ℚ) ≤ limit.capacity.toNat+limit.refill_per_sec.toNat*T/1000 := by positivity
  exact ⟨by simpa [allowed, RedisBucket.checks] using h,
    by simpa [allowed, InMemoryBucket.checks] using h⟩

theorem within_of_climbs_le {limit : Limit} {T : ℕ} {cs : List Call} (hlive : NoExpiry cs)
    (hT : climbs cs ≤ T) : Within limit T cs := by
  cases cs with
  | nil => exact within_nil limit T
  | cons c cs =>
    refine within_of_takes hlive fun s hs => ?_
    have h := count_takes_le limit hs c.now_ms (cs.map Call.now_ms)
    have hle : (climb c.now_ms (cs.map Call.now_ms) : ℚ)*limit.rate ≤ T*limit.rate :=
      mul_le_mul_of_nonneg_right (Nat.cast_le.mpr hT) limit.rate_nonneg
    calc _ ≤ limit.cap+(climb c.now_ms (cs.map Call.now_ms) : ℚ)*limit.rate := h
      _ ≤ limit.cap+T*limit.rate := by linarith
      _ = limit.capacity.toNat+limit.refill_per_sec.toNat*T/1000 := by
        simp only [Limit.cap, Limit.rate]
        ring

/-- Readings that arrive in order climb at most the length of the window. -/
theorem climbs_le_of_ordered {t₀ T : ℕ} {cs : List Call} (hw : InWindow t₀ T cs)
    (hs : (cs.map Call.now_ms).Pairwise (· ≤ ·)) : climbs cs ≤ T := by
  cases cs with
  | nil => exact Nat.zero_le _
  | cons c cs =>
    have h : climb c.now_ms (cs.map Call.now_ms) ≤ t₀+T-c.now_ms := by
      apply climb_le_of_sorted hs
      intro r hr
      rw [← List.map_cons, List.mem_map] at hr
      obtain ⟨c',hc',rfl⟩ := hr
      exact (hw c' hc').2
    have := (hw c (by simp)).1
    simp only [climbs]
    omega

/-- Nothing is allowed without capacity. -/
theorem within_of_capacity {limit : Limit} (h : limit.capacity = 0) (T : ℕ) {cs : List Call}
    (hlive : NoExpiry cs) : Within limit T cs := by
  cases cs with
  | nil => exact within_nil limit T
  | cons c cs =>
    refine within_of_takes hlive fun s hs => ?_
    rw [count_eq_zero (by simp [Limit.cap, h])]
    positivity

/-- Without refill the time climbed does not matter. -/
theorem within_of_refill {limit : Limit} (h : limit.refill_per_sec = 0) (T : ℕ) {cs : List Call}
    (hlive : NoExpiry cs) : Within limit T cs := by
  cases cs with
  | nil => exact within_nil limit T
  | cons c cs =>
    refine within_of_takes hlive fun s hs => ?_
    have hle := count_takes_le limit hs c.now_ms (cs.map Call.now_ms)
    simp only [Limit.rate, h, UInt32.toNat_zero, Nat.cast_zero, zero_div, mul_zero, zero_mul,
      add_zero] at hle ⊢
    exact hle

/-- Readings of one value are in order. -/
theorem ordered_of_inWindow {t₀ : ℕ} {cs : List Call} (hw : InWindow t₀ 0 cs) :
    (cs.map Call.now_ms).Pairwise (· ≤ ·) := by
  have h (r : ℕ) (hr : r ∈ cs.map Call.now_ms) : r = t₀ := by
    obtain ⟨c,hc,rfl⟩ := List.mem_map.mp hr
    have := hw c hc
    omega
  apply List.pairwise_of_forall_mem_list
  intro a ha b hb
  rw [h a ha, h b hb]

/-- Calls at the readings of `n` swings, all at one moment of the server's clock. -/
def swingCalls (a b n : ℕ) : List Call := (swings a b n).map (⟨·,0⟩)

theorem swingCalls_now (a b n : ℕ) : (swingCalls a b n).map Call.now_ms = swings a b n := by
  simp [swingCalls, Function.comp_def]

theorem swingCalls_noExpiry (a b n : ℕ) : NoExpiry (swingCalls a b n) := by
  have h (rs : List ℕ) (e : ℕ) (he : 0 < e) : Live e (rs.map (⟨·,0⟩)) := by
    induction rs generalizing e with
    | nil => trivial
    | cons r rs ih => exact ⟨he,ih _ (by omega)⟩
  cases n with
  | zero => trivial
  | succ n => exact h _ _ (by omega)

/-- Calls that swing between two readings are allowed any number of times. -/
theorem exists_not_within {limit : Limit} (hcap : limit.capacity ≠ 0)
    (hrefill : limit.refill_per_sec ≠ 0) (t₀ : ℕ) {T : ℕ} (hT : T ≠ 0) :
    ∃ n, ¬ Within limit T (swingCalls t₀ (t₀+T) n) := by
  have hpos {x : UInt32} (h : x ≠ 0) : 0 < x.toNat :=
    Nat.pos_of_ne_zero fun h' => h (UInt32.toNat_inj.mp h')
  have hcap₁ : 1 ≤ limit.cap := Nat.one_le_cast.mpr (hpos hcap)
  have hrate : 0 < limit.rate := div_pos (Nat.cast_pos.mpr (hpos hrefill)) (by norm_num)
  obtain ⟨n,hn⟩ := exists_swings_count (s := level none limit t₀) hcap₁ hrate
    (show t₀ < t₀+T by omega) limit.cap_nonneg le_rfl
    (limit.capacity.toNat+limit.refill_per_sec.toNat*T/1000)
  refine ⟨n,fun h => not_le.mpr hn ?_⟩
  have hmem := (h 0 "" (fun _ => none) (fun _ => none) (by simp) (by simp)).2
  rw [swingCalls_now] at hmem
  cases n with
  | zero => exact hmem
  | succ n =>
    rw [allowed, swings, memory_checks_eq] at hmem
    exact hmem

/-- Calls whose readings climb at most `T` stay within the bound, whatever the bucket held. For
calls in any order the bound fails as soon as the limit and the window are not trivial. -/
theorem allowed_within_window (limit : Limit) (t₀ T : ℕ) :
    (∀ cs, InWindow t₀ T cs → NoExpiry cs → climbs cs ≤ T → Within limit T cs) ∧
    ((∀ cs, InWindow t₀ T cs → NoExpiry cs → Within limit T cs) ↔
      limit.capacity = 0 ∨ limit.refill_per_sec = 0 ∨ T = 0) := by
  refine ⟨fun cs _ hlive hT => within_of_climbs_le hlive hT,?_,?_⟩
  · intro h
    by_contra hne
    simp only [not_or] at hne
    obtain ⟨n,hn⟩ := exists_not_within hne.1 hne.2.1 t₀ hne.2.2
    refine hn (h _ ?_ (swingCalls_noExpiry _ _ _))
    intro c hc
    obtain ⟨r,hr,rfl⟩ := List.mem_map.mp hc
    have := mem_swings hr
    show t₀ ≤ r ∧ r ≤ t₀+T
    omega
  · rintro (h | h | rfl) cs hw hlive
    · exact within_of_capacity h T hlive
    · exact within_of_refill h T hlive
    · exact within_of_climbs_le hlive (climbs_le_of_ordered hw (ordered_of_inWindow hw))

/-- A reading that is behind makes the next one refill the same second again: three calls are
allowed in a window that has room for two. -/
theorem late_clock_refills_twice :
    let cs : List Call := [⟨0,0⟩,⟨1000,1⟩,⟨0,2⟩,⟨1000,3⟩]
    InWindow 0 1000 cs ∧ NoExpiry cs ∧
      (⟨1,1⟩ : Limit).capacity.toNat+(⟨1,1⟩ : Limit).refill_per_sec.toNat*1000/1000 = 2 ∧
      allowed (RedisBucket.checks 0 (fun _ => none) "ip" ⟨1,1⟩ cs) = 3 ∧
      allowed (InMemoryBucket.checks (fun _ => none) "ip" ⟨1,1⟩ (cs.map Call.now_ms)) = 3 := by
  intro cs
  have hlive : NoExpiry cs := by simp [cs, NoExpiry, Live]
  -- both draw from a full bucket, and the third draw finds it empty
  have htakes : ((level none ⟨1,1⟩ 0).takes (Limit.cap ⟨1,1⟩) (Limit.rate ⟨1,1⟩)
      [0,1000,0,1000]).1 = [true,true,false,true] := by
    have hcap : Limit.cap ⟨1,1⟩ = 1 := by simp [Limit.cap]
    have hrate : Limit.rate ⟨1,1⟩ = 1/1000 := by simp [Limit.rate]
    have hlevel : level none ⟨1,1⟩ 0 = ⟨1,0⟩ := by simp [level, hcap]
    norm_num [Level.takes, Level.take, Level.fill, hcap, hrate, hlevel]
  refine ⟨?_,hlive,rfl,?_,?_⟩
  · simp [cs, InWindow]
  · have hredis := redis_checks_eq 0 (fun _ => none) "ip" ⟨1,1⟩ ⟨0,0⟩ _ hlive
    rw [allowed, hredis.trans htakes]
    rfl
  · have hmemory := memory_checks_eq (fun _ => none) "ip" ⟨1,1⟩ 0 [1000,0,1000]
    rw [allowed, show cs.map Call.now_ms = [0,1000,0,1000] from rfl, hmemory.trans htakes]
    rfl

/-- The answer both implementations give to a draw. -/
def answer (d : Bool × Level ℚ) : CheckResult :=
  if d.1 then .ok ⟨UInt32.ofNat ⌊d.2.tokens⌋.toNat⟩ else .error ⟨1⟩

/-- A level between zero and the capacity, in whole tokens, fits in 32 bits. -/
theorem floor_lt {limit : Limit} {x : ℚ} (hle : x ≤ limit.cap) : ⌊x⌋ < 2^32 := by
  have h : ⌊x⌋ ≤ (limit.capacity.toNat : ℤ) := by
    rw [← Int.floor_natCast (R := ℚ)]
    exact Int.floor_le_floor hle
  have := limit.capacity.toNat_lt
  omega

/-- With some refill the wait for the next token is one second. -/
theorem ceil_need {x : ℚ} (h₀ : 0 ≤ x) (h₁ : x < 1) {refill : ℕ} (hr : 1 ≤ refill) :
    ⌈(1-x)/refill⌉ = 1 := by
  have hr' : (1 : ℚ) ≤ refill := Nat.one_le_cast.mpr hr
  have hpos : (0 : ℚ) < refill := by linarith
  rw [Int.ceil_eq_iff, lt_div_iff₀ hpos, div_le_iff₀ hpos]
  constructor
  · simp only [Int.cast_one, sub_self, zero_mul]
    linarith
  · simp only [Int.cast_one, one_mul]
    linarith

section Refilled
variable {limit : Limit} (hrefill : 1 ≤ limit.refill_per_sec.toNat)
include hrefill

theorem redis_answer (inf : ℤ) (store : Store) (key : String) (c : Call)
    (hs : 0 ≤ (level (store.hmget key c.server_ms) limit c.now_ms).tokens) :
    (RedisBucket.check inf store key limit c).1 =
      answer (draw (store.hmget key c.server_ms) limit c.now_ms) := by
  have hb := take_bounds c.now_ms limit.cap_nonneg limit.rate_nonneg hs
  simp only [RedisBucket.check, tokenBucketLua, fill_eq_lua, answer, draw, take_fst, take_tokens]
    at hb ⊢
  by_cases h : 1 ≤ (level (store.hmget key c.server_ms) limit c.now_ms).fill limit.cap limit.rate
      c.now_ms
  · simp only [h, if_true, decide_true] at hb ⊢
    have hlt := floor_lt hb.2
    have hnn := Int.floor_nonneg.mpr hb.1
    rw [max_eq_left hnn, UInt32.ofInt, Int.emod_eq_of_lt hnn hlt]
  · simp only [h, if_false, decide_false] at hb ⊢
    have hzero : limit.refill_per_sec.toNat ≠ 0 := by omega
    rw [if_neg hzero, mul_div_right_comm, mul_div_cancel_right₀ _ (by norm_num : (1000 : ℚ) ≠ 0),
      ceil_need hb.1 (not_le.mp h) hrefill]
    rfl

theorem memory_answer (inner : Inner) (key : String) (now : ℕ)
    (hs : 0 ≤ (level (inner key) limit now).tokens) :
    (InMemoryBucket.check inner key limit now).1 = answer (draw (inner key) limit now) := by
  have hb := take_bounds now limit.cap_nonneg limit.rate_nonneg hs
  simp only [InMemoryBucket.check, fill_eq_memory, answer, draw, take_fst, take_tokens] at hb ⊢
  by_cases h : 1 ≤ (level (inner key) limit now).fill limit.cap limit.rate now
  · simp only [h, if_true, decide_true] at hb ⊢
    have hlt := floor_lt hb.2
    have hnn := Int.floor_nonneg.mpr hb.1
    have hsize : ⌊(level (inner key) limit now).fill limit.cap limit.rate now-1⌋.toNat <
        UInt32.size := by
      rw [UInt32.size]
      omega
    simp only [asU32]
    rw [UInt32.ofNatClamp, dif_pos hsize, UInt32.ofNatLT_eq_ofNat]
  · simp only [h, if_false, decide_false] at hb ⊢
    have hzero : limit.refill_per_sec ≠ 0 := by
      intro h₀
      simp [h₀] at hrefill
    rw [if_neg hzero, ceil_need hb.1 (not_le.mp h) hrefill]
    rfl

end Refilled

/-- What is in Redis is what is in memory, with the expiry of the last call. -/
def Same (store : Store) (inner : Inner) (key : String) : Prop :=
  store key = (inner key).map fun p => ⟨p,p.2+60000⟩

theorem Store.hmget_some {store : Store} {key : String} {hash : ℚ × ℕ} {expires : ℕ}
    (h : store key = some ⟨hash,expires⟩) (now : ℕ) :
    store.hmget key now = if expires ≤ now then none else some hash := by
  rw [hmget, h, Option.bind_some]

/-- After a minute without calls a bucket is full, whether or not it was forgotten. -/
theorem draw_hmget {store : Store} {inner : Inner} {key : String} {limit : Limit} {now : ℕ}
    (hcap : limit.capacity.toNat ≤ 60*limit.refill_per_sec.toNat) (h : Same store inner key)
    (hpos : ∀ p, inner key = some p → 0 ≤ p.1) :
    draw (store.hmget key now) limit now = draw (inner key) limit now := by
  unfold Same at h
  cases hp : inner key with
  | none => simp [Store.hmget, h, hp]
  | some p =>
    rw [hp] at h
    rw [Store.hmget_some h]
    split_ifs with hexp
    · apply take_congr
      have hfull : (level (some p) limit now).fill limit.cap limit.rate now = limit.cap := by
        apply fill_eq_cap (hpos p hp)
        have helapsed : (60000 : ℚ) ≤ ((now-p.2 : ℕ) : ℚ) := by
          exact_mod_cast (by omega : 60000 ≤ now-p.2)
        calc limit.cap ≤ ((60*limit.refill_per_sec.toNat : ℕ) : ℚ) := Nat.cast_le.mpr hcap
          _ = 60000*limit.rate := by
            simp only [Limit.rate, Nat.cast_mul, Nat.cast_ofNat]
            ring
          _ ≤ _ := mul_le_mul_of_nonneg_right helapsed limit.rate_nonneg
      rw [hfull]
      simp [Level.fill, level]
    · rfl

/-- Both implementations answer alike from buckets that agree, and keep them so. -/
theorem checks_eq_of_same {limit : Limit} (hrefill : 1 ≤ limit.refill_per_sec.toNat)
    (hcap : limit.capacity.toNat ≤ 60*limit.refill_per_sec.toNat) (inf : ℤ) {store : Store}
    {inner : Inner} {key : String} (h : Same store inner key)
    (hpos : ∀ p, inner key = some p → 0 ≤ p.1) (rs : List ℕ) :
    RedisBucket.checks inf store key limit (rs.map fun r => ⟨r,r⟩) =
      InMemoryBucket.checks inner key limit rs := by
  induction rs generalizing store inner with
  | nil => rfl
  | cons r rs ih =>
    have hdraw : draw (store.hmget key r) limit r = draw (inner key) limit r :=
      draw_hmget hcap h hpos
    have hlevel := level_nonneg limit r hpos
    have hget : 0 ≤ (level (store.hmget key r) limit r).tokens := by
      apply level_nonneg
      apply hmget_nonneg
      intro e he
      rw [h, Option.map_eq_some_iff] at he
      obtain ⟨p,hp,rfl⟩ := he
      exact hpos p hp
    have hnext := redis_check inf store key limit ⟨r,r⟩
    have hnext' := memory_check inner key limit r
    simp only [List.map_cons, RedisBucket.checks, InMemoryBucket.checks,
      redis_answer hrefill inf store key ⟨r,r⟩ hget, memory_answer hrefill inner key r hlevel,
      hdraw]
    congr 1
    apply ih
    · rw [hnext.2, hnext'.2, Same, Function.update_self, Function.update_self]
      simp [hdraw]
    · intro p hp
      rw [hnext'.2, Function.update_self] at hp
      cases hp
      exact (take_bounds r limit.cap_nonneg limit.rate_nonneg hlevel).1

/-- The process-local bucket gives the answers of the script when a minute refills the bucket,
whatever the readings, by which the key expires as well. -/
theorem memory_matches_redis (inf : ℤ) (limit : Limit) (hrefill : 1 ≤ limit.refill_per_sec.toNat)
    (hcap : limit.capacity.toNat ≤ 60*limit.refill_per_sec.toNat) (key : String) (store : Store)
    (inner : Inner) (hstore : store key = none) (hinner : inner key = none) (rs : List ℕ) :
    RedisBucket.checks inf store key limit (rs.map fun r => ⟨r,r⟩) =
      InMemoryBucket.checks inner key limit rs := by
  apply checks_eq_of_same hrefill hcap inf
  · rw [Same, hstore, hinner]
    rfl
  · intro p hp
    rw [hinner] at hp
    cases hp

-- both limits of the edge are of this kind
example : ∀ limit ∈ [Limit.PUBLIC,Limit.AUTHED], 1 ≤ limit.refill_per_sec.toNat ∧
    limit.capacity.toNat ≤ 60*limit.refill_per_sec.toNat := by decide

/-- A bucket of one token that is drained, asked too early, and forgotten after a minute. -/
theorem memory_matches_redis_minute :
    RedisBucket.checks 0 (fun _ => none) "ip" ⟨1,1⟩ ([5,6,60006].map fun r => ⟨r,r⟩) =
        InMemoryBucket.checks (fun _ => none) "ip" ⟨1,1⟩ [5,6,60006] ∧
      InMemoryBucket.checks (fun _ => none) "ip" ⟨1,1⟩ [5,6,60006] =
        [.ok ⟨0⟩,.error ⟨1⟩,.ok ⟨0⟩] :=
  ⟨memory_matches_redis 0 ⟨1,1⟩ (by decide) (by decide) "ip" _ _ rfl rfl _,by decide +kernel⟩

end Perplex.RateLimit
