import Mathlib.Data.Rat.Floor
import Perplex.EdgePositions
import Perplex.Journal

/-! The oracle relayer. A poll fetches a sample for each feed and submits those that are new, have
drifted from the price submitted last, or are due for a heartbeat; it remembers prices and instants
only of what the submitter took. Fetching and submitting may fail at any poll. -/
namespace Perplex.Relayer

structure PriceSample where
  feed_id : String
  price_x18 : ℚ
  publish_time_sec : ℕ
deriving DecidableEq

/-- `RelayerConfig`: the drift in a hundredth of a percent, a `u32`, and the heartbeat in
nanoseconds. -/
structure RelayerConfig where
  drift_bps : ℕ
  heartbeat : ℕ
  drift_bps_fits : drift_bps < 2^32

/-- What a turn of the loop meets: the samples, each with the instant at which it is looked at, or
a failure; whether the submitter takes a submission; and the instant after that. -/
structure Poll where
  fetched : Option (List (PriceSample × ℕ))
  taken : Bool
  now : ℕ

/-- What a source hands to a submitter that is ready to take it. -/
def Poll.offered (p : Poll) : List PriceSample :=
  match p.fetched with
  | none => []
  | some samples => if p.taken then samples.map Prod.fst else []

/-- The cache, and the calls of `submit` that returned `Ok`. -/
structure State where
  last_submitted : String → Option (ℚ × ℕ)
  calls : List (List PriceSample)

def State.new : State := ⟨fun _ => none, []⟩

/-- `to_u32` of the integer part, saturating. -/
def saturateU32 (q : ℚ) : ℕ :=
  let n := Edge.trunc q
  if 0 ≤ n ∧ n ≤ 2^32-1 then n.toNat else 2^32-1

/-- `drift_bps`. -/
def driftBps (prev current : ℚ) : ℕ :=
  if prev = 0 then 2^32-1
  else
    let delta := |current-prev|
    saturateU32 (delta*10000/|prev|)

namespace State
variable (cfg : RelayerConfig)

/-- Whether a sample is to be submitted, at an instant. -/
def should (s : State) (x : PriceSample) (instant : ℕ) : Bool :=
  match s.last_submitted x.feed_id with
  | some (last_p, last_t) =>
    let due_heartbeat := cfg.heartbeat ≤ instant-last_t
    cfg.drift_bps < driftBps last_p x.price_x18 ∨ due_heartbeat
  | none => true

def toSubmit (s : State) (samples : List (PriceSample × ℕ)) : List PriceSample :=
  (samples.filter fun x => s.should cfg x.1 x.2).map Prod.fst

/-- A turn of the loop in `run`. -/
def poll (s : State) (p : Poll) : State :=
  match p.fetched with
  | none => s
  | some samples =>
    let to_submit := s.toSubmit cfg samples
    if to_submit = [] then s
    -- it tries again at the next tick
    else if p.taken = false then s
    else ⟨Journal.record PriceSample.feed_id (fun x => (x.price_x18, p.now)) s.last_submitted
      to_submit, s.calls++[to_submit]⟩

def run (polls : List Poll) : State := polls.foldl (poll cfg) new

/-- The samples that were taken, in the order of their submission. -/
def submitted (s : State) : List PriceSample := s.calls.flatten

/-- The sample of the feed that was taken last. -/
def latest (s : State) (feed_id : String) : Option PriceSample :=
  Journal.latest PriceSample.feed_id s.submitted feed_id

end State

/-- The drift in a hundredth of a percent, as it is. -/
def exactDrift (prev current : ℚ) : ℚ := |current-prev| * 10000/prev

theorem saturateU32_eq {q : ℚ} (h : 0 ≤ q) : saturateU32 q = min ⌊q⌋₊ (2^32-1) := by
  have hfloor : Edge.trunc q = (⌊q⌋₊ : ℤ) := by
    rw [Edge.trunc_eq_floor h, Int.natCast_floor_eq_floor h]
  rw [saturateU32, hfloor]
  split_ifs <;> omega

/-- The comparison with the threshold is one with the next number, and none passes at the end of
the range. -/
theorem lt_driftBps_iff {prev current : ℚ} (hprev : 0 < prev) (n : ℕ) :
    n < driftBps prev current ↔ n+1 ≤ exactDrift prev current ∧ n < 2^32-1 := by
  have hnonneg : 0 ≤ exactDrift prev current := by
    unfold exactDrift
    positivity
  rw [driftBps, if_neg hprev.ne', abs_of_pos hprev]
  change n < saturateU32 (exactDrift prev current) ↔ _
  rw [saturateU32_eq hnonneg, lt_min_iff, ← Nat.add_one_le_iff, Nat.le_floor_iff hnonneg]
  push_cast
  rfl

namespace State
variable {cfg : RelayerConfig} {s : State} {p : Poll}

/-- The samples that the submitter takes. -/
def batch (cfg : RelayerConfig) (s : State) (p : Poll) : List PriceSample :=
  match p.fetched with
  | none => []
  | some samples => if p.taken then s.toSubmit cfg samples else []

theorem poll_eq (cfg : RelayerConfig) (s : State) (p : Poll) : s.poll cfg p =
    if s.batch cfg p = [] then s
    else ⟨Journal.record PriceSample.feed_id (fun x => (x.price_x18, p.now)) s.last_submitted
      (s.batch cfg p), s.calls++[s.batch cfg p]⟩ := by
  cases hf : p.fetched with
  | none => simp [poll, batch, hf]
  | some samples => cases ht : p.taken <;> simp [poll, batch, hf, ht]

theorem submitted_poll (cfg : RelayerConfig) (s : State) (p : Poll) :
    (s.poll cfg p).submitted = s.submitted++s.batch cfg p := by
  rw [poll_eq]
  split_ifs with h
  · rw [h, List.append_nil]
  · simp [submitted]

theorem last_submitted_poll (cfg : RelayerConfig) (s : State) (p : Poll) :
    (s.poll cfg p).last_submitted = Journal.record PriceSample.feed_id
      (fun x => (x.price_x18, p.now)) s.last_submitted (s.batch cfg p) := by
  rw [poll_eq]
  split_ifs with h
  · rw [h]
    rfl
  · rfl

theorem latest_poll (cfg : RelayerConfig) (s : State) (p : Poll) (feed_id : String) :
    (s.poll cfg p).latest feed_id =
      (Journal.latest PriceSample.feed_id (s.batch cfg p) feed_id).or (s.latest feed_id) := by
  rw [latest, submitted_poll, Journal.latest_append]
  rfl

/-- A poll whose fetch succeeds, and its submission if there is one. -/
structure Succeeds (cfg : RelayerConfig) (s : State) (p : Poll)
    (samples : List (PriceSample × ℕ)) : Prop where
  fetched : p.fetched = some samples
  taken : s.toSubmit cfg samples = [] ∨ p.taken = true

theorem Succeeds.batch {samples : List (PriceSample × ℕ)} (h : Succeeds cfg s p samples) :
    s.batch cfg p = s.toSubmit cfg samples := by
  obtain ⟨hf, he | ht⟩ := h
  · simp [State.batch, hf, he]
  · simp [State.batch, hf, ht]

/-- One sample for each feed, with a positive price. -/
structure WellFormed (samples : List (PriceSample × ℕ)) : Prop where
  nodup : (samples.map fun x => x.1.feed_id).Nodup
  pos : ∀ x ∈ samples, 0 < x.1.price_x18

/-- The condition holds at each poll, in the state that the poll finds. -/
def Along (cfg : RelayerConfig) (R : State → Poll → Prop) : State → List Poll → Prop
  | _, [] => True
  | s, p :: polls => R s p ∧ Along cfg R (s.poll cfg p) polls

/-- The cache has the price of what was taken last. -/
structure Inv (s : State) : Prop where
  cached : ∀ feed_id, (s.last_submitted feed_id).map Prod.fst =
    (s.latest feed_id).map PriceSample.price_x18
  pos : ∀ x ∈ s.submitted, 0 < x.price_x18

theorem new_inv : Inv new := ⟨fun _ => rfl, fun _ h => nomatch h⟩

theorem mem_batch {x : PriceSample} (h : x ∈ s.batch cfg p) :
    ∃ samples, p.fetched = some samples ∧ ∃ instant, (x, instant) ∈ samples := by
  unfold batch at h
  split at h
  · cases h
  · next samples hf =>
    refine ⟨samples, hf, ?_⟩
    split_ifs at h
    · simp only [toSubmit, List.mem_map, List.mem_filter] at h
      obtain ⟨y, ⟨hy, -⟩, rfl⟩ := h
      exact ⟨y.2, hy⟩
    · cases h

theorem Inv.poll (h : Inv s) (hp : ∀ samples, p.fetched = some samples → WellFormed samples) :
    Inv (s.poll cfg p) where
  cached feed_id := by
    rw [last_submitted_poll, latest_poll, Journal.record_apply, Option.map_or, Option.map_or,
      h.cached, Option.map_map]
    rfl
  pos x hx := by
    rw [submitted_poll] at hx
    rcases List.mem_append.mp hx with hx | hx
    · exact h.pos x hx
    · obtain ⟨samples, hf, instant, hmem⟩ := mem_batch hx
      exact (hp samples hf).pos _ hmem

theorem should_eq_false {x : PriceSample} {instant : ℕ} : s.should cfg x instant = false ↔
    ∃ price since, s.last_submitted x.feed_id = some (price, since) ∧
      instant-since < cfg.heartbeat ∧ driftBps price x.price_x18 ≤ cfg.drift_bps := by
  unfold should
  rcases s.last_submitted x.feed_id with _ | ⟨price, since⟩
  · simp
  · simp [and_comm]

theorem Inv.of_cached (h : Inv s) {feed_id : String} {price : ℚ} {since : ℕ}
    (hlast : s.last_submitted feed_id = some (price, since)) :
    ∃ y, s.latest feed_id = some y ∧ y.price_x18 = price ∧ 0 < price := by
  have hcached := h.cached feed_id
  rw [hlast, Option.map_some, eq_comm, Option.map_eq_some_iff] at hcached
  obtain ⟨y, hy, rfl⟩ := hcached
  exact ⟨y, hy, rfl, h.pos y (Journal.mem_of_latest hy)⟩

/-- After a poll that succeeds, each sample is among those it submitted, or within the drift of
the price that was submitted last. -/
def DriftBounded (cfg : RelayerConfig) (s : State) (p : Poll) : Prop :=
  ∀ samples, Succeeds cfg s p samples → ∀ x ∈ samples,
    (∃ call, (s.poll cfg p).calls = s.calls++[call] ∧ x.1 ∈ call) ∨
      ∃ last, (s.poll cfg p).latest x.1.feed_id = some last ∧
        exactDrift last.price_x18 x.1.price_x18 ≤ cfg.drift_bps

/-- No sample without a heartbeat is past the threshold by less than one, nor past the last number
when that is the threshold. -/
def ClearOfGap (cfg : RelayerConfig) (s : State) (p : Poll) : Prop :=
  ∀ samples, Succeeds cfg s p samples → ∀ x ∈ samples,
    ∀ price since, s.last_submitted x.1.feed_id = some (price, since) → x.2-since < cfg.heartbeat →
      exactDrift price x.1.price_x18 ≤ cfg.drift_bps ∨
        cfg.drift_bps+1 ≤ exactDrift price x.1.price_x18 ∧ cfg.drift_bps < 2^32-1

section Poll
variable {samples : List (PriceSample × ℕ)} {x : PriceSample × ℕ}

/-- A sample that is submitted is in the call. -/
theorem mem_call (h : Succeeds cfg s p samples) (hx : x ∈ samples)
    (hshould : s.should cfg x.1 x.2 = true) :
    (s.poll cfg p).calls = s.calls++[s.toSubmit cfg samples] ∧ x.1 ∈ s.toSubmit cfg samples := by
  have hmem : x.1 ∈ s.toSubmit cfg samples :=
    List.mem_map_of_mem (List.mem_filter.mpr ⟨hx, hshould⟩)
  refine ⟨?_, hmem⟩
  rw [poll_eq, h.batch, if_neg (List.ne_nil_of_mem hmem)]

/-- No other sample of its feed is submitted in its place. -/
theorem latest_poll_of_not_should (h : Succeeds cfg s p samples) (hwf : WellFormed samples)
    (hx : x ∈ samples) (hshould : s.should cfg x.1 x.2 = false) :
    (s.poll cfg p).latest x.1.feed_id = s.latest x.1.feed_id ∧
      ∀ y ∈ s.batch cfg p, y.feed_id ≠ x.1.feed_id := by
  have hother : ∀ y ∈ s.batch cfg p, y.feed_id ≠ x.1.feed_id := by
    intro y hy he
    rw [h.batch, toSubmit, List.mem_map] at hy
    obtain ⟨z, hz, rfl⟩ := hy
    obtain ⟨hzmem, hzshould⟩ := List.mem_filter.mp hz
    have hzx : z = x := List.inj_on_of_nodup_map hwf.nodup hzmem hx he
    rw [hzx, hshould] at hzshould
    cases hzshould
  exact ⟨by rw [latest_poll, Journal.latest_eq_none.mpr hother, Option.none_or], hother⟩

end Poll

theorem driftBounded_iff (h : Inv s)
    (hp : ∀ samples, p.fetched = some samples → WellFormed samples) :
    DriftBounded cfg s p ↔ ClearOfGap cfg s p := by
  refine forall_congr' fun samples => forall_congr' fun hsucc => forall₂_congr fun x hx => ?_
  have hwf := hp samples hsucc.fetched
  cases hshould : s.should cfg x.1 x.2 with
  | true =>
    -- it is submitted; without a heartbeat it is a whole point past the threshold
    refine iff_of_true (.inl ⟨_, mem_call hsucc hx hshould⟩) ?_
    intro price since hlast hbeat
    obtain ⟨-, -, -, hpos⟩ := h.of_cached hlast
    refine .inr ((lt_driftBps_iff hpos _).mp (not_le.mp fun hdrift => ?_))
    rw [should_eq_false.mpr ⟨price, since, hlast, hbeat, hdrift⟩] at hshould
    cases hshould
  | false =>
    obtain ⟨price, since, hlast, hbeat, hdrift⟩ := should_eq_false.mp hshould
    obtain ⟨y, hy, rfl, hpos⟩ := h.of_cached hlast
    obtain ⟨hlatest, hother⟩ := latest_poll_of_not_should hsucc hwf hx hshould
    rw [hlatest, hy]
    constructor
    · rintro (⟨call, hcall, hmem⟩ | ⟨_, ⟨⟩, hle⟩)
      · -- the call is the batch, where the feed does not stand
        rw [poll_eq] at hcall
        split_ifs at hcall
        · simp at hcall
        · rw [List.append_cancel_left_eq, List.singleton_inj] at hcall
          exact absurd rfl (hother _ (hcall ▸ hmem))
      · intro price since' hlast' _
        rw [hlast] at hlast'
        cases hlast'
        exact .inl hle
    · intro hclear
      rcases hclear _ since hlast hbeat with hle | hgap
      · exact .inr ⟨y, rfl, hle⟩
      · exact absurd ((lt_driftBps_iff hpos _).mpr hgap) (not_lt.mpr hdrift)

/-- In a run over polls with one positive sample for each feed, every poll that succeeds leaves each
of its samples submitted or within the threshold, if and only if no sample ever falls into the gap
above it. -/
theorem drift_bounded_iff (cfg : RelayerConfig) (polls : List Poll)
    (hpolls : ∀ p ∈ polls, ∀ samples, p.fetched = some samples → WellFormed samples) :
    Along cfg (DriftBounded cfg) new polls ↔ Along cfg (ClearOfGap cfg) new polls := by
  have hrun (s : State) (h : Inv s) :
      Along cfg (DriftBounded cfg) s polls ↔ Along cfg (ClearOfGap cfg) s polls := by
    induction polls generalizing s with
    | nil => rfl
    | cons p polls ih =>
      obtain ⟨hp, hpolls⟩ := List.forall_mem_cons.mp hpolls
      exact and_congr (driftBounded_iff h hp) (ih hpolls _ (h.poll hp))
  exact hrun new new_inv

/-- `RelayerConfig::default`. -/
def defaultConfig : RelayerConfig := ⟨5, 60*10^9, by decide⟩

/-- A sample of one feed, which the submitter takes if it is submitted. -/
def quote (price : ℚ) (publish_time_sec instant : ℕ) : Poll :=
  ⟨some [(⟨"btc", price, publish_time_sec⟩, instant)], true, instant⟩

theorem quote_wellFormed {price : ℚ} (h : 0 < price) (publish_time_sec instant : ℕ) :
    ∀ samples, (quote price publish_time_sec instant).fetched = some samples →
      WellFormed samples := by
  rintro _ ⟨⟩
  exact ⟨List.nodup_singleton _, List.forall_mem_singleton.mpr h⟩

/-- A drift of one is not submitted, and is within the threshold. -/
theorem drift_bounded_iff_quotes : DriftBounded defaultConfig
    (run defaultConfig [quote 100000 0 0]) (quote 100010 1 1) := by
  have hpolls : ∀ p ∈ [quote 100000 0 0, quote 100010 1 1], ∀ samples,
      p.fetched = some samples → WellFormed samples :=
    List.forall_mem_cons.mpr ⟨quote_wellFormed (by norm_num) 0 0,
      List.forall_mem_singleton.mpr (quote_wellFormed (by norm_num) 1 1)⟩
  refine ((drift_bounded_iff defaultConfig _ hpolls).mpr ⟨?_, ?_, trivial⟩).2.1
  · intro samples hsucc x _ price since hlast
    cases hlast
  · rintro samples ⟨⟨⟩, -⟩ x hx price since hlast -
    rw [List.mem_singleton.mp hx] at hlast ⊢
    have hcache : (run defaultConfig [quote 100000 0 0]).last_submitted "btc" =
        some (100000, 0) := by decide +kernel
    cases hcache.symm.trans hlast
    exact .inl (by decide +kernel)

/-- A drift of five and a half is cut to five, and is not submitted either. -/
theorem half_point_drift_stays :
    (run defaultConfig [quote 100000 0 0, quote 100055 1 1]).calls = [[⟨"btc", 100000, 0⟩]] ∧
      (run defaultConfig [quote 100000 0 0, quote 100055 1 1]).latest "btc" =
        some ⟨"btc", 100000, 0⟩ ∧
      (defaultConfig.drift_bps : ℚ) < exactDrift 100000 100055 := by
  refine ⟨?_, ?_, ?_⟩ <;> decide +kernel

/-- A relayer that submits at every poll what it fetched, whatever its price. -/
def alwaysDue : RelayerConfig := ⟨0, 0, by decide⟩

theorem batch_sublist (cfg : RelayerConfig) (s : State) (p : Poll) :
    (s.batch cfg p).Sublist p.offered := by
  unfold batch Poll.offered
  cases p.fetched with
  | none => exact .refl _
  | some samples =>
    cases p.taken with
    | false => exact .refl _
    | true => exact List.filter_sublist.map _

theorem submitted_foldl_sublist (polls : List Poll) (s : State) :
    (polls.foldl (poll cfg) s).submitted.Sublist
      (s.submitted++polls.flatMap Poll.offered) := by
  induction polls generalizing s with
  | nil => simp
  | cons p polls ih =>
    rw [List.foldl_cons, List.flatMap_cons, ← List.append_assoc]
    refine (ih (s.poll cfg p)).trans (List.Sublist.append_right ?_ _)
    rw [submitted_poll]
    exact (batch_sublist cfg s p).append_left _

/-- A sample is not held back when its heartbeat is always due. -/
theorem batch_alwaysDue (s : State) (p : Poll) : s.batch alwaysDue p = p.offered := by
  have hdue (x : PriceSample) (instant : ℕ) : s.should alwaysDue x instant = true := by
    rw [← Bool.not_eq_false, should_eq_false]
    rintro ⟨price, since, -, hbeat, -⟩
    exact absurd hbeat (Nat.not_lt_zero _)
  unfold batch Poll.offered
  cases p.fetched with
  | none => rfl
  | some samples => simp [toSubmit, hdue]

theorem submitted_foldl_alwaysDue (polls : List Poll) (s : State) :
    (polls.foldl (poll alwaysDue) s).submitted = s.submitted++polls.flatMap Poll.offered := by
  induction polls generalizing s with
  | nil => simp
  | cons p polls ih =>
    rw [List.foldl_cons, ih, submitted_poll, batch_alwaysDue, List.flatMap_cons,
      List.append_assoc]

/-- Under every configuration the publish times that a feed submits in a run never decrease, if
and only if they never decrease over what the source fetches while the submitter is ready. -/
theorem publish_times_sorted_iff (polls : List Poll) :
    (∀ cfg feed_id, (((run cfg polls).submitted.filter fun x => x.feed_id = feed_id).map
        PriceSample.publish_time_sec).Pairwise (· ≤ ·)) ↔
      ∀ feed_id, (((polls.flatMap Poll.offered).filter fun x => x.feed_id = feed_id).map
        PriceSample.publish_time_sec).Pairwise (· ≤ ·) := by
  constructor
  · intro h feed_id
    have hdue := h alwaysDue feed_id
    rwa [run, submitted_foldl_alwaysDue] at hdue
  · intro h cfg feed_id
    exact List.Pairwise.sublist (((submitted_foldl_sublist polls new).filter _).map _) (h feed_id)

end State

namespace EdgeSubmitter

def setOraclePrice (s : Edge.AppState) (market : String) (price_x18 : ℚ) : Edge.AppState :=
  { s with oraclePrices := Function.update s.oraclePrices market (some price_x18) }

variable (feed_to_market : String → Option String)

def submitSample (s : Edge.AppState) (x : PriceSample) : Edge.AppState :=
  match feed_to_market x.feed_id with
  | none => s
  | some market => setOraclePrice s market (Edge.scaleX18 x.price_x18)

/-- The price of a sample replaces the one before, whatever its publish time. -/
def submit (s : Edge.AppState) (samples : List PriceSample) : Edge.AppState :=
  samples.foldl (submitSample feed_to_market) s

/-- The server after the calls that it has taken. -/
def after (s : Edge.AppState) (r : State) : Edge.AppState := r.calls.foldl (submit feed_to_market) s

variable {feed_to_market}

theorem submitSample_oraclePrices (s : Edge.AppState) (x : PriceSample) (market : String) :
    (submitSample feed_to_market s x).oraclePrices market =
      if feed_to_market x.feed_id = some market then some (Edge.scaleX18 x.price_x18 : ℚ)
      else s.oraclePrices market := by
  unfold submitSample
  rcases feed_to_market x.feed_id with _ | m
  · rfl
  · split_ifs with h
    · rw [← Option.some.inj h]
      exact Function.update_self ..
    · exact Function.update_of_ne (fun he => h (congrArg some he.symm)) _ _

theorem submit_oraclePrices (s : Edge.AppState) (samples : List PriceSample) (market : String) :
    (submit feed_to_market s samples).oraclePrices market =
      ((Journal.latest (fun x => feed_to_market x.feed_id) samples (some market)).map
        fun x => (Edge.scaleX18 x.price_x18 : ℚ)).or (s.oraclePrices market) := by
  induction samples using List.reverseRecOn with
  | nil => rfl
  | append_singleton samples x ih =>
    rw [Journal.latest_concat, submit, List.foldl_append]
    change (submitSample feed_to_market (submit feed_to_market s samples) x).oraclePrices market = _
    rw [submitSample_oraclePrices, ih]
    split_ifs <;> rfl

theorem after_oraclePrices (s : Edge.AppState) (r : State) (market : String) :
    (after feed_to_market s r).oraclePrices market =
      ((Journal.latest (fun x => feed_to_market x.feed_id) r.submitted (some market)).map
        fun x => (Edge.scaleX18 x.price_x18 : ℚ)).or (s.oraclePrices market) := by
  rw [← submit_oraclePrices, submit, State.submitted, List.foldl_flatten]
  rfl

/-- Where the fetched times never decrease, the server has the price of the newest sample of its
feed. -/
theorem after_newest {cfg : RelayerConfig} {polls : List Poll}
    (h : ∀ feed_id, (((polls.flatMap Poll.offered).filter fun x => x.feed_id = feed_id).map
      PriceSample.publish_time_sec).Pairwise (· ≤ ·)) {feed_id market : String}
    (hfeed : ∀ f, feed_to_market f = some market ↔ f = feed_id) (s : Edge.AppState)
    {x : PriceSample} (hx : x ∈ (State.run cfg polls).submitted) (hxfeed : x.feed_id = feed_id) :
    ∃ y ∈ (State.run cfg polls).submitted, y.feed_id = feed_id ∧
      x.publish_time_sec ≤ y.publish_time_sec ∧
      (after feed_to_market s (State.run cfg polls)).oraclePrices market =
        some (Edge.scaleX18 y.price_x18 : ℚ) := by
  have hordered : Journal.Ordered PriceSample.feed_id PriceSample.publish_time_sec
      (State.run cfg polls).submitted :=
    List.Pairwise.sublist (State.submitted_foldl_sublist polls .new) (Journal.ordered_iff.mpr h)
  have hlatest : Journal.latest (fun x => feed_to_market x.feed_id) (State.run cfg polls).submitted
      (some market) = (State.run cfg polls).latest feed_id :=
    Journal.latest_congr (fun (x : PriceSample) => hfeed x.feed_id) _
  obtain ⟨y, hy⟩ : ∃ y, (State.run cfg polls).latest feed_id = some y := by
    rw [← Option.ne_none_iff_exists']
    exact fun hnone => Journal.latest_eq_none.mp hnone x hx hxfeed
  refine ⟨y, Journal.mem_of_latest hy, Journal.key_of_latest hy, ?_, ?_⟩
  · rw [← hxfeed] at hy
    exact hordered.le_latest hx hy
  · rw [after_oraclePrices, hlatest, hy]
    rfl

/-- A quote published at 50 follows one published at 100. It has drifted, so it is submitted, and
its price is what the server keeps. -/
theorem older_quote_replaces :
    let r := State.run State.defaultConfig [State.quote 100000 100 0, State.quote 101000 50 1]
    r.submitted.map PriceSample.publish_time_sec = [100, 50] ∧
      (after (fun _ => some "btc-usd") .new r).oraclePrices "btc-usd" = some (101000*10^18) := by
  constructor <;> decide +kernel

end EdgeSubmitter

end Perplex.Relayer
