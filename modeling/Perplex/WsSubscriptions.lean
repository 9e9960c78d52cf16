import Perplex.WsLines

/-! The subscriptions of a connection and their record. The record has one entry for each topic,
so a second subscription to a topic hides the first; and a private channel is looked up under the
address of the moment, so an authentication as somebody else hides what was subscribed before. -/

namespace Perplex.Ws.Sys
open scoped List
variable {β : Type} {env : Env} {s s' : Sys β} {l : Step β}

/-- At most one subscription for each topic, and that one is recorded. -/
def Recorded (s : Sys β) : Prop := ∀ t, s.live t <+ (s.conn.subscriptions t).toList

/-- A subscribe frame meets no subscription to its topic, and an unsubscribe frame none to its
channel under another address. -/
def Tidy (env : Env) (s : Sys β) (l : Step β) : Prop :=
  (∀ t, s.subscribes env l = some t → s.live t = []) ∧
  ∀ t, s.unsubscribes env l = some t → ∀ t', t'.channel = t.channel → t' ≠ t → s.live t' = []

theorem Recorded.mem (hr : s.Recorded) {t : Topic} {n : ℕ} (hn : n ∈ s.live t) :
    s.conn.subscriptions t = some n := by
  simpa using (hr t).mem hn

/-- Without the recorded subscription there is none. -/
theorem Recorded.filter_ne (hr : s.Recorded) {t : Topic} {id : ℕ}
    (hid : s.conn.subscriptions t = some id) : (s.live t).filter (· ≠ id) = [] := by
  rw [List.filter_eq_nil_iff]
  intro n hn
  have h := (hr.mem hn).symm.trans hid
  simpa using h

theorem Recorded.of_effect (hs : s.Fresh) (hr : s.Recorded) (hl : s.Tidy env l)
    (h : Effect env s l s') : s'.Recorded := by
  intro t
  cases h with
  | @subscribed topic htopic =>
    rw [live_subscribeTopic hs]
    by_cases ht : t = topic
    · subst ht
      rw [if_pos rfl, hl.1 t htopic]
      simp [subscribeTopic, Hub.subscribe]
    · simpa [ht, subscribeTopic] using hr t
  | @unsubscribed topic id _ hrecorded =>
    rw [live_unsubscribeTopic]
    by_cases ht : t = topic
    · subst ht
      rw [if_pos rfl, hr.filter_ne hrecorded]
      exact List.nil_sublist _
    · simpa [ht, unsubscribeTopic] using hr t
  | authenticated _ => exact hr t
  | finished _ _ =>
    rw [live_finish]
    exact List.filter_sublist.trans (hr t)
  | published _ =>
    rw [live_publish]
    split_ifs
    · exact List.filter_sublist.trans (hr t)
    · exact hr t
  | quiet hq =>
    rw [hq.subscriptions, hq.live]
    exact hr t

/-- The connection has no subscription to a topic of a channel. -/
def Closed (s : Sys β) (c : Topic) : Prop := ∀ t, t.channel = c → s.live t = []

theorem closed_of_unsubscribe (hr : s.Recorded) {channel : String} {c : Topic}
    (hc : Topic.parse channel = some c) (hs : s.conn.listens)
    (hl : s.Tidy env (.unsubscribe channel)) : (s.step env (.unsubscribe channel)).Closed c := by
  intro t ht
  let topic := bind env c (s.conn.address.getD "")
  have htopic : topic.channel = c := (Topic.channel_bind env _ c).trans (Topic.channel_parse hc)
  have hunsub : s.unsubscribes env (.unsubscribe channel) = some topic := by
    simp [unsubscribes, hs, hc, topic]
  have hother (hne : t ≠ topic) : s.live t = [] :=
    hl.2 topic hunsub t (ht.trans htopic.symm) hne
  cases hrecorded : s.conn.subscriptions topic with
  | none =>
    have hstep : s.step env (.unsubscribe channel) = s := by
      simp [step, hs, handleUnsubscribe, hc, topic, hrecorded]
    rw [hstep]
    by_cases hne : t = topic
    · subst hne
      exact List.sublist_nil.mp (by simpa [hrecorded] using hr topic)
    · exact hother hne
  | some id =>
    have hstep : s.step env (.unsubscribe channel) = s.unsubscribeTopic topic id := by
      simp [step, hs, handleUnsubscribe, hc, topic, hrecorded]
    rw [hstep, live_unsubscribeTopic]
    split_ifs with hne
    · rw [hne]
      exact hr.filter_ne hrecorded
    · exact hother hne

/-- A channel stays closed until it is subscribed to again. -/
theorem Closed.of_effect (hs : s.Fresh) {c : Topic} (hc : s.Closed c)
    (hl : ∀ channel, l = .subscribe channel → Topic.parse channel ≠ some c)
    (h : Effect env s l s') : s'.Closed c := by
  intro t ht
  rcases h.live_cases hs t with hlive | ⟨htopic, -⟩
  · exact List.sublist_nil.mp (hc t ht ▸ hlive)
  · obtain ⟨channel, hchannel, hparse⟩ := subscribes_channel htopic
    exact absurd (ht ▸ hparse) (hl channel hchannel)

/-- Messages on a channel. -/
def onChannel (c : Topic) (item : Item β) : Bool := item.msg.topic.channel = c

theorem arrivals_of_closed {c : Topic} (hc : s.Closed c) (n : ℕ) :
    (s.arrivals n l).filter (onChannel c) = [] := by
  rw [List.filter_eq_nil_iff]
  intro item hitem hchannel
  obtain ⟨msg, rfl, rfl, hlive, -⟩ := mem_arrivals hitem
  rw [hc msg.topic (of_decide_eq_true hchannel)] at hlive
  exact absurd hlive List.not_mem_nil

theorem line_of_closed (hs : s.Fresh) {c : Topic} (hc : s.Closed c) (n : ℕ) :
    ((s.step env l).line n).filter (onChannel c) <+: (s.line n).filter (onChannel c) := by
  have h := ((extends_step env hs n l).isPrefix).filter (onChannel c)
  rwa [List.filter_append, arrivals_of_closed hc, List.append_nil] at h

/-- Nothing more comes in on a closed channel. -/
theorem run_closed (hs : s.Routed) {c : Topic} (hc : s.Closed c) {ls : List (Step β)}
    (hls : ∀ channel, .subscribe channel ∈ ls → Topic.parse channel ≠ some c) (n : ℕ) :
    ((s.run env ls).line n).filter (onChannel c) <+: (s.line n).filter (onChannel c) := by
  let P (s' : Sys β) : Prop :=
    s'.Closed c ∧ (s'.line n).filter (onChannel c) <+: (s.line n).filter (onChannel c)
  have hP : P s := ⟨hc,List.prefix_refl _⟩
  have hrun : (s.run env ls).Routed ∧ P (s.run env ls) := by
    apply run_invariant (R := fun _ l => l ∈ ls) ?_ hs hP
    · intro pre l hpre
      exact hpre.subset (List.mem_append_right _ List.mem_cons_self)
    · intro s' l hs' hP' hl
      refine ⟨hP'.1.of_effect hs'.toFresh ?_ (hs'.effect env l), ?_⟩
      · intro channel hchannel
        exact hls channel (hchannel ▸ hl)
      · exact (line_of_closed hs'.toFresh hP'.1 n).trans hP'.2
  exact hrun.2.2

/-- A connection that has ended has no subscription. -/
def Released (s : Sys β) : Prop := s.conn.receiving = false → ∀ t, s.live t = []

theorem Released.of_effect (hs : s.Fresh) (hr : s.Recorded) (he : s.Released)
    (h : Effect env s l s') : s'.Released := by
  intro hend t
  rcases h.live_cases hs t with hlive | ⟨htopic, rfl⟩
  · have hnil (hended : s.conn.receiving = false) : s'.live t = [] :=
      List.sublist_nil.mp (he hended t ▸ hlive)
    cases h with
    | finished _ _ =>
      rw [live_finish, List.filter_eq_nil_iff]
      intro n hn
      simpa using hr.mem hn
    | quiet hq => exact hnil (hq.receiving ▸ hend)
    | _ => exact hnil hend
  · -- a connection that has ended takes no frames
    obtain ⟨-, -, -, hlistens, -⟩ := subscribes_spec htopic
    simp [Conn.listens, show s.conn.receiving = false from hend] at hlistens

/-- Every run whose subscribe and unsubscribe frames are tidy keeps the record: in each state;
after an unsubscribe frame, for what is published until the channel is subscribed to again; and
after the end of the connection. -/
theorem tidy_run_recorded (env : Env) (ls : List (Step β))
    (htidy : ∀ pre l, pre++[l] <+: ls → (Sys.new.run env pre).Tidy env l) :
    (∀ pre, pre <+: ls → (Sys.new.run env pre).Recorded) ∧
    (∀ pre channel post c, pre++.unsubscribe channel :: post <+: ls →
      Topic.parse channel = some c → (Sys.new.run env pre).conn.listens →
      (∀ channel', .subscribe channel' ∈ post → Topic.parse channel' ≠ some c) →
      ∀ n, ((Sys.new.run env (pre++.unsubscribe channel :: post)).line n).filter (onChannel c) <+:
        ((Sys.new.run env pre).line n).filter (onChannel c)) ∧
    ∀ pre, pre <+: ls → (Sys.new.run env pre).Released := by
  have hinv (pre : List (Step β)) (hpre : pre <+: ls) : (Sys.new.run env pre).Routed ∧
      (Sys.new.run env pre).Recorded ∧ (Sys.new.run env pre).Released := by
    apply run_invariant (P := fun s => s.Recorded ∧ s.Released) (R := fun s l => s.Tidy env l) ?_
      routed_new ⟨fun _ => List.nil_sublist _,fun _ _ => rfl⟩
    · intro pre' l hpre'
      exact htidy pre' l (hpre'.trans hpre)
    · intro s l hs hP hl
      exact ⟨hP.1.of_effect hs.toFresh hl (hs.effect env l),
        hP.2.of_effect hs.toFresh hP.1 (hs.effect env l)⟩
  refine ⟨fun pre hpre => (hinv pre hpre).2.1, ?_, fun pre hpre => (hinv pre hpre).2.2⟩
  intro pre channel post c hpre hc hlistens hpost n
  have hshort : pre++[.unsubscribe channel] <+: ls :=
    (List.prefix_append_right_inj pre |>.mpr ⟨post,rfl⟩).trans hpre
  obtain ⟨hs, hr, -⟩ := hinv pre ((List.prefix_append _ _).trans hpre)
  let s₁ := (Sys.new.run env pre).step env (.unsubscribe channel)
  have hclosed : s₁.Closed c := closed_of_unsubscribe hr hc hlistens (htidy pre _ hshort)
  have hline : s₁.line n <+: (Sys.new.run env pre).line n := by
    simpa [arrivals] using (extends_step env hs.toFresh n (.unsubscribe channel)).isPrefix
  rw [run_append]
  exact (run_closed (hs.step env _) hclosed hpost n).trans (hline.filter _)

/-- A connection that subscribes to a channel twice. -/
def subscribedTwice : List (Step ℕ) := [.subscribe "trades.x",.subscribe "trades.x"]

/-- A message that comes after an unsubscribe frame, on its way to the client. -/
def afterUnsubscribe (channel : String) (t : Topic) : List (Step ℕ) :=
  [.unsubscribe channel,.publish ⟨t,7⟩,.take 0,.push 0,.recv,.send true,.recv,.send true,.recv,
    .send true]

theorem tidy_run_recorded_once :
    (Sys.new.run plainEnv [.subscribe "trades.x",.unsubscribe "trades.x"] : Sys ℕ).Recorded ∧
    ((Sys.new.run plainEnv [.subscribe "trades.x",.unsubscribe "trades.x",
        .publish ⟨.trades "x",7⟩]).line 0).filter (onChannel (.trades "x")) <+:
      ((Sys.new.run plainEnv [.subscribe "trades.x"]).line 0).filter (onChannel (.trades "x")) := by
  have h := tidy_run_recorded plainEnv ([.subscribe "trades.x",.unsubscribe "trades.x",
    .publish ⟨.trades "x",7⟩] : List (Step ℕ)) ?_
  · exact ⟨h.1 _ ⟨_,rfl⟩,h.2.1 [.subscribe "trades.x"] "trades.x" [.publish ⟨.trades "x",7⟩] _
      ⟨[],rfl⟩ rfl rfl (by simp) 0⟩
  · apply forall_request_cons
    · constructor
      · intro t ht
        rfl
      · intro t ht
        simp [unsubscribes] at ht
    apply forall_request_cons
    · constructor
      · intro t ht
        simp [subscribes] at ht
      · intro t ht t' hchannel hne
        have htopic : t = .trades "x" := (Option.some.inj ht).symm
        subst htopic
        cases t' with
        | trades m => exact absurd hchannel hne
        | _ => simp [Topic.channel] at hchannel
    apply forall_request_cons
    · constructor
      · intro t ht
        cases ht
      · intro t ht
        cases ht
    exact forall_request_nil

/-- Two subscriptions, of which one is recorded: the other gets messages after the unsubscribe
frame, and is there after the end. The same with a private channel that is unsubscribed from
under another address. -/
theorem second_subscription_hides_first :
    ¬ (Sys.new.run plainEnv subscribedTwice).Recorded ∧
    .forward 0 ⟨⟨.trades "x",7⟩,none⟩ ∈ (Sys.new.run plainEnv
      (subscribedTwice++afterUnsubscribe "trades.x" (.trades "x"))).conn.sent ∧
    ¬ (Sys.new.run plainEnv (subscribedTwice++[.finish])).Released ∧
    .forward 0 ⟨⟨.userFills "a",7⟩,some "b"⟩ ∈ (Sys.new.run plainEnv
      ([.auth "a",.queueReply,.subscribe "user.fills",.auth "b",.queueReply]++
        afterUnsubscribe "user.fills" (.userFills "a"))).conn.sent := by
  refine ⟨?_, ?_, ?_, ?_⟩
  · intro h
    have hboth : [0,1] <+ [1] := h (.trades "x")
    exact absurd hboth (by decide)
  · decide +kernel
  · intro h
    have hfirst : [0] = [] := h rfl (.trades "x")
    exact absurd hfirst (by decide)
  · decide +kernel

end Perplex.Ws.Sys
