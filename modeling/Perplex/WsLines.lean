import Mathlib.Data.List.Sublists
import Mathlib.Tactic.Common
import Perplex.WsModel

/-! What a step of the WebSocket server can do: to the subscriptions that a connection has at
the hub, and to the line of messages between a subscription and the socket. -/

namespace Perplex.Ws
open scoped List
variable {β : Type}

/-- Tokens are the addresses they are for. -/
def plainEnv : Env := ⟨some,id⟩

/-- The channel a topic is reached by: a private one is without its address. -/
def Topic.channel : Topic → Topic
  | .userFills _ => .userFills ""
  | .userPositions _ => .userPositions ""
  | t => t

@[simp]
theorem Topic.channel_withUser (env : Env) (a : String) (t : Topic) :
    (t.withUser env a).channel = t.channel := by
  cases t <;> rfl

theorem Topic.channel_bind (env : Env) (a : String) (t : Topic) :
    (Sys.bind env t a).channel = t.channel := by
  unfold Sys.bind
  split_ifs
  · exact channel_withUser env a t
  · rfl

theorem Topic.channel_parse {c : String} {t : Topic} (h : Topic.parse c = some t) :
    t.channel = t := by
  unfold Topic.parse at h
  split at h
  all_goals try (cases h; rfl)
  split_ifs at h <;> cases h <;> rfl

namespace Frame

/-- The message of a forwarded frame of a subscription. -/
def of (n : ℕ) : Frame β → Option (Item β)
  | .forward id item => if id = n then some item else none
  | _ => none

@[simp]
theorem of_forward (n id : ℕ) (item : Item β) :
    (Frame.forward id item).of n = if id = n then some item else none := rfl

@[simp]
theorem of_reply (n : ℕ) (r : Reply) : (Frame.reply r : Frame β).of n = none := rfl

@[simp]
theorem of_ping (n : ℕ) : (Frame.ping : Frame β).of n = none := rfl

@[simp]
theorem of_close (n : ℕ) : (Frame.close : Frame β).of n = none := rfl

end Frame

namespace Hub

theorem mem_subs_subscribe {h : Hub β} {topic t : Topic} {n : ℕ} :
    n ∈ (h.subscribe topic).2.subs t ↔ n ∈ h.subs t ∨ n = h.next_id ∧ t = topic := by
  by_cases ht : t = topic
  · subst ht
    simp [subscribe]
  · simp [subscribe, ht]

/-- Removing subscribers of one topic. -/
theorem update_filter_sublist (subs : Topic → List ℕ) (topic t : Topic) (p : ℕ → Bool) :
    Function.update subs topic ((subs topic).filter p) t <+ subs t := by
  by_cases ht : t = topic
  · subst ht
    rw [Function.update_self]
    exact List.filter_sublist
  · rw [Function.update_of_ne ht]

theorem filter_update_filter (subs : Topic → List ℕ) (topic t : Topic) (p mine : ℕ → Bool) :
    (Function.update subs topic ((subs topic).filter p) t).filter mine =
      if t = topic then ((subs t).filter mine).filter p else (subs t).filter mine := by
  by_cases ht : t = topic
  · subst ht
    rw [Function.update_self, if_pos rfl, List.filter_comm]
  · rw [Function.update_of_ne ht, if_neg ht]

end Hub

namespace Conn

/-- What the subscriptions depend on. -/
def control (c : Conn β) := (c.address,c.subscriptions,c.forwarders,c.receiving)

theorem control_queueReply (c : Conn β) : c.queueReply.control = c.control := by
  unfold queueReply
  split
  · rfl
  · split_ifs <;> rfl

theorem control_recv (c : Conn β) : c.recv.control = c.control := by
  unfold recv
  split <;> rfl

theorem control_send (c : Conn β) (ok : Bool) : (c.send ok).control = c.control := by
  unfold send
  split
  · rfl
  · split_ifs <;> rfl

/-- The frames the client has got, and those that are queued for it. -/
def frames (c : Conn β) : List (Frame β) := c.sent ++ c.writing.toList ++ c.out

end Conn

namespace Sys

/-- The topic that a step subscribes to. -/
def subscribes (env : Env) (s : Sys β) : Step β → Option Topic
  | .subscribe channel =>
    if s.conn.listens then
      (Topic.parse channel).bind fun topic =>
        if topic.requiresAuth then s.conn.address.map (topic.withUser env ·) else some topic
    else none
  | _ => none

/-- The topic that a step unsubscribes from. -/
def unsubscribes (env : Env) (s : Sys β) : Step β → Option Topic
  | .unsubscribe channel =>
    if s.conn.listens then
      (Topic.parse channel).map fun topic => bind env topic (s.conn.address.getD "")
    else none
  | _ => none

/-- The address that a step authenticates as. -/
def authenticates (env : Env) (s : Sys β) : Step β → Option String
  | .auth token => if s.conn.listens then env.verify token else none
  | _ => none

/-- The subscriptions of the connection that the hub has on a topic. -/
def live (s : Sys β) (t : Topic) : List ℕ := (s.hub.subs t).filter s.conn.mine

/-- Everything the subscriptions of a connection depend on. -/
def control (s : Sys β) := (s.conn.control,s.hub.subs,s.hub.next_id)

theorem control_take (s : Sys β) (id : ℕ) : (s.take id).control = s.control := by
  unfold take
  split <;> rfl

theorem control_push (s : Sys β) (id : ℕ) : (s.push id).control = s.control := by
  unfold push
  split
  · rfl
  · split_ifs <;> rfl

/-- The ids of subscribers are below the next one. -/
structure Fresh (s : Sys β) : Prop where
  subs : ∀ t, ∀ n ∈ s.hub.subs t, n < s.hub.next_id
  mine : ∀ n, s.conn.mine n → n < s.hub.next_id

/-- Nothing happens to the subscriptions of the connection. -/
structure Quiet (s s' : Sys β) : Prop where
  address : s'.conn.address = s.conn.address
  subscriptions : s'.conn.subscriptions = s.conn.subscriptions
  forwarders : s'.conn.forwarders = s.conn.forwarders
  receiving : s'.conn.receiving = s.conn.receiving
  live : ∀ t, s'.live t = s.live t
  next_id : s.hub.next_id ≤ s'.hub.next_id
  subs : ∀ t, ∀ n ∈ s'.hub.subs t, n ∈ s.hub.subs t ∨ n < s'.hub.next_id

variable {env : Env} {s s' : Sys β} {l : Step β}

/-- A subscription is asked for by a channel that is public, or private and bound to the address
of the connection. -/
theorem subscribes_spec {t : Topic} (h : s.subscribes env l = some t) :
    ∃ c topic, l = .subscribe c ∧ s.conn.listens ∧ Topic.parse c = some topic ∧
      ((topic.requiresAuth ∧ ∃ a, s.conn.address = some a ∧ t = topic.withUser env a) ∨
        ¬ topic.requiresAuth ∧ t = topic) := by
  cases l with
  | subscribe c =>
    simp only [subscribes] at h
    split_ifs at h with hlistens
    obtain ⟨topic, hparse, htopic⟩ := Option.bind_eq_some_iff.mp h
    refine ⟨c, topic, rfl, hlistens, hparse, ?_⟩
    split_ifs at htopic with hauth
    · obtain ⟨a, ha, rfl⟩ := Option.map_eq_some_iff.mp htopic
      exact Or.inl ⟨hauth,a,ha,rfl⟩
    · exact Or.inr ⟨hauth,(Option.some.inj htopic).symm⟩
  | _ => simp [subscribes] at h

theorem subscribes_channel {t : Topic} (h : s.subscribes env l = some t) :
    ∃ c, l = .subscribe c ∧ Topic.parse c = some t.channel := by
  obtain ⟨c, topic, rfl, -, hparse, ⟨-, a, -, rfl⟩ | ⟨-, rfl⟩⟩ := subscribes_spec h
  · exact ⟨c,rfl,by rw [Topic.channel_withUser, Topic.channel_parse hparse, hparse]⟩
  · exact ⟨c,rfl,by rw [Topic.channel_parse hparse, hparse]⟩

theorem step_of_subscribes {t : Topic} (h : s.subscribes env l = some t) :
    s.step env l = s.subscribeTopic t := by
  obtain ⟨c, topic, rfl, hl, hparse, ⟨hauth, a, ha, rfl⟩ | ⟨hauth, rfl⟩⟩ := subscribes_spec h
  · simp [step, hl, handleSubscribe, hparse, hauth, ha]
  · simp [step, hl, handleSubscribe, hparse, hauth]

theorem Fresh.next_not_mine (hs : s.Fresh) : s.conn.mine s.hub.next_id = false := by
  by_contra h
  exact absurd (hs.mine _ (by simpa using h)) (lt_irrefl _)

theorem Quiet.of_control (h : s'.control = s.control) : Quiet s s' := by
  simp only [control, Conn.control, Prod.mk.injEq] at h
  obtain ⟨⟨haddress, hsubscriptions, hforwarders, hreceiving⟩, hsubs, hnext⟩ := h
  refine ⟨haddress, hsubscriptions, hforwarders, hreceiving, ?_, hnext.ge, ?_⟩
  · intro t
    unfold Sys.live Conn.mine
    rw [hsubs, hforwarders]
  · intro t n hn
    rw [hsubs] at hn
    exact Or.inl hn

theorem live_subscribeTopic (hs : s.Fresh) (topic t : Topic) :
    (s.subscribeTopic topic).live t =
      if t = topic then s.live t ++ [s.hub.next_id] else s.live t := by
  -- the ids that the hub has are older than the new one
  have hold : (s.hub.subs t).filter (s.subscribeTopic topic).conn.mine = s.live t := by
    apply List.filter_congr
    intro n hn
    have hne : n ≠ s.hub.next_id := (hs.subs t n hn).ne
    simp [subscribeTopic, Hub.subscribe, Conn.mine, Function.update_of_ne hne]
  have hnew : (s.subscribeTopic topic).conn.mine s.hub.next_id = true := by
    simp [subscribeTopic, Hub.subscribe, Conn.mine]
  by_cases ht : t = topic
  · subst ht
    have hsubs : (s.subscribeTopic t).hub.subs t = s.hub.subs t ++ [s.hub.next_id] := by
      simp [subscribeTopic, Hub.subscribe]
    rw [live, hsubs, List.filter_append, hold, if_pos rfl]
    simp [hnew]
  · have hsubs : (s.subscribeTopic topic).hub.subs t = s.hub.subs t := by
      simp [subscribeTopic, Hub.subscribe, Function.update_of_ne ht]
    rw [live, hsubs, hold, if_neg ht]

theorem live_unsubscribeTopic (s : Sys β) (topic t : Topic) (id : ℕ) :
    (s.unsubscribeTopic topic id).live t =
      if t = topic then (s.live t).filter (· ≠ id) else s.live t :=
  Hub.filter_update_filter s.hub.subs topic t _ s.conn.mine

theorem live_publish (s : Sys β) (item : Item β) (t : Topic) :
    ({ s with hub := (s.hub.publish item).2 } : Sys β).live t =
      if t = item.msg.topic then (s.live t).filter s.hub.accepts else s.live t :=
  Hub.filter_update_filter s.hub.subs item.msg.topic t _ s.conn.mine

theorem subs_finish (s : Sys β) (t : Topic) :
    s.finish.hub.subs t = (s.hub.subs t).filter fun n => s.conn.subscriptions t ≠ some n := by
  cases hrecorded : s.conn.subscriptions t with
  | none => simp [finish, hrecorded]
  | some id => simp [finish, hrecorded, eq_comm]

theorem live_finish (s : Sys β) (t : Topic) :
    s.finish.live t = (s.live t).filter fun n => s.conn.subscriptions t ≠ some n := by
  change (s.finish.hub.subs t).filter s.conn.mine = _
  rw [subs_finish, live, List.filter_comm]

/-- What a step can do to the subscriptions of the connection. -/
inductive Effect (env : Env) (s : Sys β) (l : Step β) : Sys β → Prop
  | subscribed {topic : Topic} : s.subscribes env l = some topic →
    Effect env s l (s.subscribeTopic topic)
  | unsubscribed {topic : Topic} {id : ℕ} : s.unsubscribes env l = some topic →
    s.conn.subscriptions topic = some id → Effect env s l (s.unsubscribeTopic topic id)
  | authenticated {sub : String} : s.authenticates env l = some sub → Effect env s l
    { s with conn := { s.conn with address := some sub, reply := some .authOk } }
  | finished : s.conn.listens → l = .finish → Effect env s l s.finish
  | published {msg : Message β} : l = .publish msg → Effect env s l
    { s with hub := (s.hub.publish ⟨msg,s.conn.address⟩).2 }
  | quiet {s' : Sys β} : Quiet s s' → Effect env s l s'

theorem Effect.of_control (h : s'.control = s.control) : Effect env s l s' :=
  .quiet (Quiet.of_control h)

theorem Effect.of_conn {c : Conn β} (h : c.control = s.conn.control) :
    Effect env s l { s with conn := c } :=
  .of_control (congrArg (fun k => (k,s.hub.subs,s.hub.next_id)) h)

theorem Effect.ite {p : Prop} [Decidable p] (h : p → Effect env s l s') :
    Effect env s l (if p then s' else s) := by
  split_ifs with hp
  · exact h hp
  · exact .of_control rfl

theorem effect_subscribe (env : Env) (hs : s.conn.listens) (channel : String) :
    Effect env s (.subscribe channel) (s.handleSubscribe env channel) := by
  cases hparse : Topic.parse channel with
  | none =>
    have hstep : s.handleSubscribe env channel =
        { s with conn := s.conn.answer (.error "unknown channel") } := by
      simp [handleSubscribe, hparse]
    rw [hstep]
    exact .of_conn rfl
  | some topic =>
    by_cases hauth : topic.requiresAuth
    · cases haddress : s.conn.address with
      | none =>
        have hstep : s.handleSubscribe env channel =
            { s with conn := s.conn.answer (.error "auth required") } := by
          simp [handleSubscribe, hparse, hauth, haddress]
        rw [hstep]
        exact .of_conn rfl
      | some a =>
        have hsub : s.subscribes env (.subscribe channel) = some (topic.withUser env a) := by
          simp [subscribes, hs, hparse, hauth, haddress]
        simpa [handleSubscribe, hparse, hauth, haddress] using Effect.subscribed hsub
    · have hsub : s.subscribes env (.subscribe channel) = some topic := by
        simp [subscribes, hs, hparse, hauth]
      simpa [handleSubscribe, hparse, hauth] using Effect.subscribed hsub

theorem effect_unsubscribe (env : Env) (hs : s.conn.listens) (channel : String) :
    Effect env s (.unsubscribe channel) (s.handleUnsubscribe env channel) := by
  cases hparse : Topic.parse channel with
  | none => exact .of_control (by simp [handleUnsubscribe, hparse])
  | some topic =>
    have hunsub : s.unsubscribes env (.unsubscribe channel) =
        some (bind env topic (s.conn.address.getD "")) := by
      simp [unsubscribes, hs, hparse]
    cases hrecorded : s.conn.subscriptions (bind env topic (s.conn.address.getD "")) with
    | none => exact .of_control (by simp [handleUnsubscribe, hparse, hrecorded])
    | some id =>
      simpa [handleUnsubscribe, hparse, hrecorded] using Effect.unsubscribed hunsub hrecorded

theorem effect_auth (env : Env) (hs : s.conn.listens) (token : String) :
    Effect env s (.auth token) { s with conn := s.conn.handleAuth env token } := by
  unfold Conn.handleAuth
  cases hverify : env.verify token with
  | none => exact .of_conn rfl
  | some sub =>
    have hauth : s.authenticates env (.auth token) = some sub := by
      simp [authenticates, hs, hverify]
    exact Effect.authenticated hauth

/-- Other connections have subscriptions of their own. -/
theorem quiet_envSubscribe (hs : s.Fresh) (topic : Topic) :
    Quiet s { s with hub := (s.hub.subscribe topic).2 } := by
  have hnew := hs.next_not_mine
  refine ⟨rfl, rfl, rfl, rfl, ?_, Nat.le_succ _, ?_⟩
  · intro t
    by_cases ht : t = topic
    · subst ht
      simp [Hub.subscribe, live, hnew]
    · simp [Hub.subscribe, live, Function.update_of_ne ht]
  · intro t n hn
    rcases Hub.mem_subs_subscribe.mp hn with h | ⟨rfl, -⟩
    · exact Or.inl h
    · exact Or.inr (Nat.lt_succ_self _)

theorem quiet_envUnsubscribe {id : ℕ} (hid : ¬ s.conn.mine id) (topic : Topic) :
    Quiet s { s with hub := s.hub.unsubscribe topic id } := by
  refine ⟨rfl, rfl, rfl, rfl, ?_, le_refl _, ?_⟩
  · intro t
    refine (live_unsubscribeTopic s topic t id).trans ?_
    split_ifs
    · rw [List.filter_eq_self]
      intro n hn
      have hmine : s.conn.mine n := List.of_mem_filter hn
      simpa using fun h : n = id => hid (h ▸ hmine)
    · rfl
  · intro t n hn
    exact Or.inl ((Hub.update_filter_sublist _ _ t _).mem hn)

theorem step_effect (env : Env) (hs : s.Fresh) (l : Step β) : Effect env s l (s.step env l) := by
  cases l with
  | subscribe channel => exact .ite fun hl => effect_subscribe env hl channel
  | unsubscribe channel => exact .ite fun hl => effect_unsubscribe env hl channel
  | auth token => exact .ite fun hl => effect_auth env hl token
  | ping data => exact .ite fun _ => .of_conn rfl
  | badJson => exact .ite fun _ => .of_conn rfl
  | finish => exact .ite fun hl => .finished hl rfl
  | queueReply => exact .of_conn s.conn.control_queueReply
  | publish msg => exact .published rfl
  | take id => exact .ite fun _ => .of_control (s.control_take id)
  | push id => exact .ite fun _ => .of_control (s.control_push id)
  | recv => exact .of_conn s.conn.control_recv
  | send ok => exact .of_conn (s.conn.control_send ok)
  | beat => exact .ite fun _ => .of_conn rfl
  | timeout => exact .ite fun _ => .of_conn rfl
  | envSubscribe topic => exact .quiet (quiet_envSubscribe hs topic)
  | envUnsubscribe topic id =>
    rw [step]
    split_ifs with hid
    · exact .of_control rfl
    · exact .quiet (quiet_envUnsubscribe hid topic)
  | envTake id =>
    rw [step]
    split_ifs <;> exact .of_control rfl
  | envDrop id =>
    rw [step]
    split_ifs <;> exact .of_control rfl

theorem Fresh.of_effect (hs : s.Fresh) (h : Effect env s l s') : s'.Fresh := by
  cases h with
  | subscribed _ =>
    constructor
    · intro t n hn
      rcases Hub.mem_subs_subscribe.mp hn with h | ⟨rfl, -⟩
      · exact (hs.subs t n h).trans (Nat.lt_succ_self _)
      · exact Nat.lt_succ_self _
    · intro n hn
      by_cases hnew : n = s.hub.next_id
      · exact hnew ▸ Nat.lt_succ_self _
      · have hn' : s.conn.mine n := by
          simpa [subscribeTopic, Hub.subscribe, Conn.mine, Function.update_of_ne hnew] using hn
        exact (hs.mine n hn').trans (Nat.lt_succ_self _)
  | unsubscribed _ _ =>
    exact ⟨fun t n hn => hs.subs t n ((Hub.update_filter_sublist _ _ t _).mem hn),hs.mine⟩
  | authenticated _ => exact ⟨hs.subs,hs.mine⟩
  | published _ =>
    exact ⟨fun t n hn => hs.subs t n ((Hub.update_filter_sublist _ _ t _).mem hn),hs.mine⟩
  | finished _ _ =>
    exact ⟨fun t n hn => hs.subs t n (List.mem_of_mem_filter (s.subs_finish t ▸ hn)),hs.mine⟩
  | quiet hq =>
    constructor
    · intro t n hn
      rcases hq.subs t n hn with h | h
      · exact (hs.subs t n h).trans_le hq.next_id
      · exact h
    · intro n hn
      have hn' : s.conn.mine n := by rwa [Conn.mine, ← hq.forwarders]
      exact (hs.mine n hn').trans_le hq.next_id

/-- The connection gets a subscription to a topic by subscribing to it only. -/
theorem Effect.live_cases (hs : s.Fresh) (h : Effect env s l s') (t : Topic) :
    s'.live t <+ s.live t ∨ s.subscribes env l = some t ∧ s' = s.subscribeTopic t := by
  cases h with
  | @subscribed topic htopic =>
    by_cases ht : t = topic
    · subst ht
      exact Or.inr ⟨htopic,rfl⟩
    · rw [live_subscribeTopic hs, if_neg ht]
      exact Or.inl (List.Sublist.refl _)
  | unsubscribed _ _ =>
    rw [live_unsubscribeTopic]
    split_ifs
    · exact Or.inl List.filter_sublist
    · exact Or.inl (List.Sublist.refl _)
  | authenticated _ => exact Or.inl (List.Sublist.refl _)
  | finished _ _ =>
    rw [live_finish]
    exact Or.inl List.filter_sublist
  | published _ =>
    rw [live_publish]
    split_ifs
    · exact Or.inl List.filter_sublist
    · exact Or.inl (List.Sublist.refl _)
  | quiet hq =>
    rw [hq.live]
    exact Or.inl (List.Sublist.refl _)

/-- The messages of a subscription that the client has got, and those on their way to it. -/
def line (s : Sys β) (n : ℕ) : List (Item β) :=
  s.conn.frames.filterMap (Frame.of n) ++
    if s.conn.sending && s.conn.mine n then (s.conn.holding n).toList ++ s.hub.boxes n else []

/-- The message that a step puts in the mailbox of a subscription of the connection. -/
def arrivals (s : Sys β) (n : ℕ) : Step β → List (Item β)
  | .publish msg =>
    if n ∈ s.live msg.topic ∧ s.hub.accepts n then [⟨msg,s.conn.address⟩] else []
  | _ => []

theorem mem_arrivals {n : ℕ} {item : Item β} (h : item ∈ s.arrivals n l) :
    ∃ msg, l = .publish msg ∧ item = ⟨msg,s.conn.address⟩ ∧ n ∈ s.live msg.topic ∧
      s.hub.accepts n := by
  cases l with
  | publish msg =>
    simp only [arrivals] at h
    split_ifs at h with hn
    · exact ⟨msg,rfl,List.mem_singleton.mp h,hn⟩
    · exact absurd h List.not_mem_nil
  | _ => exact absurd h List.not_mem_nil

/-- As long as the sender runs, a line goes on with what arrives and its forwarder stays; when
it has ended nothing more comes. -/
structure Extends (s : Sys β) (n : ℕ) (new : List (Item β)) (s' : Sys β) : Prop where
  running : s'.conn.sending → s.conn.sending
  forwarder : s'.conn.sending → s'.conn.mine n → s'.hub.gone n → s.conn.mine n ∧ s.hub.gone n
  line : s'.conn.sending → s'.line n = s.line n ++ new
  stopped : s'.conn.sending = false → s'.line n <+: s.line n

namespace Extends
variable {n : ℕ} {new : List (Item β)}

theorem isPrefix (h : Extends s n new s') : s'.line n <+: s.line n ++ new := by
  cases hs : s'.conn.sending with
  | true => exact h.line hs ▸ List.prefix_refl _
  | false => exact (h.stopped hs).trans (List.prefix_append _ _)

theorem of_eq (hsending : s'.conn.sending = s.conn.sending)
    (hforwarder : s'.conn.mine n → s'.hub.gone n → s.conn.mine n ∧ s.hub.gone n)
    (hline : s'.line n = s.line n) : Extends s n [] s' where
  running h := hsending ▸ h
  forwarder _ := hforwarder
  line _ := by rw [hline, List.append_nil]
  stopped _ := hline ▸ List.prefix_refl _

/-- The connection has moved frames of its own. -/
theorem of_conn {c : Conn β} (hsending : c.sending = s.conn.sending)
    (hforwarders : c.forwarders = s.conn.forwarders) (hholding : c.holding = s.conn.holding)
    (hframes : c.frames.filterMap (Frame.of n) = s.conn.frames.filterMap (Frame.of n)) :
    Extends s n [] { s with conn := c } := by
  have hmine : c.mine n = s.conn.mine n := by rw [Conn.mine, Conn.mine, hforwarders]
  refine of_eq hsending (fun h hgone => ⟨hmine ▸ h,hgone⟩) ?_
  unfold Sys.line
  rw [hframes, hsending, hmine, hholding]

/-- The sender ends with what is queued. -/
theorem of_stopped (hsent : s'.conn.frames = s.conn.sent) (hsending : s'.conn.sending = false) :
    Extends s n [] s' where
  running h := by simp [hsending] at h
  forwarder h := by simp [hsending] at h
  line h := by simp [hsending] at h
  stopped _ := by
    have hline : s'.line n = s.conn.sent.filterMap (Frame.of n) := by
      simp [Sys.line, hsent, hsending]
    rw [hline]
    simp only [Sys.line, Conn.frames, List.filterMap_append, List.append_assoc]
    exact List.prefix_append _ _

/-- Nothing happens. -/
theorem skip (s : Sys β) (n : ℕ) : Extends s n [] s := of_eq rfl (fun h hgone => ⟨h,hgone⟩) rfl

/-- A step that is made under a condition. -/
theorem ite {c : Prop} [Decidable c] (h : c → Extends s n [] s') :
    Extends s n [] (if c then s' else s) := by
  split_ifs with hc
  · exact h hc
  · exact skip s n

theorem ite_not {c : Prop} [Decidable c] (h : ¬ c → Extends s n [] s') :
    Extends s n [] (if c then s else s') := by
  split_ifs with hc
  · exact skip s n
  · exact h hc

end Extends

theorem extends_enqueue (s : Sys β) {f : Frame β} {n : ℕ} (hf : f.of n = none) :
    Extends s n [] { s with conn := s.conn.enqueue f } := by
  refine .of_conn rfl rfl rfl ?_
  simp [Conn.frames, Conn.enqueue, hf]

theorem extends_queueReply (s : Sys β) (n : ℕ) :
    Extends s n [] { s with conn := s.conn.queueReply } := by
  unfold Conn.queueReply
  split
  · exact .skip s n
  · next r hr =>
    split_ifs with hsending hroom
    · refine .of_conn rfl rfl rfl ?_
      simp [Conn.frames, Conn.enqueue]
    · exact .skip s n
    · exact .of_conn rfl rfl rfl rfl

theorem extends_take (s : Sys β) (id n : ℕ) : Extends s n [] (s.take id) := by
  unfold take
  split
  · next item rest hholding hbox =>
    refine .of_eq rfl (fun h hgone => ⟨h,hgone⟩) ?_
    by_cases hn : n = id
    · subst hn
      simp [line, Conn.frames, hholding, hbox, Conn.mine]
    · simp [line, Conn.frames, hn, Conn.mine]
  · exact .skip s n

theorem extends_push {id : ℕ} (hid : s.conn.mine id) (n : ℕ) : Extends s n [] (s.push id) := by
  unfold push
  split
  · exact .skip s n
  · next item hholding =>
    split_ifs with hsending hroom
    · refine .of_eq rfl (fun h hgone => ⟨h,hgone⟩) ?_
      by_cases hn : n = id
      · subst hn
        unfold Conn.mine at hid
        simp [line, Conn.frames, Conn.enqueue, hholding, hsending, Conn.mine, hid]
      · simp [line, Conn.frames, Conn.enqueue, hn, hsending, Ne.symm hn, Conn.mine]
    · exact .skip s n
    · -- the forwarder ends after the sender
      constructor
      · exact fun h => absurd h hsending
      · exact fun h => absurd h hsending
      · exact fun h => absurd h hsending
      · intro _
        simp [line, Conn.frames, hsending]

theorem extends_recv (s : Sys β) (n : ℕ) : Extends s n [] { s with conn := s.conn.recv } := by
  unfold Conn.recv
  split
  · next f rest hwriting hout =>
    refine .of_conn rfl rfl rfl ?_
    simp [Conn.frames, hwriting, hout]
  · exact .skip s n

theorem extends_send (s : Sys β) (ok : Bool) (n : ℕ) :
    Extends s n [] { s with conn := s.conn.send ok } := by
  unfold Conn.send
  split
  · exact .skip s n
  · next f hwriting =>
    split_ifs with hok
    · refine .of_conn rfl rfl rfl ?_
      simp [Conn.frames, hwriting]
    · exact .of_stopped (by simp [Conn.frames]) rfl

theorem extends_publish (s : Sys β) (msg : Message β) (n : ℕ) :
    Extends s n (s.arrivals n (.publish msg))
      { s with hub := (s.hub.publish ⟨msg,s.conn.address⟩).2 } := by
  by_cases hmine : s.conn.mine n
  · have hbox : (s.hub.publish ⟨msg,s.conn.address⟩).2.boxes n =
        s.hub.boxes n ++ s.arrivals n (.publish msg) := by
      simp only [Hub.publish, arrivals, live, List.mem_filter, hmine, and_true]
      split_ifs <;> simp
    refine ⟨id, fun _ h hgone => ⟨h,hgone⟩, ?_, ?_⟩
    · intro hsending
      unfold line
      rw [hbox]
      simp [show s.conn.sending from hsending, hmine, Conn.frames]
    · intro hsending
      simp [line, show s.conn.sending = false from hsending, Conn.frames]
  · have hnone : s.arrivals n (.publish msg) = [] := by
      simp [arrivals, live, hmine]
    rw [hnone]
    exact .of_eq rfl (fun h => absurd h hmine) (by simp [line, Conn.frames, hmine])

/-- A subscription starts with an empty mailbox. -/
theorem extends_subscribeTopic (hs : s.Fresh) (topic : Topic) (n : ℕ) :
    Extends s n [] (s.subscribeTopic topic) := by
  by_cases hn : n = s.hub.next_id
  · subst hn
    have hmine := hs.next_not_mine
    refine .of_eq rfl (fun _ hgone => ?_) ?_
    · simp [subscribeTopic, Hub.subscribe] at hgone
    · simp [line, Conn.frames, subscribeTopic, Hub.subscribe, hmine]
  · refine .of_eq rfl (fun h hgone => ?_) ?_
    · simpa [subscribeTopic, Hub.subscribe, Conn.mine, Function.update_of_ne hn] using
        And.intro h hgone
    · simp [line, Conn.frames, subscribeTopic, Hub.subscribe, Conn.mine, Function.update_of_ne hn]

theorem extends_handleSubscribe (hs : s.Fresh) (env : Env) (channel : String) (n : ℕ) :
    Extends s n [] (s.handleSubscribe env channel) := by
  unfold handleSubscribe
  split
  · exact .of_conn rfl rfl rfl rfl
  · split_ifs
    · split
      · exact extends_subscribeTopic hs _ n
      · exact .of_conn rfl rfl rfl rfl
    · exact extends_subscribeTopic hs _ n

theorem extends_handleUnsubscribe (s : Sys β) (env : Env) (channel : String) (n : ℕ) :
    Extends s n [] (s.handleUnsubscribe env channel) := by
  unfold handleUnsubscribe
  split
  · exact .skip s n
  · dsimp only
    split
    · exact .skip s n
    · exact .of_eq rfl (fun h hgone => ⟨h,hgone⟩) rfl

theorem extends_handleAuth (s : Sys β) (env : Env) (token : String) (n : ℕ) :
    Extends s n [] { s with conn := s.conn.handleAuth env token } := by
  unfold Conn.handleAuth
  split
  · exact .of_conn rfl rfl rfl rfl
  · exact .of_conn rfl rfl rfl rfl

/-- Other connections move the messages of other subscriptions. -/
theorem extends_env {n : ℕ} {hub : Hub β} (hboxes : s.conn.mine n → hub.boxes n = s.hub.boxes n)
    (hgone : s.conn.mine n → hub.gone n = s.hub.gone n) : Extends s n [] { s with hub } := by
  refine .of_eq rfl (fun h hg => ⟨h,hgone h ▸ hg⟩) ?_
  by_cases hmine : s.conn.mine n
  · simp [line, Conn.frames, hboxes hmine]
  · simp [line, Conn.frames, hmine]

/-- Every line goes on with what is published to its subscription. -/
theorem extends_step (env : Env) (hs : s.Fresh) (n : ℕ) (l : Step β) :
    Extends s n (s.arrivals n l) (s.step env l) := by
  cases l with
  | subscribe channel => exact .ite fun _ => extends_handleSubscribe hs env channel n
  | unsubscribe channel => exact .ite fun _ => extends_handleUnsubscribe s env channel n
  | auth token => exact .ite fun _ => extends_handleAuth s env token n
  | ping data => exact .ite fun _ => .of_conn rfl rfl rfl rfl
  | badJson => exact .ite fun _ => .of_conn rfl rfl rfl rfl
  | finish => exact .ite fun _ => .of_stopped (by simp [Conn.frames, finish]) rfl
  | queueReply => exact extends_queueReply s n
  | publish msg => exact extends_publish s msg n
  | take id => exact .ite fun _ => extends_take s id n
  | push id => exact .ite fun hid => extends_push hid n
  | recv => exact extends_recv s n
  | send ok => exact extends_send s ok n
  | beat => exact .ite fun _ => extends_enqueue s rfl
  | timeout => exact .ite fun _ => extends_enqueue s rfl
  | envSubscribe topic =>
    apply extends_env
    · intro hn
      exact Function.update_of_ne (hs.mine n hn).ne _ _
    · intro hn
      exact Function.update_of_ne (hs.mine n hn).ne _ _
  | envUnsubscribe topic id => exact .ite_not fun _ => extends_env (fun _ => rfl) fun _ => rfl
  | envTake id =>
    apply Extends.ite_not
    intro hid
    refine extends_env (fun hn => ?_) fun _ => rfl
    have hne : n ≠ id := fun h => hid (h ▸ hn)
    exact Function.update_of_ne hne _ _
  | envDrop id =>
    apply Extends.ite_not
    intro hid
    refine extends_env (fun _ => rfl) fun hn => ?_
    have hne : n ≠ id := fun h => hid (h ▸ hn)
    exact Function.update_of_ne hne _ _

/-- Subscriptions keep the topic they were created for, and so do their messages; forwarders
stay as long as the sender runs. -/
structure Routed (s : Sys β) : Prop extends s.Fresh where
  live : ∀ t, ∀ n ∈ s.live t, s.conn.forwarders n = some t
  line : ∀ n, ∀ item ∈ s.line n, s.conn.forwarders n = some item.msg.topic
  running : s.conn.sending → ∀ n, s.conn.mine n → s.hub.gone n = false

/-- Forwarders stay. -/
theorem Effect.forwarders (hs : s.Fresh) (h : Effect env s l s') {n : ℕ} {t : Topic}
    (hn : s.conn.forwarders n = some t) : s'.conn.forwarders n = some t := by
  cases h with
  | subscribed _ =>
    have hold : n ≠ s.hub.next_id := (hs.mine n (by simp [Conn.mine, hn])).ne
    simpa [subscribeTopic, Hub.subscribe, Function.update_of_ne hold] using hn
  | quiet hq => rwa [hq.forwarders]
  | _ => exact hn

theorem Routed.live_of_effect (hs : s.Routed) (h : Effect env s l s') :
    ∀ t, ∀ n ∈ s'.live t, s'.conn.forwarders n = some t := by
  intro t n hn
  rcases h.live_cases hs.toFresh t with hlive | ⟨-, rfl⟩
  · exact h.forwarders hs.toFresh (hs.live t n (hlive.mem hn))
  · rw [live_subscribeTopic hs.toFresh, if_pos rfl] at hn
    rcases List.mem_append.mp hn with hn | hn
    · exact h.forwarders hs.toFresh (hs.live t n hn)
    · rw [List.mem_singleton.mp hn]
      exact Function.update_self _ _ _

theorem Routed.effect (hs : s.Routed) (env : Env) (l : Step β) : Effect env s l (s.step env l) :=
  step_effect env hs.toFresh l

theorem Routed.step (hs : s.Routed) (env : Env) (l : Step β) : (s.step env l).Routed := by
  have hext (n : ℕ) := extends_step env hs.toFresh n l
  refine ⟨hs.toFresh.of_effect (hs.effect env l), hs.live_of_effect (hs.effect env l), ?_, ?_⟩
  · intro n item hitem
    apply (hs.effect env l).forwarders hs.toFresh
    rcases List.mem_append.mp ((hext n).isPrefix.mem hitem) with h | h
    · exact hs.line n item h
    · -- only a message on the topic of a subscription arrives
      obtain ⟨msg, rfl, rfl, hlive, -⟩ := mem_arrivals h
      exact hs.live _ n hlive
  · intro hsending n hn
    by_contra hgone
    obtain ⟨hmine, hgone'⟩ := (hext n).forwarder hsending hn (by simpa using hgone)
    simp [hs.running ((hext n).running hsending) n hmine] at hgone'

theorem routed_new : (Sys.new : Sys β).Routed where
  subs _ _ h := absurd h List.not_mem_nil
  mine n h := by simp [Sys.new, Conn.new, Conn.mine] at h
  live _ _ h := absurd h List.not_mem_nil
  line n item h := by simp [Sys.line, Conn.frames, Sys.new, Conn.new, Conn.mine] at h
  running _ _ _ := rfl

theorem run_cons (env : Env) (s : Sys β) (l : Step β) (ls : List (Step β)) :
    s.run env (l :: ls) = (s.step env l).run env ls := rfl

theorem run_append (env : Env) (s : Sys β) (ls ls' : List (Step β)) :
    s.run env (ls++ls') = (s.run env ls).run env ls' := List.foldl_append

theorem routed_run (env : Env) (ls : List (Step β)) : (Sys.new.run env ls).Routed := by
  apply foldl_invariant (R := fun _ _ => True) ?_ routed_new (fun _ _ _ => trivial)
  intro s l hs _
  exact hs.step env l

/-- What a step keeps, under a condition on where it is made, holds in every state of a run
whose steps meet the condition. -/
theorem run_invariant {P : Sys β → Prop} {R : Sys β → Step β → Prop}
    (h : ∀ s l, s.Routed → P s → R s l → P (s.step env l)) (hs : s.Routed) (hP : P s)
    {ls : List (Step β)} (hls : ∀ pre l, pre++[l] <+: ls → R (s.run env pre) l) :
    (s.run env ls).Routed ∧ P (s.run env ls) := by
  apply foldl_invariant (P := fun s : Sys β => s.Routed ∧ P s) ?_ ⟨hs,hP⟩ hls
  intro s l hinv hR
  exact ⟨hinv.1.step env l,h s l hinv.1 hinv.2 hR⟩

end Sys

end Perplex.Ws
