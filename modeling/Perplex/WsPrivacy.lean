import Perplex.Noninterference
import Perplex.WsLines

/-! Private channels. A connection gets the messages of an address when it is authenticated as
that address, provided that it does not authenticate as somebody else while it has private
subscriptions: these stay with the address they were made for. -/

namespace Perplex.Ws
open scoped List
variable {β : Type}

/-- The messages of a private topic are for its address. -/
def Topic.visibleTo (env : Env) (address : Option String) : Topic → Bool
  | .userFills a | .userPositions a => address.map env.lower = some a
  | _ => true

theorem Topic.visibleTo_withUser (env : Env) (a : String) (t : Topic) :
    (t.withUser env a).visibleTo env (some a) := by
  cases t <;> simp [withUser, visibleTo]

theorem Topic.visibleTo_of_not_requiresAuth (env : Env) (address : Option String) {t : Topic}
    (h : ¬ t.requiresAuth) : t.visibleTo env address := by
  cases t <;> simp_all [requiresAuth, visibleTo]

namespace Sys
variable {env : Env} {s s' : Sys β} {l : Step β}

/-- The subscriptions of the connection are for the address it is authenticated as. -/
def Private (env : Env) (s : Sys β) : Prop :=
  ∀ t, s.live t ≠ [] → t.visibleTo env s.conn.address

/-- An authentication is for the address of the private subscriptions. -/
def SameUser (env : Env) (s : Sys β) (l : Step β) : Prop :=
  ∀ sub, s.authenticates env l = some sub → ∀ t, s.live t ≠ [] → t.visibleTo env (some sub)

theorem subscribes_visible {t : Topic} (h : s.subscribes env l = some t) :
    t.visibleTo env s.conn.address := by
  obtain ⟨-, topic, -, -, -, ⟨-, a, ha, rfl⟩ | ⟨hauth, rfl⟩⟩ := subscribes_spec h
  · rw [ha]
    exact Topic.visibleTo_withUser env a topic
  · exact Topic.visibleTo_of_not_requiresAuth env _ hauth

theorem Private.of_effect (hs : s.Fresh) (hp : s.Private env) (hl : s.SameUser env l)
    (h : Effect env s l s') : s'.Private env := by
  intro t ht
  rcases h.live_cases hs t with hlive | ⟨htopic, rfl⟩
  · have hne : s.live t ≠ [] := fun hnil => ht (List.sublist_nil.mp (hnil ▸ hlive))
    cases h with
    | authenticated hsub => exact hl _ hsub t hne
    | quiet hq =>
      rw [hq.address]
      exact hp t hne
    | _ => exact hp t hne
  · exact subscribes_visible htopic

/-- Every message on a line was published when its topic was visible to the connection. -/
def Confined (env : Env) (s : Sys β) : Prop :=
  ∀ n, ∀ item ∈ s.line n, item.msg.topic.visibleTo env item.auth

theorem Confined.step (hs : s.Fresh) (hp : s.Private env) (hc : s.Confined env) (l : Step β) :
    (s.step env l).Confined env := by
  intro n item hitem
  rcases List.mem_append.mp ((extends_step env hs n l).isPrefix.mem hitem) with h | h
  · exact hc n item h
  · obtain ⟨msg, rfl, rfl, hlive, -⟩ := mem_arrivals h
    exact hp _ (List.ne_nil_of_mem hlive)

/-- A message that is for another address than the one of the connection. -/
def hidden (env : Env) (s : Sys β) : Step β → Bool
  | .publish msg => !msg.topic.visibleTo env s.conn.address
  | _ => false

end Sys

theorem update_eq_of_ne {α : Type} {f f' : ℕ → α} {id n : ℕ} {v : α} (h : n ≠ id → f' n = f n) :
    Function.update f' id v n = Function.update f id v n := by
  by_cases hn : n = id
  · rw [hn, Function.update_self, Function.update_self]
  · rw [Function.update_of_ne hn, Function.update_of_ne hn]
    exact h hn

/-- The same subscriptions of a connection, with the same mailboxes. -/
structure Hub.Alike (mine : ℕ → Bool) (h h' : Hub β) : Prop where
  next_id : h'.next_id = h.next_id
  subs : ∀ t, (h'.subs t).filter mine = (h.subs t).filter mine
  boxes : ∀ n, mine n → h'.boxes n = h.boxes n
  gone : ∀ n, mine n → h'.gone n = h.gone n

namespace Hub.Alike
variable {mine : ℕ → Bool} {h h' h₁ h₁' : Hub β}

theorem refl (mine : ℕ → Bool) (h : Hub β) : Alike mine h h :=
  ⟨rfl,fun _ => rfl,fun _ _ => rfl,fun _ _ => rfl⟩

theorem symm (ha : Alike mine h h') : Alike mine h' h :=
  ⟨ha.next_id.symm,fun t => (ha.subs t).symm,fun n hn => (ha.boxes n hn).symm,
    fun n hn => (ha.gone n hn).symm⟩

theorem trans (ha : Alike mine h h') (hb : Alike mine h' h₁) : Alike mine h h₁ :=
  ⟨hb.next_id.trans ha.next_id,fun t => (hb.subs t).trans (ha.subs t),
    fun n hn => (hb.boxes n hn).trans (ha.boxes n hn),
    fun n hn => (hb.gone n hn).trans (ha.gone n hn)⟩

/-- Both sides remove subscribers of a topic, the same ones of the connection. -/
theorem filter (ha : Alike mine h h') {p p' : ℕ → Bool} (hp : ∀ n, mine n → p' n = p n)
    (topic t : Topic) :
    (Function.update h'.subs topic ((h'.subs topic).filter p') t).filter mine =
      (Function.update h.subs topic ((h.subs topic).filter p) t).filter mine := by
  have hsame (l : List ℕ) : (l.filter mine).filter p' = (l.filter mine).filter p := by
    apply List.filter_congr
    intro n hn
    exact hp n (List.of_mem_filter hn)
  rw [Hub.filter_update_filter, Hub.filter_update_filter, ha.subs, hsame]

theorem unsubscribe (ha : Alike mine h h') (topic : Topic) (id : ℕ) :
    Alike mine (h.unsubscribe topic id) (h'.unsubscribe topic id) :=
  ⟨ha.next_id,ha.filter (fun _ _ => rfl) topic,ha.boxes,ha.gone⟩

theorem accepts (ha : Alike mine h h') {n : ℕ} (hn : mine n) : h'.accepts n = h.accepts n := by
  rw [Hub.accepts, Hub.accepts, ha.gone n hn, ha.boxes n hn]

theorem publish (ha : Alike mine h h') (item : Item β) :
    Alike mine (h.publish item).2 (h'.publish item).2 := by
  refine ⟨ha.next_id, ha.filter (fun _ hn => ha.accepts hn) _, ?_, ha.gone⟩
  intro n hn
  have hmem : n ∈ (h'.subs item.msg.topic).filter h'.accepts ↔
      n ∈ (h.subs item.msg.topic).filter h.accepts := by
    have hsubs : n ∈ (h'.subs item.msg.topic).filter mine ↔
        n ∈ (h.subs item.msg.topic).filter mine := by rw [ha.subs]
    simp only [List.mem_filter, hn, and_true] at hsubs
    rw [List.mem_filter, List.mem_filter, hsubs, ha.accepts hn]
  simp only [Hub.publish, hmem, ha.boxes n hn]

/-- A new subscriber, of the connection or of another one. -/
theorem subscribe (ha : Alike mine h h') {mine' : ℕ → Bool}
    (hmine : ∀ n, n ≠ h.next_id → mine' n = mine n) (hs : ∀ t, ∀ n ∈ h.subs t, n < h.next_id)
    (hs' : ∀ t, ∀ n ∈ h'.subs t, n < h'.next_id) (topic : Topic) :
    Alike mine' (h.subscribe topic).2 (h'.subscribe topic).2 := by
  have hold {hub : Hub β} (hnext : hub.next_id = h.next_id)
      (hub_lt : ∀ t, ∀ n ∈ hub.subs t, n < hub.next_id) (t : Topic) :
      (hub.subs t).filter mine' = (hub.subs t).filter mine := by
    apply List.filter_congr
    intro n hn
    exact hmine n (hnext ▸ (hub_lt t n hn).ne)
  unfold Hub.subscribe
  rw [ha.next_id]
  refine ⟨rfl, ?_, ?_, ?_⟩
  · intro t
    by_cases ht : t = topic
    · subst ht
      simp only [Function.update_self, List.filter_append, hold rfl hs, hold ha.next_id hs',
        ha.subs]
    · simp only [Function.update_of_ne ht, hold rfl hs, hold ha.next_id hs', ha.subs]
  · intro n hn
    exact update_eq_of_ne fun hold => ha.boxes n (hmine n hold ▸ hn)
  · intro n hn
    exact update_eq_of_ne fun hold => ha.gone n (hmine n hold ▸ hn)

/-- Both sides change the mailbox of one subscriber. -/
theorem setBox (ha : Alike mine h h') (id : ℕ) (box : List (Item β)) :
    Alike mine { h with boxes := Function.update h.boxes id box }
      { h' with boxes := Function.update h'.boxes id box } :=
  ⟨ha.next_id,ha.subs,fun n hn => update_eq_of_ne fun _ => ha.boxes n hn,ha.gone⟩

theorem setGone (ha : Alike mine h h') (id : ℕ) :
    Alike mine { h with gone := Function.update h.gone id true }
      { h' with gone := Function.update h'.gone id true } :=
  ⟨ha.next_id,ha.subs,ha.boxes,fun n hn => update_eq_of_ne fun _ => ha.gone n hn⟩

end Hub.Alike

namespace Sys

/-- The same connection, which sees the same of the hub. -/
def Alike (s s' : Sys β) : Prop := s'.conn = s.conn ∧ Hub.Alike s.conn.mine s.hub s'.hub

theorem alike_hidden (hp : s.Private env) (hl : hidden env s l) (h : Alike s s') :
    Alike (s.step env l) s' := by
  cases l with
  | publish msg =>
    -- the connection has no subscription to the topic
    have hnone : s.live msg.topic = [] := by
      by_contra hne
      simp [hidden, hp _ hne] at hl
    have hsame : Hub.Alike s.conn.mine s.hub (s.hub.publish ⟨msg,s.conn.address⟩).2 := by
      refine ⟨rfl, ?_, ?_, fun _ _ => rfl⟩
      · intro t
        refine (live_publish s ⟨msg,s.conn.address⟩ t).trans ?_
        split_ifs with ht
        · rw [ht]
          change (s.live msg.topic).filter _ = s.live msg.topic
          rw [hnone]
          rfl
        · rfl
      · intro n hn
        have hnot : n ∉ (s.hub.subs msg.topic).filter s.hub.accepts := by
          intro hmem
          have hlive : n ∈ s.live msg.topic :=
            List.mem_filter.mpr ⟨List.mem_of_mem_filter hmem,hn⟩
          rw [hnone] at hlive
          exact absurd hlive List.not_mem_nil
        exact if_neg hnot
    exact ⟨h.1,hsame.symm.trans h.2⟩
  | _ => simp [hidden] at hl

section
variable {hub hub' : Hub β} {conn : Conn β} (ha : Hub.Alike conn.mine hub hub')
include ha

theorem alike_conn {c : Conn β} (hc : c.forwarders = conn.forwarders) :
    Alike ⟨hub,c⟩ ⟨hub',c⟩ := by
  have hmine : c.mine = conn.mine := by
    funext n
    rw [Conn.mine, Conn.mine, hc]
  exact ⟨rfl,by rw [hmine]; exact ha⟩

theorem alike_subscribeTopic (hs : (Sys.mk hub conn).Fresh) (hs' : (Sys.mk hub' conn).Fresh)
    (topic : Topic) :
    Alike ((Sys.mk hub conn).subscribeTopic topic) ((Sys.mk hub' conn).subscribeTopic topic) := by
  constructor
  · simp [subscribeTopic, Hub.subscribe, ha.next_id]
  · apply ha.subscribe ?_ hs.subs hs'.subs
    intro n hn
    simp [Conn.mine, subscribeTopic, Hub.subscribe, Function.update_of_ne hn]

theorem alike_handleSubscribe (hs : (Sys.mk hub conn).Fresh) (hs' : (Sys.mk hub' conn).Fresh)
    (channel : String) : Alike ((Sys.mk hub conn).handleSubscribe env channel)
      ((Sys.mk hub' conn).handleSubscribe env channel) := by
  unfold handleSubscribe
  cases Topic.parse channel with
  | none => exact alike_conn ha rfl
  | some topic =>
    dsimp only
    split_ifs
    · cases conn.address with
      | none => exact alike_conn ha rfl
      | some a => exact alike_subscribeTopic ha hs hs' _
    · exact alike_subscribeTopic ha hs hs' topic

theorem alike_handleUnsubscribe (channel : String) :
    Alike ((Sys.mk hub conn).handleUnsubscribe env channel)
      ((Sys.mk hub' conn).handleUnsubscribe env channel) := by
  unfold handleUnsubscribe
  cases Topic.parse channel with
  | none => exact ⟨rfl,ha⟩
  | some topic =>
    dsimp only
    cases conn.subscriptions (bind env topic (conn.address.getD "")) with
    | none => exact ⟨rfl,ha⟩
    | some id => exact ⟨rfl,ha.unsubscribe _ id⟩

theorem alike_finish : Alike (Sys.mk hub conn).finish (Sys.mk hub' conn).finish := by
  refine ⟨rfl, ha.next_id, ?_, ha.boxes, ha.gone⟩
  intro t
  have hlive : (Sys.mk hub' conn).live t = (Sys.mk hub conn).live t := ha.subs t
  have hleft := live_finish (Sys.mk hub conn) t
  have hright := live_finish (Sys.mk hub' conn) t
  rw [hlive] at hright
  exact hright.trans hleft.symm

theorem alike_take {id : ℕ} (hid : conn.mine id) :
    Alike ((Sys.mk hub conn).take id) ((Sys.mk hub' conn).take id) := by
  unfold take
  dsimp only
  rw [ha.boxes id hid]
  cases conn.holding id with
  | some item => exact ⟨rfl,ha⟩
  | none =>
    cases hub.boxes id with
    | nil => exact ⟨rfl,ha⟩
    | cons item rest => exact ⟨rfl,ha.setBox id rest⟩

theorem alike_push (id : ℕ) :
    Alike ((Sys.mk hub conn).push id) ((Sys.mk hub' conn).push id) := by
  unfold push
  dsimp only
  cases conn.holding id with
  | none => exact ⟨rfl,ha⟩
  | some item =>
    dsimp only
    split_ifs
    · exact alike_conn ha rfl
    · exact ⟨rfl,ha⟩
    · exact ⟨rfl,(ha.setBox id []).setGone id⟩

end

theorem alike_step (hs : s.Fresh) (hs' : s'.Fresh) (h : Alike s s') (l : Step β) :
    Alike (s.step env l) (s'.step env l) := by
  obtain ⟨hub, conn⟩ := s
  obtain ⟨hub', conn'⟩ := s'
  obtain ⟨hconn, ha⟩ := h
  obtain rfl : conn' = conn := hconn
  have hskip : Alike ⟨hub,conn'⟩ ⟨hub',conn'⟩ := ⟨rfl,ha⟩
  have hmove {c : Conn β} (hc : c.control = conn'.control) : Alike ⟨hub,c⟩ ⟨hub',c⟩ := by
    simp only [Conn.control, Prod.mk.injEq] at hc
    exact alike_conn ha hc.2.2.1
  have hite {p : Prop} [Decidable p] {s s' : Sys β} (h : p → Alike s s') :
      Alike (if p then s else ⟨hub,conn'⟩) (if p then s' else ⟨hub',conn'⟩) := by
    split_ifs with hp
    · exact h hp
    · exact hskip
  cases l with
  | subscribe channel => exact hite fun _ => alike_handleSubscribe ha hs hs' channel
  | unsubscribe channel => exact hite fun _ => alike_handleUnsubscribe ha channel
  | auth token =>
    apply hite
    intro _
    apply alike_conn ha
    unfold Conn.handleAuth
    split <;> rfl
  | ping data => exact hite fun _ => hmove rfl
  | badJson => exact hite fun _ => hmove rfl
  | finish => exact hite fun _ => alike_finish ha
  | queueReply => exact hmove (Conn.control_queueReply _)
  | publish msg => exact ⟨rfl,ha.publish _⟩
  | take id => exact hite fun hid => alike_take ha hid
  | push id => exact hite fun _ => alike_push ha id
  | recv => exact hmove (Conn.control_recv _)
  | send ok => exact hmove (Conn.control_send _ ok)
  | beat => exact hite fun _ => hmove rfl
  | timeout => exact hite fun _ => hmove rfl
  | envSubscribe topic => exact ⟨rfl,ha.subscribe (fun _ _ => rfl) hs.subs hs'.subs topic⟩
  | envUnsubscribe topic id =>
    dsimp only [step]
    split_ifs
    · exact hskip
    · exact ⟨rfl,ha.unsubscribe topic id⟩
  | envTake id =>
    dsimp only [step]
    split_ifs with hid
    · exact hskip
    · refine ⟨rfl, ha.next_id, ha.subs, ?_, ha.gone⟩
      intro n hn
      have hne : n ≠ id := fun h => hid (h ▸ hn)
      simpa only [Function.update_of_ne hne] using ha.boxes n hn
  | envDrop id =>
    dsimp only [step]
    split_ifs
    · exact hskip
    · exact ⟨rfl,ha.setGone id⟩

/-- In runs that authenticate as one user while there are private subscriptions, the messages on
a private topic are forwarded only when they are published while the connection is authenticated
as its address; and runs that differ in the messages for other addresses forward the same
frames. -/
theorem private_channels (env : Env) (ls ls' : List (Step β))
    (hls : ∀ pre l, pre++[l] <+: ls → (Sys.new.run env pre).SameUser env l)
    (hls' : ∀ pre l, pre++[l] <+: ls' → (Sys.new.run env pre).SameUser env l) :
    (∀ n, ∀ item ∈ (Sys.new.run env ls).line n, item.msg.topic.visibleTo env item.auth) ∧
    (shown (step env) (hidden env) Sys.new ls = shown (step env) (hidden env) Sys.new ls' →
      (Sys.new.run env ls).conn.sent = (Sys.new.run env ls').conn.sent) := by
  let P (s : Sys β) : Prop := s.Routed ∧ s.Private env ∧ s.Confined env
  have hP (s : Sys β) (l : Step β) (hs : P s) (hl : s.SameUser env l) : P (s.step env l) :=
    ⟨hs.1.step env l,hs.2.1.of_effect hs.1.toFresh hl (hs.1.effect env l),
      hs.2.2.step hs.1.toFresh hs.2.1 l⟩
  have hnew : P (Sys.new : Sys β) :=
    ⟨routed_new,fun t h => absurd rfl h,fun n item h => absurd (routed_new.line n item h) nofun⟩
  constructor
  · have hrun : P (Sys.new.run env ls) := foldl_invariant hP hnew hls
    exact hrun.2.2
  · intro hshown
    obtain ⟨s, h, h'⟩ := sim_of_shown_eq (S := fun s s' : Sys β => s'.Fresh ∧ Alike s s') hP
      (fun s s' l hs hl h => ⟨h.1,alike_hidden hs.2.1 hl h.2⟩)
      (fun s s' l hs h => ⟨h.1.of_effect (step_effect env h.1 l),
        alike_step hs.1.toFresh h.1 h.2 l⟩)
      hnew ⟨routed_new.toFresh,rfl,Hub.Alike.refl _ _⟩ hls hls' hshown
    have hconn : (Sys.new.run env ls).conn = (Sys.new.run env ls').conn := h.2.1.symm.trans h'.2.1
    rw [hconn]

/-- A connection that is authenticated as one address and subscribed to its fills. -/
def subscribedFills : List (Step ℕ) := [.auth "a",.queueReply,.subscribe "user.fills"]

theorem private_channels_oneUser :
    (∀ n, ∀ item ∈ (Sys.new.run plainEnv subscribedFills).line n,
      item.msg.topic.visibleTo plainEnv item.auth) ∧
    (Sys.new.run plainEnv subscribedFills).conn.sent =
      (Sys.new.run plainEnv (subscribedFills++[.publish ⟨.userFills "b",7⟩])).conn.sent := by
  have hsame (ls : List (Step ℕ)) (hls : ∀ l ∈ ls, ∀ s : Sys ℕ, s.authenticates plainEnv l = none) :
      ∀ pre l, pre++[l] <+: .auth "a" :: ls → (Sys.new.run plainEnv pre).SameUser plainEnv l := by
    apply forall_request_cons
    · intro sub _ t ht
      exact absurd rfl ht
    · intro pre l hpre sub hsub
      rw [hls l (hpre.subset (List.mem_append_right _ List.mem_cons_self))] at hsub
      cases hsub
  have h := private_channels plainEnv subscribedFills
    (subscribedFills++[.publish ⟨.userFills "b",7⟩])
    (hsame _ (by simp [authenticates])) (hsame _ (by simp [authenticates]))
  exact ⟨h.1,h.2 (by decide +kernel)⟩

/-- A connection that authenticates as another address, and is then sent what comes in. -/
def reauthenticated (msgs : List (Message ℕ)) : List (Step ℕ) :=
  subscribedFills++[.auth "b",.queueReply]++msgs.map .publish++
    [.take 0,.push 0,.recv,.send true,.recv,.send true,.recv,.send true]

/-- It gets the messages for the first address; without them its frames are others. -/
theorem reauthenticated_gets_others_fills :
    .forward 0 ⟨⟨.userFills "a",7⟩,some "b"⟩ ∈
      (Sys.new.run plainEnv (reauthenticated [⟨.userFills "a",7⟩])).conn.sent ∧
    shown (step plainEnv) (hidden plainEnv) Sys.new (reauthenticated [⟨.userFills "a",7⟩]) =
      shown (step plainEnv) (hidden plainEnv) Sys.new (reauthenticated []) ∧
    (Sys.new.run plainEnv (reauthenticated [⟨.userFills "a",7⟩])).conn.sent ≠
      (Sys.new.run plainEnv (reauthenticated [])).conn.sent := by
  decide +kernel

end Sys

end Perplex.Ws
