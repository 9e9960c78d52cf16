import Perplex.WsLines
import Perplex.WsWebClient

/-! What a connection of the server makes of a client's frames. Its subscriptions to the topic of a
public channel are the ones that the frames ask for, one after the other. -/
namespace Perplex.Ws

theorem append_of_stripPrefix {pat s rest : String} (h : stripPrefix pat s = some rest) :
    pat++rest = s := by
  obtain ⟨l, hl, rfl⟩ := Option.map_eq_some_iff.mp h
  have hs := List.append_eq_of_isPrefixOf?_eq_some hl
  apply String.toList_inj.mp
  simpa using hs

/-- The channel of a topic. -/
def Topic.name : Topic → String
  | .orderbook market => "orderbook."++market
  | .trades market => "trades."++market
  | .oracle market => "oracle."++market
  | .funding market => "funding."++market
  | .userFills _ => "user.fills"
  | .userPositions _ => "user.positions"

theorem Topic.name_of_parse {c : String} {t : Topic} (h : Topic.parse c = some t) : t.name = c := by
  unfold Topic.parse at h
  split at h
  · cases h
    exact append_of_stripPrefix (by assumption)
  · cases h
    exact append_of_stripPrefix (by assumption)
  · cases h
    exact append_of_stripPrefix (by assumption)
  · cases h
    exact append_of_stripPrefix (by assumption)
  · split_ifs at h with hf hp
    · cases h
      exact hf.symm
    · cases h
      exact hp.symm

theorem Topic.requiresAuth_withUser (env : Env) (a : String) (t : Topic) :
    (t.withUser env a).requiresAuth = t.requiresAuth := by
  cases t <;> rfl

namespace Sys
variable {β : Type} {env : Env} {s s' : Sys β} {l : Step β} {t : Topic}

/-- A public topic is bound to no address. -/
theorem eq_of_bind {topic : Topic} {a : String} (h : bind env topic a = t)
    (hpublic : ¬t.requiresAuth) : topic = t := by
  unfold bind at h
  split_ifs at h with hauth
  · rw [← h, Topic.requiresAuth_withUser] at hpublic
    exact absurd hauth hpublic
  · exact h

/-- A frame that asks for a public topic names its channel. -/
theorem parse_of_subscribes {c : String} (h : s.subscribes env (.subscribe c) = some t)
    (hpublic : ¬t.requiresAuth) : Topic.parse c = some t := by
  obtain ⟨c', topic, he, -, hparse, ⟨hauth, a, -, rfl⟩ | ⟨-, rfl⟩⟩ := subscribes_spec h
  · rw [Topic.requiresAuth_withUser] at hpublic
    exact absurd hauth hpublic
  · obtain rfl := Step.subscribe.inj he
    exact hparse

theorem parse_of_unsubscribes {c : String} (h : s.unsubscribes env (.unsubscribe c) = some t)
    (hpublic : ¬t.requiresAuth) : Topic.parse c = some t := by
  simp only [unsubscribes] at h
  split_ifs at h
  obtain ⟨topic, hparse, hbind⟩ := Option.map_eq_some_iff.mp h
  rw [← eq_of_bind hbind hpublic]
  exact hparse

/-- The subscriptions to a topic, and whether one is recorded. -/
def served (s : Sys β) (t : Topic) : Served := ⟨(s.live t).length,(s.conn.subscriptions t).isSome⟩

/-- The recorded subscription to a topic is one of those the hub has. -/
structure Held (s : Sys β) (t : Topic) : Prop where
  nodup : (s.live t).Nodup
  recorded : ∀ id ∈ s.conn.subscriptions t, id ∈ s.live t

/-- A subscription to the topic that was not there before, and is recorded instead of another. -/
theorem served_subscribeTopic (hs : s.Fresh) (hh : s.Held t) :
    (s.subscribeTopic t).served t = (s.served t).take true ∧ (s.subscribeTopic t).Held t := by
  have hlive : (s.subscribeTopic t).live t = s.live t++[s.hub.next_id] := by
    rw [live_subscribeTopic hs, if_pos rfl]
  have hrecorded : (s.subscribeTopic t).conn.subscriptions t = some s.hub.next_id :=
    Function.update_self _ _ _
  have hnew : s.hub.next_id ∉ s.live t := fun hn =>
    absurd (hs.subs t _ (List.mem_filter.mp hn).1) (lt_irrefl _)
  refine ⟨?_,?_,?_⟩
  · simp [served, hlive, hrecorded, Served.take]
  · rw [hlive]
    exact List.nodup_append.mpr ⟨hh.nodup,List.nodup_singleton _,fun a ha b hb he =>
      hnew (List.mem_singleton.mp hb ▸ he ▸ ha)⟩
  · rw [hrecorded, hlive]
    rintro id ⟨⟩
    simp

/-- The recorded subscription goes. -/
theorem served_unsubscribeTopic (hh : s.Held t) {id : ℕ} (hid : s.conn.subscriptions t = some id) :
    (s.unsubscribeTopic t id).served t = (s.served t).take false ∧
      (s.unsubscribeTopic t id).Held t := by
  have hlive : (s.unsubscribeTopic t id).live t = (s.live t).erase id := by
    rw [live_unsubscribeTopic, if_pos rfl, hh.nodup.erase_eq_filter]
    exact List.filter_congr fun n _ => by simp [bne, beq_eq_decide]
  have hrecorded : (s.unsubscribeTopic t id).conn.subscriptions t = none :=
    Function.update_self _ _ _
  refine ⟨?_,?_,?_⟩
  · simp [served, hlive, hrecorded, hid, Served.take, List.length_erase_of_mem (hh.recorded id hid)]
  · rw [hlive]
    exact hh.nodup.erase id
  · rw [hrecorded]
    rintro id ⟨⟩

/-- Frames for other topics, and what the connection does on its own. -/
theorem served_of_effect (hs : s.Fresh) (h : Effect env s l s') (hh : s.Held t)
    (hsub : s.subscribes env l ≠ some t) (hunsub : s.unsubscribes env l ≠ some t)
    (hfinish : l ≠ .finish) (hpublish : ∀ msg, l ≠ .publish msg) :
    s'.served t = s.served t ∧ s'.Held t := by
  have hkept : s'.live t = s.live t ∧ s'.conn.subscriptions t = s.conn.subscriptions t := by
    cases h with
    | @subscribed topic htopic =>
      have hne : t ≠ topic := fun he => hsub (he ▸ htopic)
      rw [live_subscribeTopic hs, if_neg hne]
      exact ⟨rfl,Function.update_of_ne hne _ _⟩
    | @unsubscribed topic id htopic _ =>
      have hne : t ≠ topic := fun he => hunsub (he ▸ htopic)
      rw [live_unsubscribeTopic, if_neg hne]
      exact ⟨rfl,Function.update_of_ne hne _ _⟩
    | authenticated _ => exact ⟨rfl,rfl⟩
    | finished _ he => exact absurd he hfinish
    | published he => exact absurd he (hpublish _)
    | quiet hq => exact ⟨hq.live t,congrFun hq.subscriptions t⟩
  obtain ⟨hlive, hrecorded⟩ := hkept
  refine ⟨?_,?_,?_⟩
  · rw [served, served, hlive, hrecorded]
  · rw [hlive]
    exact hh.nodup
  · rw [hlive, hrecorded]
    exact hh.recorded

/-- The receive loop waits for a frame, and the sender for the next answer. -/
structure Idle (s : Sys β) : Prop where
  receiving : s.conn.receiving
  sending : s.conn.sending
  reply : s.conn.reply = none
  writing : s.conn.writing = none
  out : s.conn.out = []

theorem Idle.listens (h : s.Idle) : s.conn.listens := by simp [Conn.listens, h.receiving, h.reply]

/-- The step of the receive loop for a frame; a pong is only noted. -/
def receive (env : Env) (s : Sys β) : WsOutbound → Sys β
  | .subscribe channel => s.step env (.subscribe channel)
  | .unsubscribe channel => s.step env (.unsubscribe channel)
  | .auth token => s.step env (.auth token)
  | .pong => s

/-- A frame is taken, and its answer sent before the next one. -/
def serve (env : Env) (s : Sys β) (f : WsOutbound) : Sys β :=
  (s.receive env f).run env [.queueReply,.recv,.send true]

/-- Sending an answer changes no subscription. -/
theorem control_answered (env : Env) (s : Sys β) :
    (s.run env [.queueReply,.recv,.send true]).control = s.control := by
  have hconn : ((s.conn.queueReply.recv).send true).control = s.conn.control := by
    rw [Conn.control_send, Conn.control_recv, Conn.control_queueReply]
  exact congrArg (fun k => (k,s.hub.subs,s.hub.next_id)) hconn

theorem idle_answered (env : Env) (hreceiving : s.conn.receiving) (hsending : s.conn.sending)
    (hwriting : s.conn.writing = none) (hout : s.conn.out = []) :
    (s.run env [.queueReply,.recv,.send true]).Idle := by
  cases hreply : s.conn.reply with
  | none =>
    have hqueue : s.conn.queueReply = s.conn := by simp [Conn.queueReply, hreply]
    have hrecv : s.conn.recv = s.conn := by simp [Conn.recv, hout]
    have hsend : s.conn.send true = s.conn := by simp [Conn.send, hwriting]
    have hrun : s.run env [.queueReply,.recv,.send true] = s := by
      simp [run, step, hqueue, hrecv, hsend]
    rw [hrun]
    exact ⟨hreceiving,hsending,hreply,hwriting,hout⟩
  | some r =>
    have hroom : s.conn.room := by simp [Conn.room, hsending, hout, OUT_QUEUE]
    constructor <;>
      simp [run, step, Conn.queueReply, hreply, hsending, hroom, Conn.enqueue, Conn.recv, hwriting,
        hout, Conn.send, hreceiving]

theorem idle_receive (env : Env) (h : s.Idle) (f : WsOutbound) :
    (s.receive env f).conn.receiving ∧ (s.receive env f).conn.sending ∧
      (s.receive env f).conn.writing = none ∧ (s.receive env f).conn.out = [] := by
  have hkeep : s.conn.receiving ∧ s.conn.sending ∧ s.conn.writing = none ∧ s.conn.out = [] :=
    ⟨h.receiving,h.sending,h.writing,h.out⟩
  cases f with
  | subscribe channel =>
    rw [receive, step, if_pos h.listens, handleSubscribe]
    split
    · exact hkeep
    · split
      · split <;> exact hkeep
      · exact hkeep
  | unsubscribe channel =>
    rw [receive, step, if_pos h.listens, handleUnsubscribe]
    split
    · exact hkeep
    · dsimp only
      split <;> exact hkeep
  | auth token =>
    rw [receive, step, if_pos h.listens]
    dsimp only [Conn.handleAuth]
    split <;> exact hkeep
  | pong => exact hkeep

theorem Idle.serve (h : s.Idle) (f : WsOutbound) : (s.serve env f).Idle := by
  obtain ⟨hreceiving, hsending, hwriting, hout⟩ := idle_receive env h f
  exact idle_answered env hreceiving hsending hwriting hout

variable {channel : String}

/-- A frame for a public channel. -/
theorem served_receive (hs : s.Fresh) (hi : s.Idle) (hh : s.Held t)
    (hparse : Topic.parse channel = some t) (hpublic : ¬t.requiresAuth) (f : WsOutbound) :
    (s.receive env f).served t = (f.asks channel).elim (s.served t) (s.served t).take ∧
      (s.receive env f).Held t := by
  have hchannel {c : String} (hc : Topic.parse c = some t) : c = channel :=
    (Topic.name_of_parse hc).symm.trans (Topic.name_of_parse hparse)
  cases f with
  | subscribe c =>
    by_cases hc : c = channel
    · subst hc
      have hstep : s.receive env (.subscribe c) = s.subscribeTopic t := by
        simp [receive, step, hi.listens, handleSubscribe, hparse, hpublic]
      rw [hstep]
      simpa [WsOutbound.asks] using served_subscribeTopic hs hh
    · have hsub : s.subscribes env (.subscribe c) ≠ some t := fun h =>
        hc (hchannel (parse_of_subscribes h hpublic))
      have h := served_of_effect hs (step_effect env hs (.subscribe c)) hh hsub
        (by simp [unsubscribes]) (by simp) (by simp)
      simpa [WsOutbound.asks, hc, receive] using h
  | unsubscribe c =>
    by_cases hc : c = channel
    · subst hc
      have hbind : bind env t (s.conn.address.getD "") = t := if_neg hpublic
      cases hid : s.conn.subscriptions t with
      | none =>
        have hstep : s.receive env (.unsubscribe c) = s := by
          simp [receive, step, hi.listens, handleUnsubscribe, hparse, hbind, hid]
        rw [hstep]
        exact ⟨by simp [WsOutbound.asks, Served.take, served, hid],hh⟩
      | some id =>
        have hstep : s.receive env (.unsubscribe c) = s.unsubscribeTopic t id := by
          simp [receive, step, hi.listens, handleUnsubscribe, hparse, hbind, hid]
        rw [hstep]
        simpa [WsOutbound.asks] using served_unsubscribeTopic hh hid
    · have hunsub : s.unsubscribes env (.unsubscribe c) ≠ some t := fun h =>
        hc (hchannel (parse_of_unsubscribes h hpublic))
      have h := served_of_effect hs (step_effect env hs (.unsubscribe c)) hh
        (by simp [subscribes]) hunsub (by simp) (by simp)
      simpa [WsOutbound.asks, hc, receive] using h
  | auth token =>
    have h := served_of_effect hs (step_effect env hs (.auth token)) hh (by simp [subscribes])
      (by simp [unsubscribes]) (by simp) (by simp)
    simpa [WsOutbound.asks, receive] using h
  | pong => exact ⟨rfl,hh⟩

/-- Between frames a connection is routed and idle, and holds what it has recorded. -/
structure Ready (s : Sys β) (t : Topic) : Prop extends s.Routed where
  idle : s.Idle
  held : s.Held t

theorem ready_new (t : Topic) : (Sys.new : Sys β).Ready t where
  toRouted := routed_new
  idle := ⟨rfl,rfl,rfl,rfl,rfl⟩
  held := ⟨List.nodup_nil,by rintro id ⟨⟩⟩

theorem Ready.routed_serve (h : s.Ready t) (env : Env) (f : WsOutbound) :
    (s.serve env f).Routed := by
  have hreceive : (s.receive env f).Routed := by
    cases f with
    | subscribe c => exact h.toRouted.step env (.subscribe c)
    | unsubscribe c => exact h.toRouted.step env (.unsubscribe c)
    | auth token => exact h.toRouted.step env (.auth token)
    | pong => exact h.toRouted
  exact ((hreceive.step env .queueReply).step env .recv).step env (.send true)

theorem served_serve (h : s.Ready t) (hparse : Topic.parse channel = some t)
    (hpublic : ¬t.requiresAuth) (f : WsOutbound) :
    (s.serve env f).served t = (f.asks channel).elim (s.served t) (s.served t).take ∧
      (s.serve env f).Ready t := by
  obtain ⟨hserved, hheld⟩ := served_receive h.toFresh h.idle h.held hparse hpublic f
  have hquiet : Quiet (s.receive env f) (s.serve env f) := .of_control (control_answered env _)
  have hlive := hquiet.live t
  have hrecorded := congrFun hquiet.subscriptions t
  refine ⟨?_,h.routed_serve env f,h.idle.serve f,?_,?_⟩
  · rw [← hserved, served, served, hlive, hrecorded]
  · rw [hlive]
    exact hheld.nodup
  · rw [hlive, hrecorded]
    exact hheld.recorded

/-- The subscriptions of a connection to a public channel are what its frames ask for. -/
theorem served_eq_replay (env : Env) (hparse : Topic.parse channel = some t)
    (hpublic : ¬t.requiresAuth) (fs : List WsOutbound) :
    (fs.foldl (serve env) (Sys.new : Sys β)).served t = replay channel fs := by
  have hgeneral (s : Sys β) (hs : s.Ready t) :
      (fs.foldl (serve env) s).served t = (asked channel fs).foldl Served.take (s.served t) := by
    induction fs generalizing s with
    | nil => rfl
    | cons f fs ih =>
      obtain ⟨hserved, hready⟩ := served_serve hs hparse hpublic f
      rw [List.foldl_cons, ih _ hready, hserved]
      cases hasks : f.asks channel with
      | none => simp [asked, hasks]
      | some b => simp [asked, hasks]
  exact hgeneral Sys.new (ready_new t)

/-- Where the web client is right about its open sockets, the server has one subscription to each
public channel in `subs`, and none to any other. -/
theorem live_of_exact (env : Env) {c : Web.PerplexWs} (h : c.Exact) {i : ℕ}
    (hi : c.sockets.ready i = .OPEN) (hparse : Topic.parse channel = some t)
    (hpublic : ¬t.requiresAuth) :
    (((c.sockets.sent i).foldl (serve env) (Sys.new : Sys β)).live t).length =
      if channel ∈ c.subs then 1 else 0 := by
  have hserved : ((c.sockets.sent i).foldl (serve env) (Sys.new : Sys β)).served t =
      replay channel (c.sockets.sent i) := served_eq_replay env hparse hpublic _
  rw [← h i hi channel, ← hserved]
  rfl

end Sys

end Perplex.Ws
