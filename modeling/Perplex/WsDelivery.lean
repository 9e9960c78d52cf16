import Perplex.WsLines

/-! Delivery. What a connection gets of a topic is a prefix of what was published since it
subscribed, and there is no gap while its mailbox has room. The hub drops the subscriber of a
full mailbox, and the connection goes on without. -/

namespace Perplex.Ws
open scoped List
variable {β : Type}

/-- The message on a topic that a step publishes. -/
def Step.publishedOn (t : Topic) : Step β → Option (Message β)
  | .publish msg => if msg.topic = t then some msg else none
  | _ => none

/-- The messages that are published on a topic. -/
def published (t : Topic) (ls : List (Step β)) : List (Message β) :=
  ls.filterMap (Step.publishedOn t)

/-- The message on a topic that a frame brings. -/
def Frame.on (t : Topic) : Frame β → Option (Message β)
  | .forward _ item => if item.msg.topic = t then some item.msg else none
  | _ => none

namespace Sys
variable {env : Env} {s s' : Sys β} {l : Step β} {n : ℕ} {t : Topic} {ms : List (Message β)}

/-- The messages on a topic that the client has got. -/
def delivered (s : Sys β) (t : Topic) : List (Message β) := s.conn.sent.filterMap (Frame.on t)

/-- The mailboxes of the subscriptions to the topic of a message have room for it, unless the
sender has ended. -/
def Roomy (t : Topic) (s : Sys β) (l : Step β) : Prop :=
  s.conn.sending → ∀ msg, l = .publish msg → msg.topic = t →
    ∀ n ∈ s.live t, (s.hub.boxes n).length < MAX_QUEUE

/-- A line is a prefix of the messages, and all of them as long as the hub has its subscription. -/
def Follows (s : Sys β) (n : ℕ) (t : Topic) (ms : List (Message β)) : Prop :=
  (s.line n).map (·.msg) <+: ms ∧
    (s.conn.sending → n ∈ s.live t → (s.line n).map (·.msg) = ms)

theorem Effect.mem_live (hs : s.Fresh) (h : Effect env s l s') (hn : n ∈ s'.live t) :
    n ∈ s.live t ∨ n = s.hub.next_id := by
  rcases h.live_cases hs t with hlive | ⟨-, rfl⟩
  · exact Or.inl (hlive.mem hn)
  · rw [live_subscribeTopic hs, if_pos rfl] at hn
    exact (List.mem_append.mp hn).imp_right List.mem_singleton.mp

/-- What arrives at a subscription is what is published on its topic, if its mailbox accepts. -/
theorem arrivals_map (hs : s.Routed) (hn : n ∈ s.live t) (haccepts : s.hub.accepts n) :
    (s.arrivals n l).map (·.msg) = (l.publishedOn t).toList := by
  cases l with
  | publish msg =>
    have hlive : n ∈ s.live msg.topic ↔ msg.topic = t := by
      constructor
      · intro h
        exact Option.some.inj ((hs.live _ n h).symm.trans (hs.live t n hn))
      · rintro rfl
        exact hn
    simp only [arrivals, hlive, haccepts, and_true, Step.publishedOn]
    split_ifs <;> rfl
  | _ => rfl

theorem arrivals_of_not_live (hs : s.Routed) (hf : s.conn.forwarders n = some t)
    (hn : n ∉ s.live t) : s.arrivals n l = [] := by
  rw [List.eq_nil_iff_forall_not_mem]
  intro item hitem
  obtain ⟨msg, rfl, rfl, hlive, -⟩ := mem_arrivals hitem
  have htopic : msg.topic = t := Option.some.inj ((hs.live _ n hlive).symm.trans hf)
  exact hn (htopic ▸ hlive)

theorem arrivals_of_not_accepts (hn : ¬ s.hub.accepts n) : s.arrivals n l = [] := by
  rw [List.eq_nil_iff_forall_not_mem]
  intro item hitem
  obtain ⟨msg, -, -, -, haccepts⟩ := mem_arrivals hitem
  exact hn haccepts

/-- A mailbox that does not accept a message on its topic is dropped. -/
theorem publishedOn_eq_none (hn : ¬ s.hub.accepts n) (hlive : n ∈ (s.step env l).live t) :
    l.publishedOn t = none := by
  cases l with
  | publish msg =>
    by_contra hsome
    have htopic : t = msg.topic := by
      by_contra hne
      simp [Step.publishedOn, Ne.symm hne] at hsome
    rw [step, live_publish, if_pos htopic] at hlive
    exact hn (List.of_mem_filter hlive)
  | _ => rfl

theorem Follows.step (hs : s.Routed) (hf : s.conn.forwarders n = some t) (h : s.Follows n t ms)
    (l : Step β) : (s.step env l).Follows n t (ms++(l.publishedOn t).toList) := by
  have hext := extends_step env hs.toFresh n l
  have hlonger : ms <+: ms++(l.publishedOn t).toList := List.prefix_append _ _
  cases hsending : (s.step env l).conn.sending with
  | false =>
    refine ⟨((hext.stopped hsending).map _).trans (h.1.trans hlonger), ?_⟩
    intro hs'
    simp [hsending] at hs'
  | true =>
    have hline := hext.line hsending
    by_cases haccepts : s.hub.accepts n ∧ n ∈ s.live t
    · have hall : ((s.step env l).line n).map (·.msg) = ms++(l.publishedOn t).toList := by
        rw [hline, List.map_append, arrivals_map hs haccepts.2 haccepts.1,
          h.2 (hext.running hsending) haccepts.2]
      exact ⟨hall ▸ List.prefix_refl _,fun _ _ => hall⟩
    · -- nothing arrives, and what is published now closes the line
      have hnone : s.arrivals n l = [] := by
        rcases not_and_or.mp haccepts with hn | hn
        · exact arrivals_of_not_accepts hn
        · exact arrivals_of_not_live hs hf hn
      rw [hnone, List.append_nil] at hline
      refine ⟨?_, ?_⟩
      · rw [hline]
        exact h.1.trans hlonger
      · intro _ hlive
        have hnew : n ≠ s.hub.next_id := (hs.mine n (by simp [Conn.mine, hf])).ne
        have hold : n ∈ s.live t :=
          ((hs.effect env l).mem_live hs.toFresh hlive).resolve_right hnew
        have hn : ¬ s.hub.accepts n := fun hn => haccepts ⟨hn,hold⟩
        rw [hline, publishedOn_eq_none hn hlive, h.2 (hext.running hsending) hold]
        simp

/-- The hub keeps a subscription whose mailbox has room. -/
theorem live_step (hs : s.Routed) (hn : n ∈ s.live t) (hsending : (s.step env l).conn.sending)
    (hunsub : s.unsubscribes env l ≠ some t) (hroom : Roomy t s l) :
    n ∈ (s.step env l).live t := by
  have hrunning := (extends_step env hs.toFresh n l).running hsending
  have heffect := hs.effect env l
  generalize s.step env l = s' at heffect hsending
  cases heffect with
  | subscribed _ =>
    rw [live_subscribeTopic hs.toFresh]
    split_ifs
    · exact List.mem_append_left _ hn
    · exact hn
  | @unsubscribed topic id htopic _ =>
    have hne : t ≠ topic := fun h => hunsub (h ▸ htopic)
    rw [live_unsubscribeTopic, if_neg hne]
    exact hn
  | authenticated _ => exact hn
  | finished _ _ => simp [finish] at hsending
  | @published msg hl =>
    rw [live_publish]
    split_ifs with ht
    · have hmine : s.conn.mine n := List.of_mem_filter hn
      have hbox := hroom hrunning msg hl ht.symm n hn
      have haccepts : s.hub.accepts n := by
        simp [Hub.accepts, hs.running hrunning n hmine, hbox]
      exact List.mem_filter.mpr ⟨hn,haccepts⟩
    · exact hn
  | quiet hq =>
    rw [hq.live]
    exact hn

theorem keeps_forwarder (env : Env) (hs : s.Routed) (hf : s.conn.forwarders n = some t)
    (ls : List (Step β)) :
    (s.run env ls).Routed ∧ (s.run env ls).conn.forwarders n = some t := by
  apply run_invariant (P := fun s => s.conn.forwarders n = some t) (R := fun _ _ => True) ?_ hs hf
    (fun _ _ _ => trivial)
  intro s l hs hf _
  exact (hs.effect env l).forwarders hs.toFresh hf

theorem follows_run (hs : s.Routed) (hf : s.conn.forwarders n = some t) (h : s.Follows n t ms)
    (ls : List (Step β)) : (s.run env ls).Follows n t (ms++published t ls) := by
  induction ls generalizing s ms with
  | nil => simpa [published, run] using h
  | cons l ls ih =>
    have hpublished : ms++published t (l :: ls) = ms++(l.publishedOn t).toList++published t ls := by
      cases hl : l.publishedOn t <;> simp [published, hl]
    rw [hpublished]
    exact ih (hs.step env l) ((hs.effect env l).forwarders hs.toFresh hf) (h.step hs hf l)

theorem live_run (hs : s.Routed) (hn : n ∈ s.live t) {ls : List (Step β)}
    (hunsub : ∀ pre l, pre++[l] <+: ls → (s.run env pre).unsubscribes env l ≠ some t)
    (hroom : ∀ pre l, pre++[l] <+: ls → Roomy t (s.run env pre) l)
    (hsending : (s.run env ls).conn.sending) : n ∈ (s.run env ls).live t := by
  have hrun : (s.run env ls).Routed ∧
      ((s.run env ls).conn.sending → n ∈ (s.run env ls).live t) := by
    apply run_invariant (P := fun s => s.conn.sending → n ∈ s.live t)
      (R := fun s l => s.unsubscribes env l ≠ some t ∧ Roomy t s l) ?_ hs (fun _ => hn)
    · intro pre l hpre
      exact ⟨hunsub pre l hpre,hroom pre l hpre⟩
    · intro s l hs hlive hl hsending
      have hrunning := (extends_step env hs.toFresh n l).running hsending
      exact live_step hs (hlive hrunning) hsending hl.1 hl.2
  exact hrun.2 hsending

theorem Effect.forwarders_cases (h : Effect env s l s') {m : ℕ}
    (hm : s'.conn.forwarders m = some t) :
    s.conn.forwarders m = some t ∨ s.subscribes env l = some t := by
  cases h with
  | @subscribed topic htopic =>
    by_cases hnew : m = s.hub.next_id
    · have htop : topic = t := by
        simpa [subscribeTopic, Hub.subscribe, hnew] using hm
      exact Or.inr (htop ▸ htopic)
    · exact Or.inl (by simpa [subscribeTopic, Hub.subscribe, Function.update_of_ne hnew] using hm)
  | quiet hq => exact Or.inl (hq.forwarders ▸ hm)
  | _ => exact Or.inl hm

/-- A run that does not subscribe to a topic has no new subscription to it. -/
theorem forwarders_run {Q : ℕ → Prop} (hs : s.Routed)
    (h : ∀ m, s.conn.forwarders m = some t → Q m) {ls : List (Step β)}
    (hls : ∀ pre l, pre++[l] <+: ls → (s.run env pre).subscribes env l ≠ some t) :
    ∀ m, (s.run env ls).conn.forwarders m = some t → Q m := by
  have hrun : (s.run env ls).Routed ∧ ∀ m, (s.run env ls).conn.forwarders m = some t → Q m := by
    apply run_invariant (P := fun s => ∀ m, s.conn.forwarders m = some t → Q m)
      (R := fun s l => s.subscribes env l ≠ some t) ?_ hs h hls
    intro s l hs hQ hl m hm
    rcases (hs.effect env l).forwarders_cases hm with hm | hm
    · exact hQ m hm
    · exact absurd hm hl
  exact hrun.2

/-- With one subscription to a topic, the client gets the messages on it from its line. -/
theorem delivered_eq (hs : s.Routed) (hf : s.conn.forwarders n = some t)
    (honce : ∀ m, s.conn.forwarders m = some t → m = n) :
    s.delivered t = (s.conn.sent.filterMap (Frame.of n)).map (·.msg) := by
  rw [delivered, List.map_filterMap]
  apply List.filterMap_congr
  intro f hmem
  cases f with
  | forward id item =>
    have hitem : item ∈ s.line id := by
      apply List.mem_append_left
      rw [List.mem_filterMap]
      exact ⟨_,List.mem_append_left _ (List.mem_append_left _ hmem),by simp⟩
    have hid := hs.line id item hitem
    have htopic : item.msg.topic = t ↔ id = n := by
      constructor
      · rintro rfl
        exact honce id hid
      · rintro rfl
        exact Option.some.inj (hid.symm.trans hf)
    by_cases h : id = n
    · simp [Frame.on, h, htopic.mpr h]
    · simp [Frame.on, h, mt htopic.mp h]
  | _ => rfl

/-- A new subscription is at the hub, with an empty line. -/
theorem follows_subscribeTopic (hs : s.Routed) (t : Topic) :
    (s.subscribeTopic t).conn.forwarders s.hub.next_id = some t ∧
    s.hub.next_id ∈ (s.subscribeTopic t).live t ∧
    (s.subscribeTopic t).Follows s.hub.next_id t [] := by
  have hempty : s.line s.hub.next_id = [] := by
    rw [List.eq_nil_iff_forall_not_mem]
    intro item hitem
    have hmine : s.conn.mine s.hub.next_id := by simp [Conn.mine, hs.line _ item hitem]
    simp [hs.next_not_mine] at hmine
  have hline : (s.subscribeTopic t).line s.hub.next_id = [] := by
    have hext := (extends_subscribeTopic hs.toFresh t s.hub.next_id).isPrefix
    rw [hempty] at hext
    exact List.prefix_nil.mp hext
  refine ⟨Function.update_self _ _ _, ?_, ?_⟩
  · rw [live_subscribeTopic hs.toFresh, if_pos rfl]
    exact List.mem_append_right _ List.mem_cons_self
  · unfold Follows
    rw [hline]
    exact ⟨List.prefix_refl _,fun _ _ => rfl⟩

/-- For a topic that a connection subscribes to once and does not unsubscribe from: when no
message meets a full mailbox, the client has got a prefix of the messages published since, and
all the others are queued for it as long as the connection is open. -/
theorem no_silent_gap (env : Env) (pre post : List (Step β)) (l : Step β) (t : Topic)
    (hsub : (Sys.new.run env pre).subscribes env l = some t)
    (hbefore : ∀ pre' l', pre'++[l'] <+: pre → (Sys.new.run env pre').subscribes env l' ≠ some t)
    (hafter : ∀ mid l', mid++[l'] <+: post →
      (Sys.new.run env (pre++l :: mid)).subscribes env l' ≠ some t ∧
      (Sys.new.run env (pre++l :: mid)).unsubscribes env l' ≠ some t)
    (hroom : ∀ mid l', mid++[l'] <+: post → Roomy t (Sys.new.run env (pre++l :: mid)) l') :
    (Sys.new.run env (pre++l :: post)).delivered t <+: published t post ∧
    ((Sys.new.run env (pre++l :: post)).conn.sending →
      ((Sys.new.run env (pre++l :: post)).line (Sys.new.run env pre).hub.next_id).map (·.msg) =
        published t post) := by
  let s₀ : Sys β := Sys.new.run env pre
  let s₁ : Sys β := s₀.subscribeTopic t
  let n := s₀.hub.next_id
  have hs₀ : s₀.Routed := routed_run env pre
  have hstep : s₀.step env l = s₁ := step_of_subscribes hsub
  have hs₁ : s₁.Routed := hstep ▸ hs₀.step env l
  have hrun (mid : List (Step β)) : Sys.new.run env (pre++l :: mid) = s₁.run env mid := by
    rw [run_append, run_cons, hstep]
  simp only [hrun] at hafter hroom ⊢
  obtain ⟨hf, hlive, hstart⟩ := follows_subscribeTopic hs₀ t
  obtain ⟨hrouted, hf'⟩ := keeps_forwarder env hs₁ hf post
  have hfollows : (s₁.run env post).Follows n t (published t post) := by
    simpa using follows_run hs₁ hf hstart post
  -- the subscription is the only one to the topic
  have hnone : ∀ m, s₀.conn.forwarders m ≠ some t := forwarders_run routed_new nofun hbefore
  have hfirst : ∀ m, s₁.conn.forwarders m = some t → m = n := by
    intro m hm
    by_contra hne
    have hold : m ≠ s₀.hub.next_id := hne
    exact hnone m (by
      simpa [s₁, subscribeTopic, Hub.subscribe, Function.update_of_ne hold] using hm)
  have honce := forwarders_run hs₁ hfirst fun mid l' hmid => (hafter mid l' hmid).1
  constructor
  · rw [delivered_eq hrouted hf' honce]
    have hsent : (s₁.run env post).conn.sent.filterMap (Frame.of n) <+:
        (s₁.run env post).line n := by
      simp only [line, Conn.frames, List.filterMap_append, List.append_assoc]
      exact List.prefix_append _ _
    exact (hsent.map _).trans hfollows.1
  · intro hsending
    have hstays := live_run hs₁ hlive (fun mid l' hmid => (hafter mid l' hmid).2) hroom hsending
    exact hfollows.2 hsending hstays

/-- A trade on a market, and a connection that subscribes to it. -/
def aTrade : Message ℕ := ⟨.trades "x",7⟩

def subscribeTrades : Step ℕ := .subscribe "trades.x"

theorem no_silent_gap_oneTrade :
    ((Sys.new.run plainEnv [subscribeTrades,.publish aTrade]).line 0).map (·.msg) = [aTrade] := by
  have h := no_silent_gap plainEnv [] [.publish aTrade] subscribeTrades (.trades "x") rfl
    forall_request_nil (forall_request_cons ⟨nofun,nofun⟩ forall_request_nil)
    (forall_request_cons ?_ forall_request_nil)
  · exact h.2 rfl
  · intro _ msg _ _ n hn
    have hn' : n = 0 := by simpa using (show n ∈ [0] from hn)
    subst hn'
    decide

/-- A subscription that nobody takes messages from, after some of them. -/
structure Unread (s : Sys β) (n k : ℕ) (item : Item β) : Prop where
  address : s.conn.address = item.auth
  subs : s.hub.subs item.msg.topic = [n]
  gone : s.hub.gone n = false
  boxes : s.hub.boxes n = List.replicate k item

variable {k : ℕ} {item : Item β}

theorem Unread.publish (env : Env) (h : s.Unread n k item) (hk : k < MAX_QUEUE) :
    (s.step env (.publish item.msg)).Unread n (k+1) item := by
  have haccepts : s.hub.accepts n := by simp [Hub.accepts, h.gone, h.boxes, hk]
  constructor
  · exact h.address
  · simp [step, Hub.publish, h.subs, haccepts]
  · exact h.gone
  · simp [step, Hub.publish, h.subs, haccepts, h.boxes, h.address, List.replicate_succ']

theorem Unread.fill (env : Env) (h : s.Unread n 0 item) (hk : k ≤ MAX_QUEUE) :
    (s.run env (List.replicate k (.publish item.msg))).Unread n k item := by
  induction k with
  | zero => exact h
  | succ k ih =>
    rw [List.replicate_succ', run_append]
    exact (ih (by omega)).publish env (by omega)

theorem conn_run_publish (env : Env) (s : Sys β) (msg : Message β) (k : ℕ) :
    (s.run env (List.replicate k (.publish msg))).conn = s.conn := by
  induction k with
  | zero => rfl
  | succ k ih =>
    rw [List.replicate_succ', run_append]
    exact ih

/-- One message more than the mailbox has room for. -/
theorem Unread.overflow (env : Env) (h : s.Unread n 0 item) :
    (s.run env (List.replicate (MAX_QUEUE+1) (.publish item.msg))).conn = s.conn ∧
    (s.run env (List.replicate (MAX_QUEUE+1) (.publish item.msg))).hub.subs item.msg.topic = [] ∧
    (s.run env (List.replicate (MAX_QUEUE+1) (.publish item.msg))).hub.boxes n =
      List.replicate MAX_QUEUE item := by
  refine ⟨conn_run_publish env s item.msg _, ?_⟩
  have hfull := h.fill env (le_refl MAX_QUEUE)
  rw [List.replicate_succ', run_append]
  generalize s.run env (List.replicate MAX_QUEUE (.publish item.msg)) = s' at hfull
  have hrefused : s'.hub.accepts n = false := by simp [Hub.accepts, hfull.boxes]
  constructor
  · simp [Sys.run, step, Hub.publish, hfull.subs, hrefused]
  · simp [Sys.run, step, Hub.publish, hfull.subs, hrefused, hfull.boxes]

/-- A client that takes nothing, and then a ping. -/
def slowClient : List (Step ℕ) :=
  List.replicate (MAX_QUEUE+1) (.publish aTrade)++[.beat,.recv,.send true]

/-- The connection is open and gets the ping, after a message that was neither delivered nor
queued and without a subscription at the hub. -/
theorem full_mailbox_gap :
    (Sys.new.run plainEnv (subscribeTrades :: slowClient)).conn.sending = true ∧
    (Sys.new.run plainEnv (subscribeTrades :: slowClient)).conn.sent = [.ping] ∧
    (Sys.new.run plainEnv (subscribeTrades :: slowClient)).hub.subs (.trades "x") = [] ∧
    ((Sys.new.run plainEnv (subscribeTrades :: slowClient)).line 0).length <
      (published (.trades "x") slowClient).length := by
  have hstart : (Sys.new.step plainEnv subscribeTrades).Unread 0 0 ⟨aTrade,none⟩ :=
    ⟨rfl,rfl,rfl,rfl⟩
  have hpublished : (published (.trades "x") slowClient).length = MAX_QUEUE+1 := by
    simp [published, slowClient, Step.publishedOn, aTrade]
  have hrun : Sys.new.run plainEnv (subscribeTrades :: slowClient) =
      ((Sys.new.step plainEnv subscribeTrades).run plainEnv
        (List.replicate (MAX_QUEUE+1) (.publish aTrade))).run plainEnv
          [.beat,.recv,.send true] := by
    rw [run_cons, slowClient, run_append]
  obtain ⟨hconn, hsubs, hboxes⟩ := hstart.overflow plainEnv
  rw [hrun, hpublished]
  generalize (Sys.new.step plainEnv subscribeTrades).run plainEnv
    (List.replicate (MAX_QUEUE+1) (.publish aTrade)) = s at hconn hsubs hboxes
  obtain ⟨hub, conn⟩ := s
  obtain rfl : conn = _ := hconn
  refine ⟨rfl, rfl, hsubs, ?_⟩
  have hline : (Sys.run plainEnv (Sys.mk hub (Sys.new.step plainEnv subscribeTrades).conn)
      [.beat,.recv,.send true]).line 0 = hub.boxes 0 := rfl
  rw [hline, show hub.boxes 0 = _ from hboxes, List.length_replicate]
  exact Nat.lt_succ_self _

end Sys

end Perplex.Ws
