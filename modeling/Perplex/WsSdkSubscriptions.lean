import Perplex.WsReplay
import Perplex.WsSdkClient

/-! The channels of the SDK's client. While its socket is not open nothing is sent, and when a
socket opens every channel with listeners is asked for; so the server has one subscription to
each of them, unless the open event of some other socket makes the client ask once more. -/
namespace Perplex.Sdk.PerplexWs
variable {ℓ : Type}

/-- The channels with listeners. -/
def channels (c : PerplexWs ℓ) : List String := c.subs.map (·.1)

/-- On the current socket, once it is open, the server has one subscription to each channel with
listeners and none to any other. -/
def Exact (c : PerplexWs ℓ) : Prop :=
  ∀ i, c.ws = some i → c.sockets.ready i = .OPEN → ∀ ch,
    (replay ch (c.sockets.sent i)).live = if ch ∈ c.channels then 1 else 0

/-- The open event is that of the current socket, or there is nothing to send or nowhere to send
it to. -/
def Timely (c : PerplexWs ℓ) : Step ℓ → Prop
  | .opened i => c.sockets.ready i = .CONNECTING ∨ c.sockets.ready i = .CLOSING →
    ∀ j, c.ws = some j → c.sockets.ready j = .OPEN → c.channels = []
  | _ => True

/-- The requests on the current socket lead to the channels with listeners. -/
structure Kept (c : PerplexWs ℓ) : Prop where
  nodup : c.channels.Nodup
  settled : ∀ i, c.ws = some i → c.sockets.ready i = .OPEN → ∀ ch,
    Settled c.channels ch (c.sockets.sent i)

variable {c c' c'' : PerplexWs ℓ}

theorem Kept.exact (h : c.Kept) : c.Exact := fun i hws hi ch => (h.settled i hws hi ch).live_eq

theorem kept_new (jwt : Option String) (reconnect : Bool) :
    (new jwt reconnect : PerplexWs ℓ).Kept :=
  ⟨List.nodup_nil,nofun⟩

/-- An open current socket was there before, and the given requests are added on it. -/
structure Adds (c c' : PerplexWs ℓ) (bs : String → List Bool) : Prop where
  channels : c'.channels = c.channels
  ws : ∀ i, c'.ws = some i → c'.sockets.ready i = .OPEN →
    c.ws = some i ∧ c.sockets.ready i = .OPEN
  sent : ∀ i, c'.ws = some i → c'.sockets.ready i = .OPEN → ∀ ch,
    asked ch (c'.sockets.sent i) = asked ch (c.sockets.sent i)++bs ch

/-- Nothing is asked for. -/
abbrev Quiet (c c' : PerplexWs ℓ) : Prop := Adds c c' fun _ => []

namespace Adds
variable {bs bs' : String → List Bool}

theorem trans (h : Adds c c' bs) (h' : Adds c' c'' bs') :
    Adds c c'' fun ch => bs ch++bs' ch where
  channels := h'.channels.trans h.channels
  ws i hws hi := by
    obtain ⟨hws, hi⟩ := h'.ws i hws hi
    exact h.ws i hws hi
  sent i hws hi ch := by
    obtain ⟨hws', hi'⟩ := h'.ws i hws hi
    rw [h'.sent i hws hi, h.sent i hws' hi', List.append_assoc]

theorem trans_quiet (h : Adds c c' bs) (h' : Quiet c' c'') : Adds c c'' bs := by
  have h₂ := h.trans h'
  simpa only [List.append_nil] using h₂

theorem of_eq (hchannels : c'.channels = c.channels) (hws : c'.ws = c.ws)
    (hsockets : c'.sockets = c.sockets) : Quiet c c' where
  channels := hchannels
  ws i hi hopen := by
    rw [hws] at hi
    rw [hsockets] at hopen
    exact ⟨hi,hopen⟩
  sent i _ _ ch := by rw [hsockets, List.append_nil]

theorem refl (c : PerplexWs ℓ) : Quiet c c := of_eq rfl rfl rfl

/-- A current socket that is not open says nothing about the requests. -/
theorem of_not_open (hchannels : c'.channels = c.channels)
    (h : ∀ i, c'.ws = some i → c'.sockets.ready i ≠ .OPEN) : Quiet c c' where
  channels := hchannels
  ws i hws hi := absurd hi (h i hws)
  sent i hws hi := absurd hi (h i hws)

/-- A frame is sent on the current socket when it is open. -/
theorem send (c : PerplexWs ℓ) (msg : WsOutbound) :
    Adds c (c.send msg) fun ch => (msg.asks ch).toList := by
  unfold PerplexWs.send
  split
  · next i hc =>
    refine ⟨rfl,fun j hj hopen => ⟨hj,hopen⟩,?_⟩
    intro j hj hopen ch
    obtain rfl : i = j := Option.some.inj (hc.symm.trans hj)
    have hi : c.sockets.ready i = .OPEN := hopen
    have hsent := Sockets.sent_send hi msg
    change asked ch ((c.sockets.send i msg).sent i) = _
    rw [hsent, asked_append]
    cases hasks : msg.asks ch with
    | none => simp [asked, hasks]
    | some b => simp [asked, hasks]
  · next hc =>
    refine ⟨rfl,?_,?_⟩
    · intro i hi
      simp [hc] at hi
    · intro i hi
      simp [hc] at hi

theorem foldl_send (c : PerplexWs ℓ) (fs : List WsOutbound) :
    Adds c (fs.foldl PerplexWs.send c) fun ch => asked ch fs := by
  induction fs generalizing c with
  | nil => exact refl c
  | cons f fs ih =>
    have h := (send c f).trans (ih (c.send f))
    have hbs : (fun ch => (f.asks ch).toList++asked ch fs) = fun ch => asked ch (f :: fs) := by
      funext ch
      cases hasks : f.asks ch with
      | none => simp [asked, hasks]
      | some b => simp [asked, hasks]
    rw [hbs] at h
    exact h

theorem sendToken (c : PerplexWs ℓ) (jwt : String) : Quiet c (c.sendToken jwt) := by
  unfold PerplexWs.sendToken
  split_ifs
  · exact refl c
  · have h : Quiet c { c with authPromise := true, onMsg := c.onMsg++c.ws.toList } :=
      of_eq rfl rfl rfl
    exact h.trans (send _ (.auth jwt))

theorem resume (c : PerplexWs ℓ) (i : ℕ) : Quiet c (c.resume i) := by
  unfold PerplexWs.resume
  generalize (c.waiting.filter (·.1 = i)).map (·.2) = tokens
  have hstart : Quiet c { c with waiting := c.waiting.filter (·.1 ≠ i) } := of_eq rfl rfl rfl
  revert hstart
  generalize ({ c with waiting := c.waiting.filter (·.1 ≠ i) } : PerplexWs ℓ) = c₁
  intro hstart
  induction tokens generalizing c₁ with
  | nil => exact hstart
  | cons token tokens ih => exact ih _ (hstart.trans (sendToken c₁ token))

theorem message (c : PerplexWs ℓ) (i : ℕ) (type : String) : Quiet c (c.message i type) := by
  have h : Quiet c (c.onMessage type) := by
    unfold onMessage
    split_ifs
    · exact send c .pong
    · exact refl c
  unfold PerplexWs.message
  dsimp only
  split_ifs
  · exact h.trans (of_eq rfl rfl rfl)
  · exact h.trans (of_eq rfl rfl rfl)
  · exact h

theorem connect (c : PerplexWs ℓ) : Quiet c c.connect := by
  cases hc : c.ws with
  | some i =>
    have hconnect : c.connect = c := by
      unfold PerplexWs.connect
      rw [hc]
    rw [hconnect]
    exact refl c
  | none =>
    rw [connect_of_none hc]
    refine of_not_open rfl ?_
    intro i hi
    -- the new socket is connecting
    obtain rfl : c.sockets.count = i := Option.some.inj hi
    simp [Sockets.create]

theorem onClose (c : PerplexWs ℓ) : Quiet c c.onClose := by
  apply of_not_open
  · unfold PerplexWs.onClose
    dsimp only
    split_ifs <;> rfl
  · intro i hi
    rw [ws_onClose] at hi
    cases hi

theorem authenticate (c : PerplexWs ℓ) (jwt : String) : Quiet c (c.authenticate jwt) := by
  have hstart : Quiet c { c with jwt := some jwt } := of_eq rfl rfl rfl
  unfold PerplexWs.authenticate
  dsimp only
  split_ifs
  · exact hstart.trans (sendToken _ jwt)
  · refine (hstart.trans (connect _)).trans ?_
    unfold waitForOpen
    split_ifs
    · exact sendToken _ jwt
    · exact of_eq rfl rfl rfl

/-- Whose sockets move on without one of them opening. -/
theorem of_sockets {sockets : Sockets WsOutbound}
    (hready : ∀ i, sockets.ready i = .OPEN → c.sockets.ready i = .OPEN)
    (hsent : sockets.sent = c.sockets.sent) : Quiet c { c with sockets } where
  channels := rfl
  ws i hws hi := ⟨hws,hready i hi⟩
  sent i _ _ ch := by simp [hsent]

end Adds

/-- What asks for nothing keeps the requests in order. -/
theorem Kept.quiet (h : c.Kept) (h' : Quiet c c') : c'.Kept := by
  constructor
  · rw [h'.channels]
    exact h.nodup
  · intro i hws hi ch
    obtain ⟨hws', hi'⟩ := h'.ws i hws hi
    obtain ⟨hfollows, hnone⟩ := h.settled i hws' hi' ch
    have hasked := h'.sent i hws hi ch
    rw [List.append_nil] at hasked
    rw [h'.channels]
    exact ⟨hasked ▸ hfollows,hasked ▸ hnone⟩

/-- One channel is added or removed, and asked for accordingly. -/
theorem Kept.change {channel : String} (h : c.Kept) (c₁ : PerplexWs ℓ) (b : Bool)
    (hold : decide (channel ∈ c.channels) = !b) (hnew : decide (channel ∈ c₁.channels) = b)
    (hother : ∀ ch, ch ≠ channel → (ch ∈ c₁.channels ↔ ch ∈ c.channels))
    (hnodup : c₁.channels.Nodup) (hws : c₁.ws = c.ws) (hsockets : c₁.sockets = c.sockets)
    (hadds : Adds c₁ c' fun ch => if channel = ch then [b] else []) : c'.Kept := by
  constructor
  · rw [hadds.channels]
    exact hnodup
  · intro i hi hopen ch
    obtain ⟨hi', hopen'⟩ := hadds.ws i hi hopen
    have hasked := hadds.sent i hi hopen ch
    rw [hws] at hi'
    rw [hsockets] at hopen' hasked
    obtain ⟨hfollows, hnone⟩ := h.settled i hi' hopen' ch
    rw [hadds.channels]
    by_cases hch : channel = ch
    · subst hch
      rw [if_pos rfl] at hasked
      rw [hold] at hfollows
      have hsnoc := hfollows.snoc
      rw [Bool.not_not, ← hasked, ← hnew] at hsnoc
      exact ⟨hsnoc,fun he => by simp [hasked] at he⟩
    · rw [if_neg hch, List.append_nil] at hasked
      have hmem := hother ch (fun he => hch he.symm)
      refine ⟨?_,?_⟩
      · rw [hasked, decide_eq_decide.mpr hmem]
        exact hfollows
      · rw [hasked, hmem]
        exact hnone

theorem not_mem_channels {ch : String} : ch ∉ c.channels ↔ c.subs.lookup ch = none := by
  simp only [channels, List.mem_map, List.lookup_eq_none_iff, bne_iff_ne, not_exists, not_and]
  exact ⟨fun h sub hsub he => h sub hsub he.symm,fun h sub hsub he => h sub hsub he.symm⟩

section Calls
variable [DecidableEq ℓ]

theorem Kept.subscribe (h : c.Kept) (channel : String) (listener : ℓ) :
    (c.subscribe channel listener).Kept := by
  unfold PerplexWs.subscribe
  split
  · next hnone =>
    have hold : channel ∉ c.channels := not_mem_channels.mpr hnone
    have hchannels : channels { c with subs := c.subs++[(channel,[listener])] } =
        c.channels++[channel] := by simp [channels]
    apply h.change { c with subs := c.subs++[(channel,[listener])] } true
    · simpa using hold
    · simp [hchannels]
    · intro ch hch
      simp [hchannels, hch]
    · rw [hchannels]
      simpa only [List.concat_eq_append] using h.nodup.concat hold
    · rfl
    · rfl
    · have hadds := Adds.send { c with subs := c.subs++[(channel,[listener])] } (.subscribe channel)
      have hbs : (fun ch => ((WsOutbound.subscribe channel).asks ch).toList) =
          fun ch => if channel = ch then [true] else [] := by
        funext ch
        by_cases hch : channel = ch <;> simp [WsOutbound.asks, hch]
      rwa [hbs] at hadds
  · apply h.quiet
    apply Adds.of_eq
    · simp only [channels, List.map_map]
      apply List.map_congr_left
      intro sub _
      simp only [Function.comp_apply]
      split_ifs with hsub
      · exact hsub.1.symm
      · rfl
    · rfl
    · rfl

theorem Kept.unsubscribe (h : c.Kept) (channel : String) (listener : ℓ) :
    (c.unsubscribe channel listener).Kept := by
  unfold PerplexWs.unsubscribe
  split
  · exact h
  · next listeners hsome =>
    dsimp only
    split_ifs with hlast
    · have hold : channel ∈ c.channels := by
        by_contra hnot
        rw [not_mem_channels.mp hnot] at hsome
        cases hsome
      have hchannels : channels { c with subs := c.subs.filter (·.1 ≠ channel) } =
          c.channels.filter (· ≠ channel) := by
        simp only [channels, List.filter_map]
        rfl
      apply h.change { c with subs := c.subs.filter (·.1 ≠ channel) } false
      · simpa using hold
      · rw [hchannels]
        simp
      · intro ch hch
        rw [hchannels]
        simp [hch]
      · rw [hchannels]
        exact h.nodup.filter _
      · rfl
      · rfl
      · have hadds := Adds.send { c with subs := c.subs.filter (·.1 ≠ channel) }
          (.unsubscribe channel)
        have hbs : (fun ch => ((WsOutbound.unsubscribe channel).asks ch).toList) =
            fun ch => if channel = ch then [false] else [] := by
          funext ch
          by_cases hch : channel = ch <;> simp [WsOutbound.asks, hch]
        rwa [hbs] at hadds
    · apply h.quiet
      apply Adds.of_eq
      · simp only [channels, List.map_map]
        apply List.map_congr_left
        intro sub _
        simp only [Function.comp_apply]
        split_ifs with hsub
        · exact hsub.symm
        · rfl
      · rfl
      · rfl

end Calls

/-- What an open event sends on the current socket. -/
theorem adds_opened (c : PerplexWs ℓ) (i : ℕ) :
    Adds { c with sockets := c.sockets.opened i } (c.opened i)
      fun ch => asked ch (c.channels.map .subscribe) := by
  unfold PerplexWs.opened PerplexWs.onOpen
  generalize htoken : ((({ c with sockets := c.sockets.opened i } : PerplexWs ℓ).jwt.filter
    (· ≠ "")).map WsOutbound.auth).toList = token
  have hauth (ch : String) : asked ch token = [] := by
    rw [← htoken]
    cases c.jwt.filter (· ≠ "") <;> rfl
  have hstart : Quiet ({ c with sockets := c.sockets.opened i } : PerplexWs ℓ)
      { c with sockets := c.sockets.opened i, backoffMs := 500 } := .of_eq rfl rfl rfl
  have hsend := Adds.foldl_send { c with sockets := c.sockets.opened i, backoffMs := 500 }
    (token++c.subs.map fun sub => WsOutbound.subscribe sub.1)
  have hall := (hstart.trans hsend).trans_quiet (Adds.resume _ i)
  have hbs : (fun ch => []++asked ch (token++c.subs.map fun sub => WsOutbound.subscribe sub.1)) =
      fun ch => asked ch (c.channels.map .subscribe) := by
    funext ch
    simp [hauth, channels, List.map_map, Function.comp_def]
  rw [hbs] at hall
  exact hall

theorem ready_opened (c : PerplexWs ℓ) (i : ℕ) :
    (c.opened i).sockets.ready = (c.sockets.opened i).ready := by
  have hsend (c : PerplexWs ℓ) (msg : WsOutbound) :
      (c.send msg).sockets.ready = c.sockets.ready := by
    unfold PerplexWs.send
    split <;> rfl
  have htoken (c : PerplexWs ℓ) (jwt : String) :
      (c.sendToken jwt).sockets.ready = c.sockets.ready := by
    unfold PerplexWs.sendToken
    split_ifs
    · rfl
    · exact hsend _ _
  have hfold {α : Type} {f : PerplexWs ℓ → α → PerplexWs ℓ}
      (hf : ∀ c a, (f c a).sockets.ready = c.sockets.ready) (c : PerplexWs ℓ) (as : List α) :
      (as.foldl f c).sockets.ready = c.sockets.ready := by
    induction as generalizing c with
    | nil => rfl
    | cons a as ih => exact (ih _).trans (hf c a)
  exact (hfold htoken _ _).trans (hfold hsend _ _)

theorem Kept.opened (h : c.Kept) (i : ℕ)
    (htimely : ∀ j, c.ws = some j → c.sockets.ready j = .OPEN → c.channels = []) :
    (c.opened i).Kept := by
  have hadds := adds_opened c i
  have hchannels : (c.opened i).channels = c.channels := hadds.channels
  constructor
  · rw [hchannels]
    exact h.nodup
  · intro j hj hopen ch
    obtain ⟨hj', hopen'⟩ := hadds.ws j hj hopen
    have hasked := hadds.sent j hj hopen ch
    change c.ws = some j at hj'
    change asked ch ((c.opened i).sockets.sent j) =
      asked ch ((c.sockets.opened i).sent j)++asked ch (c.channels.map .subscribe) at hasked
    rw [Sockets.sent_opened] at hasked
    rw [hchannels]
    rcases Sockets.ready_opened_eq_open.mp hopen' with hwas | ⟨rfl, hconnecting⟩
    · -- the socket has been open, and nothing is replayed on it
      have hnil := htimely j hj' hwas
      obtain ⟨hfollows, hnone⟩ := h.settled j hj' hwas ch
      have hmute : asked ch (c.channels.map .subscribe) = [] := by rw [hnil]; rfl
      rw [hmute, List.append_nil] at hasked
      exact ⟨hasked ▸ hfollows,hasked ▸ hnone⟩
    · -- it has just opened, with nothing sent on it
      rw [c.sockets.unsent j hconnecting, asked_map_subscribe ch h.nodup] at hasked
      by_cases hch : ch ∈ c.channels
      · rw [if_pos hch] at hasked
        change _ = [true] at hasked
        constructor
        · rw [hasked, decide_eq_true hch]
          exact (Follows.nil false).snoc
        · rw [hasked]
          exact nofun
      · rw [if_neg hch] at hasked
        change _ = [] at hasked
        constructor
        · rw [hasked, decide_eq_false hch]
          exact Follows.nil false
        · exact fun _ => hch

/-- The channels are asked for once more on a socket that has them already. -/
theorem Kept.not_exact_opened (h : c.Kept) {i j : ℕ} (hj : c.ws = some j)
    (hopen : c.sockets.ready j = .OPEN) (hchannels : c.channels ≠ []) :
    ¬(c.opened i).Exact := by
  intro hexact
  obtain ⟨ch, hch⟩ := List.exists_mem_of_ne_nil _ hchannels
  have hadds := adds_opened c i
  have hj' : (c.opened i).ws = some j := (still_opened c i).ws.trans hj
  have hopen' : (c.opened i).sockets.ready j = .OPEN := by
    rw [ready_opened]
    exact Sockets.ready_opened_eq_open.mpr (.inl hopen)
  have hasked := hadds.sent j hj' hopen' ch
  change asked ch ((c.opened i).sockets.sent j) =
    asked ch ((c.sockets.opened i).sent j)++asked ch (c.channels.map .subscribe) at hasked
  rw [Sockets.sent_opened, asked_map_subscribe ch h.nodup, if_pos hch] at hasked
  have hbefore := h.exact j hj hopen ch
  have hafter := hexact j hj' hopen' ch
  rw [if_pos hch] at hbefore
  rw [hadds.channels] at hafter
  change _ = if ch ∈ c.channels then 1 else 0 at hafter
  rw [if_pos hch, replay, hasked, List.foldl_append] at hafter
  change (replay ch (c.sockets.sent j)).live+1 = 1 at hafter
  omega

variable [DecidableEq ℓ] {l : Step ℓ}

theorem Kept.step (h : c.Kept) (hl : c.Timely l) : (c.step l).Kept := by
  cases l with
  | setJwt jwt => exact h.quiet (.of_eq rfl rfl rfl)
  | connect => exact h.quiet (.connect c)
  | close =>
    constructor
    · exact List.nodup_nil
    · intro i hi
      cases hi
  | subscribe channel listener => exact h.subscribe channel listener
  | unsubscribe channel listener => exact h.unsubscribe channel listener
  | authenticate jwt => exact h.quiet (.authenticate c jwt)
  | opened i =>
    rw [PerplexWs.step]
    split_ifs with hi
    · exact h.opened i (hl hi)
    · exact h
  | message i type =>
    rw [PerplexWs.step]
    split_ifs
    · exact h.quiet (.message c i type)
    · exact h
  | closed i =>
    rw [PerplexWs.step]
    split_ifs
    · exact h
    · have hclosed : Quiet c { c with sockets := c.sockets.closed i } :=
        .of_sockets (fun j hj => (Sockets.ready_closed_eq_open.mp hj).2) rfl
      exact h.quiet (hclosed.trans (.onClose _))
  | closing i =>
    exact h.quiet (.of_sockets (fun j hj => (Sockets.ready_close_eq_open.mp hj).2)
      Sockets.sent_close)
  | timer k =>
    rw [PerplexWs.step]
    split_ifs
    · have htimers : Quiet c { c with timers := c.timers.eraseIdx k } := .of_eq rfl rfl rfl
      exact h.quiet (htimers.trans (.connect _))
    · exact h

theorem Kept.exact_step_iff (h : c.Kept) (l : Step ℓ) : (c.step l).Exact ↔ c.Timely l := by
  refine ⟨?_,fun hl => (h.step hl).exact⟩
  intro hexact
  cases l with
  | opened i =>
    intro hi j hj hopen
    by_contra hchannels
    rw [PerplexWs.step, if_pos hi] at hexact
    exact h.not_exact_opened hj hopen hchannels hexact
  | _ => trivial

/-- The client is right about its open socket after every step of a run, if and only if every
open event of the run is timely. -/
theorem exact_iff (h : c.Kept) (ls : List (Step ℓ)) :
    (∀ pre, pre <+: ls → (c.run pre).Exact) ↔
      ∀ pre l, pre++[l] <+: ls → (c.run pre).Timely l := by
  apply forall_prefix_iff (P := fun pre => (c.run pre).Kept) h
  · intro pre hpre
    exact hpre.exact
  · intro pre l _ hpre
    rw [run_append]
    exact ⟨hpre.exact_step_iff l,fun hexact => hpre.step ((hpre.exact_step_iff l).mp hexact)⟩

/-- The client is right about its open socket throughout a run, if and only if no open event of
another socket comes while it has channels. Then the hub holds one subscription of the open
connection to each public channel with listeners, and none to any other. -/
theorem one_subscription_each {β : Type} (env : Ws.Env) (jwt : Option String) (reconnect : Bool)
    (ls : List (Step ℓ)) :
    ((∀ pre, pre <+: ls → ((new jwt reconnect).run pre).Exact) ↔
      ∀ pre l, pre++[l] <+: ls → ((new jwt reconnect).run pre).Timely l) ∧
    ((∀ pre l, pre++[l] <+: ls → ((new jwt reconnect).run pre).Timely l) →
      ∀ pre, pre <+: ls → ∀ i, ((new jwt reconnect).run pre).ws = some i →
        ((new jwt reconnect).run pre).sockets.ready i = .OPEN →
        ∀ channel t, Ws.Topic.parse channel = some t → ¬t.requiresAuth →
          (((((new jwt reconnect).run pre).sockets.sent i).foldl (Ws.Sys.serve env)
            (Ws.Sys.new : Ws.Sys β)).live t).length =
            if channel ∈ ((new jwt reconnect).run pre).channels then 1 else 0) := by
  have hiff := exact_iff (kept_new jwt reconnect : (new jwt reconnect : PerplexWs ℓ).Kept) ls
  refine ⟨hiff,?_⟩
  intro htimely pre hpre i hws hi channel t hparse hpublic
  have hexact := hiff.mpr htimely pre hpre i hws hi channel
  rw [← hexact, ← Ws.Sys.served_eq_replay (β := β) env hparse hpublic]
  rfl

/-- The client closes a socket that has not opened and connects again; the handshake of the first
one, done by then, is reported when the second is open. -/
def lateOpen : List (Step ℕ) :=
  [.connect,.close,.connect,.opened 1,.subscribe "trades.btc-usd" 0,.opened 0]

example : (replay "trades.btc-usd"
    (((new none true).run lateOpen).sockets.sent 1)).live = 2 := by decide +kernel

end Perplex.Sdk.PerplexWs
