import Mathlib.Data.List.Infix
import Perplex.Checked
import Perplex.Sockets
import Perplex.WsFrames

/-! The WebSocket client of the web app. It remembers the channels it is subscribed to and replays
them whenever a socket opens; what is sent while none is open waits in a queue, which is flushed
after that. A socket closes by itself, by the server or by the client, and the event may be
late. -/
namespace Perplex.Web

structure PerplexWs where
  token : Option String
  maxReconnectDelayMs : Option ℕ
  ws : Option ℕ
  subs : List String
  reconnectAttempt : ℕ
  /-- The pending timer, by its delay without the random part. -/
  reconnectTimer : Option ℕ
  closed : Bool
  outboundQueue : List WsOutbound
  sockets : Sockets WsOutbound
  nodup : subs.Nodup

namespace PerplexWs

def new (token : Option String) (maxReconnectDelayMs : Option ℕ) : PerplexWs :=
  ⟨token,maxReconnectDelayMs,none,[],0,none,false,[],Sockets.new,List.nodup_nil⟩

def scheduleReconnect (c : PerplexWs) : PerplexWs :=
  if c.closed then c
  else if c.reconnectTimer.isSome then c
  else
    let max := c.maxReconnectDelayMs.getD 10000
    { c with
      reconnectAttempt := c.reconnectAttempt+1
      reconnectTimer := some (min max (250*2^c.reconnectAttempt)) }

/-- `this.ws` has the ready state. -/
def wsIs (c : PerplexWs) (r : ReadyState) : Bool := c.ws.any (c.sockets.ready · = r)

/-- With whether the constructor of the socket returns. -/
def connect (c : PerplexWs) (ok : Bool) : PerplexWs :=
  if c.wsIs .OPEN || c.wsIs .CONNECTING then c
  else if ok then { c with ws := some c.sockets.count, sockets := c.sockets.create }
  else c.scheduleReconnect

/-- What the open handler sends before the queue; an empty token is none. -/
def greeting (c : PerplexWs) : List WsOutbound :=
  ((c.token.filter (· ≠ "")).map .auth).toList++c.subs.map .subscribe

def onopen (c : PerplexWs) (i : ℕ) : PerplexWs :=
  { c with
    reconnectAttempt := 0
    outboundQueue := []
    sockets := c.sockets.sendAll i (c.greeting++c.outboundQueue) }

def onclose (c : PerplexWs) (code : ℕ) : PerplexWs :=
  let c := { c with ws := none }
  if code = 3000 then { c with closed := true }
  else if c.closed then c
  else c.scheduleReconnect

/-- The current socket, when it is open. -/
def openWs (c : PerplexWs) : Option ℕ := c.ws.filter (c.sockets.ready · = .OPEN)

def send (c : PerplexWs) (msg : WsOutbound) : PerplexWs :=
  match c.openWs with
  | some i => { c with sockets := c.sockets.send i msg }
  | none => { c with outboundQueue := c.outboundQueue++[msg] }

def subscribe (c : PerplexWs) (channel : String) : PerplexWs :=
  if h : channel ∈ c.subs then c
  else
    send { c with
      subs := c.subs++[channel]
      nodup := List.nodup_append.mpr ⟨c.nodup,List.nodup_singleton _,by
        intro a ha b hb
        obtain rfl := List.mem_singleton.mp hb
        rintro rfl
        exact h ha⟩ } (.subscribe channel)

def unsubscribe (c : PerplexWs) (channel : String) : PerplexWs :=
  if channel ∈ c.subs then
    send { c with
      subs := c.subs.filter (· ≠ channel)
      nodup := c.nodup.filter _ } (.unsubscribe channel)
  else c

def setToken (c : PerplexWs) (token : Option String) (ok : Bool) : PerplexWs :=
  let c := { c with token, closed := false }
  match c.ws with
  | some i => { c with sockets := c.sockets.close i }
  | none => c.connect ok

def close (c : PerplexWs) : PerplexWs :=
  let c := { c with closed := true, reconnectTimer := none }
  match c.ws with
  | some i => { c with ws := none, sockets := c.sockets.close i }
  | none => c

end PerplexWs

inductive Step where
  /-- Calls; with whether the constructor of a new socket returns. -/
  | connect (ok : Bool)
  | subscribe (channel : String)
  | unsubscribe (channel : String)
  | setToken (token : Option String) (ok : Bool)
  | close
  /-- The reconnect timer fires. -/
  | timer (ok : Bool)
  /-- Events of a socket. -/
  | opened (i : ℕ)
  | ping (i : ℕ)
  | errored (i : ℕ)
  /-- The server starts to close. -/
  | closing (i : ℕ)
  | closed (i code : ℕ)
deriving DecidableEq

namespace PerplexWs

/-- The open handler runs when the socket opens, or late, when it is being closed by then. -/
def opens (c : PerplexWs) (i : ℕ) : Bool :=
  c.sockets.ready i = .CONNECTING || c.sockets.ready i = .CLOSING

def step (c : PerplexWs) : Step → PerplexWs
  | .connect ok => c.connect ok
  | .subscribe channel => c.subscribe channel
  | .unsubscribe channel => c.unsubscribe channel
  | .setToken token ok => c.setToken token ok
  | .close => c.close
  | .timer ok =>
    if c.reconnectTimer.isSome then { c with reconnectTimer := none }.connect ok else c
  | .opened i =>
    if c.opens i then { c with sockets := c.sockets.opened i }.onopen i else c
  | .ping i => { c with sockets := c.sockets.send i .pong }
  | .errored i | .closing i => { c with sockets := c.sockets.close i }
  | .closed i code =>
    if c.sockets.ready i = .CLOSED then c
    else { c with sockets := c.sockets.closed i }.onclose code

def run (c : PerplexWs) (ls : List Step) : PerplexWs := ls.foldl step c

/-- On every open socket the server has one subscription to each channel in `subs`, and none to
any other. -/
def Exact (c : PerplexWs) : Prop :=
  ∀ i, c.sockets.ready i = .OPEN → ∀ ch,
    (replay ch (c.sockets.sent i)).live = if ch ∈ c.subs then 1 else 0

/-- No channel in `subs` has its subscribe frame first in the queue. -/
def Replayable (c : PerplexWs) : Prop :=
  ∀ ch ∈ c.subs, (asked ch c.outboundQueue).head? ≠ some true

/-- No socket is open but the current one. -/
def Attended (c : PerplexWs) : Prop := ∀ i, c.sockets.ready i = .OPEN → c.ws = some i

/-- A socket opens when nothing would be replayed and flushed, and the channels change when no
other socket is open. -/
def Clean (c : PerplexWs) : Step → Prop
  | .opened i => c.sockets.ready i = .CONNECTING → c.Replayable
  | .subscribe ch => ch ∉ c.subs → c.Attended
  | .unsubscribe ch => ch ∈ c.subs → c.Attended
  | _ => True

/-- The requests in the queue, and those on each open socket, lead to the channels in `subs`. -/
structure Inv (c : PerplexWs) : Prop where
  queued : ∀ ch, Follows (asked ch c.outboundQueue) (decide (ch ∈ c.subs))
  flushed : c.openWs.isSome → c.outboundQueue = []
  served : ∀ i, c.sockets.ready i = .OPEN → ∀ ch, Settled c.subs ch (c.sockets.sent i)

variable {c c' : PerplexWs}

theorem Inv.exact (h : c.Inv) : c.Exact := fun i hi ch => (h.served i hi ch).live_eq

/-- The channels and the queue stay, no socket opens, and nothing is asked for. -/
structure Quiet (c c' : PerplexWs) : Prop where
  subs : c'.subs = c.subs
  queue : c'.outboundQueue = c.outboundQueue
  openWs : c'.openWs.isSome → c.openWs.isSome
  served : ∀ i, c'.sockets.ready i = .OPEN → c.sockets.ready i = .OPEN ∧
    ∀ ch, asked ch (c'.sockets.sent i) = asked ch (c.sockets.sent i)

theorem Quiet.trans {c'' : PerplexWs} (h : Quiet c c') (h' : Quiet c' c'') : Quiet c c'' where
  subs := h'.subs.trans h.subs
  queue := h'.queue.trans h.queue
  openWs := h.openWs ∘ h'.openWs
  served i hi := by
    obtain ⟨hi', hasked'⟩ := h'.served i hi
    obtain ⟨hi, hasked⟩ := h.served i hi'
    exact ⟨hi,fun ch => (hasked' ch).trans (hasked ch)⟩

theorem Quiet.of_eq (hsubs : c'.subs = c.subs) (hqueue : c'.outboundQueue = c.outboundQueue)
    (hws : c'.ws = c.ws) (hsockets : c'.sockets = c.sockets) : Quiet c c' where
  subs := hsubs
  queue := hqueue
  openWs := by
    rw [PerplexWs.openWs, PerplexWs.openWs, hws, hsockets]
    exact id
  served i hi := by
    rw [hsockets] at hi ⊢
    exact ⟨hi,fun _ => rfl⟩

theorem Quiet.refl (c : PerplexWs) : Quiet c c := .of_eq rfl rfl rfl rfl

theorem Inv.of_quiet (h : c.Inv) (hq : Quiet c c') : c'.Inv where
  queued ch := by
    rw [hq.queue, hq.subs]
    exact h.queued ch
  flushed ho := hq.queue.trans (h.flushed (hq.openWs ho))
  served i hi ch := by
    obtain ⟨hi, hasked⟩ := hq.served i hi
    obtain ⟨hfollows, hnil⟩ := h.served i hi ch
    constructor
    · rw [hasked, hq.subs]
      exact hfollows
    · rw [hasked, hq.subs]
      exact hnil

theorem openWs_eq_some {i : ℕ} :
    c.openWs = some i ↔ c.ws = some i ∧ c.sockets.ready i = .OPEN := by
  simp [openWs, Option.filter_eq_some_iff]

theorem quiet_sockets {s : Sockets WsOutbound}
    (hs : ∀ i, s.ready i = .OPEN → c.sockets.ready i = .OPEN ∧
      ∀ ch, asked ch (s.sent i) = asked ch (c.sockets.sent i)) :
    Quiet c { c with sockets := s } where
  subs := rfl
  queue := rfl
  openWs ho := by
    obtain ⟨i, hi⟩ := Option.isSome_iff_exists.mp ho
    obtain ⟨hws, hopen⟩ := openWs_eq_some.mp hi
    exact Option.isSome_iff_exists.mpr ⟨i,openWs_eq_some.mpr ⟨hws,(hs i hopen).1⟩⟩
  served := hs

theorem quiet_close (c : PerplexWs) (i : ℕ) : Quiet c { c with sockets := c.sockets.close i } := by
  apply quiet_sockets
  intro j hj
  exact ⟨(Sockets.ready_close_eq_open.mp hj).2,fun ch => by rw [Sockets.sent_close]⟩

theorem quiet_closed (c : PerplexWs) (i : ℕ) :
    Quiet c { c with sockets := c.sockets.closed i } := by
  apply quiet_sockets
  intro j hj
  exact ⟨(Sockets.ready_closed_eq_open.mp hj).2,fun ch => by rw [Sockets.sent_closed]⟩

theorem quiet_pong (c : PerplexWs) (i : ℕ) :
    Quiet c { c with sockets := c.sockets.send i .pong } := by
  apply quiet_sockets
  intro j hj
  have hopen : c.sockets.ready j = .OPEN := hj
  refine ⟨hopen,?_⟩
  intro ch
  by_cases hij : j = i
  · subst hij
    rw [Sockets.sent_send hopen, asked_append]
    exact List.append_nil _
  · rw [Sockets.sent_send_of_ne hij]

theorem quiet_scheduleReconnect (c : PerplexWs) : Quiet c c.scheduleReconnect := by
  unfold scheduleReconnect
  split_ifs
  · exact .refl c
  · exact .refl c
  · exact .of_eq rfl rfl rfl rfl

/-- A new socket is connecting. -/
theorem quiet_create (c : PerplexWs) :
    Quiet c { c with ws := some c.sockets.count, sockets := c.sockets.create } where
  subs := rfl
  queue := rfl
  openWs ho := by
    obtain ⟨i, hi⟩ := Option.isSome_iff_exists.mp ho
    obtain ⟨hws, hopen⟩ := openWs_eq_some.mp hi
    obtain rfl : c.sockets.count = i := Option.some.inj hws
    simp [Sockets.create] at hopen
  served i hi := by
    have hopen := Sockets.ready_create_eq_open.mp hi
    have hne : i ≠ c.sockets.count := by
      rintro rfl
      rw [c.sockets.unused _ le_rfl] at hopen
      cases hopen
    exact ⟨hopen,fun ch => by rw [Sockets.sent_create hne]⟩

theorem quiet_connect (c : PerplexWs) (ok : Bool) : Quiet c (c.connect ok) := by
  unfold connect
  split_ifs
  · exact .refl c
  · exact quiet_create c
  · exact quiet_scheduleReconnect c

/-- Without a current socket none is open. -/
theorem quiet_drop (c : PerplexWs) : Quiet c { c with ws := none } :=
  ⟨rfl,rfl,fun ho => absurd ho Bool.false_ne_true,fun _ hi => ⟨hi,fun _ => rfl⟩⟩

theorem quiet_onclose (c : PerplexWs) (code : ℕ) : Quiet c (c.onclose code) := by
  apply (quiet_drop c).trans
  unfold onclose
  dsimp only
  split_ifs
  · exact .of_eq rfl rfl rfl rfl
  · exact .refl _
  · exact quiet_scheduleReconnect _

theorem quiet_setToken (c : PerplexWs) (token : Option String) (ok : Bool) :
    Quiet c (c.setToken token ok) := by
  unfold setToken
  dsimp only
  have hc : Quiet c { c with token, closed := false } := .of_eq rfl rfl rfl rfl
  split
  · exact hc.trans (quiet_close { c with token, closed := false } _)
  · exact hc.trans (quiet_connect _ ok)

theorem quiet_shut (c : PerplexWs) : Quiet c c.close := by
  unfold close
  dsimp only
  have hc : Quiet c { c with closed := true, reconnectTimer := none } := .of_eq rfl rfl rfl rfl
  split
  · next i _ =>
    have hclose := quiet_close { c with closed := true, reconnectTimer := none } i
    exact (hc.trans hclose).trans (quiet_drop _)
  · exact hc

/-- What neither changes the channels nor opens a socket. -/
theorem quiet_step {l : Step} (hsub : ∀ ch, l ≠ .subscribe ch) (hunsub : ∀ ch, l ≠ .unsubscribe ch)
    (hopened : ∀ i, l ≠ .opened i) : Quiet c (c.step l) := by
  cases l with
  | connect ok => exact quiet_connect c ok
  | subscribe ch => exact absurd rfl (hsub ch)
  | unsubscribe ch => exact absurd rfl (hunsub ch)
  | setToken token ok => exact quiet_setToken c token ok
  | close => exact quiet_shut c
  | timer ok =>
    rw [step]
    split_ifs
    · have hc : Quiet c { c with reconnectTimer := none } := .of_eq rfl rfl rfl rfl
      exact hc.trans (quiet_connect _ ok)
    · exact .refl c
  | opened i => exact absurd rfl (hopened i)
  | ping i => exact quiet_pong c i
  | errored i => exact quiet_close c i
  | closing i => exact quiet_close c i
  | closed i code =>
    rw [step]
    split_ifs
    · exact .refl c
    · exact (quiet_closed c i).trans (quiet_onclose _ code)

/-- The channels with one of them added or dropped. -/
structure Changed (c : PerplexWs) (ch : String) (b : Bool) (subs : List String) : Prop where
  before : decide (ch ∈ c.subs) = !b
  after : ∀ ch', decide (ch' ∈ subs) = if ch = ch' then b else decide (ch' ∈ c.subs)

/-- The frame for it. -/
def frame (ch : String) (b : Bool) : WsOutbound := if b then .subscribe ch else .unsubscribe ch

theorem asked_frame (ch ch' : String) (b : Bool) :
    asked ch' [frame ch b] = if ch = ch' then [b] else [] := by
  cases b <;> by_cases h : ch = ch' <;> simp [asked, frame, WsOutbound.asks, h]

variable {ch : String} {b : Bool} {subs : List String}

theorem Changed.follows (hs : c.Changed ch b subs) {ch' : String} {fs : List WsOutbound}
    (h : Follows (asked ch' fs) (decide (ch' ∈ c.subs))) :
    Follows (asked ch' (fs++[frame ch b])) (decide (ch' ∈ subs)) := by
  rw [asked_append, asked_frame, hs.after ch']
  split_ifs with he
  · subst he
    rw [hs.before] at h
    simpa using h.snoc
  · simpa using h

/-- The frame settles the channel on the socket it is sent on, and no other one. -/
theorem Changed.settled (hs : c.Changed ch b subs) {ch' : String} {fs : List WsOutbound}
    (h : Settled c.subs ch' fs) : Settled subs ch' (fs++[frame ch b]) := by
  refine ⟨hs.follows h.follows,?_⟩
  rw [asked_append, asked_frame]
  intro hempty
  obtain ⟨hasked, hframe⟩ := List.append_eq_nil_iff.mp hempty
  have hne : ch ≠ ch' := by
    intro he
    simp [he] at hframe
  have hmem := hs.after ch'
  rw [if_neg hne, decide_eq_decide] at hmem
  exact fun hch => h.asked hasked (hmem.mp hch)

theorem send_of_open {i : ℕ} (ho : c.openWs = some i) (msg : WsOutbound) :
    c.send msg = { c with sockets := c.sockets.send i msg } := by
  simp [send, ho]

theorem send_of_none (ho : c.openWs = none) (msg : WsOutbound) :
    c.send msg = { c with outboundQueue := c.outboundQueue++[msg] } := by
  simp [send, ho]

theorem Inv.send (h : c.Inv) (hs : c.Changed ch b subs) (hnd : subs.Nodup) (ha : c.Attended) :
    (send { c with subs, nodup := hnd } (frame ch b)).Inv := by
  cases ho : c.openWs with
  | some i =>
    obtain ⟨hws, hi⟩ := openWs_eq_some.mp ho
    have hqueue : c.outboundQueue = [] := h.flushed (Option.isSome_of_eq_some ho)
    rw [send_of_open (c := { c with subs, nodup := hnd }) ho]
    refine ⟨?_,fun _ => hqueue,?_⟩
    · intro ch'
      dsimp only
      rw [hqueue]
      exact .nil _
    · -- the frame is sent on the only open socket
      intro j hj ch'
      have hopen : c.sockets.ready j = .OPEN := hj
      obtain rfl : i = j := Option.some.inj (hws.symm.trans (ha j hopen))
      dsimp only
      rw [Sockets.sent_send hi]
      exact hs.settled (h.served i hi ch')
  | none =>
    -- the frame waits, and no socket is there to miss it
    have hnone (j : ℕ) : c.sockets.ready j ≠ .OPEN := by
      intro hj
      have hopen := openWs_eq_some.mpr ⟨ha j hj,hj⟩
      rw [ho] at hopen
      cases hopen
    rw [send_of_none (c := { c with subs, nodup := hnd }) ho]
    refine ⟨fun ch' => hs.follows (h.queued ch'),?_,fun j hj => absurd hj (hnone j)⟩
    intro hopen
    have hopen : c.openWs.isSome := hopen
    rw [ho] at hopen
    cases hopen

theorem subs_send (msg : WsOutbound) : (c.send msg).subs = c.subs := by
  unfold send
  split <;> rfl

theorem ready_send (msg : WsOutbound) : (c.send msg).sockets.ready = c.sockets.ready := by
  unfold send
  split <;> rfl

theorem sent_send_of_ne {i : ℕ} (hi : c.ws ≠ some i) (msg : WsOutbound) :
    (c.send msg).sockets.sent i = c.sockets.sent i := by
  cases ho : c.openWs with
  | some j =>
    have hij : i ≠ j := by
      rintro rfl
      exact hi (openWs_eq_some.mp ho).1
    rw [send_of_open ho, Sockets.sent_send_of_ne hij]
  | none => rw [send_of_none ho]

/-- An open socket that is not the current one does not see the frame. -/
theorem attended_of_exact (h : c.Inv) (hs : c.Changed ch b subs) (hnd : subs.Nodup)
    (he : (send { c with subs, nodup := hnd } (frame ch b)).Exact) : c.Attended := by
  intro i hi
  by_contra hws
  -- its frames stay while the channel changes sides
  have hbefore := h.exact i hi ch
  have hafter := he i (by rwa [ready_send]) ch
  rw [sent_send_of_ne (c := { c with subs, nodup := hnd }) hws, subs_send, hbefore] at hafter
  cases b with
  | true =>
    have hold : ch ∉ c.subs := by simpa using hs.before
    have hnew : ch ∈ subs := by simpa using hs.after ch
    simp [hold, hnew] at hafter
  | false =>
    have hold : ch ∈ c.subs := by simpa using hs.before
    have hnew : ch ∉ subs := by simpa using hs.after ch
    simp [hold, hnew] at hafter

/-- A call that changes the channels. -/
theorem subscribe_spec (hch : ch ∉ c.subs) : ∃ subs hnd, c.Changed ch true subs ∧
    c.step (.subscribe ch) = send { c with subs, nodup := hnd } (frame ch true) := by
  rw [step, subscribe, dif_neg hch]
  refine ⟨_,_,⟨by simpa using hch,?_⟩,rfl⟩
  intro ch'
  by_cases he : ch = ch'
  · simp [he]
  · have he' : ch' ≠ ch := fun h => he h.symm
    simp [he, he']

theorem unsubscribe_spec (hch : ch ∈ c.subs) : ∃ subs hnd, c.Changed ch false subs ∧
    c.step (.unsubscribe ch) = send { c with subs, nodup := hnd } (frame ch false) := by
  rw [step, unsubscribe, if_pos hch]
  refine ⟨_,_,⟨by simpa using hch,?_⟩,rfl⟩
  intro ch'
  by_cases he : ch = ch'
  · simp [he]
  · have he' : ch' ≠ ch := fun h => he h.symm
    simp [he, he']

theorem asked_greeting (c : PerplexWs) (ch : String) :
    asked ch c.greeting = if ch ∈ c.subs then [true] else [] := by
  have htoken : asked ch ((c.token.filter (· ≠ "")).map WsOutbound.auth).toList = [] := by
    cases c.token.filter (· ≠ "") <;> rfl
  rw [greeting, asked_append, htoken, asked_map_subscribe ch c.nodup, List.nil_append]

variable {i : ℕ}

theorem step_opened (hi : c.sockets.ready i = .CONNECTING) :
    c.step (.opened i) = { c with sockets := c.sockets.opened i }.onopen i :=
  if_pos (by simp [opens, hi])

/-- What is asked for on a socket that has just opened. -/
theorem asked_opened (hi : c.sockets.ready i = .CONNECTING) (ch : String) :
    asked ch ((c.step (.opened i)).sockets.sent i) =
      (if ch ∈ c.subs then [true] else [])++asked ch c.outboundQueue := by
  have hopen : (c.sockets.opened i).ready i = .OPEN :=
    Sockets.ready_opened_eq_open.mpr (.inr ⟨rfl,hi⟩)
  rw [step_opened hi, onopen, Sockets.sent_sendAll hopen, Sockets.sent_opened,
    c.sockets.unsent i hi, List.nil_append, asked_append]
  exact congrArg (·++_) (asked_greeting c ch)

/-- It has what the channels are when none of them waits in the queue as well. -/
theorem settled_opened (h : c.Inv) (hi : c.sockets.ready i = .CONNECTING) (hr : c.Replayable)
    (ch : String) : Settled c.subs ch ((c.step (.opened i)).sockets.sent i) := by
  have hqueued := h.queued ch
  have hasked := asked_opened hi ch
  by_cases hch : ch ∈ c.subs
  · rw [if_pos hch, List.singleton_append] at hasked
    simp only [hch, decide_true] at hqueued
    refine ⟨?_,fun hnil => by simp [hasked] at hnil⟩
    simp only [hasked, hch, decide_true]
    exact hqueued.cons_true (hr ch hch)
  · rw [if_neg hch, List.nil_append] at hasked
    exact ⟨hasked ▸ hqueued,fun _ => hch⟩

theorem Inv.opened (h : c.Inv) (hc : c.Clean (.opened i)) : (c.step (.opened i)).Inv := by
  by_cases ho : c.opens i
  · have hstep : c.step (.opened i) = { c with sockets := c.sockets.opened i }.onopen i := if_pos ho
    refine ⟨fun ch => by rw [hstep]; exact .nil _,fun _ => by rw [hstep]; rfl,?_⟩
    intro j hj ch
    have hready : (c.sockets.opened i).ready j = .OPEN := by
      rw [hstep, onopen, Sockets.ready_sendAll] at hj
      exact hj
    have hsubs : (c.step (.opened i)).subs = c.subs := by rw [hstep]; rfl
    rw [hsubs]
    -- a socket that was open before is another one, and is sent nothing
    rcases Sockets.ready_opened_eq_open.mp hready with hopen | ⟨rfl, hi⟩
    · have hne : j ≠ i := by
        rintro rfl
        simp [opens, hopen] at ho
      have hsent : (c.step (.opened i)).sockets.sent j = c.sockets.sent j := by
        rw [hstep, onopen, Sockets.sent_sendAll_of_ne hne, Sockets.sent_opened]
      rw [hsent]
      exact h.served j hopen ch
    · exact settled_opened h hi (hc hi) ch
  · rw [step, if_neg ho]
    exact h

/-- A channel that is replayed and flushed has two subscriptions. -/
theorem replayable_of_exact (h : c.Inv) (hi : c.sockets.ready i = .CONNECTING)
    (he : (c.step (.opened i)).Exact) : c.Replayable := by
  intro ch hch hhead
  have hopen : (c.step (.opened i)).sockets.ready i = .OPEN := by
    rw [step_opened hi, onopen, Sockets.ready_sendAll]
    exact Sockets.ready_opened_eq_open.mpr (.inr ⟨rfl,hi⟩)
  have hlive := he i hopen ch
  have hqueued := h.queued ch
  simp only [hch, decide_true] at hqueued
  have hsubs : ch ∈ (c.step (.opened i)).subs := by
    rw [step_opened hi]
    exact hch
  rw [replay, asked_opened hi, if_pos hch, if_pos hsubs, List.singleton_append,
    hqueued.live_eq_two hhead] at hlive
  cases hlive

theorem Inv.step (h : c.Inv) {l : Step} (hl : c.Clean l) : (c.step l).Inv := by
  cases l with
  | subscribe ch =>
    by_cases hch : ch ∈ c.subs
    · rw [PerplexWs.step, subscribe, dif_pos hch]
      exact h
    · obtain ⟨subs, hnd, hs, hstep⟩ := subscribe_spec hch
      rw [hstep]
      exact h.send hs hnd (hl hch)
  | unsubscribe ch =>
    by_cases hch : ch ∈ c.subs
    · obtain ⟨subs, hnd, hs, hstep⟩ := unsubscribe_spec hch
      rw [hstep]
      exact h.send hs hnd (hl hch)
    · rw [PerplexWs.step, unsubscribe, if_neg hch]
      exact h
  | opened i => exact h.opened hl
  | _ => exact h.of_quiet (quiet_step (by simp) (by simp) (by simp))

/-- A step after which the server is right is clean. -/
theorem clean_of_exact (h : c.Inv) {l : Step} (he : (c.step l).Exact) : c.Clean l := by
  cases l with
  | subscribe ch =>
    intro hch
    obtain ⟨subs, hnd, hs, hstep⟩ := subscribe_spec hch
    rw [hstep] at he
    exact attended_of_exact h hs hnd he
  | unsubscribe ch =>
    intro hch
    obtain ⟨subs, hnd, hs, hstep⟩ := unsubscribe_spec hch
    rw [hstep] at he
    exact attended_of_exact h hs hnd he
  | opened i => exact fun hi => replayable_of_exact h hi he
  | _ => trivial

theorem inv_new (token : Option String) (max : Option ℕ) : (new token max).Inv :=
  ⟨fun _ => .nil _,fun _ => rfl,fun _ hi => by cases hi⟩

theorem run_append (c : PerplexWs) (ls : List Step) (l : Step) :
    c.run (ls++[l]) = (c.run ls).step l := by
  simp [run]

/-- The server is right all along exactly when every step is clean. -/
theorem exact_iff (h : c.Inv) (ls : List Step) :
    (∀ pre, pre <+: ls → (c.run pre).Exact) ↔
      ∀ pre l, pre++[l] <+: ls → (c.run pre).Clean l := by
  apply forall_prefix_iff (P := fun pre => (c.run pre).Inv) h fun _ hpre => hpre.exact
  intro pre l _ hpre
  rw [run_append]
  exact ⟨⟨clean_of_exact hpre,fun hl => (hpre.step hl).exact⟩,
    fun he => hpre.step (clean_of_exact hpre he)⟩

/-- Calls that replace the socket or connect again. -/
def plain : Step → Bool
  | .connect _ | .setToken _ _ | .close => false
  | _ => true

/-- A socket that is not closed is the current one, and there is none while a timer is
pending. -/
structure Steady (c : PerplexWs) : Prop where
  current : ∀ i, c.sockets.ready i ≠ .CLOSED → c.ws = some i
  timer : c.reconnectTimer.isSome → c.ws = none

theorem Steady.attended (h : c.Steady) : c.Attended :=
  fun i hi => h.current i (by simp [hi])

theorem Steady.of_le (h : c.Steady) (hws : c'.ws = c.ws)
    (htimer : c'.reconnectTimer = c.reconnectTimer)
    (hready : ∀ i, c'.sockets.ready i ≠ .CLOSED → c.sockets.ready i ≠ .CLOSED) : c'.Steady where
  current i hi := hws.trans (h.current i (hready i hi))
  timer ht := hws.trans (h.timer (htimer ▸ ht))

theorem Steady.scheduleReconnect (h : c.Steady) (hws : c.ws = none) :
    c.scheduleReconnect.Steady := by
  unfold PerplexWs.scheduleReconnect
  split_ifs
  · exact h
  · exact h
  · exact ⟨h.current,fun _ => hws⟩

/-- A client without a current socket connects. -/
theorem Steady.connect (h : c.Steady) (hws : c.ws = none) (htimer : c.reconnectTimer = none)
    (ok : Bool) : (c.connect ok).Steady := by
  have hnone (r : ReadyState) : c.wsIs r = false := by simp [wsIs, hws]
  rw [PerplexWs.connect, if_neg (by simp [hnone])]
  split_ifs
  · refine ⟨?_,fun ht => ?_⟩
    · intro i hi
      by_cases hcount : i = c.sockets.count
      · rw [hcount]
      · have hready : c.sockets.ready i ≠ .CLOSED := by simpa [Sockets.create, hcount] using hi
        cases hws.symm.trans (h.current i hready)
    · simp [htimer] at ht
  · exact h.scheduleReconnect hws

/-- The current socket closes. -/
theorem Steady.onclose (h : c.Steady) (hi : c.sockets.ready i ≠ .CLOSED) (code : ℕ) :
    ({ c with sockets := c.sockets.closed i }.onclose code).Steady := by
  have hdrop : ({ c with ws := none, sockets := c.sockets.closed i } : PerplexWs).Steady := by
    refine ⟨?_,fun _ => rfl⟩
    intro j hj
    obtain ⟨hne, hj⟩ := Sockets.ready_closed_ne hj
    exact absurd (Option.some.inj ((h.current j hj).symm.trans (h.current i hi))) hne
  unfold PerplexWs.onclose
  dsimp only
  split_ifs
  · exact hdrop.of_le rfl rfl fun _ hj => hj
  · exact hdrop
  · exact hdrop.scheduleReconnect rfl

theorem Steady.send (h : c.Steady) (msg : WsOutbound) : (c.send msg).Steady := by
  unfold PerplexWs.send
  split <;> exact h.of_le rfl rfl fun _ hj => hj

theorem Steady.close (h : c.Steady) (i : ℕ) :
    ({ c with sockets := c.sockets.close i } : PerplexWs).Steady :=
  h.of_le rfl rfl fun _ hj hc => hj (Sockets.ready_close_of_closed hc)

theorem Steady.step (h : c.Steady) {l : Step} (hl : plain l) : (c.step l).Steady := by
  cases l with
  | connect ok => cases hl
  | subscribe ch =>
    rw [PerplexWs.step, subscribe]
    split_ifs
    · exact h
    · apply Steady.send
      exact h.of_le rfl rfl fun _ hj => hj
  | unsubscribe ch =>
    rw [PerplexWs.step, unsubscribe]
    split_ifs
    · apply Steady.send
      exact h.of_le rfl rfl fun _ hj => hj
    · exact h
  | setToken token ok => cases hl
  | close => cases hl
  | timer ok =>
    rw [PerplexWs.step]
    split_ifs with ht
    · have hc : ({ c with reconnectTimer := none } : PerplexWs).Steady :=
        ⟨h.current,fun _ => h.timer ht⟩
      exact hc.connect (h.timer ht) rfl ok
    · exact h
  | opened i =>
    rw [PerplexWs.step]
    split_ifs
    · refine h.of_le rfl rfl fun j hj hc => hj ?_
      rw [onopen, Sockets.ready_sendAll]
      exact Sockets.ready_opened_of_closed hc
    · exact h
  | ping i => exact h.of_le rfl rfl fun _ hj => hj
  | errored i => exact h.close i
  | closing i => exact h.close i
  | closed i code =>
    rw [PerplexWs.step]
    split_ifs with hi
    · exact h
    · exact h.onclose hi code

/-- What plain steps keep is kept by plain runs. -/
theorem run_of_plain {P : PerplexWs → Prop} (hstep : ∀ c l, P c → plain l → P (c.step l))
    (h : P c) {ls : List Step} (hls : ∀ l ∈ ls, plain l) : P (c.run ls) := by
  unfold PerplexWs.run
  apply foldl_invariant (R := fun _ l => plain l) hstep h
  intro pre l hpre
  exact hls l (hpre.subset (List.mem_append_right _ List.mem_cons_self))

/-- A client that has not connected yet. -/
structure Unconnected (c : PerplexWs) : Prop where
  inv : c.Inv
  steady : c.Steady
  ws : c.ws = none
  timer : c.reconnectTimer = none

theorem unconnected_new (token : Option String) (max : Option ℕ) :
    (new token max).Unconnected where
  inv := inv_new token max
  steady := ⟨fun _ hi => absurd rfl hi,fun _ => rfl⟩
  ws := rfl
  timer := rfl

theorem ws_send (msg : WsOutbound) : (c.send msg).ws = c.ws := by
  unfold send
  split <;> rfl

theorem reconnectTimer_send (msg : WsOutbound) :
    (c.send msg).reconnectTimer = c.reconnectTimer := by
  unfold send
  split <;> rfl

theorem Unconnected.closed (h : c.Unconnected) (i : ℕ) : c.sockets.ready i = .CLOSED := by
  by_contra hi
  cases h.ws.symm.trans (h.steady.current i hi)

/-- Its channels may change, and nothing else happens to it. -/
theorem Unconnected.keep (h : c.Unconnected) {l : Step} (hl : plain l) :
    (c.step l).ws = none ∧ (c.step l).reconnectTimer = none := by
  have hkeep : c.ws = none ∧ c.reconnectTimer = none := ⟨h.ws,h.timer⟩
  cases l with
  | connect ok => cases hl
  | subscribe ch =>
    rw [PerplexWs.step, subscribe]
    split_ifs
    · exact hkeep
    · rw [ws_send, reconnectTimer_send]
      exact hkeep
  | unsubscribe ch =>
    rw [PerplexWs.step, unsubscribe]
    split_ifs
    · rw [ws_send, reconnectTimer_send]
      exact hkeep
    · exact hkeep
  | setToken token ok => cases hl
  | close => cases hl
  | timer ok =>
    rw [PerplexWs.step, if_neg (by simp [h.timer])]
    exact hkeep
  | opened i =>
    rw [PerplexWs.step, if_neg (by simp [opens, h.closed i])]
    exact hkeep
  | closed i code =>
    rw [PerplexWs.step, if_pos (h.closed i)]
    exact hkeep
  | _ => exact hkeep

theorem Unconnected.step (h : c.Unconnected) {l : Step} (hl : plain l) :
    (c.step l).Unconnected where
  inv := by
    apply h.inv.step
    cases l with
    | opened i => exact fun hi => absurd ((h.closed i).symm.trans hi) (by decide)
    | subscribe ch => exact fun _ => h.steady.attended
    | unsubscribe ch => exact fun _ => h.steady.attended
    | _ => trivial
  steady := h.steady.step hl
  ws := (h.keep hl).1
  timer := (h.keep hl).2

/-- A client that connects once: on every open socket the server has one subscription to each
channel in `subs` and none to any other, all along the run, exactly when no socket opens while a
channel in `subs` has its subscribe frame first in the queue. -/
theorem resubscribes_iff (token : Option String) (max : Option ℕ) {calls : List Step}
    (hcalls : ∀ l ∈ calls, plain l) (ok : Bool) {ls : List Step} (hls : ∀ l ∈ ls, plain l) :
    let c := ((new token max).run calls).connect ok
    (∀ pre, pre <+: ls → (c.run pre).Exact) ↔
      ∀ pre i, pre++[.opened i] <+: ls → (c.run pre).sockets.ready i = .CONNECTING →
        (c.run pre).Replayable := by
  intro c
  have hstart : ((new token max).run calls).Unconnected :=
    run_of_plain (fun _ _ hc hl => hc.step hl) (unconnected_new token max) hcalls
  have hinv : c.Inv := hstart.inv.of_quiet (quiet_connect _ ok)
  have hsteady : c.Steady := hstart.steady.connect hstart.ws hstart.timer ok
  rw [exact_iff hinv]
  -- of the two conditions on steps, one always holds here
  constructor
  · intro h pre i hpre
    exact h pre (.opened i) hpre
  · intro h pre l hpre
    have hpre' : (c.run pre).Steady :=
      run_of_plain (fun _ _ hc hl => hc.step hl) hsteady
        fun l hl => hls l (hpre.subset (List.mem_append_left _ hl))
    have hattended := hpre'.attended
    cases l with
    | subscribe ch => exact fun _ => hattended
    | unsubscribe ch => exact fun _ => hattended
    | opened i => exact h pre i hpre
    | _ => trivial

/-- A channel subscribed to before a reconnect is replayed once. -/
def reconnected : List Step :=
  [.opened 0,.subscribe "trades.btc-usd",.closed 0 1006,.timer true,.opened 1]

theorem resubscribes_iff_reconnected : (∀ l ∈ reconnected, plain l) ∧
    ∀ pre, pre <+: reconnected → (((new none none).connect true).run pre).Exact := by
  have hplain : ∀ l ∈ reconnected, plain l := by decide
  have hall : ∀ pre ∈ reconnected.inits,
      (((new none none).connect true).run pre).Replayable := by
    unfold Replayable
    decide +kernel
  refine ⟨hplain,(resubscribes_iff none none (List.forall_mem_nil _) true hplain).mpr ?_⟩
  intro pre i hpre _
  exact hall pre ((List.mem_inits _ _).mpr ((List.prefix_append _ _).trans hpre))

/-- A channel subscribed to while the socket is connecting is replayed, and flushed as well. -/
def doubled : List Step := [.subscribe "trades.btc-usd",.opened 0]

theorem not_exact_doubled :
    (∀ l ∈ doubled, plain l) ∧ ¬(((new none none).connect true).run doubled).Exact := by
  refine ⟨by decide,?_⟩
  intro h
  have hlive := h 0 (by decide +kernel) "trades.btc-usd"
  exact absurd hlive (by decide +kernel)

end PerplexWs

end Perplex.Web
