import Perplex.Checked
import Perplex.Sockets
import Perplex.WsFrames

/-! The WebSocket client of the SDK. It connects when it is told to, and again some time after a
socket has closed, unless it was closed itself. A close event may be late: the client may have
let go of the socket by then, and have another one. -/
namespace Perplex.Sdk

/-- The channels have listeners of any kind. The promises of `authenticate` are kept by what they
wait for: a socket to open, or an answer to the token. -/
structure PerplexWs (ℓ : Type) where
  reconnect : Bool
  ws : Option ℕ
  subs : List (String × List ℓ)
  jwt : Option String
  backoffMs : ℕ
  destroyed : Bool
  /-- An authentication waits for its answer. -/
  authPromise : Bool
  /-- The sockets with an `onMsg` of an authentication. -/
  onMsg : List ℕ
  /-- The calls of `authenticate` that wait for a socket, with their tokens. -/
  waiting : List (ℕ × String)
  /-- The pending reconnect timers, by their delays. -/
  timers : List ℕ
  sockets : Sockets WsOutbound

namespace PerplexWs
variable {ℓ : Type}

def new (jwt : Option String) (reconnect : Bool) : PerplexWs ℓ :=
  ⟨reconnect,none,[],jwt,500,false,false,[],[],[],Sockets.new⟩

def connect (c : PerplexWs ℓ) : PerplexWs ℓ :=
  match c.ws with
  | some _ => c
  | none =>
    { c with destroyed := false, ws := some c.sockets.count, sockets := c.sockets.create }

def close (c : PerplexWs ℓ) : PerplexWs ℓ :=
  { c with
    destroyed := true
    subs := []
    sockets := c.ws.elim c.sockets c.sockets.close
    ws := none }

/-- `this.ws` is there and open. -/
def isOpen (c : PerplexWs ℓ) : Bool := c.ws.any (c.sockets.ready · = .OPEN)

/-- What is sent while the socket is not open is dropped. -/
def send (c : PerplexWs ℓ) (msg : WsOutbound) : PerplexWs ℓ :=
  match c.ws with
  | some i => { c with sockets := c.sockets.send i msg }
  | none => c

def subscribe [DecidableEq ℓ] (c : PerplexWs ℓ) (channel : String) (listener : ℓ) :
    PerplexWs ℓ :=
  match c.subs.lookup channel with
  | none => send { c with subs := c.subs++[(channel,[listener])] } (.subscribe channel)
  | some _ =>
    { c with subs := c.subs.map fun sub =>
        if sub.1 = channel ∧ listener ∉ sub.2 then (channel,sub.2++[listener]) else sub }

def unsubscribe [DecidableEq ℓ] (c : PerplexWs ℓ) (channel : String) (listener : ℓ) :
    PerplexWs ℓ :=
  match c.subs.lookup channel with
  | none => c
  | some listeners =>
    let listeners := listeners.filter (· ≠ listener)
    if listeners = [] then
      send { c with subs := c.subs.filter (·.1 ≠ channel) } (.unsubscribe channel)
    else
      { c with subs := c.subs.map fun sub =>
          if sub.1 = channel then (channel,listeners) else sub }

/-- The rest of `authenticate` once a socket is open: the token is sent, unless an authentication
is waiting for its answer. -/
def sendToken (c : PerplexWs ℓ) (jwt : String) : PerplexWs ℓ :=
  if c.authPromise then c
  else send { c with authPromise := true, onMsg := c.onMsg++c.ws.toList } (.auth jwt)

def waitForOpen (c : PerplexWs ℓ) (jwt : String) : PerplexWs ℓ :=
  if c.isOpen then c.sendToken jwt
  else { c with waiting := c.waiting++c.ws.toList.map (·,jwt) }

def authenticate (c : PerplexWs ℓ) (jwt : String) : PerplexWs ℓ :=
  let c := { c with jwt := some jwt }
  if c.isOpen then c.sendToken jwt else c.connect.waitForOpen jwt

/-- An empty token is none. -/
def onOpen (c : PerplexWs ℓ) : PerplexWs ℓ :=
  let token := ((c.jwt.filter (· ≠ "")).map WsOutbound.auth).toList
  (token++c.subs.map fun sub => WsOutbound.subscribe sub.1).foldl send { c with backoffMs := 500 }

def onMessage (c : PerplexWs ℓ) (type : String) : PerplexWs ℓ :=
  if type = "ping" then c.send .pong else c

def onClose (c : PerplexWs ℓ) : PerplexWs ℓ :=
  let c := { c with ws := none }
  if c.destroyed || !c.reconnect then c
  else
    { c with
      backoffMs := min (c.backoffMs*2) 10000
      timers := c.timers++[c.backoffMs] }

end PerplexWs

inductive Step (ℓ : Type) where
  /-- Calls. -/
  | setJwt (jwt : Option String)
  | connect
  | close
  | subscribe (channel : String) (listener : ℓ)
  | unsubscribe (channel : String) (listener : ℓ)
  | authenticate (jwt : String)
  /-- Events of a socket. -/
  | opened (i : ℕ)
  | message (i : ℕ) (type : String)
  | closed (i : ℕ)
  /-- The server starts to close. -/
  | closing (i : ℕ)
  /-- One of the pending timers fires. -/
  | timer (k : ℕ)
deriving DecidableEq

namespace PerplexWs
variable {ℓ : Type}

/-- The calls of `authenticate` that wait for the socket go on. -/
def resume (c : PerplexWs ℓ) (i : ℕ) : PerplexWs ℓ :=
  ((c.waiting.filter (·.1 = i)).map (·.2)).foldl sendToken
    { c with waiting := c.waiting.filter (·.1 ≠ i) }

/-- The open event; it may be late, with the socket being closed. -/
def opened (c : PerplexWs ℓ) (i : ℕ) : PerplexWs ℓ :=
  ({ c with sockets := c.sockets.opened i }.onOpen).resume i

/-- A message that parses. The answer to a token is for every `onMsg` of the socket, which is
removed from the current one. What listeners do are calls of their own. -/
def message (c : PerplexWs ℓ) (i : ℕ) (type : String) : PerplexWs ℓ :=
  let c := c.onMessage type
  if (type = "auth" ∨ type = "error") ∧ i ∈ c.onMsg then
    { c with
      authPromise := false
      onMsg := if c.ws = some i then c.onMsg.filter (· ≠ i) else c.onMsg }
  else c

def step [DecidableEq ℓ] (c : PerplexWs ℓ) : Step ℓ → PerplexWs ℓ
  | .setJwt jwt => { c with jwt }
  | .connect => c.connect
  | .close => c.close
  | .subscribe channel listener => c.subscribe channel listener
  | .unsubscribe channel listener => c.unsubscribe channel listener
  | .authenticate jwt => c.authenticate jwt
  | .opened i =>
    if c.sockets.ready i = .CONNECTING ∨ c.sockets.ready i = .CLOSING then c.opened i else c
  | .message i type =>
    if c.sockets.ready i = .OPEN ∨ c.sockets.ready i = .CLOSING then c.message i type else c
  | .closed i =>
    if c.sockets.ready i = .CLOSED then c
    else { c with sockets := c.sockets.closed i }.onClose
  | .closing i => { c with sockets := c.sockets.close i }
  | .timer k =>
    if k < c.timers.length then { c with timers := c.timers.eraseIdx k }.connect else c

def run [DecidableEq ℓ] (c : PerplexWs ℓ) (ls : List (Step ℓ)) : PerplexWs ℓ := ls.foldl step c

/-- The current socket stays, none is created and none comes to life. -/
structure Still (c c' : PerplexWs ℓ) : Prop where
  ws : c'.ws = c.ws
  count : c'.sockets.count = c.sockets.count
  live : ∀ i, c'.sockets.live i → c.sockets.live i

variable {c c' : PerplexWs ℓ}

theorem Still.of_eq (hws : c'.ws = c.ws) (hsockets : c'.sockets = c.sockets) : Still c c' :=
  ⟨hws,by rw [hsockets],fun i hi => hsockets ▸ hi⟩

theorem Still.refl (c : PerplexWs ℓ) : Still c c := .of_eq rfl rfl

theorem Still.trans {c'' : PerplexWs ℓ} (h : Still c c') (h' : Still c' c'') : Still c c'' :=
  ⟨h'.ws.trans h.ws,h'.count.trans h.count,fun i hi => h.live i (h'.live i hi)⟩

theorem still_send (c : PerplexWs ℓ) (msg : WsOutbound) : Still c (c.send msg) := by
  unfold send
  split
  · exact ⟨rfl,rfl,fun _ hi => hi⟩
  · exact .refl c

theorem still_foldl {α : Type} {f : PerplexWs ℓ → α → PerplexWs ℓ} (hf : ∀ c a, Still c (f c a))
    (c : PerplexWs ℓ) (as : List α) : Still c (as.foldl f c) := by
  induction as generalizing c with
  | nil => exact .refl c
  | cons a as ih => exact (hf c a).trans (ih _)

theorem still_sendToken (c : PerplexWs ℓ) (jwt : String) : Still c (c.sendToken jwt) := by
  unfold sendToken
  split_ifs
  · exact .refl c
  · have h := still_send { c with authPromise := true, onMsg := c.onMsg++c.ws.toList } (.auth jwt)
    exact ⟨h.ws,h.count,h.live⟩

theorem still_waitForOpen (c : PerplexWs ℓ) (jwt : String) : Still c (c.waitForOpen jwt) := by
  unfold waitForOpen
  split_ifs
  · exact still_sendToken c jwt
  · exact .of_eq rfl rfl

theorem still_onOpen (c : PerplexWs ℓ) : Still c c.onOpen := by
  unfold onOpen
  dsimp only
  have h := still_foldl still_send { c with backoffMs := 500 }
    (((c.jwt.filter (· ≠ "")).map WsOutbound.auth).toList++
      c.subs.map fun sub => WsOutbound.subscribe sub.1)
  exact ⟨h.ws,h.count,h.live⟩

theorem still_resume (c : PerplexWs ℓ) (i : ℕ) : Still c (c.resume i) := by
  have h := still_foldl still_sendToken { c with waiting := c.waiting.filter (·.1 ≠ i) }
    ((c.waiting.filter (·.1 = i)).map (·.2))
  exact ⟨h.ws,h.count,h.live⟩

theorem still_opened (c : PerplexWs ℓ) (i : ℕ) : Still c (c.opened i) := by
  have hopen : Still c { c with sockets := c.sockets.opened i } :=
    ⟨rfl,Sockets.count_opened,fun _ hj => Sockets.live_opened.mp hj⟩
  exact (hopen.trans (still_onOpen _)).trans (still_resume _ i)

theorem still_message (c : PerplexWs ℓ) (i : ℕ) (type : String) :
    Still c (c.message i type) := by
  have h : Still c (c.onMessage type) := by
    unfold onMessage
    split_ifs
    · exact still_send c _
    · exact .refl c
  unfold message
  dsimp only
  split_ifs
  · exact h.trans (.of_eq rfl rfl)
  · exact h.trans (.of_eq rfl rfl)
  · exact h

theorem ws_onClose (c : PerplexWs ℓ) : c.onClose.ws = none := by
  unfold onClose
  dsimp only
  split_ifs <;> rfl

theorem sockets_onClose (c : PerplexWs ℓ) : c.onClose.sockets = c.sockets := by
  unfold onClose
  dsimp only
  split_ifs <;> rfl

/-- A step keeps the current socket, creates one when there is none, or lets go of it. -/
inductive Effect (c : PerplexWs ℓ) : Step ℓ → PerplexWs ℓ → Prop where
  | still {l : Step ℓ} {c' : PerplexWs ℓ} (hl : l ≠ .close) (h : Still c c') : Effect c l c'
  | created {l : Step ℓ} {c' : PerplexWs ℓ}
      (hl : l = .connect ∨ (∃ jwt, l = .authenticate jwt) ∨ ∃ k, l = .timer k ∧ k < c.timers.length)
      (hws : c.ws = none) (hnew : c'.ws = some c.sockets.count)
      (hcount : c'.sockets.count = c.sockets.count+1)
      (hlive : ∀ j, c'.sockets.live j → j = c.sockets.count ∨ c.sockets.live j) : Effect c l c'
  | shut {c' : PerplexWs ℓ} (hws : c'.ws = none) (hcount : c'.sockets.count = c.sockets.count)
      (hlive : ∀ j, c'.sockets.live j → c.ws ≠ some j ∧ c.sockets.live j) : Effect c .close c'
  | lost {i : ℕ} {c' : PerplexWs ℓ} (hi : c.sockets.ready i ≠ .CLOSED) (hws : c'.ws = none)
      (hcount : c'.sockets.count = c.sockets.count)
      (hlive : ∀ j, c'.sockets.live j ↔ j ≠ i ∧ c.sockets.live j) : Effect c (.closed i) c'

theorem connect_of_none (hws : c.ws = none) :
    c.connect = { c with
      destroyed := false
      ws := some c.sockets.count
      sockets := c.sockets.create } := by
  simp [connect, hws]

theorem effect_connect {c₀ : PerplexWs ℓ} {l : Step ℓ} (hws : c₀.ws = c.ws)
    (hsockets : c₀.sockets = c.sockets) (hl : l ≠ .close)
    (hnew : l = .connect ∨ (∃ jwt, l = .authenticate jwt) ∨
      ∃ k, l = .timer k ∧ k < c.timers.length) : Effect c l c₀.connect := by
  unfold connect
  cases hcur : c₀.ws with
  | some i => exact .still hl (.of_eq hws hsockets)
  | none =>
    refine .created hnew (hws.symm.trans hcur) ?_ ?_ ?_
    · rw [hsockets]
    · exact congrArg (·.count+1) hsockets
    · intro j hj
      rw [← hsockets]
      exact Sockets.live_create.mp hj

/-- What comes after a step that lets no socket go, and leaves the sockets alone. -/
theorem Effect.trans_still {l : Step ℓ} {c'' : PerplexWs ℓ} (h : Effect c l c')
    (h' : Still c' c'') (hclose : l ≠ .close) (hclosed : ∀ i, l ≠ .closed i) : Effect c l c'' := by
  cases h with
  | still hl h => exact .still hl (h.trans h')
  | created hl hws hnew hcount hlive =>
    exact .created hl hws (h'.ws.trans hnew) (h'.count.trans hcount)
      fun j hj => hlive j (h'.live j hj)
  | shut => exact absurd rfl hclose
  | lost => exact absurd rfl (hclosed _)

theorem effect_close (c : PerplexWs ℓ) : Effect c .close c.close := by
  refine .shut rfl ?_ ?_
  · unfold close
    cases c.ws with
    | none => rfl
    | some i => exact Sockets.count_close
  · intro j hj
    unfold close at hj
    cases hws : c.ws with
    | none =>
      simp only [hws, Option.elim_none] at hj
      exact ⟨by simp,hj⟩
    | some i =>
      simp only [hws, Option.elim_some] at hj
      obtain ⟨hne, hj⟩ := Sockets.live_close.mp hj
      exact ⟨fun h => hne (Option.some.inj h).symm,hj⟩

theorem effect_authenticate (c : PerplexWs ℓ) (jwt : String) :
    Effect c (.authenticate jwt) (c.authenticate jwt) := by
  unfold authenticate
  dsimp only
  split_ifs
  · have h : Still c { c with jwt := some jwt } := .of_eq rfl rfl
    exact .still (by simp) (h.trans (still_sendToken _ jwt))
  · have h : Effect c (.authenticate jwt) (connect { c with jwt := some jwt }) :=
      effect_connect rfl rfl (by simp) (.inr (.inl ⟨jwt,rfl⟩))
    exact h.trans_still (still_waitForOpen _ jwt) (by simp) (by simp)

variable [DecidableEq ℓ]

theorem still_subscribe (c : PerplexWs ℓ) (channel : String) (listener : ℓ) :
    Still c (c.subscribe channel listener) := by
  unfold subscribe
  split
  · have h := still_send { c with subs := c.subs++[(channel,[listener])] } (.subscribe channel)
    exact ⟨h.ws,h.count,h.live⟩
  · exact .of_eq rfl rfl

theorem still_unsubscribe (c : PerplexWs ℓ) (channel : String) (listener : ℓ) :
    Still c (c.unsubscribe channel listener) := by
  unfold unsubscribe
  split
  · exact .refl c
  · dsimp only
    split_ifs
    · have h := still_send { c with subs := c.subs.filter (·.1 ≠ channel) } (.unsubscribe channel)
      exact ⟨h.ws,h.count,h.live⟩
    · exact .of_eq rfl rfl

theorem effect_step (c : PerplexWs ℓ) (l : Step ℓ) : Effect c l (c.step l) := by
  cases l with
  | setJwt jwt => exact .still (by simp) (.of_eq rfl rfl)
  | connect => exact effect_connect rfl rfl (by simp) (.inl rfl)
  | close => exact effect_close c
  | subscribe channel listener => exact .still (by simp) (still_subscribe c channel listener)
  | unsubscribe channel listener => exact .still (by simp) (still_unsubscribe c channel listener)
  | authenticate jwt => exact effect_authenticate c jwt
  | opened i =>
    rw [step]
    split_ifs
    · exact .still (by simp) (still_opened c i)
    · exact .still (by simp) (.refl c)
  | message i type =>
    rw [step]
    split_ifs
    · exact .still (by simp) (still_message c i type)
    · exact .still (by simp) (.refl c)
  | closed i =>
    rw [step]
    split_ifs with hi
    · exact .still (by simp) (.refl c)
    · refine .lost hi (ws_onClose _) ?_ ?_
      · rw [sockets_onClose]
        rfl
      · intro j
        rw [sockets_onClose]
        exact Sockets.live_closed
  | closing i =>
    exact .still (by simp) ⟨rfl,Sockets.count_close,fun j hj => (Sockets.live_close.mp hj).2⟩
  | timer k =>
    rw [step]
    split_ifs with hk
    · have hws : ({ c with timers := c.timers.eraseIdx k } : PerplexWs ℓ).ws = c.ws := rfl
      exact effect_connect hws rfl (by simp) (.inr (.inr ⟨k,rfl,hk⟩))
    · exact .still (by simp) (.refl c)

end PerplexWs

variable {ℓ : Type}

/-- Whether the client is shut by its last call of `close`, `connect` or `authenticate`. -/
def Step.shuts (b : Bool) : Step ℓ → Bool
  | .close => true
  | .connect | .authenticate _ => false
  | _ => b

def shut (ls : List (Step ℓ)) : Bool := ls.foldl Step.shuts false

theorem Step.of_shuts {l : Step ℓ} {b : Bool} (hl : l ≠ .close) (h : l.shuts b) : b := by
  cases l with
  | close => exact absurd rfl hl
  | connect => cases h
  | authenticate jwt => cases h
  | _ => exact h

theorem shut_append (ls : List (Step ℓ)) (l : Step ℓ) : shut (ls++[l]) = l.shuts (shut ls) := by
  simp [shut]

namespace PerplexWs
variable {c c' : PerplexWs ℓ} {l : Step ℓ} {b : Bool}

/-- No socket closes while another one is current and live, and no timer fires while the client
is shut. -/
def Clean (c : PerplexWs ℓ) (b : Bool) : Step ℓ → Prop
  | .closed i => c.sockets.ready i ≠ .CLOSED → ∀ j ∈ c.ws, c.sockets.live j → j = i
  | .timer k => b → c.timers.length ≤ k
  | _ => True

theorem clean_connect (c : PerplexWs ℓ) (b : Bool) : c.Clean b .connect := trivial

/-- Only the current socket is live, and there is none while the client is shut. -/
structure Inv (c : PerplexWs ℓ) (b : Bool) : Prop where
  sole : c.sockets.Sole c.ws
  shut : b → c.ws = none

theorem inv_new (jwt : Option String) (reconnect : Bool) :
    (new jwt reconnect : PerplexWs ℓ).Inv false :=
  ⟨Sockets.sole_new _,fun _ => rfl⟩

/-- A step that creates a socket opens the client again, or was not meant to be taken. -/
theorem Clean.not_shuts (hl : c.Clean b l)
    (hnew : l = .connect ∨ (∃ jwt, l = .authenticate jwt) ∨
      ∃ k, l = .timer k ∧ k < c.timers.length) : ¬l.shuts b := by
  rcases hnew with rfl | ⟨jwt, rfl⟩ | ⟨k, rfl, hk⟩
  · exact Bool.false_ne_true
  · exact Bool.false_ne_true
  · intro hb
    have hlength := hl hb
    omega

theorem Inv.of_effect (h : c.Inv b) (hl : c.Clean b l) (he : Effect c l c') :
    c'.Inv (l.shuts b) ∧ (l.shuts b → c'.sockets.count = c.sockets.count) := by
  cases he with
  | still hclose hs =>
    refine ⟨⟨?_,fun hb => hs.ws.trans (h.shut (Step.of_shuts hclose hb))⟩,fun _ => hs.count⟩
    rw [hs.ws]
    exact h.sole.mono hs.live
  | created hnew hws hcur hcount hlive =>
    have hopen := hl.not_shuts hnew
    refine ⟨⟨?_,fun hb => absurd hb hopen⟩,fun hb => absurd hb hopen⟩
    have hsole := h.sole
    rw [hws] at hsole
    rw [hcur]
    exact hsole.created hlive
  | shut hws hcount hlive =>
    refine ⟨⟨?_,fun _ => hws⟩,fun _ => hcount⟩
    rw [hws]
    exact h.sole.dropped hlive
  | lost hi hws hcount hlive =>
    refine ⟨⟨?_,fun _ => hws⟩,fun _ => hcount⟩
    rw [hws]
    refine h.sole.dropped fun j hj => ?_
    -- a current socket that is live is the one that closed
    obtain ⟨hne, hj⟩ := (hlive j).mp hj
    exact ⟨fun hcur => hne (hl hi j hcur hj),hj⟩

variable [DecidableEq ℓ] {ls : List (Step ℓ)}

def Guarded (c : PerplexWs ℓ) (ls : List (Step ℓ)) : Prop :=
  ∀ pre l, pre++[l] <+: ls → (c.run pre).Clean (shut pre) l

/-- At most one socket is live at any time, and while the client is shut none is created. -/
structure Proper (c : PerplexWs ℓ) (ls : List (Step ℓ)) : Prop where
  unique : ∀ pre, pre <+: ls → ∀ i j,
    (c.run pre).sockets.live i → (c.run pre).sockets.live j → i = j
  idle : ∀ pre l, pre++[l] <+: ls → shut (pre++[l]) →
    (c.run (pre++[l])).sockets.count = (c.run pre).sockets.count

theorem run_append (c : PerplexWs ℓ) (ls : List (Step ℓ)) (l : Step ℓ) :
    c.run (ls++[l]) = (c.run ls).step l := by
  simp [run]

theorem Proper.mono (h : c.Proper ls) {pre : List (Step ℓ)} (hpre : pre <+: ls) : c.Proper pre :=
  ⟨fun p hp => h.unique p (hp.trans hpre),fun p l hp => h.idle p l (hp.trans hpre)⟩

/-- A run stays as it should be by a step that does. -/
theorem Proper.snoc (h : c.Proper ls)
    (hunique : ∀ i j, ((c.run ls).step l).sockets.live i →
      ((c.run ls).step l).sockets.live j → i = j)
    (hidle : shut (ls++[l]) → ((c.run ls).step l).sockets.count = (c.run ls).sockets.count) :
    c.Proper (ls++[l]) := by
  constructor
  · intro pre hpre
    rcases List.prefix_concat_iff.mp hpre with rfl | hpre
    · rw [run_append]
      exact hunique
    · exact h.unique pre hpre
  · intro pre l' hpre
    rcases List.prefix_concat_iff.mp hpre with he | hpre
    · obtain ⟨rfl, hl⟩ := List.append_inj' he rfl
      obtain rfl := List.singleton_inj.mp hl
      rw [run_append]
      exact hidle
    · exact h.idle pre l' hpre

theorem Proper.step (h : c.Proper ls) (hinv : (c.run ls).Inv (shut ls))
    (hl : (c.run ls).Clean (shut ls) l) :
    c.Proper (ls++[l]) ∧ (c.run (ls++[l])).Inv (shut (ls++[l])) := by
  obtain ⟨hinv', hcount⟩ := hinv.of_effect hl (effect_step (c.run ls) l)
  rw [← shut_append] at hinv' hcount
  rw [run_append]
  exact ⟨h.snoc (fun i j => hinv'.sole.unique) hcount,hinv'⟩

/-- After a close event that takes the current socket for another one, `connect` makes a second
live socket. -/
theorem eq_of_unique {i j : ℕ} (hi : c.sockets.ready i ≠ .CLOSED) (hj : c.sockets.live j)
    (h : ∀ i' j', ((c.step (.closed i)).connect).sockets.live i' →
      ((c.step (.closed i)).connect).sockets.live j' → i' = j') : j = i := by
  by_contra hne
  have hstep : c.step (.closed i) = { c with sockets := c.sockets.closed i }.onClose := if_neg hi
  have hlive : (c.step (.closed i)).sockets.live j := by
    rw [hstep, sockets_onClose]
    exact Sockets.live_closed.mpr ⟨hne,hj⟩
  have hws : (c.step (.closed i)).ws = none := by rw [hstep, ws_onClose]
  rw [connect_of_none hws] at h
  have hcount := h _ j (Sockets.live_create.mpr (.inl rfl)) (Sockets.live_create.mpr (.inr hlive))
  exact Sockets.not_live_of_le hcount.le hlive

/-- A step that is not clean, with a call of `connect` after it, makes a second live socket or
creates one while the client is shut. -/
theorem clean_of_proper (hinv : (c.run ls).Inv (shut ls)) (h : c.Proper (ls++[l]++[.connect])) :
    (c.run ls).Clean (shut ls) l := by
  cases l with
  | closed i =>
    intro hi j _ hj
    have hunique := h.unique _ (List.prefix_refl _)
    rw [run_append, run_append] at hunique
    exact eq_of_unique hi hj hunique
  | timer k =>
    intro hb
    by_contra hk
    have hcount := h.idle ls (.timer k) (List.prefix_append _ _) (by rw [shut_append]; exact hb)
    have hws : ({ c.run ls with timers := (c.run ls).timers.eraseIdx k } : PerplexWs ℓ).ws = none :=
      hinv.shut hb
    rw [run_append, PerplexWs.step, if_pos (by omega), connect_of_none hws] at hcount
    exact absurd hcount (Nat.succ_ne_self _)
  | _ => trivial

theorem proper_nil (h : c.Inv false) : c.Proper [] := by
  constructor
  · intro pre hpre
    obtain rfl := List.prefix_nil.mp hpre
    exact fun i j => h.sole.unique
  · intro pre l hpre
    simp at hpre

/-- Guarded runs are the ones that `connect` does not spoil. -/
theorem guarded_iff (h : c.Inv false) (ls : List (Step ℓ)) :
    (∀ pre, pre <+: ls → c.Proper (pre++[.connect])) ↔ c.Guarded ls := by
  apply forall_prefix_iff
    (P := fun pre => (c.run pre).Inv (shut pre) ∧ c.Proper pre) ⟨h,proper_nil h⟩
  · intro pre hpre
    exact (hpre.2.step hpre.1 (clean_connect _ _)).1
  · intro pre l _ hpre
    have hstep (hl : (c.run pre).Clean (shut pre) l) :
        (c.run (pre++[l])).Inv (shut (pre++[l])) ∧ c.Proper (pre++[l]) :=
      (hpre.2.step hpre.1 hl).symm
    refine ⟨⟨clean_of_proper hpre.1,fun hl => ?_⟩,fun h => hstep (clean_of_proper hpre.1 h)⟩
    obtain ⟨hinv, hproper⟩ := hstep hl
    exact (hproper.step hinv (clean_connect _ _)).1

/-- In a guarded run at most one socket is live at any time, and none is created between `close`
and the next call of `connect` or `authenticate`. Where a run is not guarded, a call of `connect`
makes one of the two fail. -/
theorem proper_of_guarded (jwt : Option String) (reconnect : Bool) (ls : List (Step ℓ)) :
    ((new jwt reconnect).Guarded ls → (new jwt reconnect).Proper ls) ∧
      ((∀ pre, pre <+: ls → (new jwt reconnect).Proper (pre++[.connect])) ↔
        (new jwt reconnect).Guarded ls) := by
  have hiff := guarded_iff (inv_new jwt reconnect) ls
  exact ⟨fun h => (hiff.mpr h ls (List.prefix_refl _)).mono (List.prefix_append _ _),hiff⟩

/-- The client reconnects, and is closed for good. -/
def reconnected : List (Step ℕ) :=
  [.connect,.opened 0,.subscribe "trades.btc-usd" 0,.closed 0,.timer 0,.opened 1,.close,.closed 1]

theorem proper_of_guarded_reconnected : (new none true).Proper reconnected := by
  apply (proper_of_guarded none true reconnected).1
  unfold Guarded reconnected
  apply forall_request_cons
  · trivial
  apply forall_request_cons
  · trivial
  apply forall_request_cons
  · trivial
  apply forall_request_cons
  · unfold Clean
    decide +kernel
  apply forall_request_cons
  · intro hb
    exact absurd hb (by decide)
  apply forall_request_cons
  · trivial
  apply forall_request_cons
  · trivial
  apply forall_request_cons
  · unfold Clean
    decide +kernel
  exact forall_request_nil

/-- The close event of the first socket comes when the client has another one. -/
def replaced : List (Step ℕ) := [.connect,.opened 0,.close,.connect,.closed 0,.timer 0]

/-- The timer fires when the client is closed. -/
def resurrected : List (Step ℕ) := [.connect,.closed 0,.close,.timer 0]

theorem not_proper :
    ¬(new none true).Proper replaced ∧ ¬(new none true).Proper resurrected := by
  constructor
  · intro h
    have heq := h.unique replaced (List.prefix_refl _) 1 2 (by decide +kernel) (by decide +kernel)
    exact absurd heq (by decide)
  · intro h
    have hcount := h.idle [.connect,.closed 0,.close] (.timer 0) (List.prefix_refl _) rfl
    exact absurd hcount (by decide +kernel)

end PerplexWs

end Perplex.Sdk
