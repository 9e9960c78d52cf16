import Mathlib.Data.List.Basic
import Mathlib.Logic.Function.Basic
import Perplex.Checked

/-!
The WebSocket server: the hub that fans messages out to bounded mailboxes, and one connection
with its tasks. The receive loop handles the client's frames, a forwarder task for each
subscription moves messages from its mailbox to the connection's outgoing queue, and the sender
task writes that queue to the socket. Other connections are the environment: they subscribe,
unsubscribe, drain and drop mailboxes of their own. JWT verification and Unicode lower case are
parameters, payloads are of any type.
-/

namespace Perplex.Ws

inductive Topic where
  | orderbook (market : String)
  | trades (market : String)
  | oracle (market : String)
  | funding (market : String)
  | userFills (address : String)
  | userPositions (address : String)
deriving DecidableEq, Repr

/-- `strip_prefix`. -/
def stripPrefix (pat s : String) : Option String :=
  (pat.toList.isPrefixOf? s.toList).map String.ofList

def Topic.parse (s : String) : Option Topic :=
  match stripPrefix "orderbook." s, stripPrefix "trades." s, stripPrefix "oracle." s,
    stripPrefix "funding." s with
  | some rest, _, _, _ => some (.orderbook rest)
  | none, some rest, _, _ => some (.trades rest)
  | none, none, some rest, _ => some (.oracle rest)
  | none, none, none, some rest => some (.funding rest)
  | none, none, none, none =>
    if s = "user.fills" then some (.userFills "")
    else if s = "user.positions" then some (.userPositions "")
    else none

def Topic.requiresAuth : Topic → Bool
  | .userFills _ | .userPositions _ => true
  | _ => false

/-- The external functions: `verify_jwt`, for the subject of a valid token, and `to_lowercase`. -/
structure Env where
  verify : String → Option String
  lower : String → String

def Topic.withUser (env : Env) (address : String) : Topic → Topic
  | .userFills _ => .userFills (env.lower address)
  | .userPositions _ => .userPositions (env.lower address)
  | t => t

variable {β : Type}

structure Message (β : Type) where
  topic : Topic
  payload : β
deriving DecidableEq

/-- A queued message. What does not go on the wire: the address the connection was authenticated
as when the message was published. -/
structure Item (β : Type) where
  msg : Message β
  auth : Option String
deriving DecidableEq

/-- Maximum queued messages per subscriber. -/
def MAX_QUEUE : ℕ := 1000

/-- Capacity of the outgoing queue of a connection. -/
def OUT_QUEUE : ℕ := 2048

/-- The subscribers of each topic, and by subscriber the mailbox and whether its receiver has
been dropped. -/
structure Hub (β : Type) where
  subs : Topic → List ℕ
  next_id : ℕ
  boxes : ℕ → List (Item β)
  gone : ℕ → Bool

namespace Hub

def new : Hub β := ⟨fun _ => [],0,fun _ => [],fun _ => false⟩

/-- The new subscriber and the hub with it. -/
def subscribe (h : Hub β) (topic : Topic) : ℕ × Hub β :=
  (h.next_id,{ h with
    subs := Function.update h.subs topic (h.subs topic ++ [h.next_id])
    next_id := h.next_id+1
    boxes := Function.update h.boxes h.next_id []
    gone := Function.update h.gone h.next_id false })

def unsubscribe (h : Hub β) (topic : Topic) (id : ℕ) : Hub β :=
  { h with subs := Function.update h.subs topic ((h.subs topic).filter (· ≠ id)) }

/-- `try_send` succeeds: the receiver is there and its mailbox is not full. -/
def accepts (h : Hub β) (id : ℕ) : Bool := !h.gone id && (h.boxes id).length < MAX_QUEUE

/-- A message goes to every subscriber of its topic; the others are removed. -/
def publish (h : Hub β) (item : Item β) : ℕ × Hub β :=
  let list := (h.subs item.msg.topic).filter h.accepts
  (list.length,{ h with
    subs := Function.update h.subs item.msg.topic list
    boxes := fun id => if id ∈ list then h.boxes id ++ [item] else h.boxes id })

end Hub

/-- What the receive loop answers. -/
inductive Reply where
  | error (message : String)
  | authOk
  | pong (data : List UInt8)
deriving DecidableEq

/-- Frames to the client; a forwarded one is the payload of its message. -/
inductive Frame (β : Type) where
  | forward (id : ℕ) (item : Item β)
  | reply (r : Reply)
  | ping
  | close
deriving DecidableEq

structure Conn (β : Type) where
  address : Option String
  subscriptions : Topic → Option ℕ
  /-- The forwarder tasks by subscriber, with the topic each was created for. -/
  forwarders : ℕ → Option Topic
  /-- The message a forwarder has received and waits to queue. -/
  holding : ℕ → Option (Item β)
  out : List (Frame β)
  /-- The frame the sender has received and writes to the socket. -/
  writing : Option (Frame β)
  /-- A reply that the receive loop waits to queue. -/
  reply : Option Reply
  /-- The receive loop runs. -/
  receiving : Bool
  /-- The sender task runs. -/
  sending : Bool
  /-- What was written to the socket. -/
  sent : List (Frame β)

namespace Conn

def new : Conn β :=
  ⟨none,fun _ => none,fun _ => none,fun _ => none,[],none,none,true,true,[]⟩

/-- The subscriber was created by this connection. -/
def mine (c : Conn β) (id : ℕ) : Bool := (c.forwarders id).isSome

/-- The receive loop takes a frame when it runs and has no reply to queue. -/
def listens (c : Conn β) : Bool := c.receiving && c.reply.isNone

def answer (c : Conn β) (r : Reply) : Conn β := { c with reply := some r }

def handleAuth (env : Env) (c : Conn β) (token : String) : Conn β :=
  match env.verify token with
  | some sub => { c with address := some sub, reply := some .authOk }
  | none => c.answer (.error "invalid token")

/-- A frame is queued when the sender runs and the queue has room. -/
def room (c : Conn β) : Bool := c.sending && c.out.length < OUT_QUEUE

def enqueue (c : Conn β) (f : Frame β) : Conn β := { c with out := c.out ++ [f] }

/-- The receive loop queues its reply. -/
def queueReply (c : Conn β) : Conn β :=
  match c.reply with
  | none => c
  | some r =>
    if c.sending then
      if c.room then { c.enqueue (.reply r) with reply := none } else c
    -- the error of a send to a sender that is gone is ignored
    else { c with reply := none }

/-- The sender receives a frame, and writes it to the socket or ends. -/
def recv (c : Conn β) : Conn β :=
  match c.writing, c.out with
  | none, f :: rest => { c with out := rest, writing := some f }
  | _, _ => c

def send (c : Conn β) (ok : Bool) : Conn β :=
  match c.writing with
  | none => c
  | some f =>
    if ok then { c with writing := none, sent := c.sent ++ [f] }
    else { c with writing := none, out := [], sending := false }

end Conn

structure Sys (β : Type) where
  hub : Hub β
  conn : Conn β

def Sys.new : Sys β := ⟨Hub.new,Conn.new⟩

inductive Step (β : Type) where
  /-- Frames from the client, in the order in which the receive loop takes them. -/
  | subscribe (channel : String)
  | unsubscribe (channel : String)
  | auth (token : String)
  | ping (data : List UInt8)
  | badJson
  /-- The stream ends, with a close frame, an error or for good. -/
  | finish
  /-- The receive loop queues its reply. -/
  | queueReply
  /-- Somebody publishes a message. -/
  | publish (msg : Message β)
  /-- A forwarder receives a message, and queues it. -/
  | take (id : ℕ)
  | push (id : ℕ)
  /-- The sender receives a frame, and writes it to the socket or fails to. -/
  | recv
  | send (ok : Bool)
  /-- The heartbeat pings, or gives up. -/
  | beat
  | timeout
  /-- Other connections. -/
  | envSubscribe (topic : Topic)
  | envUnsubscribe (topic : Topic) (id : ℕ)
  | envTake (id : ℕ)
  | envDrop (id : ℕ)
deriving DecidableEq

namespace Sys

/-- The topic a channel stands for: a private one is bound to an address. -/
def bind (env : Env) (topic : Topic) (address : String) : Topic :=
  if topic.requiresAuth then topic.withUser env address else topic

def subscribeTopic (s : Sys β) (topic : Topic) : Sys β :=
  let (id,hub) := s.hub.subscribe topic
  { hub
    conn := { s.conn with
      subscriptions := Function.update s.conn.subscriptions topic (some id)
      forwarders := Function.update s.conn.forwarders id (some topic)
      holding := Function.update s.conn.holding id none } }

def unsubscribeTopic (s : Sys β) (topic : Topic) (id : ℕ) : Sys β where
  hub := s.hub.unsubscribe topic id
  conn := { s.conn with subscriptions := Function.update s.conn.subscriptions topic none }

def handleSubscribe (env : Env) (s : Sys β) (channel : String) : Sys β :=
  match Topic.parse channel with
  | none => { s with conn := s.conn.answer (.error "unknown channel") }
  | some topic =>
    if topic.requiresAuth then
      match s.conn.address with
      | some a => s.subscribeTopic (topic.withUser env a)
      | none => { s with conn := s.conn.answer (.error "auth required") }
    else s.subscribeTopic topic

def handleUnsubscribe (env : Env) (s : Sys β) (channel : String) : Sys β :=
  match Topic.parse channel with
  | none => s
  | some topic =>
    let topic := bind env topic (s.conn.address.getD "")
    match s.conn.subscriptions topic with
    | none => s
    | some id => s.unsubscribeTopic topic id

/-- The end of `handle_connection`: everything recorded is unsubscribed, and the tasks of the
connection are aborted, with the outgoing queue. -/
def finish (s : Sys β) : Sys β where
  hub := { s.hub with
    subs := fun t =>
      match s.conn.subscriptions t with
      | some id => (s.hub.subs t).filter (· ≠ id)
      | none => s.hub.subs t }
  conn := { s.conn with
    receiving := false
    sending := false
    out := []
    writing := none }

/-- A forwarder receives the next message of its mailbox. -/
def take (s : Sys β) (id : ℕ) : Sys β :=
  match s.conn.holding id, s.hub.boxes id with
  | none, item :: rest =>
    { hub := { s.hub with boxes := Function.update s.hub.boxes id rest }
      conn := { s.conn with holding := Function.update s.conn.holding id (some item) } }
  | _, _ => s

/-- It queues the message, or ends with its mailbox when the sender is gone. -/
def push (s : Sys β) (id : ℕ) : Sys β :=
  match s.conn.holding id with
  | none => s
  | some item =>
    if s.conn.sending then
      if s.conn.room then
        { s with conn := { s.conn.enqueue (.forward id item) with
            holding := Function.update s.conn.holding id none } }
      else s
    else
      { hub := { s.hub with
          boxes := Function.update s.hub.boxes id []
          gone := Function.update s.hub.gone id true }
        conn := { s.conn with holding := Function.update s.conn.holding id none } }

def step (env : Env) (s : Sys β) : Step β → Sys β
  | .subscribe channel => if s.conn.listens then s.handleSubscribe env channel else s
  | .unsubscribe channel => if s.conn.listens then s.handleUnsubscribe env channel else s
  | .auth token =>
    if s.conn.listens then { s with conn := s.conn.handleAuth env token } else s
  | .ping data => if s.conn.listens then { s with conn := s.conn.answer (.pong data) } else s
  | .badJson =>
    if s.conn.listens then { s with conn := s.conn.answer (.error "bad json") } else s
  | .finish => if s.conn.listens then s.finish else s
  | .queueReply => { s with conn := s.conn.queueReply }
  | .publish msg => { s with hub := (s.hub.publish ⟨msg,s.conn.address⟩).2 }
  | .take id => if s.conn.mine id then s.take id else s
  | .push id => if s.conn.mine id then s.push id else s
  | .recv => { s with conn := s.conn.recv }
  | .send ok => { s with conn := s.conn.send ok }
  | .beat =>
    if s.conn.receiving && s.conn.room then { s with conn := s.conn.enqueue .ping } else s
  | .timeout =>
    if s.conn.receiving && s.conn.room then { s with conn := s.conn.enqueue .close } else s
  | .envSubscribe topic => { s with hub := (s.hub.subscribe topic).2 }
  | .envUnsubscribe topic id =>
    if s.conn.mine id then s else { s with hub := s.hub.unsubscribe topic id }
  | .envTake id =>
    if s.conn.mine id then s
    else { s with hub := { s.hub with
      boxes := Function.update s.hub.boxes id (s.hub.boxes id).tail } }
  | .envDrop id =>
    if s.conn.mine id then s
    else { s with hub := { s.hub with gone := Function.update s.hub.gone id true } }

def run (env : Env) (s : Sys β) (ls : List (Step β)) : Sys β := ls.foldl (step env) s

end Sys

end Perplex.Ws
