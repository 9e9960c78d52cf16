import Perplex.Dispatcher
import Perplex.Mailboxes
import Perplex.Checked

/-! The `Dispatcher` in front of the market workers, with the replies that the worker loop
sends (`dispatcher.rs`), up to its shutdown. -/
namespace Perplex.Book

inductive Reply where
  | submit (outcome : Except SubmitError SubmitOutcome)
  | cancel (found : Bool)
  | top (best : Option (Option ℚ × Option ℚ))

/-- What a worker sends back for a command. -/
def Worker.reply (w : Worker) : EngineCmd → Reply
  | .submit order tracker => .submit (w.book.submit order tracker).1
  | .cancel orderId => .cancel (w.book.cancel orderId).1
  | .top => .top (some (w.book.bestBid,w.book.bestAsk))

/-- The methods of the dispatcher; an order names its market itself. -/
inductive Call where
  | submit (order : Order) (tracker : PositionTracker)
  | cancel (market : MarketId) (orderId : OrderId)
  | top (market : MarketId)

namespace Call

def market : Call → MarketId
  | .submit order _ => order.market
  | .cancel market _ => market
  | .top market => market

def cmd : Call → EngineCmd
  | .submit order tracker => .submit order tracker
  | .cancel _ orderId => .cancel orderId
  | .top _ => .top

/-- The reply when no worker has the market. -/
def noWorker : Call → Reply
  | .submit .. => .submit (.error .marketNoLiquidity)
  | .cancel .. => .cancel false
  | .top _ => .top none

end Call

def workers (selfTrade : SelfTradeMode) : Workers MarketId EngineCmd Reply Worker where
  init market := Worker.new market selfTrade
  step := Worker.step
  reply := Worker.reply

/-- The calls in the order in which they were made or got through the mailbox, and the replies
by their number; the markets with a sender do not change. -/
structure Dispatcher where
  boxes : Mailboxes MarketId EngineCmd Reply Worker
  refused : List (Call × Reply)

/-- A caller calls or, with its mailbox full, tries again; or a worker takes a command. -/
inductive Turn where
  | call (c : Call)
  | worker (market : MarketId)

namespace Dispatcher

def start (selfTrade : SelfTradeMode) : Dispatcher := ⟨.start (workers selfTrade),[]⟩

section Run
variable (markets : List MarketId) (capacity : ℕ) (selfTrade : SelfTradeMode)

def step (d : Dispatcher) : Turn → Dispatcher
  | .call c =>
    if c.market ∈ markets then { d with boxes := d.boxes.send capacity c.market c.cmd }
    else { d with refused := d.refused++[(c,c.noWorker)] }
  | .worker market =>
    -- only listed markets have a worker
    if market ∈ markets then { d with boxes := d.boxes.work (workers selfTrade) market } else d

def run (d : Dispatcher) (ts : List Turn) : Dispatcher :=
  ts.foldl (step markets capacity selfTrade) d

end Run

/-- The commands for one market among the calls that got through. -/
def commands (d : Dispatcher) (market : MarketId) : List EngineCmd :=
  Workers.requests market d.boxes.log

section Serial
variable {markets : List MarketId} {capacity : ℕ} {selfTrade : SelfTradeMode}

/-- Only listed markets have mailboxes in use, and the other calls are refused. -/
def Routed (markets : List MarketId) (d : Dispatcher) : Prop :=
  (∀ x ∈ d.boxes.log, x.1 ∈ markets) ∧
    ∀ x ∈ d.refused, x.1.market ∉ markets ∧ x.2 = x.1.noWorker

theorem routed_step {d : Dispatcher} (h : d.Routed markets) (t : Turn) :
    (d.step markets capacity selfTrade t).Routed markets := by
  cases t with
  | call c =>
    unfold step
    dsimp only
    split_ifs with hmem
    · refine ⟨fun x hx => ?_,h.2⟩
      unfold Mailboxes.send at hx
      split_ifs at hx
      · rcases List.mem_append.mp hx with hx | hx
        · exact h.1 x hx
        · rw [List.mem_singleton.mp hx]
          exact hmem
      · exact h.1 x hx
    · refine ⟨h.1,fun x hx => ?_⟩
      rcases List.mem_append.mp hx with hx | hx
      · exact h.2 x hx
      · rw [List.mem_singleton.mp hx]
        exact ⟨hmem,rfl⟩
  | worker market =>
    unfold step
    dsimp only
    split_ifs
    · refine ⟨fun x hx => h.1 x ?_,h.2⟩
      unfold Mailboxes.work at hx
      dsimp only at hx
      split at hx <;> exact hx
    · exact h

variable (markets capacity selfTrade)

theorem routed_run (ts : List Turn) :
    ((start selfTrade).run markets capacity selfTrade ts).Routed markets := by
  refine foldl_invariant (P := Routed markets) (R := fun _ _ => True)
    (fun d t h _ => routed_step h t) ?_ fun _ _ _ => trivial
  constructor
  · intro x hx
    cases hx
  · intro x hx
    cases hx

/-- The mailboxes see a run of their own. -/
theorem exists_boxes_run (d : Dispatcher) (ts : List Turn) : ∃ ms,
    (d.run markets capacity selfTrade ts).boxes =
      d.boxes.run (workers selfTrade) capacity ms := by
  induction ts generalizing d with
  | nil => exact ⟨[],rfl⟩
  | cons t ts ih =>
    obtain ⟨ms, hms⟩ := ih (d.step markets capacity selfTrade t)
    have hstep : ∃ ms', (d.step markets capacity selfTrade t).boxes =
        d.boxes.run (workers selfTrade) capacity ms' := by
      cases t with
      | call c =>
        unfold step
        dsimp only
        split_ifs
        · exact ⟨[.send c.market c.cmd],rfl⟩
        · exact ⟨[],rfl⟩
      | worker market =>
        unfold step
        dsimp only
        split_ifs
        · exact ⟨[.work market],rfl⟩
        · exact ⟨[],rfl⟩
    obtain ⟨ms', hms'⟩ := hstep
    refine ⟨ms'++ms,?_⟩
    rw [Mailboxes.run, List.foldl_append]
    exact hms.trans (congrArg (Mailboxes.run (workers selfTrade) capacity · ms) hms')

theorem boxes_run_worker {markets : List MarketId} {market : MarketId} (h : market ∈ markets)
    (d : Dispatcher) (n : ℕ) :
    (d.run markets capacity selfTrade (List.replicate n (.worker market))).boxes =
      d.boxes.run (workers selfTrade) capacity (List.replicate n (.work market)) := by
  induction n generalizing d with
  | zero => rfl
  | succ n ih =>
    rw [List.replicate_succ, List.replicate_succ]
    refine (ih (d.step markets capacity selfTrade (.worker market))).trans ?_
    rw [step, if_pos h]
    rfl

theorem serial_boxes (ts : List Turn) : ∃ received,
    ((start selfTrade).run markets capacity selfTrade ts).boxes.Serial (workers selfTrade)
      received := by
  obtain ⟨ms, hms⟩ := exists_boxes_run markets capacity selfTrade (start selfTrade) ts
  rw [hms]
  exact Mailboxes.serial_run Mailboxes.serial_start ms

/-- Whatever the callers and the workers do, in any order: every reply is the one that the
market's worker, alone with the commands that got through before, would give; it never changes,
the calls keep their order, and a worker that goes on answers every call. -/
theorem replies_serial (ts : List Turn) :
    let d := (start selfTrade).run markets capacity selfTrade ts
    (∀ n reply, d.boxes.replies n = some reply → ∃ market cmd,
      d.boxes.log[n]? = some (market,cmd) ∧
      reply = (runMarketWorker market selfTrade
        (Workers.requests market (d.boxes.log.take n))).reply cmd) ∧
    (∀ market, ∃ received, received <+: d.commands market ∧
      d.boxes.state market = runMarketWorker market selfTrade received) ∧
    d.Routed markets ∧
    (∀ ts', let d' := d.run markets capacity selfTrade ts'
      d.boxes.log <+: d'.boxes.log ∧
      ∀ n reply, d.boxes.replies n = some reply → d'.boxes.replies n = some reply) ∧
    ∀ n market cmd, d.boxes.log[n]? = some (market,cmd) → ∃ turns,
      ((d.run markets capacity selfTrade (List.replicate turns (.worker market))).boxes.replies
        n).isSome := by
  intro d
  obtain ⟨received, hserial⟩ := serial_boxes markets capacity selfTrade ts
  have hrouted := routed_run markets capacity selfTrade ts
  refine ⟨?_,?_,hrouted,?_,?_⟩
  · intro n reply hreply
    exact hserial.replies n reply hreply
  · intro market
    exact ⟨received market,⟨_,(hserial.log market).symm⟩,hserial.state market⟩
  · intro ts'
    obtain ⟨ms, hms⟩ := exists_boxes_run markets capacity selfTrade d ts'
    dsimp only
    rw [hms]
    exact ⟨Mailboxes.log_prefix_run d.boxes ms,fun n reply => Mailboxes.replies_run hserial ms⟩
  · intro n market cmd hn
    have hlisted := hrouted.1 _ (List.mem_of_getElem? hn)
    refine ⟨(d.boxes.queue market).length,?_⟩
    rw [boxes_run_worker capacity selfTrade hlisted]
    exact Mailboxes.answered_run hserial hn

end Serial

end Dispatcher

end Perplex.Book
