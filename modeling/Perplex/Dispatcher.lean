import Perplex.BookUncrossed
import Perplex.BookFills

/-! `run_market_worker` (`dispatcher.rs`): the loop that owns one book, with the fills and
level deltas it appends to its streams, and the ladder a consumer rebuilds from the deltas.
Replies to the callers, which are the book's own results, are left out. -/
namespace Perplex.Book

/-- A delta sets one price level; quantity zero deletes it. -/
structure BookDelta where
  market : MarketId
  sequence : ℕ
  side : Side
  price : ℚ
  qty : ℚ
  tsNs : ℕ
deriving DecidableEq, Repr

inductive EngineCmd where
  | submit (order : Order) (tracker : PositionTracker)
  | cancel (orderId : OrderId)
  | top

/-- The variables of the loop and what it has appended to its two streams. -/
structure Worker where
  market : MarketId
  book : Orderbook
  sequence : ℕ
  fills : List Fill
  deltas : List BookDelta

def qtyAt (book : Orderbook) (side : Side) (price : ℚ) : ℚ := book.levelQty side price

namespace Worker

/-- Number and append a delta that tells the level as it is now. -/
def emit (w : Worker) (side : Side) (price : ℚ) (tsNs : ℕ) : Worker :=
  { w with
    sequence := w.sequence+1
    deltas := w.deltas++[⟨w.market, w.sequence+1, side, price, qtyAt w.book side price, tsNs⟩] }

def appendFill (order : Order) (w : Worker) (f : Fill) : Worker :=
  let w := { w with fills := w.fills++[f] }
  -- the book has gone through the whole call by now
  w.emit order.side.opposite f.price f.tsNs

def submit (w : Worker) (order : Order) (tracker : PositionTracker) : Worker :=
  match w.book.submit order tracker with
  | (.ok out,book) =>
    let w := out.fills.foldl (appendFill order) { w with book := book }
    if out.resting.isSome then w.emit order.side order.price order.tsNs else w
  | (.error _,book) => { w with book := book }

def step (w : Worker) : EngineCmd → Worker
  | .submit order tracker => w.submit order tracker
  -- no delta
  | .cancel orderId => { w with book := (w.book.cancel orderId).2 }
  | .top => w

def new (market : MarketId) (selfTrade : SelfTradeMode) : Worker :=
  ⟨market, start market selfTrade, 0, [], []⟩

end Worker

/-- The worker after the commands it has received. -/
def runMarketWorker (market : MarketId) (selfTrade : SelfTradeMode) (cmds : List EngineCmd) :
    Worker := cmds.foldl Worker.step (Worker.new market selfTrade)

/-- Quantities by side and price; a deleted or unknown level is absent. -/
def Ladder := Side → ℚ → Option ℚ

namespace Ladder

def empty : Ladder := fun _ _ => none

def apply (l : Ladder) (d : BookDelta) : Ladder := fun side price =>
  if side = d.side ∧ price = d.price then if d.qty = 0 then none else some d.qty
  else l side price

def qty (l : Ladder) (side : Side) (price : ℚ) : ℚ := (l side price).getD 0

theorem apply_qty (l : Ladder) (d : BookDelta) (side : Side) (price : ℚ) :
    (l.apply d).qty side price =
      if side = d.side ∧ price = d.price then d.qty else l.qty side price := by
  unfold qty apply
  split_ifs with hkey hzero
  · exact hzero.symm
  · rfl
  · rfl

end Ladder

def replay (deltas : List BookDelta) : Ladder := deltas.foldl Ladder.apply Ladder.empty

/-- Deltas that all tell the truth about `g` set it on the levels they name. -/
theorem foldl_apply_qty {g : Side → ℚ → ℚ} {ds : List BookDelta}
    (h : ∀ d ∈ ds, d.qty = g d.side d.price) (l : Ladder) (side : Side) (price : ℚ) :
    (ds.foldl Ladder.apply l).qty side price =
      if (side,price) ∈ ds.map (fun d => (d.side,d.price)) then g side price
      else l.qty side price := by
  induction ds generalizing l with
  | nil => rfl
  | cons d ds ih =>
    have hd := h d List.mem_cons_self
    rw [List.foldl_cons, ih fun x hx => h x (List.mem_cons_of_mem _ hx), Ladder.apply_qty, hd,
      List.map_cons]
    -- a later delta for the same level overwrites this one
    by_cases hin : (side,price) ∈ ds.map (fun d => (d.side,d.price))
    · rw [if_pos hin, if_pos (List.mem_cons_of_mem _ hin)]
    · rw [if_neg hin]
      by_cases hkey : side = d.side ∧ price = d.price
      · obtain ⟨rfl, rfl⟩ := hkey
        simp
      · have hne : (side,price) ≠ (d.side,d.price) := fun he => hkey (Prod.mk.inj he)
        rw [if_neg hkey, if_neg (by simp only [List.mem_cons, not_or]; exact ⟨hne, hin⟩)]

namespace Worker

/-- The consumer's ladder is the book. -/
def InSync (w : Worker) : Prop :=
  ∀ side price, (replay w.deltas).qty side price = w.book.levelQty side price

/-- The deltas are numbered without gap or repetition. -/
def Numbered (w : Worker) : Prop :=
  w.deltas.map BookDelta.sequence = List.range' 1 w.deltas.length ∧
    w.sequence = w.deltas.length

/-- From `w` to `w'` deltas are appended for the given levels, true and numbered. -/
structure Emits (w w' : Worker) (keys : List (Side × ℚ)) : Prop where
  book : w'.book = w.book
  numbered : w.Numbered → w'.Numbered
  deltas : ∃ ds, w'.deltas = w.deltas++ds ∧ ds.map (fun d => (d.side,d.price)) = keys ∧
    ∀ d ∈ ds, d.qty = w.book.levelQty d.side d.price

namespace Emits
variable {w w' w'' : Worker} {keys keys' : List (Side × ℚ)}

theorem refl (w : Worker) : Emits w w [] :=
  ⟨rfl, id, [], by simp, rfl, by simp⟩

theorem trans (h : Emits w w' keys) (h' : Emits w' w'' keys') : Emits w w'' (keys++keys') := by
  obtain ⟨ds, hds, hkeys, htrue⟩ := h.deltas
  obtain ⟨ds', hds', hkeys', htrue'⟩ := h'.deltas
  refine ⟨h'.book.trans h.book, fun hn => h'.numbered (h.numbered hn), ds++ds', ?_, ?_, ?_⟩
  · rw [hds', hds, List.append_assoc]
  · rw [List.map_append, hkeys, hkeys']
  · intro d hd
    rcases List.mem_append.mp hd with hd | hd
    · exact htrue d hd
    · rw [htrue' d hd, h.book]

theorem emit (w : Worker) (side : Side) (price : ℚ) (tsNs : ℕ) :
    Emits w (w.emit side price tsNs) [(side,price)] := by
  refine ⟨rfl, ?_, _, rfl, rfl, ?_⟩
  · intro hn
    obtain ⟨hmap, hseq⟩ := hn
    constructor
    · simp only [Worker.emit, List.map_append, hmap, List.map_cons, List.map_nil,
        List.length_append, List.length_singleton, hseq]
      rw [List.range'_concat]
      simp [add_comm]
    · simp [Worker.emit, hseq]
  · intro d hd
    rw [List.mem_singleton.mp hd]
    rfl

theorem appendFills (order : Order) (fs : List Fill) (w : Worker) :
    Emits w (fs.foldl (appendFill order) w) (fs.map fun f => (order.side.opposite,f.price)) := by
  induction fs generalizing w with
  | nil => exact refl w
  | cons f fs ih =>
    have hone : Emits w (appendFill order w f) [(order.side.opposite,f.price)] := by
      have h := emit { w with fills := w.fills++[f] } order.side.opposite f.price f.tsNs
      exact ⟨h.book, h.numbered, h.deltas⟩
    exact hone.trans (ih _)

/-- The ladder stays in step exactly when what is not announced has not changed. -/
theorem inSync_iff {b : Orderbook} (h : Emits w w' keys)
    (hsync : { w with book := b }.InSync) : w'.InSync ↔ ∀ side price, (side,price) ∉ keys →
      w.book.levelQty side price = b.levelQty side price := by
  obtain ⟨ds, hds, rfl, htrue⟩ := h.deltas
  -- announced levels show the new book, the others still show the old one
  have hqty (side : Side) (price : ℚ) : (replay w'.deltas).qty side price =
      if (side,price) ∈ ds.map (fun d => (d.side,d.price)) then w.book.levelQty side price
      else b.levelQty side price := by
    rw [← hsync side price, hds, replay, List.foldl_append]
    exact foldl_apply_qty htrue _ side price
  unfold InSync
  simp only [hqty, h.book]
  refine forall_congr' fun side => forall_congr' fun price => ?_
  split_ifs with hin
  · simp [hin]
  · exact ⟨fun he _ => he.symm, fun he => (he hin).symm⟩

end Emits

end Worker

end Perplex.Book
