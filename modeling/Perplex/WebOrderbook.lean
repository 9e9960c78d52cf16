import Mathlib.Algebra.Order.Ring.Rat
import Mathlib.Data.List.Nodup
import Mathlib.Logic.Function.Basic
import Perplex.Checked

/-! The order book of the web client: `useLiveOrderbook` (`web/lib/ws/channels.ts`) keeps two maps
from numbered snapshots, of the socket or of the REST endpoint, and from numbered deltas, and
shows the best levels once a frame. One mounting of the hook; messages of other channels are
left out. -/
namespace Perplex.Web.Orderbook

/-- A price with its quantity, both as strings. -/
abbrev Level := String × String

inductive Side where
  | bid
  | ask
deriving DecidableEq, Repr

/-- The entries of a `Map` in the order in which its keys came in. -/
abbrev PriceMap := List Level

namespace PriceMap

/-- A key that is there keeps its place. -/
def set (m : PriceMap) (price qty : String) : PriceMap :=
  if m.any (·.1 = price) then m.map fun e => if e.1 = price then (price,qty) else e
  else m++[(price,qty)]

def delete (m : PriceMap) (price : String) : PriceMap := m.filter (·.1 ≠ price)

/-- `new Map(levels)`. -/
def ofLevels (levels : List Level) : PriceMap := levels.foldl (fun m l => set m l.1 l.2) []

end PriceMap

section Hook
/- `Number(s)`, for prices and quantities. -/
variable (number : String → ℚ)

def isZero (qty : String) : Bool := qty = "0" || number qty = 0

def applyDelta (book : PriceMap) (levels : List Level) : PriceMap :=
  levels.foldl (fun book l =>
    if isZero number l.2 then book.delete l.1 else book.set l.1 l.2) book

/-- What a side is sorted by, best first. -/
def rank : Side → String → ℚ
  | .bid, price => -number price
  | .ask, price => number price

/-- The levels shown: a stable sort, cut off. -/
def top (side : Side) (book : PriceMap) : List Level :=
  (book.mergeSort fun a b => rank number side a.1 ≤ rank number side b.1).take 25

structure LiveOrderbook where
  levels : Side → List Level
  sequence : ℕ
  tsNs : ℕ

/-- What the hook asks of the socket. -/
inductive WsCall where
  | unsubscribe
  | subscribe
deriving DecidableEq, Repr

structure Hook where
  book : Side → PriceMap
  seq : ℕ
  lastTsNs : ℕ
  rafScheduled : Bool
  state : Option LiveOrderbook
  calls : List WsCall

/-- A frame of the socket on the hook's channel, a REST snapshot for the hook's market, or the
animation frame that was asked for. -/
inductive Event where
  | snapshot (sequence : ℕ) (levels : Side → List Level) (tsNs : ℕ)
  | delta (sequence : ℕ) (levels : Side → List Level) (tsNs : ℕ)
  | seed (sequence : ℕ) (levels : Side → List Level) (tsNs : ℕ)
  | flush

namespace Hook

def start : Hook := ⟨fun _ => [], 0, 0, false, none, [.subscribe]⟩

def scheduleFlush (h : Hook) (tsNs : ℕ) : Hook :=
  { h with lastTsNs := tsNs, rafScheduled := true }

def load (h : Hook) (sequence : ℕ) (levels : Side → List Level) (tsNs : ℕ) : Hook :=
  { h with book := fun side => .ofLevels (levels side), seq := sequence }.scheduleFlush tsNs

def onDelta (h : Hook) (sequence : ℕ) (levels : Side → List Level) (tsNs : ℕ) : Hook :=
  if sequence ≠ h.seq+1 ∧ h.seq ≠ 0 then
    -- a gap: the book stays as it is until the next snapshot
    { h with calls := h.calls++[.unsubscribe, .subscribe] }
  else
    { h with
      book := fun side => applyDelta number (h.book side) (levels side)
      seq := sequence }.scheduleFlush tsNs

/-- The frame reads what the maps hold when it comes. -/
def flush (h : Hook) : Hook :=
  if h.rafScheduled then
    { h with
      rafScheduled := false
      state := some ⟨fun side => top number side (h.book side), h.seq, h.lastTsNs⟩ }
  else h

def step (h : Hook) : Event → Hook
  | .snapshot sequence levels tsNs => h.load sequence levels tsNs
  | .delta sequence levels tsNs => h.onDelta number sequence levels tsNs
  | .seed sequence levels tsNs => h.load sequence levels tsNs
  | .flush => h.flush number

def run (h : Hook) (events : List Event) : Hook := events.foldl (step number) h

end Hook

end Hook

/-- A side of the book: the quantity at each price. -/
abbrev Ladder := String → Option String

/-- What an entry of a delta does to a side. -/
def Ladder.change (number : String → ℚ) (l : Ladder) (level : Level) : Ladder :=
  Function.update l level.1 (if isZero number level.2 then none else some level.2)

/-- The numbered books of a market; delta `n` leads from book `n-1` to book `n`. -/
structure Feed (number : String → ℚ) where
  book : ℕ → Side → Ladder
  snapshot : ℕ → Side → List Level
  delta : ℕ → Side → List Level
  empty : ∀ side price, book 0 side price = none
  snapshot_mem : ∀ n side price qty,
    (price,qty) ∈ snapshot n side ↔ book n side price = some qty
  snapshot_nodup : ∀ n side, ((snapshot n side).map Prod.fst).Nodup
  /-- The hook asks the REST endpoint for 200 levels a side. -/
  snapshot_length : ∀ n side, (snapshot n side).length ≤ 200
  delta_book : ∀ n side, book (n+1) side = (delta (n+1) side).foldl (Ladder.change number)
    (book n side)
  /-- No price is written in two ways. -/
  canonical : ∀ n side price price', book n side price ≠ none → book n side price' ≠ none →
    number price = number price' → price = price'

/-- A message of the publisher, which may come late, twice or not at all, or a frame. -/
inductive Delivery where
  | snapshot (n tsNs : ℕ)
  | delta (n tsNs : ℕ)
  | seed (n tsNs : ℕ)
  | flush

/-- While the hook is at number zero, it takes any delta for the next one. -/
def Delivery.Timely (seq : ℕ) : Delivery → Prop
  | .delta n _ => seq = 0 → n = 1
  | _ => True

def Feed.event {number : String → ℚ} (feed : Feed number) : Delivery → Event
  | .snapshot n tsNs => .snapshot n (feed.snapshot n) tsNs
  | .delta n tsNs => .delta n (feed.delta n) tsNs
  -- `get_orderbook` with depth 200
  | .seed n tsNs => .seed n (fun side => (feed.snapshot n side).take 200) tsNs
  | .flush => .flush

/-- The map has one entry for each price of the ladder. -/
structure Holds (m : PriceMap) (l : Ladder) : Prop where
  mem : ∀ price qty, (price,qty) ∈ m ↔ l price = some qty
  nodup : (m.map Prod.fst).Nodup

theorem holds_nil : Holds [] fun _ => none := ⟨by simp,List.nodup_nil⟩

theorem Holds.delete {m : PriceMap} {l : Ladder} (h : Holds m l) (price : String) :
    Holds (m.delete price) (Function.update l price none) where
  mem := by
    intro p q
    unfold PriceMap.delete
    rw [List.mem_filter, h.mem]
    by_cases hp : p = price
    · subst hp
      simp
    · simp [hp]
  nodup := by
    unfold PriceMap.delete
    exact h.nodup.sublist (List.filter_sublist.map _)

theorem Holds.set {m : PriceMap} {l : Ladder} (h : Holds m l) (price qty : String) :
    Holds (m.set price qty) (Function.update l price (some qty)) := by
  unfold PriceMap.set
  split_ifs with hin
  · -- the entry is changed in its place
    constructor
    · intro p q
      rw [List.mem_map]
      by_cases hp : p = price
      · subst hp
        rw [Function.update_self]
        constructor
        · intro he
          obtain ⟨e, he, heq⟩ := he
          split_ifs at heq with hkey
          · rw [(Prod.mk.inj heq).2]
          · exact absurd (congrArg Prod.fst heq) hkey
        · intro hq
          obtain ⟨e, he, hkey⟩ := List.any_eq_true.mp hin
          refine ⟨e,he,?_⟩
          rw [if_pos (by simpa using hkey), Option.some.inj hq]
      · rw [Function.update_of_ne hp, ← h.mem]
        constructor
        · intro he
          obtain ⟨e, he, heq⟩ := he
          split_ifs at heq with hkey
          · exact absurd (Prod.mk.inj heq).1.symm hp
          · exact heq ▸ he
        · intro he
          exact ⟨(p,q),he,if_neg hp⟩
    · have hkeys : (m.map fun e => if e.1 = price then (price,qty) else e).map Prod.fst =
          m.map Prod.fst := by
        rw [List.map_map]
        apply List.map_congr_left
        intro e _
        by_cases he : e.1 = price
        · simp [he]
        · simp [he]
      rw [hkeys]
      exact h.nodup
  · have hnew : price ∉ m.map Prod.fst := by
      intro hmem
      obtain ⟨e, he, hkey⟩ := List.mem_map.mp hmem
      exact hin (List.any_eq_true.mpr ⟨e,he,by simpa using hkey⟩)
    constructor
    · intro p q
      rw [List.mem_append, h.mem, List.mem_singleton]
      by_cases hp : p = price
      · subst hp
        have hnone : l p ≠ some q := by
          intro hl
          exact hnew (List.mem_map.mpr ⟨(p,q),(h.mem p q).mpr hl,rfl⟩)
        simp [hnone, eq_comm]
      · simp [hp]
    · rw [List.map_append, List.map_singleton, List.nodup_append]
      refine ⟨h.nodup,List.nodup_singleton _,?_⟩
      intro a ha b hb hab
      rw [hab, List.mem_singleton.mp hb] at ha
      exact hnew ha

theorem Holds.applyDelta (number : String → ℚ) {m : PriceMap} {l : Ladder} (h : Holds m l)
    (levels : List Level) :
    Holds (applyDelta number m levels) (levels.foldl (Ladder.change number) l) := by
  induction levels generalizing m l with
  | nil => exact h
  | cons level levels ih =>
    refine ih ?_
    unfold Ladder.change
    dsimp only
    split_ifs
    · exact h.delete level.1
    · exact h.set level.1 level.2

/-- Distinct prices go into the map one by one. -/
theorem ofLevels_of_nodup {levels : List Level} (h : (levels.map Prod.fst).Nodup) :
    PriceMap.ofLevels levels = levels := by
  induction levels using List.reverseRecOn with
  | nil => rfl
  | append_singleton levels x ih =>
    rw [List.map_append, List.map_singleton, List.nodup_append] at h
    obtain ⟨hlevels, -, hnew⟩ := h
    have hall : PriceMap.ofLevels (levels++[x]) =
        (PriceMap.ofLevels levels).set x.1 x.2 := by
      simp [PriceMap.ofLevels]
    rw [hall, ih hlevels]
    unfold PriceMap.set
    rw [if_neg]
    intro hin
    obtain ⟨e, he, hkey⟩ := List.any_eq_true.mp hin
    exact hnew e.1 (List.mem_map_of_mem he) x.1 (List.mem_singleton_self _) (by simpa using hkey)

theorem holds_ofLevels {number : String → ℚ} (feed : Feed number) (n : ℕ) (side : Side) :
    Holds (.ofLevels (feed.snapshot n side)) (feed.book n side) := by
  rw [ofLevels_of_nodup (feed.snapshot_nodup n side)]
  exact ⟨feed.snapshot_mem n side,feed.snapshot_nodup n side⟩

/-- The best levels of a ladder, 25 if there are that many, best first. -/
structure Best (number : String → ℚ) (side : Side) (l : Ladder) (shown : List Level) : Prop where
  entries : ∀ e ∈ shown, l e.1 = some e.2
  sorted : shown.Pairwise fun a b => rank number side a.1 < rank number side b.1
  rest : ∀ price qty, l price = some qty → (price,qty) ∉ shown →
    shown.length = 25 ∧ ∀ e ∈ shown, rank number side e.1 < rank number side price

theorem number_eq_of_rank {number : String → ℚ} {side : Side} {price price' : String}
    (h : rank number side price = rank number side price') : number price = number price' := by
  cases side with
  | bid => exact neg_injective h
  | ask => exact h

theorem best_top {number : String → ℚ} {m : PriceMap} {l : Ladder} (h : Holds m l) (side : Side)
    (hcanonical : ∀ price price', l price ≠ none → l price' ≠ none →
      number price = number price' → price = price') : Best number side l (top number side m) := by
  unfold top
  generalize hsorted : m.mergeSort
    (fun a b => rank number side a.1 ≤ rank number side b.1) = sorted
  have hperm : sorted.Perm m := by
    rw [← hsorted]
    exact List.mergeSort_perm _ _
  have hentry (e : Level) : e ∈ sorted ↔ l e.1 = some e.2 := by
    rw [hperm.mem_iff]
    exact h.mem e.1 e.2
  have hle : sorted.Pairwise fun a b => rank number side a.1 ≤ rank number side b.1 := by
    rw [← hsorted]
    refine (List.pairwise_mergeSort ?_ ?_ m).imp fun hab => of_decide_eq_true hab
    · intro a b c hab hbc
      simp only [decide_eq_true_eq] at hab hbc ⊢
      exact hab.trans hbc
    · intro a b
      simp only [Bool.or_eq_true, decide_eq_true_eq]
      exact le_total _ _
  have hne : sorted.Pairwise fun a b => a.1 ≠ b.1 := by
    rw [← List.pairwise_map]
    exact (hperm.map Prod.fst).nodup_iff.mpr h.nodup
  -- prices of equal rank would be one price
  have hlt : sorted.Pairwise fun a b => rank number side a.1 < rank number side b.1 := by
    refine (hle.and hne).imp_of_mem ?_
    intro a b ha hb hab
    refine lt_of_le_of_ne hab.1 fun heq => hab.2 ?_
    refine hcanonical a.1 b.1 ?_ ?_ (number_eq_of_rank heq)
    · rw [(hentry a).mp ha]
      exact Option.some_ne_none _
    · rw [(hentry b).mp hb]
      exact Option.some_ne_none _
  have hsplit := List.take_append_drop 25 sorted
  constructor
  · intro e he
    exact (hentry e).mp (List.mem_of_mem_take he)
  · exact hlt.sublist (List.take_sublist 25 sorted)
  · intro price qty hl hnot
    have hmem : (price,qty) ∈ sorted := (hentry (price,qty)).mpr hl
    rw [← hsplit] at hmem hlt
    have hdrop : (price,qty) ∈ sorted.drop 25 := (List.mem_append.mp hmem).resolve_left hnot
    have hlong : 25 < sorted.length := by
      have hpos := List.length_pos_of_mem hdrop
      rw [List.length_drop] at hpos
      omega
    refine ⟨by rw [List.length_take]; omega,fun e he => ?_⟩
    exact (List.pairwise_append.mp hlt).2.2 e he (price,qty) hdrop

section Runs
variable {number : String → ℚ} (feed : Feed number)

/-- The hook holds the book of its number and shows the best levels of a book of the publisher,
the one it holds unless a frame is due. -/
structure Faithful (h : Hook) : Prop where
  holds : ∀ side, Holds (h.book side) (feed.book h.seq side)
  shown : ∀ live, h.state = some live → ∀ side,
    Best number side (feed.book live.sequence side) (live.levels side)
  current : h.rafScheduled = false → (h.state.map LiveOrderbook.sequence).getD 0 = h.seq

theorem faithful_start : Faithful feed Hook.start where
  holds side := by
    have hempty : feed.book 0 side = fun _ => none := funext (feed.empty side)
    change Holds [] (feed.book 0 side)
    rw [hempty]
    exact holds_nil
  shown live h := by cases h
  current _ := rfl

variable {feed} {h : Hook}

theorem Faithful.load (hf : Faithful feed h) (n tsNs : ℕ) :
    Faithful feed (h.load n (feed.snapshot n) tsNs) where
  holds side := holds_ofLevels feed n side
  shown := hf.shown
  current hflag := by cases hflag

/-- A delta is taken when it follows the book, or when the hook is at number zero; there it has
to be the first. -/
theorem Faithful.onDelta (hf : Faithful feed h) (n tsNs : ℕ) (hfirst : h.seq = 0 → n = 1) :
    Faithful feed (h.onDelta number n (feed.delta n) tsNs) := by
  unfold Hook.onDelta
  split_ifs with hgap
  · exact ⟨hf.holds,hf.shown,hf.current⟩
  · have hnext : n = h.seq+1 := by
      by_cases hzero : h.seq = 0
      · rw [hzero]
        exact hfirst hzero
      · by_contra hne
        exact hgap ⟨hne,hzero⟩
    refine ⟨fun side => ?_,hf.shown,fun hflag => by cases hflag⟩
    have happlied := (hf.holds side).applyDelta number (feed.delta n side)
    rw [hnext, ← feed.delta_book] at happlied
    rw [hnext]
    exact happlied

theorem Faithful.flush (hf : Faithful feed h) : Faithful feed (h.flush number) := by
  unfold Hook.flush
  split_ifs
  · refine ⟨hf.holds,?_,fun _ => rfl⟩
    intro live hlive side
    obtain rfl := Option.some.inj hlive
    exact best_top (hf.holds side) side (feed.canonical h.seq side)
  · exact hf

/-- Whatever messages are late, lost or repeated: the hook holds and shows books of the publisher
under their numbers, if no delta but the first comes while it is at number zero. -/
theorem live_orderbook_faithful (feed : Feed number) (ds : List Delivery)
    (htimely : ∀ pre d, pre++[d] <+: ds →
      d.Timely (Hook.start.run number (pre.map feed.event)).seq) :
    Faithful feed (Hook.start.run number (ds.map feed.event)) := by
  induction ds using List.reverseRecOn with
  | nil => exact faithful_start feed
  | append_singleton ds d ih =>
    have hbefore := ih fun pre d' hpre => htimely pre d' (hpre.trans (List.prefix_append _ _))
    rw [List.map_append, Hook.run, List.foldl_append]
    cases d with
    | snapshot n tsNs => exact hbefore.load n tsNs
    | delta n tsNs =>
      exact hbefore.onDelta n tsNs (htimely ds (.delta n tsNs) (List.prefix_refl _))
    | seed n tsNs =>
      -- 200 levels are all there are
      have hall : (fun side => (feed.snapshot n side).take 200) = feed.snapshot n := by
        funext side
        exact List.take_of_length_le (feed.snapshot_length n side)
      have hload := hbefore.load n tsNs
      rw [← hall] at hload
      exact hload
    | flush => exact hbefore.flush

end Runs

def digits (s : String) : ℚ :=
  if s = "100" then 100 else if s = "99" then 99 else if s = "2" then 2 else 1

/-- One bid, and one ask of which half is sold. -/
def quotes (n : ℕ) : Side → List Level
  | .bid => if n = 0 then [] else [("99","1")]
  | .ask => if n = 0 then [] else if n = 1 then [("100","2")] else [("100","1")]

def changes (n : ℕ) : Side → List Level
  | .bid => if n = 1 then [("99","1")] else []
  | .ask => if n = 1 then [("100","2")] else if n = 2 then [("100","1")] else []

/-- The ladder of at most one level. -/
def ladderOf : List Level → Ladder
  | [] => fun _ => none
  | e :: _ => Function.update (fun _ => none) e.1 (some e.2)

theorem ladderOf_eq_some {levels : List Level} (h : levels.length ≤ 1) (price qty : String) :
    ladderOf levels price = some qty ↔ (price,qty) ∈ levels := by
  cases levels with
  | nil => simp [ladderOf]
  | cons e rest =>
    obtain rfl : rest = [] := by
      simp only [List.length_cons] at h
      exact List.length_eq_zero_iff.mp (by omega)
    unfold ladderOf
    by_cases hp : price = e.1
    · subst hp
      simp [Prod.ext_iff, eq_comm]
    · simp [hp, Prod.ext_iff]

theorem length_quotes (n : ℕ) (side : Side) : (quotes n side).length ≤ 1 := by
  cases side <;> simp only [quotes] <;> split_ifs <;> simp

def quoteFeed : Feed digits where
  book n side := ladderOf (quotes n side)
  snapshot := quotes
  delta := changes
  empty side price := by cases side <;> rfl
  snapshot_mem n side price qty := (ladderOf_eq_some (length_quotes n side) price qty).symm
  snapshot_nodup n side := by
    cases side <;> simp only [quotes] <;> split_ifs <;> simp
  snapshot_length n side := (length_quotes n side).trans (by decide)
  delta_book n side := by
    match n, side with
    | 0, .bid | 0, .ask | 1, .ask =>
      simp [quotes, changes, ladderOf, Ladder.change, isZero, digits]
    | n+1, .bid | n+2, .ask => simp [quotes, changes]
  canonical n side price price' hp hp' _ := by
    obtain ⟨qty, hq⟩ := Option.ne_none_iff_exists'.mp hp
    obtain ⟨qty', hq'⟩ := Option.ne_none_iff_exists'.mp hp'
    rw [ladderOf_eq_some (length_quotes n side)] at hq hq'
    have hlength := length_quotes n side
    generalize quotes n side = levels at hq hq' hlength
    match levels with
    | [e] =>
      have he := (List.mem_singleton.mp hq).trans (List.mem_singleton.mp hq').symm
      exact congrArg Prod.fst he
    | _ :: _ :: _ => simp at hlength

/-- The first book from the REST endpoint, then the sale, a gap, and a frame. -/
def sale : List Delivery := [.seed 1 5, .delta 2 6, .delta 4 8, .flush]

/-- What is left of the ask is shown under the publisher's number, and the gap made the hook
subscribe again. -/
theorem live_orderbook_faithful_sale :
    let h := Hook.start.run digits (sale.map quoteFeed.event)
    Faithful quoteFeed h ∧ h.state.map LiveOrderbook.sequence = some 2 ∧
      h.book .ask = [("100","1")] ∧ h.calls = [.subscribe, .unsubscribe, .subscribe] := by
  refine ⟨?_,by decide +kernel,by decide +kernel,by decide +kernel⟩
  apply live_orderbook_faithful
  refine forall_request_cons ?_ (forall_request_cons ?_ (forall_request_cons ?_
    (forall_request_cons ?_ forall_request_nil)))
  · trivial
  · exact fun hzero => absurd hzero (by decide)
  · exact fun hzero => absurd hzero (by decide)
  · trivial

end Perplex.Web.Orderbook
