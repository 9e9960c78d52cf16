import Perplex.Loop
import Perplex.MarginPath

/-! The replay harness (`replay-binance.ts` with `lib/sim`): it quotes over a tape of bars as the
agent would, keeps its lots first in, first out, and passes when the markets together have not lost.
`number` is read as `ℚ`; `Math.log` and `Math.sqrt` are arguments. The tapes are arbitrary. -/
namespace Perplex.Replay

/-- The open of a bar is not read. -/
structure Bar where
  tsMs : ℤ
  high : ℚ
  low : ℚ
  close : ℚ
deriving DecidableEq, Repr

structure StrategyParams where
  baseSpreadBps : ℚ
  invPenaltyBpsAtMax : ℚ
  invMax : ℚ
  volMultBps : ℚ
  invSkewBpsAtMax : ℚ

structure Quotes where
  bid : ℚ
  ask : ℚ
  spreadBps : ℚ
  skewBps : ℚ

structure SimConfig where
  strategy : StrategyParams
  quoteSize : ℚ
  volWindowMs : ℤ
  killThresholdUsdc : ℚ

def clamp (x lo hi : ℚ) : ℚ := if x < lo then lo else if hi < x then hi else x

def quotes (p : StrategyParams) (mid inventory realisedVol : ℚ) : Quotes :=
  let invRatioSigned := if 0 < p.invMax then clamp (inventory/p.invMax) (-1) 1 else 0
  let invPenBps := |invRatioSigned| * p.invPenaltyBpsAtMax
  let volPenBps := max realisedVol 0*p.volMultBps
  let spreadBps := p.baseSpreadBps+invPenBps+volPenBps
  let skewBps := -invRatioSigned*p.invSkewBpsAtMax
  let skewedMid := mid*(1+skewBps/10000)
  let halfSpread := spreadBps/2/10000
  ⟨skewedMid*(1-halfSpread), skewedMid*(1+halfSpread), spreadBps, skewBps⟩

/-- `VolWindow`: samples with their times, oldest first. -/
structure VolWindow where
  samples : List (ℤ × ℚ)
  windowMs : ℤ

def VolWindow.record (v : VolWindow) (tsMs : ℤ) (mid : ℚ) : VolWindow :=
  if mid ≤ 0 then v
  else { v with samples := (v.samples++[(tsMs,mid)]).dropWhile fun s => s.1 < tsMs-v.windowMs }

/-- Log-returns of consecutive samples. -/
def returns (log : ℚ → ℚ) : List (ℤ × ℚ) → List ℚ
  | (_,prev) :: (t,mid) :: rest =>
    if 0 < prev ∧ 0 < mid then log (mid/prev) :: returns log ((t,mid) :: rest)
    else returns log ((t,mid) :: rest)
  | _ => []

def VolWindow.realisedVol (v : VolWindow) (log sqrt : ℚ → ℚ) : ℚ :=
  let rs := returns log v.samples
  if v.samples.length < 2 ∨ rs = [] then 0
  else
    let mean : ℚ := rs.sum/rs.length
    let squares : List ℚ := rs.map fun r => (r-mean)^2
    let variance := squares.sum/rs.length
    sqrt variance

inductive LotSide where
  | long
  | short
deriving DecidableEq, Repr

def LotSide.sign : LotSide → ℚ
  | .long => 1
  | .short => -1

structure Lot where
  side : LotSide
  size : ℚ
  price : ℚ
deriving DecidableEq, Repr

/-- What the loop of `applyFill` works on. -/
structure Closing where
  lots : List Lot
  remaining : ℚ
  realised : ℚ

/-- A round closes what it can of the oldest lot, if that is on the other side. -/
def closeRound (side : LotSide) (price : ℚ) (c : Closing) : Closing ⊕ Closing :=
  match c.lots with
  | [] => .inr c
  | head :: rest =>
    if 0 < c.remaining ∧ head.side ≠ side then
      let closed := min head.size c.remaining
      let pnl := match head.side with
        | .long => (price-head.price)*closed
        | .short => (head.price-price)*closed
      let size := head.size-closed
      -- a lot that is down to dust is dropped
      let lots := if size ≤ 1/10^12 then rest else { head with size } :: rest
      .inl ⟨lots, c.remaining-closed, c.realised+pnl⟩
    else .inr c

/-- `applyFill`: what the fill realises, and the lots after it. -/
def applyFill (lots : List Lot) (side : LotSide) (size price : ℚ) : ℚ × List Lot :=
  let c := Loop.runFor (closeRound side price) id (lots.length+2) ⟨lots, size, 0⟩
  (c.realised,if 0 < c.remaining then c.lots++[⟨side, c.remaining, price⟩] else c.lots)

/-- The variables of `simulateMarket`; the fills, which it counts, are listed. -/
structure Sim where
  vol : VolWindow
  lots : List Lot
  inventory : ℚ
  realisedPnl : ℚ
  bidFills : ℕ
  askFills : ℕ
  killed : Bool
  priorMid : ℚ
  trades : List Margin.Fill

namespace Sim

def bought (s : Sim) (size bid : ℚ) : Sim :=
  let (realised,lots) := applyFill s.lots .long size bid
  { s with
    lots
    realisedPnl := s.realisedPnl+realised
    inventory := s.inventory+size
    bidFills := s.bidFills+1
    trades := s.trades++[⟨size, bid⟩] }

def sold (s : Sim) (size ask : ℚ) : Sim :=
  let (realised,lots) := applyFill s.lots .short size ask
  { s with
    lots
    realisedPnl := s.realisedPnl+realised
    inventory := s.inventory-size
    askFills := s.askFills+1
    trades := s.trades++[⟨-size, ask⟩] }

section Run
variable (log sqrt : ℚ → ℚ) (cfg : SimConfig)

/-- Quoting through one bar. -/
def quote (s : Sim) (bar : Bar) : Sim :=
  let q := quotes cfg.strategy s.priorMid s.inventory (s.vol.realisedVol log sqrt)
  let s := if bar.low ≤ q.bid then s.bought cfg.quoteSize q.bid else s
  let s := if q.ask ≤ bar.high then s.sold cfg.quoteSize q.ask else s
  if s.realisedPnl < -cfg.killThresholdUsdc then { s with killed := true } else s

def onBar (s : Sim) (bar : Bar) : Sim :=
  let s := if s.killed then s else s.quote log sqrt cfg bar
  { s with vol := s.vol.record bar.tsMs bar.close, priorMid := bar.close }

/-- The first bar seeds the window. -/
def start (first : Bar) : Sim :=
  ⟨VolWindow.record ⟨[], cfg.volWindowMs⟩ first.tsMs first.close, [], 0, 0, 0, 0, false,
    first.close, []⟩

/-- The loop over the bars after the first. -/
def run (first : Bar) (bars : List Bar) : Sim := bars.foldl (onBar log sqrt cfg) (start cfg first)

end Run
end Sim

structure MarketResult where
  market : String
  fills : ℕ
  bidFills : ℕ
  askFills : ℕ
  realisedPnl : ℚ
  finalInventory : ℚ
  markToMarketPnl : ℚ
  killed : Bool
deriving DecidableEq, Repr

/-- What the lots are worth at a mark over what they cost. -/
def openPnl (lots : List Lot) (mark : ℚ) : ℚ :=
  (lots.map fun l => l.side.sign*l.size*(mark-l.price)).sum

/-- The close that the lots left over are marked to. -/
def finalClose (first : Bar) (bars : List Bar) : ℚ := ((first :: bars).getLast (by simp)).close

section Model
variable (log sqrt : ℚ → ℚ) (cfg : SimConfig)

def simulateMarket (market : String) : List Bar → MarketResult
  | first :: second :: rest =>
    let s := Sim.run log sqrt cfg first (second :: rest)
    let m2m := openPnl s.lots (finalClose first (second :: rest))
    ⟨market, s.bidFills+s.askFills, s.bidFills, s.askFills, s.realisedPnl, s.inventory,
      s.realisedPnl+m2m, s.killed⟩
  | _ => ⟨market, 0, 0, 0, 0, 0, 0, false⟩

/-- `main`, from the tapes on: the results and the exit code. -/
def main (tapes : List (String × List Bar)) : List MarketResult × ℕ :=
  let results := tapes.map fun tape => simulateMarket log sqrt cfg tape.1 tape.2
  let netPnl := (results.map MarketResult.markToMarketPnl).sum
  (results,if netPnl < 0 then 1 else 0)

end Model

/-- Signed size of the lots. -/
def openSize (lots : List Lot) : ℚ := (lots.map fun l => l.side.sign*l.size).sum

/-- All lots have one size and are on one side. -/
def Uniform (size : ℚ) (lots : List Lot) : Prop :=
  ∃ side, ∀ l ∈ lots, l.side = side ∧ l.size = size

/-- The loop ends, whatever sizes it is given. -/
theorem applyFill_returns (lots : List Lot) (side : LotSide) (size price : ℚ) :
    Loop.Returns (closeRound side price) ⟨lots, size, 0⟩
      (Loop.runFor (closeRound side price) id (lots.length+2) ⟨lots, size, 0⟩) := by
  refine Loop.returns_runFor
    (fun c => c.lots.length+if 0 < c.remaining then 1 else 0) ?_ id ?_
  · intro c c' h
    unfold closeRound at h
    cases hlots : c.lots with
    | nil => simp [hlots] at h
    | cons head rest =>
      simp only [hlots] at h
      split_ifs at h with hopen hdust
      · obtain rfl := Sum.inl.inj h
        rw [if_pos hopen.1, List.length_cons]
        dsimp only
        split_ifs <;> omega
      · obtain rfl := Sum.inl.inj h
        -- a lot that is not used up has taken what there was
        have hleft : ¬ 0 < c.remaining-min head.size c.remaining := by
          rcases le_total head.size c.remaining with hle | hle
          · rw [min_eq_left hle, sub_self] at hdust
            exact absurd (by norm_num) hdust
          · rw [min_eq_right hle, sub_self]
            exact lt_irrefl 0
        rw [if_pos hopen.1, if_neg hleft, List.length_cons, List.length_cons]
        omega
  · dsimp only
    split_ifs <;> omega

section Lots
variable {lots : List Lot} {side : LotSide} {size price : ℚ}

/-- A fill on the side of the lots opens one more. -/
theorem applyFill_open (hsame : ∀ l ∈ lots, l.side = side) (hsize : 0 < size) :
    applyFill lots side size price = (0,lots++[⟨side, size, price⟩]) := by
  have hround : closeRound side price ⟨lots, size, 0⟩ = .inr ⟨lots, size, 0⟩ := by
    cases lots with
    | nil => rfl
    | cons head rest =>
      unfold closeRound
      have hhead := hsame head List.mem_cons_self
      simp [hhead]
  unfold applyFill
  rw [Loop.runFor, hround]
  dsimp only
  rw [if_pos hsize]

/-- A fill on the other side closes the oldest lot. -/
theorem applyFill_close {head : Lot} {rest : List Lot} (hside : head.side ≠ side)
    (hsize : head.size = size) (hpos : 0 < size) : applyFill (head :: rest) side size price =
      (head.side.sign*size*(price-head.price),rest) := by
  have hround : closeRound side price ⟨head :: rest, size, 0⟩ =
      .inl ⟨rest, 0, head.side.sign*size*(price-head.price)⟩ := by
    unfold closeRound
    dsimp only
    rw [if_pos ⟨hpos,hside⟩, hsize, min_self, sub_self, if_pos (by norm_num)]
    cases head.side with
    | long =>
      simp only [LotSide.sign]
      congr 2
      ring
    | short =>
      simp only [LotSide.sign]
      congr 2
      ring
  have hdone (c : Closing) (hc : c.remaining = 0) : closeRound side price c = .inr c := by
    unfold closeRound
    split
    · rfl
    · rw [if_neg (by simp [hc])]
  unfold applyFill
  rw [List.length_cons, Loop.runFor, hround]
  dsimp only
  rw [Loop.runFor, hdone _ rfl]
  simp

theorem openSize_append (lots : List Lot) (l : Lot) :
    openSize (lots++[l]) = openSize lots+l.side.sign*l.size := by
  simp [openSize]

theorem openPnl_append (lots : List Lot) (l : Lot) (mark : ℚ) :
    openPnl (lots++[l]) mark = openPnl lots mark+l.side.sign*l.size*(mark-l.price) := by
  simp [openPnl]

/-- What a fill does to the lots. -/
structure Booked (lots : List Lot) (side : LotSide) (size price : ℚ) (r : ℚ × List Lot) :
    Prop where
  uniform : Uniform size r.2
  openSize : openSize r.2 = openSize lots+side.sign*size
  pnl : ∀ mark, r.1+openPnl r.2 mark = openPnl lots mark+side.sign*size*(mark-price)

theorem booked_open (hsame : ∀ l ∈ lots, l.side = side ∧ l.size = size) :
    Booked lots side size price (0,lots++[⟨side, size, price⟩]) := by
  refine ⟨⟨side,?_⟩,openSize_append _ _,?_⟩
  · intro l hl
    rcases List.mem_append.mp hl with hl | hl
    · exact hsame l hl
    · obtain rfl := List.mem_singleton.mp hl
      exact ⟨rfl,rfl⟩
  · intro mark
    rw [openPnl_append, zero_add]

/-- Of lots of one size, a fill of that size opens one or closes one. -/
theorem applyFill_booked (h : Uniform size lots) (hpos : 0 < size) (side : LotSide)
    (price : ℚ) : Booked lots side size price (applyFill lots side size price) := by
  obtain ⟨held, hheld⟩ := h
  cases lots with
  | nil =>
    rw [applyFill_open (List.forall_mem_nil _) hpos]
    exact booked_open (List.forall_mem_nil _)
  | cons head rest =>
    obtain ⟨⟨hside, hsize⟩, hrest⟩ := List.forall_mem_cons.mp hheld
    by_cases hs : held = side
    · subst hs
      rw [applyFill_open (fun l hl => (hheld l hl).1) hpos]
      exact booked_open hheld
    · have hne : head.side ≠ side := fun he => hs (hside.symm.trans he)
      have hsign : side.sign = -head.side.sign := by
        cases hh : head.side <;> cases side <;> simp_all [LotSide.sign]
      rw [applyFill_close hne hsize hpos]
      refine ⟨⟨held,hrest⟩,?_,?_⟩
      · simp only [openSize, List.map_cons, List.sum_cons, hsize, hsign]
        ring
      · intro mark
        simp only [openPnl, List.map_cons, List.sum_cons, hsize, hsign]
        ring

end Lots

namespace Sim

/-- The books of the simulation: the lots, the inventory and the PnL are those of the fills. -/
structure Books (size : ℚ) (s : Sim) : Prop where
  uniform : Uniform size s.lots
  held : s.inventory = openSize s.lots
  inventory : s.inventory = (s.trades.map Margin.Fill.sizeDelta).sum
  pnl : ∀ mark, s.realisedPnl+openPnl s.lots mark = (s.trades.map (Margin.Fill.pnl mark)).sum
  count : s.bidFills+s.askFills = s.trades.length

section Books
variable {size : ℚ} {s : Sim} {log sqrt : ℚ → ℚ} {cfg : SimConfig}

theorem Books.bought (h : s.Books size) (hpos : 0 < size) (bid : ℚ) :
    (s.bought size bid).Books size := by
  have hb := applyFill_booked h.uniform hpos .long bid
  refine ⟨hb.uniform,?_,?_,?_,?_⟩
  · change s.inventory+size = openSize (applyFill s.lots .long size bid).2
    rw [hb.openSize, h.held, LotSide.sign, one_mul]
  · change s.inventory+size = ((s.trades++[_]).map Margin.Fill.sizeDelta).sum
    rw [List.map_append, List.sum_append, ← h.inventory]
    simp
  · intro mark
    change s.realisedPnl+(applyFill s.lots .long size bid).1+
      openPnl (applyFill s.lots .long size bid).2 mark =
        ((s.trades++[_]).map (Margin.Fill.pnl mark)).sum
    rw [add_assoc, hb.pnl, ← add_assoc, h.pnl, List.map_append, List.sum_append]
    simp [Margin.Fill.pnl, LotSide.sign]
  · change s.bidFills+1+s.askFills = (s.trades++[_]).length
    rw [List.length_append, ← h.count, List.length_singleton]
    omega

theorem Books.sold (h : s.Books size) (hpos : 0 < size) (ask : ℚ) :
    (s.sold size ask).Books size := by
  have hb := applyFill_booked h.uniform hpos .short ask
  refine ⟨hb.uniform,?_,?_,?_,?_⟩
  · change s.inventory-size = openSize (applyFill s.lots .short size ask).2
    rw [hb.openSize, h.held, LotSide.sign, neg_one_mul, sub_eq_add_neg]
  · change s.inventory-size = ((s.trades++[_]).map Margin.Fill.sizeDelta).sum
    rw [List.map_append, List.sum_append, ← h.inventory]
    simp [sub_eq_add_neg]
  · intro mark
    change s.realisedPnl+(applyFill s.lots .short size ask).1+
      openPnl (applyFill s.lots .short size ask).2 mark =
        ((s.trades++[_]).map (Margin.Fill.pnl mark)).sum
    rw [add_assoc, hb.pnl, ← add_assoc, h.pnl, List.map_append, List.sum_append]
    simp [Margin.Fill.pnl, LotSide.sign]
  · change s.bidFills+(s.askFills+1) = (s.trades++[_]).length
    rw [List.length_append, ← h.count, List.length_singleton]
    omega

theorem Books.quote (h : s.Books cfg.quoteSize) (hpos : 0 < cfg.quoteSize) (bar : Bar) :
    (s.quote log sqrt cfg bar).Books cfg.quoteSize := by
  unfold Sim.quote
  dsimp only
  set q := quotes cfg.strategy s.priorMid s.inventory (s.vol.realisedVol log sqrt)
  have hbid : (if bar.low ≤ q.bid then s.bought cfg.quoteSize q.bid else s).Books
      cfg.quoteSize := by
    split_ifs
    · exact h.bought hpos q.bid
    · exact h
  generalize (if bar.low ≤ q.bid then s.bought cfg.quoteSize q.bid else s) = s₁ at hbid ⊢
  have hask : (if q.ask ≤ bar.high then s₁.sold cfg.quoteSize q.ask else s₁).Books
      cfg.quoteSize := by
    split_ifs
    · exact hbid.sold hpos q.ask
    · exact hbid
  generalize (if q.ask ≤ bar.high then s₁.sold cfg.quoteSize q.ask else s₁) = s₂ at hask ⊢
  split_ifs
  · exact ⟨hask.uniform,hask.held,hask.inventory,hask.pnl,hask.count⟩
  · exact hask

theorem Books.onBar (h : s.Books cfg.quoteSize) (hpos : 0 < cfg.quoteSize) (bar : Bar) :
    (s.onBar log sqrt cfg bar).Books cfg.quoteSize := by
  have hnext : (if s.killed then s else s.quote log sqrt cfg bar).Books cfg.quoteSize := by
    split_ifs
    · exact h
    · exact h.quote hpos bar
  exact ⟨hnext.uniform,hnext.held,hnext.inventory,hnext.pnl,hnext.count⟩

/-- The simulation has stopped exactly when it has lost more than the threshold. -/
def Stopped (cfg : SimConfig) (s : Sim) : Prop :=
  s.killed = true ↔ s.realisedPnl < -cfg.killThresholdUsdc

theorem Stopped.onBar (h : s.Stopped cfg) (bar : Bar) : (s.onBar log sqrt cfg bar).Stopped cfg := by
  have hnext : (if s.killed then s else s.quote log sqrt cfg bar).Stopped cfg := by
    by_cases hk : s.killed = true
    · rwa [if_pos hk]
    · rw [if_neg hk]
      unfold Sim.quote
      dsimp only
      split_ifs with hbid hask hlost hlost hask hlost hlost
      all_goals simp_all [Stopped, Sim.bought, Sim.sold]
  exact hnext

variable (log sqrt cfg)

theorem onBar_of_killed (hk : s.killed = true) (bar : Bar) :
    (s.onBar log sqrt cfg bar).killed = true ∧
      (s.onBar log sqrt cfg bar).trades = s.trades ∧
        (s.onBar log sqrt cfg bar).realisedPnl = s.realisedPnl := by
  unfold Sim.onBar
  rw [if_pos hk]
  exact ⟨hk,rfl,rfl⟩

/-- Nothing is traded any more. -/
theorem foldl_onBar_of_killed (hk : s.killed = true) (bars : List Bar) :
    let t := bars.foldl (Sim.onBar log sqrt cfg) s
    t.killed = true ∧ t.trades = s.trades ∧ t.realisedPnl = s.realisedPnl := by
  induction bars generalizing s with
  | nil => exact ⟨hk,rfl,rfl⟩
  | cons bar rest ih =>
    obtain ⟨hk', htrades, hpnl⟩ := onBar_of_killed log sqrt cfg hk bar
    obtain ⟨hk'', htrades', hpnl'⟩ := ih hk'
    rw [List.foldl_cons]
    exact ⟨hk'',htrades'.trans htrades,hpnl'.trans hpnl⟩

end Books

section Run
variable (log sqrt : ℚ → ℚ) {cfg : SimConfig}

theorem start_books (cfg : SimConfig) (first : Bar) : (start cfg first).Books cfg.quoteSize :=
  ⟨⟨.long,List.forall_mem_nil _⟩,rfl,rfl,fun _ => by simp [start, openPnl],rfl⟩

theorem run_books (hpos : 0 < cfg.quoteSize) (first : Bar) (bars : List Bar) :
    (run log sqrt cfg first bars).Books cfg.quoteSize := by
  induction bars using List.reverseRecOn with
  | nil => exact start_books cfg first
  | append_singleton bars bar ih =>
    unfold run at ih ⊢
    rw [List.foldl_append]
    exact ih.onBar hpos bar

theorem run_stopped (hkill : 0 ≤ cfg.killThresholdUsdc) (first : Bar) (bars : List Bar) :
    (run log sqrt cfg first bars).Stopped cfg := by
  induction bars using List.reverseRecOn with
  | nil =>
    have hnot : ¬ (0:ℚ) < -cfg.killThresholdUsdc := by linarith
    simpa [Stopped, run, start] using hnot
  | append_singleton bars bar ih =>
    unfold run at ih ⊢
    rw [List.foldl_append]
    exact ih.onBar bar

end Run
end Sim

section Main
variable (log sqrt : ℚ → ℚ) (cfg : SimConfig)

/-- The fills of a tape. -/
def tradesOf : List Bar → List Margin.Fill
  | first :: second :: rest => (Sim.run log sqrt cfg first (second :: rest)).trades
  | _ => []

/-- The last close of a tape. -/
def lastClose : List Bar → ℚ
  | [] => 0
  | first :: rest => finalClose first rest

variable {log sqrt cfg}

theorem totalPnl_eq_sum (fills : List Margin.Fill) (mark : ℚ) :
    Margin.totalPnl fills mark = (fills.map (Margin.Fill.pnl mark)).sum := by
  rw [Margin.totalPnl, Margin.applyFills_pnl, Margin.unrealisedPnl_eq]
  simp [Margin.Position.empty]

/-- What a result says of a tape is what the shared margin math makes of the fills, and the
market was stopped for its loss. -/
structure Reported (log sqrt : ℚ → ℚ) (cfg : SimConfig) (bars : List Bar) (r : MarketResult) :
    Prop where
  fills : r.fills = (tradesOf log sqrt cfg bars).length
  finalInventory : r.finalInventory =
    (Margin.applyFills .empty (tradesOf log sqrt cfg bars)).2.size
  markToMarketPnl : r.markToMarketPnl =
    Margin.totalPnl (tradesOf log sqrt cfg bars) (lastClose bars)
  killed : r.killed = true ↔ r.realisedPnl < -cfg.killThresholdUsdc

theorem simulateMarket_reported (hpos : 0 < cfg.quoteSize) (hkill : 0 ≤ cfg.killThresholdUsdc)
    (market : String) (bars : List Bar) :
    Reported log sqrt cfg bars (simulateMarket log sqrt cfg market bars) := by
  have hshort (bars : List Bar) (hnone : tradesOf log sqrt cfg bars = []) :
      Reported log sqrt cfg bars ⟨market, 0, 0, 0, 0, 0, 0, false⟩ := by
    refine ⟨?_,?_,?_,?_⟩
    · rw [hnone, List.length_nil]
    · rw [hnone, Margin.applyFills_size]
      simp [Margin.Position.empty]
    · rw [hnone, totalPnl_eq_sum, List.map_nil, List.sum_nil]
    · have hnot : ¬ (0:ℚ) < -cfg.killThresholdUsdc := by linarith
      simpa using hnot
  rcases bars with _ | ⟨first, _ | ⟨second, rest⟩⟩
  · exact hshort [] rfl
  · exact hshort [first] rfl
  · have h := Sim.run_books log sqrt hpos first (second :: rest)
    refine ⟨h.count,?_,?_,Sim.run_stopped log sqrt hkill first (second :: rest)⟩
    · rw [Margin.applyFills_size]
      exact h.inventory.trans (zero_add _).symm
    · rw [totalPnl_eq_sum]
      exact h.pnl _

/-- A market that is stopped stays stopped with the fills it has, whatever bars follow. -/
theorem tradesOf_append_of_killed {market : String} {bars : List Bar}
    (hk : (simulateMarket log sqrt cfg market bars).killed = true) (later : List Bar) :
    tradesOf log sqrt cfg (bars++later) = tradesOf log sqrt cfg bars ∧
      (simulateMarket log sqrt cfg market (bars++later)).killed = true := by
  rcases bars with _ | ⟨first, _ | ⟨second, rest⟩⟩
  · cases hk
  · cases hk
  · obtain ⟨hkilled, htrades, -⟩ := Sim.foldl_onBar_of_killed log sqrt cfg hk later
    have hrun : Sim.run log sqrt cfg first (second :: rest++later) =
        later.foldl (Sim.onBar log sqrt cfg) (Sim.run log sqrt cfg first (second :: rest)) :=
      List.foldl_append
    constructor
    · change (Sim.run log sqrt cfg first (second :: rest++later)).trades = _
      rw [hrun]
      exact htrades
    · change (Sim.run log sqrt cfg first (second :: rest++later)).killed = true
      rw [hrun]
      exact hkilled

variable (log sqrt cfg)

/-- The harness passes exactly when the fills of all markets together have not lost, as the
shared margin math has it; and so it reports each market. A market is stopped exactly when it has
realised a loss over the threshold, and then its fills are those so far. -/
theorem replay_faithful (hpos : 0 < cfg.quoteSize) (hkill : 0 ≤ cfg.killThresholdUsdc)
    (tapes : List (String × List Bar)) :
    ((main log sqrt cfg tapes).2 = 0 ↔ 0 ≤ (tapes.map fun tape =>
        Margin.totalPnl (tradesOf log sqrt cfg tape.2) (lastClose tape.2)).sum) ∧
      ∀ tape ∈ tapes, let r := simulateMarket log sqrt cfg tape.1 tape.2
        r ∈ (main log sqrt cfg tapes).1 ∧ Reported log sqrt cfg tape.2 r ∧
          (r.killed = true → ∀ later,
            tradesOf log sqrt cfg (tape.2++later) = tradesOf log sqrt cfg tape.2) := by
  have hnet : ((main log sqrt cfg tapes).1.map MarketResult.markToMarketPnl).sum =
      (tapes.map fun tape =>
        Margin.totalPnl (tradesOf log sqrt cfg tape.2) (lastClose tape.2)).sum := by
    change ((tapes.map _).map _).sum = _
    rw [List.map_map]
    congr 1
    apply List.map_congr_left
    intro tape _
    exact (simulateMarket_reported hpos hkill tape.1 tape.2).markToMarketPnl
  refine ⟨?_,?_⟩
  · have hexit : (main log sqrt cfg tapes).2 =
        if ((main log sqrt cfg tapes).1.map MarketResult.markToMarketPnl).sum < 0 then 1 else 0 :=
      rfl
    rw [hexit, hnet]
    split_ifs with hlost
    · exact ⟨False.elim,fun h => absurd hlost h.not_gt⟩
    · exact ⟨fun _ => not_lt.mp hlost,fun _ => rfl⟩
  · intro tape htape
    refine ⟨List.mem_map.mpr ⟨tape,htape,rfl⟩,simulateMarket_reported hpos hkill _ _,?_⟩
    exact fun hk later => (tradesOf_append_of_killed hk later).1

end Main

/-- A market that falls: a lot is bought, another as it falls on, and the first is sold. -/
def falling : List Bar := [⟨0, 100, 100, 100⟩, ⟨60000, 100, 90, 90⟩, ⟨120000, 95, 89, 92⟩]

/-- The defaults of the strategy. -/
def defaultStrategy : StrategyParams := ⟨10, 20, 100, 1000, 5⟩

/-- The harness fails on it, and nothing that comes after is traded. -/
theorem replay_faithful_falling :
    let cfg : SimConfig := ⟨defaultStrategy, 1/20, 900000, 1/4⟩
    (main (·-1) id cfg [("btc-usd",falling)]).2 ≠ 0 ∧
      ∀ later, (tradesOf (·-1) id cfg (falling++later)).length = 3 := by
  intro cfg
  obtain ⟨hexit, hmarkets⟩ := replay_faithful (·-1) id cfg (by norm_num [cfg])
    (by norm_num [cfg]) [("btc-usd",falling)]
  obtain ⟨-, -, hstopped⟩ := hmarkets _ List.mem_cons_self
  constructor
  · rw [Ne, hexit]
    decide +kernel
  · intro later
    rw [hstopped (by decide +kernel) later]
    decide +kernel

end Perplex.Replay
