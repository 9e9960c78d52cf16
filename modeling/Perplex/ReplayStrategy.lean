import Mathlib.Data.List.TakeWhile
import Perplex.QuoteAgent
import Perplex.ReplaySim

/-! The strategy of the replay harness is a port of the agent's (`strategy.ts` and `vol.ts` against
`strategy.rs` and `vol.rs`). Over exact numbers the two agree, so that the harness fills at the
quotes that the agent would have made. -/
namespace Perplex.Replay

/-- Exact numbers, with some logarithm and some root. -/
structure Exact (log sqrt : ℚ → ℚ) where
  val : ℚ

section Exact
variable {log sqrt : ℚ → ℚ}

instance : Cli.F64 (Exact log sqrt) where
  add x y := ⟨x.val+y.val⟩
  sub x y := ⟨x.val-y.val⟩
  mul x y := ⟨x.val*y.val⟩
  div x y := ⟨x.val/y.val⟩
  neg x := ⟨-x.val⟩
  ofNat n := ⟨n⟩
  abs x := ⟨|x.val|⟩
  max x y := ⟨Max.max x.val y.val⟩
  clamp x lo hi := ⟨Min.min (Max.max x.val lo.val) hi.val⟩
  powi x n := ⟨x.val^n⟩
  ln x := ⟨log x.val⟩
  sqrt x := ⟨sqrt x.val⟩
  lt x y := x.val < y.val
  le x y := x.val ≤ y.val
  fixed8 x := (Cli.Fraction.mk x.val).fixed8

variable (x y : Exact log sqrt) (n : ℕ)

@[simp] theorem val_add : (x+y).val = x.val+y.val := rfl
@[simp] theorem val_sub : (x-y).val = x.val-y.val := rfl
@[simp] theorem val_mul : (x*y).val = x.val*y.val := rfl
@[simp] theorem val_div : (x/y).val = x.val/y.val := rfl
@[simp] theorem val_neg : (-x).val = -x.val := rfl
@[simp] theorem val_abs : (Cli.F64.abs x).val = |x.val| := rfl
@[simp] theorem val_max : (Cli.F64.max x y).val = max x.val y.val := rfl
@[simp] theorem val_powi : (Cli.F64.powi x n).val = x.val^n := rfl
@[simp] theorem val_ofNat : (Cli.F64.ofNat n : Exact log sqrt).val = n := rfl
@[simp] theorem le_eq : Cli.F64.le x y = decide (x.val ≤ y.val) := rfl
@[simp] theorem lt_eq : Cli.F64.lt x y = decide (x.val < y.val) := rfl

theorem val_foldl_add (l : List (Exact log sqrt)) (x : Exact log sqrt) :
    (l.foldl (·+·) x).val = x.val+(l.map Exact.val).sum := by
  induction l generalizing x with
  | nil => simp
  | cons y l ih =>
    rw [List.foldl_cons, ih, val_add, List.map_cons, List.sum_cons, add_assoc]

/-- The parameters, for the port. -/
def ported (p : Cli.StrategyParams (Exact log sqrt)) : StrategyParams :=
  ⟨p.baseSpreadBps, p.invPenaltyBpsAtMax, p.invMax.val, p.volMultBps, p.invSkewBpsAtMax⟩

theorem clamp_eq_min (x : ℚ) : clamp x (-1) 1 = min (max x (-1)) 1 := by
  unfold clamp
  split_ifs with hlow hhigh
  · rw [max_eq_right hlow.le, min_eq_left (by norm_num)]
  · rw [max_eq_left (by linarith), min_eq_right hhigh.le]
  · rw [max_eq_left (not_lt.mp hlow), min_eq_left (not_lt.mp hhigh)]

theorem quotes_ported (p : Cli.StrategyParams (Exact log sqrt))
    (mid inventory realisedVol : Exact log sqrt) :
    let q := p.quotes mid inventory realisedVol
    quotes (ported p) mid.val inventory.val realisedVol.val =
      ⟨q.bid.val, q.ask.val, q.spreadBps.val, q.skewBps.val⟩ := by
  let ratio : Exact log sqrt := if Cli.F64.lt (Cli.F64.ofNat 0) p.invMax
    then Cli.F64.clamp (inventory/p.invMax) (-Cli.F64.ofNat 1) (Cli.F64.ofNat 1)
    else Cli.F64.ofNat 0
  have hratio : (if 0 < (ported p).invMax
      then clamp (inventory.val/(ported p).invMax) (-1) 1 else 0) = ratio.val := by
    have hlt : Cli.F64.lt (Cli.F64.ofNat 0) p.invMax = decide (0 < (ported p).invMax) := by
      rw [lt_eq, val_ofNat, Nat.cast_zero]
      rfl
    dsimp only [ratio]
    rw [hlt]
    by_cases hmax : 0 < (ported p).invMax
    · rw [if_pos hmax, if_pos (decide_eq_true hmax), clamp_eq_min]
      change _ = min (max (inventory.val/p.invMax.val) (-((1:ℕ):ℚ))) ((1:ℕ):ℚ)
      rw [Nat.cast_one]
      rfl
    · rw [if_neg hmax, if_neg (fun h => hmax (of_decide_eq_true h))]
      exact Nat.cast_zero.symm
  unfold quotes
  dsimp only
  rw [hratio]
  simp [Cli.StrategyParams.quotes, ratio, ported]

/-- A sample, for the port. -/
def portedSample (s : ℕ × Exact log sqrt) : ℤ × ℚ := (s.1,s.2.val)

/-- The two windows hold the same samples. -/
structure Agree (v : VolWindow) (w : Cli.VolWindow (Exact log sqrt)) : Prop where
  samples : v.samples = w.samples.map portedSample
  window : v.windowMs = w.window

theorem Agree.record {v : VolWindow} {w : Cli.VolWindow (Exact log sqrt)} (h : Agree v w)
    (ts : ℕ) (mid : Exact log sqrt) : Agree (v.record ts mid.val) (w.record ts mid) := by
  unfold VolWindow.record Cli.VolWindow.record
  rw [le_eq, val_ofNat, Nat.cast_zero]
  by_cases hmid : mid.val ≤ 0
  · rwa [if_pos hmid, if_pos (decide_eq_true hmid)]
  · rw [if_neg hmid, if_neg (by simpa using hmid)]
    have hsamples : v.samples++[((ts:ℤ),mid.val)] = (w.samples++[(ts,mid)]).map portedSample := by
      rw [h.samples, List.map_append]
      rfl
    dsimp only
    rw [hsamples, h.window, List.dropWhile_map]
    split_ifs with hwindow
    · refine ⟨?_,rfl⟩
      dsimp only
      congr 2
      funext s
      apply decide_eq_decide.mpr
      dsimp only [portedSample]
      omega
    · -- a window that reaches before zero drops nothing, as no time is negative
      refine ⟨?_,rfl⟩
      dsimp only
      congr 1
      apply List.dropWhile_eq_self_iff.mpr
      intro hne hdrop
      have hold := of_decide_eq_true hdrop
      dsimp only [portedSample] at hold
      omega

theorem returns_ported (samples : List (ℕ × Exact log sqrt)) :
    returns log (samples.map portedSample) =
      (Cli.VolWindow.returns samples).map Exact.val := by
  fun_induction Cli.VolWindow.returns samples with
  | case1 t₀ prev t mid rest hpos ih =>
    simp only [lt_eq, val_ofNat, Nat.cast_zero, Bool.and_eq_true, decide_eq_true_eq] at hpos
    change _ = log (mid.val/prev.val) :: (Cli.VolWindow.returns ((t,mid) :: rest)).map Exact.val
    rw [List.map_cons, ← ih]
    exact if_pos hpos
  | case2 t₀ prev t mid rest hpos ih =>
    simp only [lt_eq, val_ofNat, Nat.cast_zero, Bool.and_eq_true, decide_eq_true_eq] at hpos
    rw [List.map_cons, ← ih]
    exact if_neg hpos
  | case3 samples hshort =>
    rcases samples with _ | ⟨a, _ | ⟨b, rest⟩⟩
    · rfl
    · rfl
    · exact absurd rfl (hshort _ _ _ _ _)

theorem Agree.realisedVol {v : VolWindow} {w : Cli.VolWindow (Exact log sqrt)} (h : Agree v w) :
    v.realisedVol log sqrt = w.realisedVol.val := by
  unfold VolWindow.realisedVol Cli.VolWindow.realisedVol
  dsimp only
  rw [h.samples, returns_ported, List.length_map]
  simp only [List.map_eq_nil_iff]
  split_ifs
  · exact Nat.cast_zero.symm
  · change sqrt _ = sqrt _
    congr 1
    simp [val_foldl_add, Function.comp_def]

end Exact

section Fills
variable (log sqrt : ℚ → ℚ) (cfg : SimConfig)

/-- What a bar fills of a bid and an ask. -/
def reached (size bid ask : ℚ) (bar : Bar) : List Margin.Fill :=
  (if bar.low ≤ bid then [⟨size, bid⟩] else [])++if ask ≤ bar.high then [⟨-size, ask⟩] else []

theorem quote_vol (s : Sim) (bar : Bar) : (s.quote log sqrt cfg bar).vol = s.vol := by
  unfold Sim.quote
  dsimp only
  split_ifs <;> rfl

theorem onBar_vol (s : Sim) (bar : Bar) :
    (s.onBar log sqrt cfg bar).vol = s.vol.record bar.tsMs bar.close := by
  unfold Sim.onBar
  dsimp only
  split_ifs
  · rfl
  · rw [quote_vol]

theorem onBar_trades (s : Sim) (bar : Bar) :
    let q := quotes cfg.strategy s.priorMid s.inventory (s.vol.realisedVol log sqrt)
    (s.onBar log sqrt cfg bar).trades =
      s.trades++if s.killed then [] else reached cfg.quoteSize q.bid q.ask bar := by
  unfold Sim.onBar
  dsimp only
  by_cases hk : s.killed = true
  · rw [if_pos hk, if_pos hk, List.append_nil]
  · rw [if_neg hk, if_neg hk]
    unfold Sim.quote reached
    dsimp only
    split_ifs <;> simp [Sim.bought, Sim.sold]

theorem tradesOf_cons (first : Bar) (bars : List Bar) :
    tradesOf log sqrt cfg (first :: bars) = (Sim.run log sqrt cfg first bars).trades := by
  cases bars with
  | nil => rfl
  | cons second rest => rfl

theorem simulateMarket_cons (market : String) (first : Bar) (bars : List Bar) :
    let r := simulateMarket log sqrt cfg market (first :: bars)
    let s := Sim.run log sqrt cfg first bars
    r.finalInventory = s.inventory ∧ r.killed = s.killed := by
  cases bars with
  | nil => exact ⟨rfl,rfl⟩
  | cons second rest => exact ⟨rfl,rfl⟩

theorem run_concat (first : Bar) (bars : List Bar) (bar : Bar) :
    Sim.run log sqrt cfg first (bars++[bar]) =
      (Sim.run log sqrt cfg first bars).onBar log sqrt cfg bar :=
  List.foldl_append

theorem run_priorMid (first : Bar) (bars : List Bar) :
    (Sim.run log sqrt cfg first bars).priorMid = finalClose first bars := by
  induction bars using List.reverseRecOn with
  | nil => rfl
  | append_singleton bars bar ih =>
    rw [run_concat]
    simp [Sim.onBar, finalClose]

/-- The window of an agent that has seen some bars. -/
def seen (window : ℕ) (bars : List Bar) : Cli.VolWindow (Exact log sqrt) :=
  bars.foldl (fun w bar => w.record bar.tsMs.toNat ⟨bar.close⟩) ⟨[], window⟩

variable {log sqrt}

theorem agree_record_bar {v : VolWindow} {w : Cli.VolWindow (Exact log sqrt)} (h : Agree v w)
    {bar : Bar} (hts : 0 ≤ bar.tsMs) :
    Agree (v.record bar.tsMs bar.close) (w.record bar.tsMs.toNat ⟨bar.close⟩) := by
  have hr := h.record bar.tsMs.toNat ⟨bar.close⟩
  rwa [Int.toNat_of_nonneg hts] at hr

/-- The harness keeps the window of an agent that sees its bars. -/
theorem run_agree {window : ℕ} (hwindow : cfg.volWindowMs = window) (first : Bar)
    (bars : List Bar) (hts : ∀ bar ∈ first :: bars, 0 ≤ bar.tsMs) :
    Agree (Sim.run log sqrt cfg first bars).vol (seen log sqrt window (first :: bars)) := by
  induction bars using List.reverseRecOn with
  | nil =>
    have hempty : Agree ⟨[], cfg.volWindowMs⟩ (⟨[], window⟩ : Cli.VolWindow (Exact log sqrt)) :=
      ⟨rfl,hwindow⟩
    exact agree_record_bar hempty (hts first List.mem_cons_self)
  | append_singleton bars bar ih =>
    have hseen : seen log sqrt window (first :: (bars++[bar])) =
        (seen log sqrt window (first :: bars)).record bar.tsMs.toNat ⟨bar.close⟩ :=
      List.foldl_append (l := first :: bars)
    rw [run_concat, onBar_vol, hseen]
    apply agree_record_bar
    · exact ih fun b hb => hts b (List.mem_append_left [bar] hb)
    · exact hts bar (List.mem_cons_of_mem _ (List.mem_append_right _ List.mem_cons_self))

/-- What the next bar adds to the fills of a market is what it reaches of the quotes that an agent
would have out: one of the same parameters that has seen the same bars and holds what the harness
holds. Once the market is stopped, nothing. -/
theorem replay_fills_as_agent (p : Cli.StrategyParams (Exact log sqrt)) (window : ℕ)
    (quoteSize killThresholdUsdc : ℚ) (market : String) (first : Bar) (bars : List Bar) (bar : Bar)
    (hts : ∀ b ∈ first :: bars, 0 ≤ b.tsMs) :
    let cfg : SimConfig := ⟨ported p, quoteSize, window, killThresholdUsdc⟩
    let r := simulateMarket log sqrt cfg market (first :: bars)
    let q := p.quotes ⟨finalClose first bars⟩ ⟨r.finalInventory⟩
      (seen log sqrt window (first :: bars)).realisedVol
    tradesOf log sqrt cfg (first :: (bars++[bar])) = tradesOf log sqrt cfg (first :: bars)++
      if r.killed then [] else reached quoteSize q.bid.val q.ask.val bar := by
  intro cfg r q
  obtain ⟨hinventory, hkilled⟩ := simulateMarket_cons log sqrt cfg market first bars
  have hagree : Agree (Sim.run log sqrt cfg first bars).vol (seen log sqrt window (first :: bars)) :=
    run_agree cfg rfl first bars hts
  have hquotes := quotes_ported p ⟨finalClose first bars⟩ ⟨r.finalInventory⟩
    (seen log sqrt window (first :: bars)).realisedVol
  rw [tradesOf_cons, tradesOf_cons, run_concat, onBar_trades, run_priorMid, ← hinventory,
    hagree.realisedVol, ← hkilled]
  dsimp only at hquotes
  change _++(if r.killed = true then [] else reached quoteSize
    (quotes (ported p) (finalClose first bars) r.finalInventory _).bid
      (quotes (ported p) (finalClose first bars) r.finalInventory _).ask bar) = _
  rw [hquotes]

end Fills

/-- The fills of the market that falls. -/
theorem replay_fills_as_agent_falling :
    let p : Cli.StrategyParams (Exact (·-1) id) := ⟨10, 20, ⟨100⟩, 1000, 5⟩
    let q := p.quotes ⟨90⟩ ⟨1/20⟩ (seen (·-1) id 900000 (falling.take 2)).realisedVol
    tradesOf (·-1) id ⟨defaultStrategy, 1/20, 900000, 1/4⟩ falling =
      [⟨1/20, 1999/20⟩, ⟨1/20, q.bid.val⟩, ⟨-1/20, q.ask.val⟩] := by
  intro p q
  have hts : ∀ b ∈ falling.take 2, 0 ≤ b.tsMs := by decide +kernel
  refine (replay_fills_as_agent p 900000 (1/20) (1/4) "btc-usd" _ _ _ hts).trans ?_
  decide +kernel

end Perplex.Replay
