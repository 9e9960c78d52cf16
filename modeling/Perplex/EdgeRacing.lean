import Mathlib.Tactic.FinCases
import Perplex.EdgeGrid
import Perplex.EdgeOverfill

/-! Takers that race each other in the arithmetic of `Decimal`. A section that panics ends its
call, and the lock that it holds is released. The levels of the public book may be rounded or not
fit; what a taker draws on is of one scale, so the fills are exact. -/
namespace Perplex.Edge
variable {ι : Type}

namespace Decimal

section Model
variable (round : ℚ → ℚ)

/-- What `rebuild_orderbook` adds up before it stores the book. -/
def levels (s : AppState) (env : Env) (marketId : String) :
    Except Unit (List (ℚ × ℚ) × List (ℚ × ℚ)) := do
  let bids ← (s.restingOrders env marketId .buy).foldlM (addLevel round ()) SortedMap.empty
  let asks ← (s.restingOrders env marketId .sell).foldlM (addLevel round ()) SortedMap.empty
  return (bids.entries.reverse,asks.entries)

/-- One section of a call that has to do with the open orders, or what its panic leaves. Two of
them calculate. The other calls are not modelled, and do not move. -/
def perform (devSeed : Bool) (i : ι) (w : Section) (s : Shared ι) :
    Option (Except (Shared ι) (Shared ι × List Section)) :=
  match w with
  | .fill env marketId takerQty candidates =>
    if s.readers = 0 then
      match fillSection round s.state env marketId takerQty candidates with
      | .error left => some (.error { s with state := left })
      | .ok (filled,next) =>
        some (.ok ({ s with state := next, matched := s.matched++filled.map fun m => (i,m) },
          [.readBook env marketId, .share filled]))
    else none
  | .readBook env marketId =>
    match levels round s.state env marketId with
    | .error _ => some (.error s)
    | .ok levels => some (.ok (s,[.storeBook marketId levels]))
  | .unlock => (Edge.perform devSeed i .unlock s).map .ok
  | w => if w.isOrder then (Edge.perform devSeed i w s).map .ok else none

variable [DecidableEq ι]

/-- One call runs its next section; a panic drops the rest of it. -/
def advance (devSeed : Bool) (c : Pool ι Section (Shared ι)) (i : ι) : Pool ι Section (Shared ι) :=
  match c.pending i with
  | [] => c
  | w :: ws =>
    match perform round devSeed i w c.shared with
    | none => c
    | some (.error s) => ⟨s, Function.update c.pending i []⟩
    | some (.ok (s,new)) => ⟨s, Function.update c.pending i (new++ws)⟩

def runSchedule (devSeed : Bool) (c : Pool ι Section (Shared ι)) (is : List ι) :
    Pool ι Section (Shared ι) :=
  is.foldl (advance round devSeed) c

end Model

end Decimal

/-- Sections none of which writes the open orders. -/
def Quiet (l : List Section) : Prop := ∀ w ∈ l, w.writesOrders = false

theorem Section.adds_of_quiet {w : Section} (h : w.writesOrders = false) : w.adds = [] := by
  unfold Section.writesOrders at h
  unfold Section.adds
  split <;> simp_all

/-- Only the first of the sections that follow may write the open orders. -/
theorem OrderStep.tail_quiet {i : ι} {s s' : Shared ι} {w : Section} {new : List Section}
    (h : OrderStep i s w s' new) : Quiet new.tail := by
  have hshare (filled : List MatchedFill) {tail : List Section}
      (htail : tail = [] ∨ tail = [.unlock]) :
      Quiet ((seen filled).map Section.queueOrders++tail) := by
    intro x hx
    rcases List.mem_append.mp hx with hx | hx
    · obtain ⟨a, -, rfl⟩ := List.mem_map.mp hx
      rfl
    · rcases htail with rfl | rfl
      · simp at hx
      · rw [List.mem_singleton.mp hx]
        rfl
  cases h with
  | share filled readers tail htail =>
    exact fun x hx => hshare filled htail x (List.mem_of_mem_tail hx)
  | other hw horders hbooks hmatched hsent hnew =>
    exact fun x hx => Section.writesOrders_of_not_isOrder (hnew x (List.mem_of_mem_tail hx))
  | _ => simp [Quiet, Section.writesOrders]

/-- The quantities that the takers draw and draw on are of the scale `k` of their market. -/
structure OneScale (k : String → ℕ) (c : Pool ι Section (Shared ι)) : Prop where
  orders : Decimal.Leaves (fun m x => rustDecimal.Grid (k m) x) c.shared.state.openOrders
  flying : ∀ a o, InFlight c a o → rustDecimal.Grid (k o.marketId) o.remaining
  takers : ∀ i env marketId takerSide takerPrice takerQty taker,
    Section.call (.matchTaker env marketId takerSide takerPrice takerQty taker) ∈ c.pending i →
      rustDecimal.Grid (k marketId) takerQty
  fills : ∀ i env marketId takerQty cs,
    Section.fill env marketId takerQty cs ∈ c.pending i → rustDecimal.Grid (k marketId) takerQty
  tails : ∀ i, Quiet (c.pending i).tail

section Swap
variable [DecidableEq ι] {c₀ : Pool ι Section (Shared ι)} {s : Shared ι} {p : ι → List Section}
  {i : ι} {l rest : List Section} (hl : Quiet l) (hrest : Quiet rest)
include hl hrest

theorem mem_swap {j : ι} {w : Section} (hw : w.writesOrders = true) :
    w ∈ Function.update p i rest j ↔ w ∈ Function.update p i l j := by
  by_cases hj : j = i
  · subst hj
    rw [Function.update_self, Function.update_self]
    refine iff_of_false (fun h => ?_) fun h => ?_
    · simp [hrest w h] at hw
    · simp [hl w h] at hw
  · rw [Function.update_of_ne hj, Function.update_of_ne hj]

theorem mem_swap_of_adds {j : ι} {w : Section} {id : ℕ} (hid : id ∈ w.adds) :
    w ∈ Function.update p i rest j ↔ w ∈ Function.update p i l j := by
  refine mem_swap hl hrest ?_
  by_contra hw
  rw [Section.adds_of_quiet (by simpa using hw)] at hid
  simp at hid

theorem coming_swap {id : ℕ} :
    Coming (⟨s, Function.update p i rest⟩ : Pool ι Section (Shared ι)) id ↔
      Coming (⟨s, Function.update p i l⟩ : Pool ι Section (Shared ι)) id :=
  exists_congr fun _ => exists_congr fun _ =>
    ⟨fun ⟨hw, hid⟩ => ⟨(mem_swap_of_adds hl hrest hid).mp hw, hid⟩,
      fun ⟨hw, hid⟩ => ⟨(mem_swap_of_adds hl hrest hid).mpr hw, hid⟩⟩

theorem inFlight_swap {a : Address} {o : OpenOrder} :
    InFlight (⟨s, Function.update p i rest⟩ : Pool ι Section (Shared ι)) a o ↔
      InFlight (⟨s, Function.update p i l⟩ : Pool ι Section (Shared ι)) a o :=
  exists_congr fun _ => exists_congr fun _ =>
    or_congr (mem_swap hl hrest rfl) (mem_swap hl hrest rfl)

theorem Named.swap (h : Named (⟨s, Function.update p i l⟩ : Pool ι Section (Shared ι))) :
    Named (⟨s, Function.update p i rest⟩ : Pool ι Section (Shared ι)) where
  nodup := h.nodup
  owner := h.owner
  fresh := fun id hid => h.fresh id ((coming_swap hl hrest).mp hid)
  once := by
    intro j
    have hnone : rest.flatMap Section.adds = [] :=
      List.flatMap_eq_nil_iff.mpr fun w hw => Section.adds_of_quiet (hrest w hw)
    have hold := h.once j
    by_cases hj : j = i
    · subst hj
      simp [hnone]
    · dsimp only at hold ⊢
      rwa [Function.update_of_ne hj] at hold ⊢
  apart := fun j j' w hw w' hw' id hid hid' =>
    h.apart j j' w ((mem_swap_of_adds hl hrest hid).mp hw) w'
      ((mem_swap_of_adds hl hrest hid').mp hw') id hid hid'
  candidates := fun j env marketId q cs hw k hk =>
    let ⟨hcome, hmarket⟩ := h.candidates j env marketId q cs ((mem_swap hl hrest rfl).mp hw) k hk
    ⟨fun hid => hcome ((coming_swap hl hrest).mp hid), hmarket⟩

theorem FillInv.swap (h : FillInv c₀ (⟨s, Function.update p i l⟩ : Pool ι Section (Shared ι))) :
    FillInv c₀ (⟨s, Function.update p i rest⟩ : Pool ι Section (Shared ι)) where
  named := h.named.swap hl hrest
  nonneg := h.nonneg
  flying := fun a o hf => h.flying a o ((inFlight_swap hl hrest).mp hf)
  takers := fun j env mk sd q t u hw => h.takers j env mk sd q t u ((mem_swap hl hrest rfl).mp hw)
  fills := fun j env mk q cs hw => h.fills j env mk q cs ((mem_swap hl hrest rfl).mp hw)
  cancels := fun j env a id hw => h.cancels j env a id ((mem_swap hl hrest rfl).mp hw)
  accounted := by
    intro a o hadd
    cases h.accounted a o hadd with
    | pending hfly hnone => exact .pending ((inFlight_swap hl hrest).mpr hfly) hnone
    | live hpushed hsum => exact .live (fun hid => hpushed ((coming_swap hl hrest).mp hid)) hsum
    | cancelled hpushed hgone hle hcancel =>
      exact .cancelled (fun hid => hpushed ((coming_swap hl hrest).mp hid)) hgone hle hcancel

theorem Gone.swap {a : Address} {id : ℕ}
    (h : Gone (⟨s, Function.update p i l⟩ : Pool ι Section (Shared ι)) a id) :
    Gone (⟨s, Function.update p i rest⟩ : Pool ι Section (Shared ι)) a id :=
  ⟨fun hid => h.1 ((coming_swap hl hrest).mp hid), h.2⟩

theorem TakerInv.swap {j : ι} {q : ℚ}
    (h : TakerInv (⟨s, Function.update p i l⟩ : Pool ι Section (Shared ι)) j q) :
    TakerInv (⟨s, Function.update p i rest⟩ : Pool ι Section (Shared ι)) j q := by
  by_cases hj : j = i
  · subst hj
    -- a call with only quiet sections left has been through its fills
    have hquiet {w : Section} (hp : Function.update p j l j = [w])
        (hw : w.writesOrders = true) : False := by
      rw [Function.update_self] at hp
      have hnot := hl w (hp ▸ List.mem_singleton_self w)
      simp [hnot] at hw
    cases h with
    | entering hp hnone => exact (hquiet hp rfl).elim
    | collected hp hnone => exact (hquiet hp rfl).elim
    | filled hp hle =>
      refine .filled (fun w hw => ?_) hle
      simp only [Function.update_self] at hw
      exact hrest w hw
  · have hsame (l : List Section) : (⟨s, Function.update p i l⟩ :
        Pool ι Section (Shared ι)).pending j = p j := Function.update_of_ne hj _ _
    cases h with
    | entering hp hnone => exact .entering ((hsame rest).trans ((hsame l).symm.trans hp)) hnone
    | collected hp hnone => exact .collected ((hsame rest).trans ((hsame l).symm.trans hp)) hnone
    | filled hp hle =>
      refine .filled (fun w hw => hp w ?_) hle
      rw [hsame] at hw ⊢
      exact hw

theorem OneScale.swap {k : String → ℕ}
    (h : OneScale k (⟨s, Function.update p i l⟩ : Pool ι Section (Shared ι))) :
    OneScale k (⟨s, Function.update p i rest⟩ : Pool ι Section (Shared ι)) where
  orders := h.orders
  flying := fun a o hf => h.flying a o ((inFlight_swap hl hrest).mp hf)
  takers := fun j env mk sd q t u hw => h.takers j env mk sd q t u ((mem_swap hl hrest rfl).mp hw)
  fills := fun j env mk q cs hw => h.fills j env mk q cs ((mem_swap hl hrest rfl).mp hw)
  tails := by
    intro j
    have hold := h.tails j
    by_cases hj : j = i
    · subst hj
      simp only [Function.update_self]
      exact fun w hw => hrest w (List.mem_of_mem_tail hw)
    · dsimp only at hold ⊢
      rwa [Function.update_of_ne hj] at hold ⊢

end Swap

section Step
variable [DecidableEq ι] {round : ℚ → ℚ} {k : String → ℕ} {c₀ c : Pool ι Section (Shared ι)} {i : ι}
  {w : Section} {ws new : List Section} {s : Shared ι} {devSeed : Bool}

omit [DecidableEq ι] in
theorem Named.namedIn (h : Named c) {env : Env} {marketId : String} {q : ℚ} {cs : List Candidate}
    (hw : Section.fill env marketId q cs ∈ c.pending i) :
    Decimal.NamedIn marketId c.shared.state.openOrders cs :=
  fun k hk => (h.candidates i env marketId q cs hw k hk).2

theorem OneScale.step (h : OneScale k c) (hn : Named c) (hp : c.pending i = w :: ws)
    (hs : OrderStep i c.shared w s new) :
    OneScale k ⟨s, Function.update c.pending i (new++ws)⟩ where
  orders := by
    cases hs with
    | push env address order =>
      intro a o ho
      rcases mem_setOrders_push ho with ho | ⟨rfl, rfl⟩
      · exact h.orders a o ho
      · exact h.flying a o ⟨i, env, Or.inr (hp ▸ List.mem_cons_self)⟩
    | remove env address orderId o' hfind =>
      exact fun a o ho => h.orders a o (mem_of_mem_setOrders_filter ho)
    | absent env address orderId hfind =>
      exact fun a o ho => h.orders a o (mem_of_mem_setOrders_filter ho)
    | fill env marketId takerQty cs =>
      -- the makers are orders of the market of the taker, and so of its scale
      have hq := h.fills i env marketId takerQty cs (hp ▸ List.mem_cons_self)
      exact (Decimal.fillSection_of_grid rustDecimal.halfEven_isRounding (fun _ => Iff.rfl) env cs
        hq h.orders (hn.namedIn (hp ▸ List.mem_cons_self))).2.1
    | other hw horders hbooks hmatched hsent hnew =>
      rw [horders]
      exact h.orders
    | _ => exact h.orders
  flying := fun a o hf => h.flying a o (hf.back hp hs)
  takers := fun j env mk sd q t u hx => h.takers j env mk sd q t u (hs.call_of_mem hp rfl hx)
  fills := by
    intro j env mk q cs hx
    rcases Pool.mem_pending_update hp hx with hold | ⟨rfl, hnew⟩
    · exact h.fills j env mk q cs hold
    · rcases hs.mem_new hnew with ⟨_, _, _, -, h'⟩ | ⟨env', mk', sd, p, q', t, rfl, h'⟩ | h'
      · simp at h'
      · obtain ⟨-, rfl, rfl, -⟩ : env = env' ∧ mk = mk' ∧ q = q' ∧ cs =
            c.shared.state.candidates env' mk' sd p t := by simpa using h'
        exact h.takers j env' mk sd p q t (hp ▸ List.mem_cons_self)
      · simp [Section.writesOrders] at h'
  tails := by
    intro j
    have hold := h.tails j
    by_cases hj : j = i
    · subst hj
      rw [hp, List.tail_cons] at hold
      simp only [Function.update_self]
      intro x hx
      cases new with
      | nil => exact hold x (List.mem_of_mem_tail hx)
      | cons y ys =>
        rcases List.mem_append.mp hx with hx | hx
        · exact hs.tail_quiet x hx
        · exact hold x hx
    · simp only [Function.update_of_ne hj]
      exact hold

omit [DecidableEq ι] in
/-- A section that runs does what it does on rationals. Only what it leaves to do may differ, where
it has read the book. -/
theorem Decimal.perform_cases (hround : rustDecimal.IsRounding round) {s₀ : Shared ι}
    {r : Except (Shared ι) (Shared ι × List Section)}
    (horders : Decimal.Leaves (fun m x => rustDecimal.Grid (k m) x) s₀.state.openOrders)
    (hq : ∀ env marketId q cs, w = .fill env marketId q cs → rustDecimal.Grid (k marketId) q ∧
      Decimal.NamedIn marketId s₀.state.openOrders cs)
    (h : Decimal.perform round devSeed i w s₀ = some r) :
    ∃ s new, OrderStep i s₀ w s new ∧
      (r = .ok (s,new) ∨ Quiet new ∧ (r = .error s ∨ ∃ new', Quiet new' ∧ r = .ok (s,new'))) := by
  have hplain (h : (Edge.perform devSeed i w s₀).map Except.ok = some r) :
      ∃ s new, OrderStep i s₀ w s new ∧ (r = .ok (s,new) ∨
        Quiet new ∧ (r = .error s ∨ ∃ new', Quiet new' ∧ r = .ok (s,new'))) := by
    obtain ⟨⟨s, new⟩, hs, rfl⟩ := Option.map_eq_some_iff.mp h
    exact ⟨s, new, perform_orderStep hs, Or.inl rfl⟩
  -- only filling and reading the book compute with decimals
  unfold Decimal.perform at h
  split at h
  · next env marketId takerQty candidates =>
    obtain ⟨hqty, hnamed⟩ := hq env marketId takerQty candidates rfl
    obtain ⟨hfill, -⟩ := Decimal.fillSection_of_grid hround (fun _ => Iff.rfl) env candidates
      hqty horders hnamed
    split_ifs at h with hr
    rw [hfill] at h
    obtain rfl := Option.some.inj h
    exact ⟨_, _, .fill env marketId takerQty candidates, Or.inl rfl⟩
  · next env marketId =>
    refine ⟨_, _, .readBook env marketId, Or.inr ⟨by simp [Quiet, Section.writesOrders], ?_⟩⟩
    split at h
    · exact Or.inl (Option.some.inj h).symm
    · exact Or.inr ⟨_, by simp [Quiet, Section.writesOrders], (Option.some.inj h).symm⟩
  · exact hplain h
  · split_ifs at h with hw
    exact hplain h

/-- So does a step. A panic drops what is left of the call, which writes no orders. -/
theorem Decimal.advance_cases (hround : rustDecimal.IsRounding round) (h : OneScale k c)
    (hn : Named c) (i : ι) :
    Decimal.advance round devSeed c i = c ∨ ∃ w ws s new rest, c.pending i = w :: ws ∧
      OrderStep i c.shared w s new ∧
      Decimal.advance round devSeed c i = ⟨s, Function.update c.pending i rest⟩ ∧
      (rest = new++ws ∨ Quiet (new++ws) ∧ Quiet rest) := by
  unfold Decimal.advance
  cases hp : c.pending i with
  | nil => exact Or.inl rfl
  | cons w ws =>
    have htail := h.tails i
    rw [hp, List.tail_cons] at htail
    have hquiet {new : List Section} (hnew : Quiet new) : Quiet (new++ws) := by
      intro x hx
      rcases List.mem_append.mp hx with hx | hx
      · exact hnew x hx
      · exact htail x hx
    cases hr : Decimal.perform round devSeed i w c.shared with
    | none => exact Or.inl (by simp only [hr])
    | some r =>
      right
      obtain ⟨s, new, hs, rfl | ⟨hnew, rfl | ⟨new', hnew', rfl⟩⟩⟩ :=
        Decimal.perform_cases hround h.orders
          (fun env mk q cs hw => by
            have hmem : Section.fill env mk q cs ∈ c.pending i := hp ▸ hw ▸ List.mem_cons_self
            exact ⟨h.fills i env mk q cs hmem, hn.namedIn hmem⟩) hr
      · exact ⟨w, ws, s, new, _, rfl, hs, by simp only [hr], Or.inl rfl⟩
      -- the call has panicked and does nothing more
      · exact ⟨w, ws, s, new, [], rfl, hs, by simp only [hr], Or.inr ⟨hquiet hnew, by simp [Quiet]⟩⟩
      · exact ⟨w, ws, s, new, _, rfl, hs, by simp only [hr],
          Or.inr ⟨hquiet hnew, hquiet hnew'⟩⟩

/-- What the sections keep, and what does not depend on quiet sections, is kept by every
schedule. -/
theorem Decimal.runSchedule_invariant (hround : rustDecimal.IsRounding round)
    {P : Pool ι Section (Shared ι) → Prop}
    (hstep : ∀ c i w ws s new, FillInv c₀ c → P c → c.pending i = w :: ws →
      OrderStep i c.shared w s new → P ⟨s, Function.update c.pending i (new++ws)⟩)
    (hswap : ∀ s p i l rest, Quiet l → Quiet rest → P ⟨s, Function.update p i l⟩ →
      P ⟨s, Function.update p i rest⟩)
    (hscale : OneScale k c) (hinv : FillInv c₀ c) (hP : P c) (is : List ι) :
    OneScale k (Decimal.runSchedule round devSeed c is) ∧
      FillInv c₀ (Decimal.runSchedule round devSeed c is) ∧
      P (Decimal.runSchedule round devSeed c is) := by
  refine foldl_invariant (P := fun c => OneScale k c ∧ FillInv c₀ c ∧ P c)
    (R := fun _ _ => True) ?_ ⟨hscale, hinv, hP⟩ (fun _ _ _ => trivial)
  rintro c i ⟨hscale, hinv, hP⟩ -
  rcases Decimal.advance_cases hround hscale hinv.named i with
    he | ⟨w, ws, s, new, rest, hp, hs, he, hrest⟩
  · rw [he]
    exact ⟨hscale, hinv, hP⟩
  · rw [he]
    have hscale' := hscale.step hinv.named hp hs
    have hinv' := hinv.step hp hs
    have hP' := hstep c i w ws s new hinv hP hp hs
    rcases hrest with rfl | ⟨hl, hrest⟩
    · exact ⟨hscale', hinv', hP'⟩
    · exact ⟨hscale'.swap hl hrest, hinv'.swap hl hrest, hswap _ _ _ _ _ hl hrest hP'⟩

end Step

section Main
variable [DecidableEq ι] {round : ℚ → ℚ} {k : String → ℕ} {c₀ c : Pool ι Section (Shared ι)}

omit [DecidableEq ι] in
theorem PositiveOpening.oneScale (h : PositiveOpening c)
    (horders : ∀ a o, Added c a o → rustDecimal.Grid (k o.marketId) o.remaining)
    (htakers : ∀ i env marketId takerSide takerPrice takerQty taker,
      Section.call (.matchTaker env marketId takerSide takerPrice takerQty taker) ∈ c.pending i →
        rustDecimal.Grid (k marketId) takerQty) : OneScale k c where
  orders := fun a o ho => horders a o (Or.inl ho)
  flying := by
    rintro a o ⟨i, env, hw | hw⟩
    · exact horders a o (Or.inr ⟨i, env, hw⟩)
    · have hcall := (h.isCall hw).1
      simp [Section.isCall] at hcall
  takers := htakers
  fills := by
    intro i env mk q cs hw
    have hcall := (h.isCall hw).1
    simp [Section.isCall] at hcall
  tails := by
    intro i
    rcases h.calls i with hp | ⟨w, -, hp⟩
    · simp [hp, Quiet]
    · simp [hp, Quiet]

/-- The cancel section takes the order off the book. -/
theorem gone_of_cancel (devSeed : Bool) {i : ι} {env : Env} {a : Address} {id : ℕ}
    {ws : List Section} (hp : c.pending i = .call (.cancelOrder env a id) :: ws)
    (hr : c.shared.readers = 0) (hpushed : ¬ Coming c id) :
    Gone (Decimal.advance round devSeed c i) a id ∧
      allFills (Decimal.advance round devSeed c i) = allFills c := by
  have hgone : ∀ o ∈ (c.shared.setOrders a ((c.shared.state.openOrders a).filter fun o =>
      o.id ≠ id)).state.openOrders a, o.id ≠ id := by
    intro o ho
    simp only [Shared.setOrders, Function.update_self] at ho
    simpa using (List.mem_filter.mp ho).2
  have hstep {s : Shared ι} {new : List Section}
      (hs : Edge.perform devSeed i (.call (.cancelOrder env a id)) c.shared = some (s,new)) :
      Decimal.advance round devSeed c i = ⟨s, Function.update c.pending i (new++ws)⟩ := by
    have hsame : Decimal.perform round devSeed i (.call (.cancelOrder env a id)) c.shared =
        some (.ok (s,new)) := congrArg (Option.map Except.ok) hs
    unfold Decimal.advance
    simp only [hp, hsame]
  cases hfind : (c.shared.state.openOrders a).find? (fun o => o.id = id) with
  | none =>
    rw [hstep (by simp only [perform, Shared.enter, if_pos hr, hfind]; rfl)]
    exact ⟨⟨fun hc => hpushed (coming_of_step hp (by simp) hc), hgone⟩, rfl⟩
  | some o =>
    rw [hstep (by simp only [perform, Shared.enter, if_pos hr, hfind]; rfl)]
    exact ⟨⟨fun hc => hpushed (coming_of_step hp (by simp [Section.adds]) hc), hgone⟩, rfl⟩

theorem Gone.runSchedule (hround : rustDecimal.IsRounding round) {a : Address} {id : ℕ}
    (h : Gone c a id) (hscale : OneScale k c) (hinv : FillInv c₀ c) (devSeed : Bool)
    (is : List ι) : fillsOf a id (allFills (Decimal.runSchedule round devSeed c is)) =
      fillsOf a id (allFills c) := by
  have hrun := @Decimal.runSchedule_invariant ι _ round k c₀ c devSeed hround
    (fun c' => Gone c' a id ∧ fillsOf a id (allFills c') = fillsOf a id (allFills c))
    (fun _ _ _ _ _ _ _ hc hp hs =>
      ⟨(hc.1.step hp hs).1, (hc.1.step hp hs).2.trans hc.2⟩)
    (fun _ _ _ _ _ hl hrest hc => ⟨hc.1.swap hl hrest, hc.2⟩) hscale hinv ⟨h, rfl⟩ is
  exact hrun.2.2.2

/-- However the sections of calls that add, cancel and match orders interleave: an order on the
book is filled for what it has lost, one that has left it uncancelled for all it had, and no order
for more; nobody fills an order after its cancel section; and no taker gets more than it asked for.
The quantities of the orders and the takers of a market are of one scale. -/
theorem run_fills_exact (hround : rustDecimal.IsRounding round) (devSeed : Bool)
    (h : PositiveOpening c)
    (horders : ∀ a o, Added c a o → rustDecimal.Grid (k o.marketId) o.remaining)
    (htakers : ∀ i env marketId takerSide takerPrice takerQty taker,
      Section.call (.matchTaker env marketId takerSide takerPrice takerQty taker) ∈ c.pending i →
        rustDecimal.Grid (k marketId) takerQty) (is : List ι) :
    (∀ a o, Added c a o →
      (∀ x ∈ (Decimal.runSchedule round devSeed c is).shared.state.openOrders a, x.id = o.id →
        filledOf a o.id (allFills (Decimal.runSchedule round devSeed c is)) =
          o.remaining-x.remaining) ∧
      (Gone (Decimal.runSchedule round devSeed c is) a o.id → ¬ CancelledIn c a o.id →
        filledOf a o.id (allFills (Decimal.runSchedule round devSeed c is)) = o.remaining) ∧
      filledOf a o.id (allFills (Decimal.runSchedule round devSeed c is)) ≤ o.remaining) ∧
    (∀ pre i post env a id, is = pre++i :: post →
      (Decimal.runSchedule round devSeed c pre).pending i = [.call (.cancelOrder env a id)] →
      (Decimal.runSchedule round devSeed c pre).shared.readers = 0 →
      ¬ Coming (Decimal.runSchedule round devSeed c pre) id →
        fillsOf a id (allFills (Decimal.runSchedule round devSeed c is)) =
          fillsOf a id (allFills (Decimal.runSchedule round devSeed c pre))) ∧
    ∀ i env marketId takerSide takerPrice takerQty taker,
      c.pending i = [.call (.matchTaker env marketId takerSide takerPrice takerQty taker)] →
        ((callFills (Decimal.runSchedule round devSeed c is) i).map MatchedFill.qty).sum ≤
          takerQty := by
  have hscale := h.oneScale horders htakers
  have hkeep (is : List ι) : OneScale k (Decimal.runSchedule round devSeed c is) ∧
      FillInv c (Decimal.runSchedule round devSeed c is) := by
    obtain ⟨hs, hi, -⟩ := @Decimal.runSchedule_invariant ι _ round k c c devSeed hround
      (fun _ => True) (fun _ _ _ _ _ _ _ _ _ _ => trivial) (fun _ _ _ _ _ _ _ _ => trivial)
      hscale h.fillInv trivial is
    exact ⟨hs, hi⟩
  refine ⟨fun a o hadd => (hkeep is).2.exact hadd, ?_, ?_⟩
  · rintro pre i post env a id rfl hp hr hpushed
    obtain ⟨hgone, hsame⟩ := @gone_of_cancel ι _ round _ devSeed _ _ _ _ _ hp hr hpushed
    have hsplit : Decimal.runSchedule round devSeed c (pre++i :: post) =
        Decimal.runSchedule round devSeed (Decimal.advance round devSeed
          (Decimal.runSchedule round devSeed c pre) i) post := by
      simp [Decimal.runSchedule]
    have hnext := hkeep (pre++[i])
    have hone : Decimal.runSchedule round devSeed c (pre++[i]) = Decimal.advance round devSeed
        (Decimal.runSchedule round devSeed c pre) i := by
      simp [Decimal.runSchedule]
    rw [hone] at hnext
    rw [hsplit, hgone.runSchedule hround hnext.1 hnext.2 devSeed post, hsame]
  · intro i env marketId takerSide takerPrice takerQty taker hp
    have hq := h.takers i env marketId takerSide takerPrice takerQty taker
      (hp ▸ List.mem_cons_self)
    have hnone : callFills c i = [] := by simp [callFills, h.matched]
    obtain ⟨-, -, htaker⟩ := @Decimal.runSchedule_invariant ι _ round k c c devSeed hround
      (fun c' => TakerInv c' i takerQty) (fun _ _ _ _ _ _ hinv ht hp hs => ht.step hinv hp hs)
      (fun _ _ _ _ _ hl hrest ht => ht.swap hl hrest) hscale h.fillInv (.entering hp hnone) is
    exact htaker.le hq.le

end Main

/-- Two takers of a quarter each, about to race for the order of account 2, which account 2 is
about to cancel. -/
def racingTakers : Pool (Fin 3) Section (Shared (Fin 3)) where
  shared :=
    { state := { AppState.new with
        openOrders := fun a =>
          if a = 2 then [⟨0, "btc-usd", .sell, .limit, 100, 1, 1, 0, none⟩] else [] }
      hasVault := fun _ => false
      sent := []
      readers := 0
      matched := [] }
  pending := fun i => match i with
    | 0 => [.call (.matchTaker (twoAccounts 1) "btc-usd" .buy (some 100) (1/4) 1)]
    | 1 => [.call (.matchTaker (twoAccounts 1) "btc-usd" .buy (some 100) (1/4) 3)]
    | 2 => [.call (.cancelOrder (twoAccounts 1) 2 0)]

theorem mem_racingTakers {a : Address} {o : OpenOrder}
    (ho : o ∈ racingTakers.shared.state.openOrders a) :
    a = 2 ∧ o = ⟨0, "btc-usd", .sell, .limit, 100, 1, 1, 0, none⟩ := by
  simp only [racingTakers] at ho
  split_ifs at ho with ha
  · exact ⟨ha, by simpa using ho⟩
  · simp at ho

theorem racingTakers_opening : PositiveOpening racingTakers := by
  have hbook {a : Address} {o : OpenOrder} (ho : o ∈ racingTakers.shared.state.openOrders a) :=
    mem_racingTakers ho
  have hadds {i : Fin 3} {env : Env} {a : Address} {o : OpenOrder} :
      Section.call (.addOpenOrder env a o) ∉ racingTakers.pending i := by
    fin_cases i <;> simp [racingTakers]
  refine ⟨⟨?_, ?_, ?_, ?_, ?_⟩, rfl, ?_, ?_⟩
  · intro i
    right
    fin_cases i
    · exact ⟨_, rfl, rfl⟩
    · exact ⟨_, rfl, rfl⟩
    · exact ⟨_, rfl, rfl⟩
  · intro a
    simp only [racingTakers]
    split_ifs <;> simp
  · intro a b o ho o' ho' _
    rw [(hbook ho).1, (hbook ho').1]
  · exact fun i env a o h => absurd h hadds
  · exact fun i j env env' a b o o' h => absurd h hadds
  · rintro a o (ho | ⟨i, env, h⟩)
    · rw [(hbook ho).2]
      norm_num
    · exact absurd h hadds
  · intro i env mk sd p q t h
    have hq : q = 1/4 := by
      fin_cases i <;> simp_all [racingTakers]
    rw [hq]
    norm_num

/-- Both takers collect, the first one fills, and the cancel comes before the second. -/
theorem run_fills_exact_racingTakers :
    let is : List (Fin 3) := [0, 1, 0, 2, 1]
    let c := Decimal.runSchedule rustDecimal.halfEven false racingTakers is
    filledOf 2 0 (allFills c) = 1/4 ∧ callFills c 1 = [] ∧
      ∀ a o, Added racingTakers a o → filledOf a o.id (allFills c) ≤ o.remaining := by
  intro is c
  refine ⟨by decide +kernel, by decide +kernel, ?_⟩
  have horders : ∀ a o, Added racingTakers a o → rustDecimal.Grid 2 o.remaining := by
    rintro a o (ho | ⟨i, env, h⟩)
    · rw [(mem_racingTakers ho).2]
      decide +kernel
    · fin_cases i <;> simp [racingTakers] at h
  have htakers : ∀ i env mk sd p q t, Section.call (.matchTaker env mk sd p q t) ∈
      racingTakers.pending i → rustDecimal.Grid 2 q := by
    intro i env mk sd p q t h
    have hq : q = 1/4 := by
      fin_cases i <;> simp_all [racingTakers]
    rw [hq]
    decide +kernel
  intro a o hadd
  exact ((@run_fills_exact _ _ _ (fun _ => 2) _ rustDecimal.halfEven_isRounding false
    racingTakers_opening horders htakers is).1 a o hadd).2.2

/-- One taker of ten before an order of four units of the last decimal place, and one of ten. -/
def dustTaker : Pool Unit Section (Shared Unit) where
  shared :=
    { state := { AppState.new with
        openOrders := fun a =>
          if a = 1 then [⟨1, "btc-usd", .sell, .limit, 100, 4/10^28, 4/10^28, 1, none⟩]
          else if a = 2 then [⟨2, "btc-usd", .sell, .limit, 100, 10, 10, 2, none⟩]
          else [] }
      hasVault := fun _ => false
      sent := []
      readers := 0
      matched := [] }
  pending := fun _ => [.call (.matchTaker (twoAccounts 1) "btc-usd" .buy (some 100) 10 3)]

/-- Ten less the dust is rounded to ten, so the taker gets more than it asked for. -/
theorem dust_overfills_racing_taker : PositiveOpening dustTaker ∧
    ((callFills (Decimal.runSchedule rustDecimal.halfEven false dustTaker [(), ()]) ()).map
      MatchedFill.qty).sum > 10 := by
  have hbook {a : Address} {o : OpenOrder} (ho : o ∈ dustTaker.shared.state.openOrders a) :
      0 < o.remaining ∧ (a = 1 ∧ o.id = 1 ∨ a = 2 ∧ o.id = 2) := by
    simp only [dustTaker] at ho
    split_ifs at ho with h1 h2
    · obtain rfl := List.mem_singleton.mp ho
      exact ⟨by norm_num, Or.inl ⟨h1, rfl⟩⟩
    · obtain rfl := List.mem_singleton.mp ho
      exact ⟨by norm_num, Or.inr ⟨h2, rfl⟩⟩
    · simp at ho
  have hadds {i : Unit} {env : Env} {a : Address} {o : OpenOrder} :
      Section.call (.addOpenOrder env a o) ∉ dustTaker.pending i := by
    simp [dustTaker]
  refine ⟨⟨⟨fun i => Or.inr ⟨_, rfl, rfl⟩, ?_, ?_, ?_, ?_⟩, rfl, ?_, ?_⟩, by decide +kernel⟩
  · intro a
    simp only [dustTaker]
    split_ifs <;> simp
  · intro a b o ho o' ho' he
    rcases (hbook ho).2 with ⟨rfl, h⟩ | ⟨rfl, h⟩ <;>
      rcases (hbook ho').2 with ⟨rfl, h'⟩ | ⟨rfl, h'⟩ <;> simp_all
  · exact fun i env a o h => absurd h hadds
  · exact fun i j env env' a b o o' h => absurd h hadds
  · rintro a o (ho | ⟨i, env, h⟩)
    · exact (hbook ho).1
    · exact absurd h hadds
  · intro i env mk sd p q t h
    have hq : q = 10 := by simp_all [dustTaker]
    rw [hq]
    norm_num

end Perplex.Edge
