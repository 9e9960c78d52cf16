import Mathlib.Algebra.Order.BigOperators.Group.Finset
import Perplex.EdgeLeverage
import Perplex.PersistModel

/-! The liquidation keepers (`perplex-liquidator`) and the admin routes of the edge that they
call. A keeper scans for liquidatable positions and then asks for the close of each one it has
found; several keepers may run side by side, with the same findings. A request for a close is
served in one step. -/
namespace Perplex.Edge

inductive AdminError where
  | unauthorized (message : String)
  | badRequest (message : String)
deriving DecidableEq, Repr

/-- `check_admin`, with `PERPLEX_ADMIN_SECRET` and the header of the request. -/
def checkAdmin (secret header : Option String) : Except AdminError Unit :=
  match secret.filter (· ≠ "") with
  | none => .error (.unauthorized "admin endpoints disabled (PERPLEX_ADMIN_SECRET unset)")
  | some want => ensure (header.getD "" = want) (.unauthorized "invalid admin secret") ()

def listLiquidatable (d : DurableState) (secret header : Option String) (keys : List Address) :
    Except AdminError (List LiquidatablePosition) := do
  checkAdmin secret header
  return d.state.scanLiquidatable keys

def liquidate (d : DurableState) (secret header : Option String) (now fillId tradeId : ℕ)
    (address : Address) (marketId : String) :
    Except AdminError LiquidationOutcome × DurableState :=
  match checkAdmin secret header with
  | .error e => (.error e,d)
  | .ok _ =>
    match d.liquidatePosition now fillId tradeId address marketId with
    | (some outcome,d) => (.ok outcome,d)
    | (none,d) => (.error (.badRequest "position not found or not liquidatable"),d)

/-- The edge, and what each keeper has found and not yet asked to close. -/
structure Keepers (ι : Type) where
  edge : DurableState
  targets : ι → List (Address × String)

/-- The two requests of the loop. A scan may stay without an answer, and a request to close may
get lost; the keeper goes on in either case. -/
inductive KeeperStep (ι : Type) where
  | scan (k : ι) (keys : List Address) (answered : Bool)
  | liquidate (k : ι) (now fillId tradeId : ℕ) (arrives : Bool)

namespace Keepers
variable {ι : Type} [DecidableEq ι] (secret : Option String) (adminSecret : ι → String)

def step (c : Keepers ι) : KeeperStep ι → Keepers ι
  | .scan k keys answered =>
    if c.targets k ≠ [] ∨ answered = false then c
    else
      match listLiquidatable c.edge secret (some (adminSecret k)) keys with
      | .error _ => c
      | .ok found => { c with
          targets := Function.update c.targets k (found.map fun t => (t.address,t.marketId)) }
  | .liquidate k now fillId tradeId arrives =>
    match c.targets k with
    | [] => c
    | t :: rest =>
      let edge := if arrives
        then (Edge.liquidate c.edge secret (some (adminSecret k)) now fillId tradeId t.1 t.2).2
        else c.edge
      ⟨edge, Function.update c.targets k rest⟩

def run (c : Keepers ι) (ls : List (KeeperStep ι)) : Keepers ι :=
  ls.foldl (step secret adminSecret) c

end Keepers

namespace AppState
variable {s s' : AppState} {a b : Address} {p : PositionInfo}

/-- The scan would list the position. -/
def Unhealthy (s : AppState) (a : Address) (p : PositionInfo) : Prop :=
  ∃ h, s.positionHealth a p = some h ∧ h < 1

/-- No position of the account would be listed. -/
def Healthy (s : AppState) (a : Address) : Prop := ∀ p ∈ s.positions a, ¬ s.Unhealthy a p

/-- An account has one position per market. -/
def Single (s : AppState) : Prop := ∀ a, ((s.positions a).map PositionInfo.marketId).Nodup

/-- Number of positions, over all accounts. -/
def openPositions (s : AppState) : ℕ := ∑ a : Address, (s.positions a).length

/-- A position below the margin is closed: it leaves the account with its market, and what
changes besides is the balance of the account and no price. -/
structure Closes (s s' : AppState) (a : Address) (p : PositionInfo) : Prop where
  mem : p ∈ s.positions a
  unhealthy : s.Unhealthy a p
  positions : s'.positions =
    Function.update s.positions a ((s.positions a).filter (·.marketId ≠ p.marketId))
  balances : ∀ b, b ≠ a → s'.vaultBalances b = s.vaultBalances b
  market : ∀ m, s'.market m = s.market m

theorem Closes.openPositions_lt (h : s.Closes s' a p) : s'.openPositions < s.openPositions := by
  unfold openPositions
  apply Finset.sum_lt_sum
  · intro b _
    rw [h.positions]
    by_cases hb : b = a
    · subst hb
      rw [Function.update_self]
      exact List.length_filter_le _ _
    · rw [Function.update_of_ne hb]
  · refine ⟨a,Finset.mem_univ a,?_⟩
    rw [h.positions, Function.update_self]
    -- the position that is closed is one of those filtered out
    exact List.length_filter_lt_length_iff_exists.mpr ⟨p,h.mem,by simp⟩

theorem Closes.single (h : s.Closes s' a p) (hs : s.Single) : s'.Single := by
  intro b
  rw [h.positions]
  by_cases hb : b = a
  · subst hb
    rw [Function.update_self]
    exact (hs b).sublist (List.filter_sublist.map _)
  · rw [Function.update_of_ne hb]
    exact hs b

/-- Health is a matter of the account and the prices. -/
theorem unhealthy_congr (hbalance : s'.vaultBalances b = s.vaultBalances b)
    (hmarket : ∀ m, s'.market m = s.market m) : s'.Unhealthy b p ↔ s.Unhealthy b p := by
  unfold Unhealthy positionHealth liqInputs
  rw [hbalance, hmarket]

/-- What happens to a healthy account: nothing. -/
structure Spared (s s' : AppState) (b : Address) : Prop where
  positions : s'.positions b = s.positions b
  balance : s'.vaultBalances b = s.vaultBalances b
  healthy : s'.Healthy b

theorem Closes.spares (h : s.Closes s' a p) (hb : s.Healthy b) : s.Spared s' b := by
  have hne : b ≠ a := by
    rintro rfl
    exact hb p h.mem h.unhealthy
  have hpositions : s'.positions b = s.positions b := by
    rw [h.positions, Function.update_of_ne hne]
  refine ⟨hpositions,h.balances b hne,?_⟩
  intro q hq
  rw [hpositions] at hq
  rw [unhealthy_congr (h.balances b hne) h.market]
  exact hb q hq

end AppState

open AppState

/-- A request to close goes through with an unhealthy position, or changes nothing. -/
theorem liquidatePosition_cases (d : DurableState) (now fillId tradeId : ℕ) (a : Address)
    (m : String) : (d.liquidatePosition now fillId tradeId a m).2 = d ∨
      ∃ p, p.marketId = m ∧
        d.state.Closes (d.liquidatePosition now fillId tradeId a m).2.state a p := by
  unfold DurableState.liquidatePosition
  cases hl : d.state.liquidatable a m with
  | none => exact .inl rfl
  | some r =>
    obtain ⟨p, health, mark⟩ := r
    right
    unfold AppState.liquidatable at hl
    obtain ⟨q, hfind, hl⟩ := Option.bind_eq_some_iff.mp hl
    obtain ⟨x, hhealth, hl⟩ := Option.bind_eq_some_iff.mp hl
    split_ifs at hl with hlt
    obtain ⟨i, -, hi⟩ := Option.map_eq_some_iff.mp hl
    obtain ⟨rfl, hi⟩ := Prod.mk.inj hi
    obtain rfl : q.marketId = m := by simpa using List.find?_some hfind
    refine ⟨q,rfl,List.mem_of_find?_eq_some hfind,⟨x,hhealth,not_le.mp hlt⟩,rfl,?_,?_⟩
    · intro b hb
      exact Function.update_of_ne hb _ _
    · exact fun _ => rfl

/-- It does go through with the position it names. -/
theorem liquidatePosition_of_unhealthy {d : DurableState} (hs : d.state.Single) {a : Address}
    {p : PositionInfo} (hp : p ∈ d.state.positions a) (hu : d.state.Unhealthy a p)
    (now fillId tradeId : ℕ) :
    (d.liquidatePosition now fillId tradeId a p.marketId).2 ≠ d := by
  obtain ⟨h, hh, hlt⟩ := hu
  have hfind : (d.state.positions a).find? (fun q => q.marketId = p.marketId) = some p := by
    obtain ⟨q, hq⟩ : ∃ q, (d.state.positions a).find? (fun q => q.marketId = p.marketId) = some q :=
      Option.isSome_iff_exists.mp (List.find?_isSome.mpr ⟨p,hp,by simp⟩)
    have hmarket : q.marketId = p.marketId := by simpa using List.find?_some hq
    rw [hq, List.inj_on_of_nodup_map (hs a) (List.mem_of_find?_eq_some hq) hp hmarket]
  obtain ⟨i, hi, -⟩ := Option.bind_eq_some_iff.mp hh
  have hl : d.state.liquidatable a p.marketId = some (p,h,i.mark) := by
    simp [AppState.liquidatable, hfind, hh, not_le.mpr hlt, hi]
  intro he
  have hpositions := congrArg (fun d => d.state.positions a) he
  unfold DurableState.liquidatePosition at hpositions
  simp only [hl] at hpositions
  change Function.update d.state.positions a _ a = _ at hpositions
  rw [Function.update_self] at hpositions
  -- the position is still there
  rw [← hpositions, List.mem_filter] at hp
  simp at hp

/-- So does a request of a keeper with the secret of the edge; without it nothing happens. -/
theorem liquidate_cases (d : DurableState) (secret header : Option String)
    (now fillId tradeId : ℕ) (a : Address) (m : String) :
    (liquidate d secret header now fillId tradeId a m).2 = d ∨
      (liquidate d secret header now fillId tradeId a m).2 =
        (d.liquidatePosition now fillId tradeId a m).2 := by
  unfold liquidate
  split
  · exact .inl rfl
  · right
    rcases d.liquidatePosition now fillId tradeId a m with ⟨_ | outcome, d'⟩ <;> rfl

theorem checkAdmin_self {w : String} (hw : w ≠ "") : checkAdmin (some w) (some w) = .ok () := by
  have hkept : (some w).filter (· ≠ "") = some w := by simp [hw]
  unfold checkAdmin
  rw [hkept]
  exact ensure_of rfl _ _

theorem liquidate_of_secret {w : String} (hw : w ≠ "") (d : DurableState)
    (now fillId tradeId : ℕ) (a : Address) (m : String) :
    (liquidate d (some w) (some w) now fillId tradeId a m).2 =
      (d.liquidatePosition now fillId tradeId a m).2 := by
  unfold liquidate
  rw [checkAdmin_self hw]
  dsimp only
  rcases d.liquidatePosition now fillId tradeId a m with ⟨_ | outcome, d'⟩ <;> rfl

/-- What the scan lists is there and unhealthy. -/
theorem unhealthy_of_scan {s : AppState} {keys : List Address} {l : LiquidatablePosition}
    (hl : l ∈ s.scanLiquidatable keys) :
    ∃ p ∈ s.positions l.address, p.marketId = l.marketId ∧ s.Unhealthy l.address p := by
  simp only [scanLiquidatable, List.mem_filterMap, List.mem_flatMap, List.mem_map] at hl
  obtain ⟨_, ⟨a, ha, p, hp, rfl⟩, hl⟩ := hl
  cases hh : s.positionHealth a p with
  | none => simp [hh] at hl
  | some h =>
    simp only [hh] at hl
    split_ifs at hl with hlt
    cases hl
    exact ⟨p,hp,rfl,h,hh,hlt⟩

/-- A scan of every account with positions comes back empty when all are healthy. -/
theorem healthy_of_scan {s : AppState} {keys : List Address}
    (hkeys : ∀ a, s.positions a ≠ [] → a ∈ keys) (hnil : s.scanLiquidatable keys = [])
    (a : Address) : s.Healthy a := by
  intro p hp hu
  obtain ⟨h, hh, hlt⟩ := hu
  obtain ⟨l, hl, -⟩ := mem_scanLiquidatable.mpr
    ⟨hkeys a (List.ne_nil_of_mem hp),p,hp,h,hh,hlt⟩
  rw [hnil] at hl
  cases hl

namespace Keepers
variable {ι : Type} [DecidableEq ι] {secret : Option String} {adminSecret : ι → String}
  {c : Keepers ι}

/-- A step of a keeper closes an unhealthy position, or leaves the edge as it is. -/
theorem step_edge_cases (c : Keepers ι) (l : KeeperStep ι) :
    (c.step secret adminSecret l).edge = c.edge ∨
      ∃ a p, c.edge.state.Closes (c.step secret adminSecret l).edge.state a p := by
  cases l with
  | scan k keys answered =>
    left
    unfold step
    dsimp only
    split_ifs
    · rfl
    · split <;> rfl
  | liquidate k now fillId tradeId arrives =>
    unfold step
    dsimp only
    cases c.targets k with
    | nil => exact .inl rfl
    | cons t rest =>
      cases arrives with
      | false => exact .inl rfl
      | true =>
        dsimp only [if_true]
        rcases liquidate_cases c.edge secret (some (adminSecret k)) now fillId tradeId t.1 t.2
          with he | he
        · exact .inl he
        · rcases liquidatePosition_cases c.edge now fillId tradeId t.1 t.2 with hd | ⟨p, -, hp⟩
          · exact .inl (he.trans hd)
          · right
            refine ⟨t.1,p,?_⟩
            simp only [if_true, he]
            exact hp

/-- What a close keeps, the run keeps. -/
theorem run_invariant {P : AppState → Prop}
    (h : ∀ s s' a p, P s → s.Closes s' a p → P s') (hc : P c.edge.state)
    (ls : List (KeeperStep ι)) : P (c.run secret adminSecret ls).edge.state := by
  apply foldl_invariant (P := fun c : Keepers ι => P c.edge.state) (R := fun _ _ => True) ?_ hc
  · exact fun _ _ _ => trivial
  · intro c l hP _
    rcases c.step_edge_cases l with he | ⟨a, p, hclose⟩
    · rw [he]
      exact hP
    · exact h _ _ a p hP hclose

theorem openPositions_run_le (c : Keepers ι) (ls : List (KeeperStep ι)) :
    (c.run secret adminSecret ls).edge.state.openPositions ≤ c.edge.state.openPositions := by
  apply run_invariant (P := fun s => s.openPositions ≤ c.edge.state.openPositions)
  · intro s s' a p hle hclose
    exact hclose.openPositions_lt.le.trans hle
  · exact le_refl _

theorem single_run (hs : c.edge.state.Single) (ls : List (KeeperStep ι)) :
    (c.run secret adminSecret ls).edge.state.Single :=
  run_invariant (fun _ _ _ _ hs hclose => hclose.single hs) hs ls

/-- Nothing happens to an account that is healthy when the keepers set out. -/
theorem spared_run {b : Address} (hb : c.edge.state.Healthy b) (ls : List (KeeperStep ι)) :
    c.edge.state.Spared (c.run secret adminSecret ls).edge.state b := by
  apply run_invariant (P := fun s => c.edge.state.Spared s b)
  · intro s s' a p hspared hclose
    have hnext := hclose.spares hspared.healthy
    exact ⟨hnext.positions.trans hspared.positions,hnext.balance.trans hspared.balance,
      hnext.healthy⟩
  · exact ⟨rfl,rfl,hb⟩

/-- The requests of the keeper get through. -/
def Delivered (k : ι) : KeeperStep ι → Prop
  | .scan _ _ _ => True
  | .liquidate j _ _ _ arrives => j = k → arrives = true

/-- A scan with the findings of one state, and a queue that another keeper has not touched. -/
theorem step_targets {k : ι} (c : Keepers ι) (l : KeeperStep ι) (hk : c.targets k ≠ []) :
    (c.step secret adminSecret l).targets k = c.targets k ∨
      ∃ now fillId tradeId arrives, l = .liquidate k now fillId tradeId arrives := by
  cases l with
  | scan j keys answered =>
    left
    unfold step
    dsimp only
    split_ifs with hj
    · rfl
    · split
      · rfl
      · have hne : k ≠ j := by
          rintro rfl
          exact hj (.inl hk)
        exact Function.update_of_ne hne _ _
  | liquidate j now fillId tradeId arrives =>
    by_cases hne : k = j
    · exact .inr ⟨now,fillId,tradeId,arrives,by rw [hne]⟩
    · left
      unfold step
      dsimp only
      split
      · rfl
      · exact Function.update_of_ne hne _ _

variable {k : ι}

/-- As long as nothing has been closed since its scan, a keeper has all its findings before it;
once the first of them is asked for, something has been closed. -/
theorem run_closes (hsecret : secret = some (adminSecret k)) (hw : adminSecret k ≠ "")
    (hs : c.edge.state.Single) {ls : List (KeeperStep ι)} (hls : ∀ l ∈ ls, Delivered k l)
    (hfound : ∀ t ∈ c.targets k, ∃ p ∈ c.edge.state.positions t.1, p.marketId = t.2 ∧
      c.edge.state.Unhealthy t.1 p)
    (hne : c.targets k ≠ []) (hdone : (c.run secret adminSecret ls).targets k = []) :
    (c.run secret adminSecret ls).edge.state.openPositions < c.edge.state.openPositions := by
  induction ls generalizing c with
  | nil => exact absurd hdone hne
  | cons l ls ih =>
    have hrest : ∀ l ∈ ls, Delivered k l := fun l hl => hls l (List.mem_cons_of_mem _ hl)
    change ((c.step secret adminSecret l).run secret adminSecret ls).targets k = [] at hdone
    change ((c.step secret adminSecret l).run secret adminSecret ls).edge.state.openPositions < _
    rcases c.step_edge_cases l with hedge | ⟨a, p, hclose⟩
    · rcases c.step_targets l hne with htargets | ⟨now, fillId, tradeId, arrives, rfl⟩
      · have h := ih (c := c.step secret adminSecret l) (by rw [hedge]; exact hs) hrest
          (by rw [htargets, hedge]; exact hfound) (by rw [htargets]; exact hne) hdone
        rwa [hedge] at h
      · -- the keeper asks for its first finding, which is still there
        exfalso
        have harrives : arrives = true := hls _ List.mem_cons_self rfl
        obtain ⟨t, rest, ht⟩ := List.exists_cons_of_ne_nil hne
        obtain ⟨p, hp, hmarket, hu⟩ := hfound t (ht ▸ List.mem_cons_self)
        have hgoes := liquidatePosition_of_unhealthy hs hp hu now fillId tradeId
        unfold step at hedge
        simp only [ht, harrives, if_true, hsecret, liquidate_of_secret hw] at hedge
        rw [hmarket] at hgoes
        exact hgoes hedge
    · exact (openPositions_run_le _ ls).trans_lt hclose.openPositions_lt

/-- A keeper scans every account with positions, asks for each close, and has none left to ask
for in the end; the other keepers do what they like meanwhile. -/
inductive Passes (secret : Option String) (adminSecret : ι → String) (k : ι) (c : Keepers ι) :
    ℕ → Keepers ι → Prop where
  | start : Passes secret adminSecret k c 0 c
  | pass {n : ℕ} {c₁ : Keepers ι} {keys : List Address} {ls : List (KeeperStep ι)}
      (before : Passes secret adminSecret k c n c₁) (idle : c₁.targets k = [])
      (all : ∀ a, c₁.edge.state.positions a ≠ [] → a ∈ keys)
      (delivered : ∀ l ∈ ls, Delivered k l)
      (done : (c₁.run secret adminSecret (.scan k keys true :: ls)).targets k = []) :
      Passes secret adminSecret k c (n+1)
        (c₁.run secret adminSecret (.scan k keys true :: ls))

/-- The keeper has scanned. -/
theorem step_scan (hsecret : secret = some (adminSecret k)) (hw : adminSecret k ≠ "")
    (hidle : c.targets k = []) (keys : List Address) :
    c.step secret adminSecret (.scan k keys true) = { c with
      targets := Function.update c.targets k
        ((c.edge.state.scanLiquidatable keys).map fun t => (t.address,t.marketId)) } := by
  have hlist : listLiquidatable c.edge secret (some (adminSecret k)) keys =
      .ok (c.edge.state.scanLiquidatable keys) := by
    unfold listLiquidatable
    rw [hsecret, checkAdmin_self hw]
    rfl
  unfold step
  simp [hidle, hlist]

/-- After every pass there is one position less for each pass so far, or none that could be
liquidated. -/
theorem passes_progress (hsecret : secret = some (adminSecret k)) (hw : adminSecret k ≠ "")
    (hs : c.edge.state.Single) {n : ℕ} {c' : Keepers ι} (h : Passes secret adminSecret k c n c') :
    c'.edge.state.Single ∧ (∀ b, c.edge.state.Healthy b →
      c.edge.state.Spared c'.edge.state b) ∧
    (c'.edge.state.openPositions+n ≤ c.edge.state.openPositions ∨
      ∀ a, c'.edge.state.Healthy a) := by
  induction h with
  | start =>
    refine ⟨hs,fun b hb => ⟨rfl,rfl,hb⟩,.inl ?_⟩
    omega
  | @pass n c₁ keys ls before idle all delivered done ih =>
    obtain ⟨hs₁, hspared, hprogress⟩ := ih
    refine ⟨single_run hs₁ _,?_,?_⟩
    · intro b hb
      have h₁ := hspared b hb
      have h₂ : c₁.edge.state.Spared
          (c₁.run secret adminSecret (.scan k keys true :: ls)).edge.state b :=
        spared_run h₁.healthy _
      exact ⟨h₂.positions.trans h₁.positions,h₂.balance.trans h₁.balance,h₂.healthy⟩
    by_cases hall : ∀ a, c₁.edge.state.Healthy a
    · exact .inr fun a => (spared_run (hall a) _).healthy
    · left
      have hbefore := hprogress.resolve_right hall
      have hscan := step_scan hsecret hw idle keys
      have hfound : c₁.edge.state.scanLiquidatable keys ≠ [] :=
        fun hnil => hall (healthy_of_scan all hnil)
      change ((c₁.step secret adminSecret (.scan k keys true)).run secret adminSecret ls).targets k
        = [] at done
      change ((c₁.step secret adminSecret (.scan k keys true)).run secret
        adminSecret ls).edge.state.openPositions+(n+1) ≤ _
      have hedge : (c₁.step secret adminSecret (.scan k keys true)).edge = c₁.edge := by rw [hscan]
      have htargets : (c₁.step secret adminSecret (.scan k keys true)).targets k =
          (c₁.edge.state.scanLiquidatable keys).map fun t => (t.address,t.marketId) := by
        rw [hscan]
        exact Function.update_self ..
      have hless := run_closes (c := c₁.step secret adminSecret (.scan k keys true)) hsecret hw
        (by rw [hedge]; exact hs₁) delivered ?_ ?_ done
      · rw [hedge] at hless
        omega
      · rw [htargets, hedge]
        intro t ht
        obtain ⟨l, hl, rfl⟩ := List.mem_map.mp ht
        exact unhealthy_of_scan hl
      · rw [htargets]
        simpa using hfound

/-- A keeper with the secret of the edge that has made as many passes as there were positions
leaves none that could be liquidated, whatever other keepers do meanwhile; and no keeper ever
touches an account that was healthy at the start. -/
theorem keepers_drain (hsecret : secret = some (adminSecret k)) (hw : adminSecret k ≠ "")
    (hs : c.edge.state.Single) {n : ℕ} {c' : Keepers ι} (h : Passes secret adminSecret k c n c')
    (hn : c.edge.state.openPositions ≤ n) :
    (∀ a, ∀ p ∈ c'.edge.state.positions a, ∀ x, c'.edge.state.positionHealth a p = some x →
      1 ≤ x) ∧
    ∀ b, c.edge.state.Healthy b → c'.edge.state.positions b = c.edge.state.positions b ∧
      c'.edge.state.vaultBalances b = c.edge.state.vaultBalances b := by
  obtain ⟨-, hspared, hprogress⟩ := passes_progress hsecret hw hs h
  constructor
  · have hall : ∀ a, c'.edge.state.Healthy a := by
      rcases hprogress with hle | hall
      · -- no position is left at all
        intro a p hp
        have hzero : c'.edge.state.openPositions = 0 := by omega
        have hnil := Finset.sum_eq_zero_iff.mp hzero a (Finset.mem_univ a)
        rw [List.length_eq_zero_iff.mp hnil] at hp
        cases hp
      · exact hall
    intro a p hp x hx
    exact not_lt.mp fun hlt => hall a p hp ⟨x,hx,hlt⟩
  · intro b hb
    have h' := hspared b hb
    exact ⟨h'.positions,h'.balance⟩

/-- Ten dollars, long in bitcoin and in ether, both far below their entries; two keepers. -/
def underwater : Keepers (Fin 2) where
  edge := ⟨{ AppState.new with
    vaultBalances := fun _ => 10*10^6
    positions := Function.update (fun _ => []) 1
      [⟨"btc-usd", 1/1000, .long, 100000*10^18, 0, 0, 0, 0, 1, 0, 0, 0⟩,
        ⟨"eth-usd", 2/100, .long, 3500*10^18, 0, 0, 0, 0, 1, 0, 0, 0⟩]
    oraclePrices := fun id => if id = "btc-usd" then some (80000*10^18)
      else if id = "eth-usd" then some (2000*10^18) else none }, fun _ => true, []⟩
  targets := fun _ => []

/-- They have the secret of the edge. -/
def secretOf : Fin 2 → String := fun _ => "s"

/-- Both keepers find both positions. -/
def race : List (KeeperStep (Fin 2)) :=
  [.scan 1 [1] true,.liquidate 1 7 0 0 true,.liquidate 0 8 1 1 true,.liquidate 0 9 2 2 true]

theorem underwater_positions {b : Address} (hb : b ≠ 1) :
    underwater.edge.state.positions b = [] := by
  simp [underwater, Function.update_of_ne hb]

theorem underwater_all (ls : List (KeeperStep (Fin 2))) (a : Address)
    (ha : (underwater.run (some "s") secretOf ls).edge.state.positions a ≠ []) :
    a ∈ [(1 : Address)] := by
  by_contra hne
  have ha1 : a ≠ 1 := fun he => hne (List.mem_singleton.mpr he)
  have hhealthy : underwater.edge.state.Healthy a := by
    intro p hp
    rw [underwater_positions ha1] at hp
    cases hp
  exact ha ((spared_run hhealthy ls).positions.trans (underwater_positions ha1))

theorem keepers_drain_race :
    underwater.edge.state.openPositions = 2 ∧ ∃ c' : Keepers (Fin 2),
      Passes (some "s") secretOf 0 underwater 2 c' ∧
      ∀ a, ∀ p ∈ c'.edge.state.positions a, ∀ x, c'.edge.state.positionHealth a p = some x →
        1 ≤ x := by
  have hcount : underwater.edge.state.openPositions = 2 := by
    unfold openPositions
    rw [Finset.sum_eq_single (1 : Address)]
    · rfl
    · intro b _ hb
      rw [underwater_positions hb]
      rfl
    · exact fun h => absurd (Finset.mem_univ _) h
  have hsingle : underwater.edge.state.Single := by
    intro a
    by_cases ha : a = 1
    · subst ha
      decide +kernel
    · rw [underwater_positions ha]
      exact List.nodup_nil
  have hone : Passes (some "s") secretOf 0 underwater 1
      (underwater.run (some "s") secretOf (.scan 0 [1] true :: race)) := by
    apply Passes.pass .start rfl (underwater_all [])
    · simp [race, Delivered]
    · decide +kernel
  have htwo : Passes (some "s") secretOf 0 underwater 2
      ((underwater.run (some "s") secretOf (.scan 0 [1] true :: race)).run (some "s") secretOf
        [.scan 0 [1] true]) := by
    apply Passes.pass hone (by decide +kernel) (underwater_all _)
    · simp
    · decide +kernel
  have hsecret : some "s" = some (secretOf 0) := rfl
  exact ⟨hcount,_,htwo,(keepers_drain hsecret (by decide) hsingle htwo hcount.le).1⟩

end Keepers

end Perplex.Edge
