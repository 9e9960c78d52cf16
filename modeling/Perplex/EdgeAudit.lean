import Mathlib.Algebra.BigOperators.Group.Finset.Piecewise
import Perplex.EdgeKeeper
import Perplex.PersistDecimal

/-! The books of the edge beside its records: the positions of an account are what its fills
amount to, and the tape of a market is what the fills of all accounts amount to. -/
namespace Perplex.Edge

inductive Action where
  | request (c : Cmd)
  | liquidate (now fillId tradeId : ℕ) (address : Address) (marketId : String)

/-- What goes to the writer is left aside. -/
def act (s : AppState) : Action → AppState
  | .request c => attempt exec s c
  | .liquidate now fillId tradeId address marketId =>
    (DurableState.liquidatePosition ⟨s, fun _ => true, []⟩ now fillId tradeId address
      marketId).2.state

def actAll (s : AppState) (actions : List Action) : AppState := actions.foldl act s

/-- The position without the time of its last change, which is read off the clock anew. -/
def PositionInfo.undated (p : PositionInfo) : PositionInfo := { p with lastUpdatedTsNs := 0 }

/-- The positions that a history of fills amounts to. -/
def replayFills (fills : List FillInfo) : List PositionInfo :=
  fills.foldl (fun l f => applyPositionFill 0 f.marketId f.side f.qty f.price l) []

/-- What the records of a trade have in common. -/
def FillInfo.terms (f : FillInfo) : ℚ × ℚ × Side × ℕ := (f.price,f.qty,f.side,f.tsNs)

def PublicTrade.terms (x : PublicTrade) : ℚ × ℚ × Side × ℕ := (x.price,x.qty,x.side,x.tsNs)

/-- The same trade for the other party. -/
def turned (x : ℚ × ℚ × Side × ℕ) : ℚ × ℚ × Side × ℕ := (x.1,x.2.1,x.2.2.1.opposite,x.2.2.2)

/-- A fill of the history without its id, fee and time. -/
structure Entry where
  orderId : Option ℕ
  marketId : String
  side : Side
  price : ℚ
  qty : ℚ
  role : FillRole
deriving DecidableEq, Repr

def FillInfo.entry (f : FillInfo) : Entry :=
  ⟨f.orderId, f.marketId, f.side, f.price, f.qty, f.role⟩

/-- What a fill of the order `orderId` of a user adds to the history of an account. -/
def MatchedFill.entries (orderId : ℕ) (user : Address) (t : Taker) (a : Address)
    (m : MatchedFill) : List Entry :=
  (if a = user then [⟨some orderId, t.marketId, t.side, m.price, m.qty, .taker⟩] else [])++
    if a = m.makerAddress then
      [⟨some m.makerOrderId, t.marketId, t.side.opposite, m.price, m.qty, .maker⟩] else []

namespace AppState

/-- The fills of all accounts in a market, in some of the roles. -/
def filledAs (s : AppState) (marketId : String) (role : FillRole → Bool) :
    Multiset (ℚ × ℚ × Side × ℕ) :=
  ∑ a : Address, (((s.fills a).filter fun f => f.marketId = marketId ∧ role f.role).map
    FillInfo.terms : List (ℚ × ℚ × Side × ℕ))

/-- The fills account for the positions of every account and for the tape of every market, and
each fill of a taker has one of a maker on the other side. -/
structure Reconciled (s : AppState) : Prop where
  single : s.Single
  positions : ∀ a, (s.positions a).map PositionInfo.undated = replayFills (s.fills a)
  tape : ∀ marketId, s.filledAs marketId (fun r => r ≠ .maker) =
    ((s.publicTrades marketId).map PublicTrade.terms : List (ℚ × ℚ × Side × ℕ))
  makers : ∀ marketId, s.filledAs marketId (fun r => r = .maker) =
    (s.filledAs marketId (fun r => r = .taker)).map turned

variable {s s' : AppState}

theorem Reconciled.congr (h : s.Reconciled) (hp : s'.positions = s.positions)
    (hf : s'.fills = s.fills) (ht : s'.publicTrades = s.publicTrades) : s'.Reconciled := by
  constructor
  · unfold Single
    rw [hp]
    exact h.single
  · rw [hp, hf]
    exact h.positions
  · unfold filledAs
    rw [hf, ht]
    exact h.tape
  · unfold filledAs
    rw [hf]
    exact h.makers

end AppState

theorem applyPositionFill_undated (now : ℕ) (marketId : String) (side : Side) (qty price : ℚ)
    (l : List PositionInfo) :
    (applyPositionFill now marketId side qty price l).map PositionInfo.undated =
      applyPositionFill 0 marketId side qty price (l.map PositionInfo.undated) := by
  induction l with
  | nil => rfl
  | cons p rest ih =>
    rw [List.map_cons, applyPositionFill, applyPositionFill]
    have hmarket : p.undated.marketId = p.marketId := rfl
    have hside : p.undated.side = p.side := rfl
    have hsize : p.undated.size = p.size := rfl
    rw [hmarket, hside, hsize]
    dsimp only
    -- the branches are those of the position itself
    split_ifs
    · rw [List.map_cons, ih]
    · rfl
    · rfl
    · rfl
    · rfl
    · rfl

theorem replayFills_concat (fills : List FillInfo) (f : FillInfo) :
    replayFills (fills++[f]) =
      applyPositionFill 0 f.marketId f.side f.qty f.price (replayFills fills) := by
  simp [replayFills]

/-- The fill of a forced close takes the position away. -/
theorem applyPositionFill_close {l : List PositionInfo}
    (hsingle : (l.map PositionInfo.marketId).Nodup) {p : PositionInfo} (hp : p ∈ l) (now : ℕ)
    (price : ℚ) : applyPositionFill now p.marketId p.side.closing p.size price l =
      l.filter fun q => q.marketId ≠ p.marketId := by
  induction l with
  | nil => cases hp
  | cons q rest ih =>
    obtain ⟨hnew, hrest⟩ := List.nodup_cons.mp hsingle
    unfold applyPositionFill
    rcases List.mem_cons.mp hp with rfl | hp
    · have hside : p.side ≠ p.side.closing.position := by
        cases p.side <;> decide
      have hkept : rest.filter (fun q => q.marketId ≠ p.marketId) = rest := by
        rw [List.filter_eq_self]
        intro q hq
        have hne : q.marketId ≠ p.marketId := by
          intro he
          exact hnew (List.mem_map.mpr ⟨q,hq,he⟩)
        simpa using hne
      rw [List.filter_cons_of_neg (by simp), hkept]
      simp [hside]
    · have hne : q.marketId ≠ p.marketId := by
        intro he
        exact hnew (List.mem_map.mpr ⟨p,hp,he.symm⟩)
      rw [if_pos hne, List.filter_cons_of_pos (by simpa using hne), ih hrest hp]

namespace AppState
variable {s s' : AppState}

theorem filledAs_recordFill (s : AppState) (address : Address) (f : FillInfo)
    (marketId : String) (role : FillRole → Bool) :
    (s.recordFill address f).filledAs marketId role = s.filledAs marketId role+
      if f.marketId = marketId ∧ role f.role then {f.terms} else 0 := by
  have hone (a : Address) : (((((s.recordFill address f).fills a).filter fun f =>
      f.marketId = marketId ∧ role f.role).map FillInfo.terms : List (ℚ × ℚ × Side × ℕ)) :
        Multiset (ℚ × ℚ × Side × ℕ)) =
      ((((s.fills a).filter fun f => f.marketId = marketId ∧ role f.role).map
        FillInfo.terms : List (ℚ × ℚ × Side × ℕ)) : Multiset (ℚ × ℚ × Side × ℕ))+
          if a = address then (if f.marketId = marketId ∧ role f.role then {f.terms} else 0)
            else 0 := by
    rw [recordFill_fills]
    by_cases ha : a = address
    · by_cases hf : f.marketId = marketId ∧ role f.role
      · simp [ha, hf, ← Multiset.coe_add]
      · simp [ha, hf]
    · simp [ha]
  unfold filledAs
  rw [Finset.sum_congr rfl fun a _ => hone a, Finset.sum_add_distrib, Finset.sum_ite_eq',
    if_pos (Finset.mem_univ address)]

theorem recordTrade_apply (s : AppState) (mk : String) (x : PublicTrade) (marketId : String) :
    (s.recordTrade mk x).publicTrades marketId =
      s.publicTrades marketId++if marketId = mk then [x] else [] := by
  by_cases hm : marketId = mk
  · subst hm
    simp [recordTrade]
  · simp [recordTrade, hm]

theorem filledAs_congr (hf : s'.fills = s.fills) : s'.filledAs = s.filledAs := by
  funext marketId role
  unfold filledAs
  rw [hf]

section Settling
variable (now orderId : ℕ) (user : Address) (t : Taker) (takerFeeBps : ℕ) (makerRebateBps : ℤ)
  (s : AppState) (m : MatchedFill)

theorem settleMatch_fills :
    (settleMatch now orderId user t takerFeeBps makerRebateBps s m).fills =
      ((s.recordFill user ⟨s.nextUlid, some orderId, t.marketId, t.side, m.price, m.qty,
        trunc (m.qty*m.price*takerFeeBps/10000*10^6), .taker, m.tsNs, ""⟩).recordFill
          m.makerAddress ⟨s.nextUlid+1, some m.makerOrderId, t.marketId, t.side.opposite, m.price,
            m.qty, trunc (-(m.qty*m.price*makerRebateBps/10000)*10^6), .maker, m.tsNs,
            ""⟩).fills := by
  simp only [settleMatch, upsertPosition, recordTrade, adjustVault_fills]

theorem settleMatch_publicTrades :
    (settleMatch now orderId user t takerFeeBps makerRebateBps s m).publicTrades =
      (s.recordTrade t.marketId ⟨s.nextUlid+2, t.marketId, m.price, m.qty, t.side,
        m.tsNs⟩).publicTrades := by
  simp [settleMatch, upsertPosition, recordTrade, recordFill]

theorem settleAll_entries (filled : List MatchedFill) (a : Address) :
    ((filled.foldl (settleMatch now orderId user t takerFeeBps makerRebateBps) s).fills a).map
      FillInfo.entry = (s.fills a).map FillInfo.entry++
        filled.flatMap (MatchedFill.entries orderId user t a) := by
  induction filled generalizing s with
  | nil => simp
  | cons m rest ih =>
    rw [List.foldl_cons, ih, List.flatMap_cons, ← List.append_assoc]
    congr 1
    rw [settleMatch_fills, recordFill_fills, recordFill_fills]
    unfold MatchedFill.entries
    split_ifs <;> simp [FillInfo.entry]

theorem settleAll_tape (filled : List MatchedFill) :
    ((filled.foldl (settleMatch now orderId user t takerFeeBps makerRebateBps) s).publicTrades
      t.marketId).map PublicTrade.terms = (s.publicTrades t.marketId).map PublicTrade.terms++
        filled.map fun m => (m.price,m.qty,t.side,m.tsNs) := by
  induction filled generalizing s with
  | nil => simp
  | cons m rest ih =>
    rw [List.foldl_cons, ih, settleMatch_publicTrades, recordTrade_apply]
    simp [PublicTrade.terms]

theorem upsertPosition_apply (address : Address) (marketId : String) (side : Side)
    (qty price : ℚ) (a : Address) :
    (s.upsertPosition now address marketId side qty price).positions a = if a = address
      then applyPositionFill now marketId side qty price (s.positions a) else s.positions a := by
  unfold upsertPosition
  by_cases ha : a = address
  · subst ha
    simp
  · simp [ha]

end Settling

theorem Reconciled.settleMatch (h : s.Reconciled) (now orderId : ℕ) (user : Address) (t : Taker)
    (takerFeeBps : ℕ) (makerRebateBps : ℤ) (m : MatchedFill) :
    (AppState.settleMatch now orderId user t takerFeeBps makerRebateBps s m).Reconciled := by
  have hfilled := filledAs_congr (settleMatch_fills now orderId user t takerFeeBps makerRebateBps
    s m)
  constructor
  · intro a
    rw [settleMatch_positions]
    exact upsertPosition_single now (fun b => upsertPosition_single now h.single _ _ _ _ _ b)
      _ _ _ _ _ a
  · intro a
    rw [settleMatch_positions, settleMatch_fills, upsertPosition_apply, upsertPosition_apply,
      recordFill_fills, recordFill_fills]
    -- the taker's fill is booked first, in the records and in the positions
    have htaker : (if a = user then applyPositionFill now t.marketId t.side m.qty m.price
        (s.positions a) else s.positions a).map PositionInfo.undated =
          replayFills (s.fills a++if a = user then [⟨s.nextUlid, some orderId, t.marketId, t.side,
            m.price, m.qty, trunc (m.qty*m.price*takerFeeBps/10000*10^6), .taker, m.tsNs, ""⟩]
              else []) := by
      by_cases ha : a = user
      · rw [if_pos ha, if_pos ha, replayFills_concat, applyPositionFill_undated, h.positions]
      · rw [if_neg ha, if_neg ha, List.append_nil, h.positions]
    by_cases ha : a = m.makerAddress
    · rw [if_pos ha, if_pos ha, replayFills_concat, applyPositionFill_undated, htaker]
    · rw [if_neg ha, if_neg ha, List.append_nil, htaker]
  · intro marketId
    rw [hfilled, settleMatch_publicTrades, recordTrade_apply, filledAs_recordFill,
      filledAs_recordFill, h.tape]
    by_cases hm : marketId = t.marketId
    · simp [hm, FillInfo.terms, PublicTrade.terms, ← Multiset.coe_add]
    · simp [hm, Ne.symm hm]
  · intro marketId
    rw [hfilled]
    simp only [filledAs_recordFill, h.makers]
    by_cases hm : t.marketId = marketId
    · have hturned : turned (m.price,m.qty,t.side,m.tsNs) =
          (m.price,m.qty,t.side.opposite,m.tsNs) := rfl
      simp [hm, hturned, FillInfo.terms]
    · simp [hm]

theorem execute_entries (s : AppState) (env : Env) (user : Address) (t : Taker) (a : Address) :
    ((s.execute env user t).2.fills a).map FillInfo.entry = (s.fills a).map FillInfo.entry++
      (s.matched env user t).1.flatMap (MatchedFill.entries s.nextUlid user t a) := by
  rw [execute_frame]
  exact settleAll_entries ..

theorem execute_tape (s : AppState) (env : Env) (user : Address) (t : Taker) :
    ((s.execute env user t).2.publicTrades t.marketId).map PublicTrade.terms =
      (s.publicTrades t.marketId).map PublicTrade.terms++
        (s.matched env user t).1.map fun m => (m.price,m.qty,t.side,m.tsNs) := by
  rw [execute_frame]
  exact settleAll_tape ..

theorem Reconciled.execute (h : s.Reconciled) (env : Env) (user : Address) (t : Taker) :
    (s.execute env user t).2.Reconciled := by
  have hmatched : (s.matched env user t).2.Reconciled := h.congr rfl rfl rfl
  have hsettled (filled : List MatchedFill) (s' : AppState) (h' : s'.Reconciled) :
      (filled.foldl (s.settling env user t) s').Reconciled := by
    induction filled generalizing s' with
    | nil => exact h'
    | cons m rest ih =>
      apply ih
      exact h'.settleMatch ..
  have hall := hsettled (s.matched env user t).1 _ hmatched
  apply hall.congr
  · rw [execute_frame]
    rfl
  · rw [execute_frame]
    rfl
  · rw [execute_frame]
    rfl

theorem Reconciled.exec {c : Cmd} (h : s.Reconciled) (hok : Edge.exec s c = .ok s') :
    s'.Reconciled := by
  cases c with
  | placeOrder env user req =>
    obtain ⟨t, -, rfl⟩ := exec_placeOrder_eq_ok.mp hok
    exact h.execute env user t
  | cancelOrder env user orderId =>
    obtain rfl := Except.ok.inj hok
    apply h.congr
    · rw [cancelOrder_frame]
    · rw [cancelOrder_frame]
    · rw [cancelOrder_frame]
  | setVaultBalance address amount =>
    obtain rfl := Except.ok.inj hok
    exact h.congr rfl rfl rfl
  | setOraclePrice marketId price =>
    obtain rfl := Except.ok.inj hok
    exact h.congr rfl rfl rfl

theorem mem_of_liquidatable {address : Address} {marketId : String} {p : PositionInfo}
    {health mark : ℚ} (h : s.liquidatable address marketId = some (p,health,mark)) :
    p ∈ s.positions address ∧ p.marketId = marketId := by
  unfold liquidatable at h
  obtain ⟨q, hfind, h⟩ := Option.bind_eq_some_iff.mp h
  obtain ⟨x, -, h⟩ := Option.bind_eq_some_iff.mp h
  split_ifs at h
  obtain ⟨i, -, h⟩ := Option.map_eq_some_iff.mp h
  obtain ⟨rfl, -⟩ := Prod.mk.inj h
  exact ⟨List.mem_of_find?_eq_some hfind,by simpa using List.find?_some hfind⟩

/-- What a forced close of the position at the mark leaves. -/
def closed (s : AppState) (now fillId tradeId : ℕ) (address : Address) (p : PositionInfo)
    (mark : ℚ) : AppState :=
  let kept := (s.positions address).filter fun q => q.marketId ≠ p.marketId
  let balance := p.closeOut mark (s.vaultBalances address)
  let s := { s with
    positions := Function.update s.positions address kept
    vaultBalances := Function.update s.vaultBalances address balance }
  let s := s.recordFill address ⟨fillId, none, p.marketId, p.side.closing, mark, p.size, 0,
    .liquidation, now, ""⟩
  s.recordTrade p.marketId ⟨tradeId, p.marketId, mark, p.size, p.side.closing, now⟩

theorem act_liquidate_cases (s : AppState) (now fillId tradeId : ℕ) (address : Address)
    (marketId : String) : act s (.liquidate now fillId tradeId address marketId) = s ∨
      ∃ p ∈ s.positions address, ∃ mark, p.marketId = marketId ∧
        act s (.liquidate now fillId tradeId address marketId) =
          s.closed now fillId tradeId address p mark := by
  cases hl : s.liquidatable address marketId with
  | none =>
    left
    simp only [act, DurableState.liquidatePosition, hl]
  | some r =>
    obtain ⟨p, health, mark⟩ := r
    obtain ⟨hp, rfl⟩ := mem_of_liquidatable hl
    refine .inr ⟨p,hp,mark,rfl,?_⟩
    simp only [act, DurableState.liquidatePosition, hl]
    rfl

section Closed
variable (now fillId tradeId : ℕ) (address : Address) (p : PositionInfo) (mark : ℚ)

theorem closed_positions (a : Address) :
    (s.closed now fillId tradeId address p mark).positions a = if a = address
      then (s.positions a).filter (fun q => q.marketId ≠ p.marketId) else s.positions a := by
  change Function.update s.positions address _ a = _
  by_cases ha : a = address
  · subst ha
    rw [if_pos rfl, Function.update_self]
  · rw [if_neg ha, Function.update_of_ne ha]

theorem closed_fills (a : Address) : (s.closed now fillId tradeId address p mark).fills a =
    s.fills a++if a = address then
      [⟨fillId, none, p.marketId, p.side.closing, mark, p.size, 0, .liquidation, now, ""⟩]
        else [] :=
  s.recordFill_fills address _ a

end Closed

/-- A forced close is recorded as a fill of the whole position at the mark. -/
theorem Reconciled.closed (h : s.Reconciled) (now fillId tradeId : ℕ) {address : Address}
    {p : PositionInfo} (hp : p ∈ s.positions address) (mark : ℚ) :
    (s.closed now fillId tradeId address p mark).Reconciled := by
  let f : FillInfo := ⟨fillId, none, p.marketId, p.side.closing, mark, p.size, 0, .liquidation,
    now, ""⟩
  have hfilled : (s.closed now fillId tradeId address p mark).filledAs =
      (s.recordFill address f).filledAs := filledAs_congr rfl
  have htape (marketId : String) :
      (s.closed now fillId tradeId address p mark).publicTrades marketId =
        s.publicTrades marketId++if marketId = p.marketId then
          [⟨tradeId, p.marketId, mark, p.size, p.side.closing, now⟩] else [] :=
    s.recordTrade_apply p.marketId _ marketId
  constructor
  · intro a
    rw [closed_positions]
    split_ifs
    · exact (h.single a).sublist (List.filter_sublist.map _)
    · exact h.single a
  · intro a
    rw [closed_positions, closed_fills]
    by_cases ha : a = address
    · subst ha
      rw [if_pos rfl, if_pos rfl, replayFills_concat, ← h.positions,
        ← applyPositionFill_undated now, applyPositionFill_close (h.single a) hp]
    · rw [if_neg ha, if_neg ha, List.append_nil, h.positions]
  · intro marketId
    rw [hfilled, htape, filledAs_recordFill, h.tape]
    by_cases hm : marketId = p.marketId
    · simp [hm, f, FillInfo.terms, PublicTrade.terms, ← Multiset.coe_add]
    · simp [hm, Ne.symm hm, f]
  · intro marketId
    rw [hfilled]
    simp [filledAs_recordFill, h.makers, f]

end AppState

open AppState

theorem act_reconciled {s : AppState} (h : s.Reconciled) (action : Action) :
    (act s action).Reconciled := by
  cases action with
  | request c =>
    change (attempt exec s c).Reconciled
    unfold attempt
    split
    · next s' hok => exact h.exec hok
    · exact h
  | liquidate now fillId tradeId address marketId =>
    rcases act_liquidate_cases s now fillId tradeId address marketId with he | ⟨p, hp, mark, -, he⟩
    · rwa [he]
    · rw [he]
      exact h.closed now fillId tradeId hp mark

theorem new_reconciled : AppState.new.Reconciled := by
  constructor
  · intro a
    exact List.nodup_nil
  · intro a
    rfl
  · intro marketId
    simp [AppState.filledAs, AppState.new]
  · intro marketId
    simp [AppState.filledAs, AppState.new]

/-- The books are not a record of balances. -/
theorem AppState.Reconciled.of_balances {s : AppState} (h : s.Reconciled) (balances : Address → ℚ) :
    ({ s with vaultBalances := balances } : AppState).Reconciled :=
  ⟨h.single, h.positions, h.tape, h.makers⟩

namespace Decimal

section Model
-- `iter` is the iteration of the accounts that a forced close meets
variable (round : ℚ → ℚ) (iter : Action → Env)

def act (s : AppState) (action : Action) : AppState :=
  match action with
  | .request c => final id (serve round s c)
  | .liquidate now fillId tradeId address marketId =>
    (liquidatePosition round ⟨s, fun _ => true, []⟩ (iter action) now fillId tradeId address
      marketId).state

def actAll (s : AppState) (actions : List Action) : AppState :=
  actions.foldl (act round iter) s

/-- Rounding does not show in a request; a forced close is free. -/
def ActionExact (s : AppState) : Action → Prop
  | .request c => CmdExact round s c
  | .liquidate .. => True

end Model

variable {round : ℚ → ℚ} {s : AppState}

/-- Only a position that the account has is closed. -/
theorem mem_of_closable {env : Env} {address : Address} {marketId : String} {pos : PositionInfo}
    {mark : ℚ} {balance : ℤ}
    (h : closable round s env address marketId = .ok (some (pos,mark,balance))) :
    pos ∈ s.positions address ∧ pos.marketId = marketId := by
  unfold closable at h
  cases hfind : (s.positions address).find? (fun p => p.marketId = marketId) with
  | none =>
    rw [hfind] at h
    cases h
  | some p =>
    have hp : p = pos := by
      simp only [hfind, chain_ok_iff] at h
      obtain ⟨health, -, h⟩ := h
      cases health with
      | none => cases h
      | some x =>
        dsimp only at h
        split_ifs at h
        · cases h
        · simp only [chain_ok_iff] at h
          obtain ⟨inputs, -, h⟩ := h
          cases inputs with
          | none => cases h
          | some i =>
            obtain ⟨b, -, he⟩ := chain_ok_iff.mp h
            exact (Prod.mk.inj (Option.some.inj (Except.ok.inj he))).1
    subst hp
    exact ⟨List.mem_of_find?_eq_some hfind, by simpa using List.find?_some hfind⟩

theorem act_reconciled {iter : Action → Env} (h : s.Reconciled) {action : Action}
    (hexact : ActionExact round s action) : (act round iter s action).Reconciled := by
  cases action with
  | request c =>
    change (final id (serve round s c)).Reconciled
    rw [serve_eq hexact]
    exact Edge.act_reconciled h (.request c)
  | liquidate now fillId tradeId address marketId =>
    unfold act liquidatePosition
    dsimp only
    split
    · exact h
    · exact h
    · next pos mark balance hclose =>
      obtain ⟨hpos, rfl⟩ := mem_of_closable hclose
      exact (h.closed now fillId tradeId hpos mark).of_balances _

end Decimal

/-- Whatever is requested without rounding and closed by force, the fills account for every position
and for every trade of the tape. -/
theorem records_reconcile {round : ℚ → ℚ} (iter : Action → Env) (actions : List Action)
    (hexact : ∀ pre action, pre++[action] <+: actions →
      Decimal.ActionExact round (Decimal.actAll round iter AppState.new pre) action) :
    (Decimal.actAll round iter AppState.new actions).Reconciled := by
  induction actions using List.reverseRecOn with
  | nil => exact new_reconciled
  | append_singleton actions action ih =>
    have hpast := ih fun pre a hpre => hexact pre a (hpre.trans (List.prefix_append _ _))
    unfold Decimal.actAll at hpast ⊢
    rw [List.foldl_append]
    exact Decimal.act_reconciled hpast (hexact actions action (List.prefix_refl _))

/-- Account 1 buys a contract at 100000, is left without collateral, and is closed at 99000. -/
def forcedClose : List Action :=
  (openTrade++[Cmd.setVaultBalance 1 0, Cmd.setOraclePrice "btc-usd" (99000*10^18)]).map .request++
    [.liquidate 2 7 8 1 "btc-usd"]

theorem records_reconcile_forcedClose :
    let s := Decimal.actAll id (fun _ => twoAccounts 2) AppState.new forcedClose
    s.Reconciled ∧ (s.fills 1).map (fun f => (f.side,f.price,f.role)) =
      [(.buy,100000,.taker), (.sell,99000,.liquidation)] ∧ s.positions 1 = [] := by
  intro s
  have hexact : ∀ pre action, pre++[action] <+: forcedClose → Decimal.ActionExact id
      (Decimal.actAll id (fun _ => twoAccounts 2) AppState.new pre) action :=
    forall_request_cons trivial (forall_request_cons trivial
      (forall_request_cons (.of_id (by decide +kernel))
        (forall_request_cons (.of_id (by decide +kernel)) (forall_request_cons trivial
          (forall_request_cons trivial (forall_request_cons trivial forall_request_nil))))))
  exact ⟨records_reconcile (fun _ => twoAccounts 2) forcedClose hexact, by decide +kernel,
    by decide +kernel⟩

end Perplex.Edge
