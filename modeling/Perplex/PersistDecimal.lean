import Perplex.EdgeGrid
import Perplex.EdgePanics
import Perplex.EdgeScan
import Perplex.PersistRoundTrip

/-! The mutators in the arithmetic of `Decimal`. A panic keeps what has been written and what has
been sent. Most mutators have told the database by then; `upsert_position` and `match_taker` tell
it last. -/
namespace Perplex.Edge

namespace Decimal

section Model
-- `iter` is the iteration of the accounts that a call meets in the statistics of a market
variable (round : ℚ → ℚ) (iter : Mutator → Env)

/-- The balance that a forced close leaves. -/
def closeOut {σ : Type} (left : σ) (p : PositionInfo) (mark balance : ℚ) : Except σ ℤ := do
  let realised ← pnl round left p mark
  let raw ← result round left (dollars round balance+realised)
  scaleUsdc6 round left (if raw < 0 then 0 else raw)

/-- The position that `liquidate_position` closes, the mark, and the balance that it leaves. -/
def closable (s : AppState) (env : Env) (address : Address) (marketId : String) :
    Except AppState (Option (PositionInfo × ℚ × ℤ)) :=
  match (s.positions address).find? fun p => p.marketId = marketId with
  | none => return none
  | some pos => do
    let health ← positionHealth round s env address pos
    match health with
    | none => return none
    | some h =>
      if 1 ≤ h then return none
      else do
        let inputs ← liqInputs round s env pos
        match inputs with
        | none => return none
        | some i => do
          let balance ← closeOut round s pos i.mark (s.vaultBalances address)
          return some (pos,i.mark,balance)

/-- `liquidate_position`. It calculates before it writes. -/
def liquidatePosition (d : DurableState) (env : Env) (now fillId tradeId : ℕ) (address : Address)
    (marketId : String) : DurableState :=
  match closable round d.state env address marketId with
  | .error _ => d
  | .ok none => d
  | .ok (some (pos,mark,balance)) =>
    let side := pos.side.closing
    let remaining := (d.state.positions address).filter fun p => p.marketId ≠ marketId
    let d := d.setVaultBalance address balance
    let d := d.setPositions address remaining
    let d := d.recordFill address
      ⟨fillId, none, marketId, side, mark, pos.size, 0, .liquidation, now, ""⟩
    d.recordTrade marketId ⟨tradeId, marketId, mark, pos.size, side, now⟩

/-- One call of a mutator, which may panic. -/
def mutate (devSeed : Bool) (d : DurableState) (m : Mutator) : DurableState :=
  match m with
  | .addOpenOrder env address order =>
    { d with
      state := final id (addOpenOrder round d.state env address order)
      sent := d.sent++[.upsertOrder address order] }
  | .cancelOrder env address orderId =>
    { d with
      state := final id (cancelOrder round d.state env address orderId)
      sent := d.sent++if (d.state.openOrders address).any (fun o => o.id = orderId)
        then [.deleteOrder orderId] else [] }
  | .matchTaker env marketId takerSide takerPrice takerQty taker =>
    match matchTaker round d.state env marketId takerSide takerPrice takerQty taker with
    | .error left => { d with state := left }
    | .ok (filled,s) =>
      { d with
        state := s
        sent := d.sent++(seen filled).map fun a => .syncOrders a (s.openOrders a) }
  | .upsertPosition now address marketId orderSide qty price =>
    match upsertPosition round d.state now address marketId orderSide qty price with
    | .error left => { d with state := left }
    | .ok s =>
      { d with state := s, sent := d.sent++[.syncPositions address (s.positions address)] }
  | .liquidatePosition now fillId tradeId address marketId =>
    liquidatePosition round d (iter m) now fillId tradeId address marketId
  | m => Edge.mutate devSeed d m

/-- A sequential run of mutators on a state that starts empty. -/
def mutateAll (devSeed : Bool) (ms : List Mutator) : DurableState :=
  ms.foldl (mutate round iter devSeed) DurableState.new

/-- The database behind a run, provided that the writer got through. -/
def written (devSeed : Bool) (ms : List Mutator) : Option Db :=
  Db.empty.applyAll (mutateAll round iter devSeed ms).sent

/-- The two calls that tell the database last get that far, and rounding does not show in the
orders that are filled. -/
def Reports (d : DurableState) : Mutator → Prop
  | .matchTaker env marketId takerSide takerPrice takerQty taker => Unrounded round fun ρ =>
    (matchTaker ρ d.state env marketId takerSide takerPrice takerQty taker).toOption.map fun r =>
      (r.1,r.2.openOrders)
  | .upsertPosition now address marketId orderSide qty price =>
    Succeeds (upsertPosition round d.state now address marketId orderSide qty price)
  | _ => True

end Model

end Decimal

/-- The stores that are kept in tables. -/
structure SameStores (d d' : DurableState) : Prop where
  openOrders : d'.state.openOrders = d.state.openOrders
  positions : d'.state.positions = d.state.positions
  fills : d'.state.fills = d.state.fills
  publicTrades : d'.state.publicTrades = d.state.publicTrades
  vault : d'.vault = d.vault

namespace SameStores
variable {d d' : DurableState}

/-- The public books are in no table. -/
theorem of_books {books : String → BookSnapshot}
    (h : d'.state = { d.state with orderbooks := books }) (hv : d'.hasVault = d.hasVault) :
    SameStores d d' := by
  refine ⟨?_, ?_, ?_, ?_, ?_⟩
  · rw [h]
  · rw [h]
  · rw [h]
  · rw [h]
  · unfold DurableState.vault
    rw [h, hv]

variable (h : SameStores d d')
include h

theorem mirrors {ids : Ids} {db : Db} (hm : Mirrors ids db d) : Mirrors ids db d' :=
  hm.congr h.openOrders h.positions h.fills h.publicTrades h.vault

theorem roundTrips {db : Db} (hr : RoundTrips db d') : RoundTrips db d := by
  intro f hf
  obtain ⟨ho, hp, hfills, hv, ht⟩ := hr f hf
  exact ⟨fun a => h.openOrders ▸ ho a, fun a => h.positions ▸ hp a,
    fun a => h.fills ▸ hfills a, fun a => h.vault ▸ hv a, fun mk => h.publicTrades ▸ ht mk⟩

end SameStores

section OneCall
variable {round : ℚ → ℚ} {iter : Mutator → Env} {devSeed : Bool} {ids : Ids} {db db' : Db}
  {d : DurableState} {m : Mutator} {es : List PersistEvent}

namespace Decimal

theorem addLevels_left {left : AppState} {l : List OpenOrder} {levels : SortedMap ℚ ℚ}
    {e : AppState} (h : l.foldlM (addLevel round left) levels = .error e) : e = left := by
  induction l generalizing levels with
  | nil => cases h
  | cons o rest ih =>
    rw [List.foldlM_cons] at h
    cases hadd : addLevel round left levels o with
    | ok levels' =>
      rw [hadd] at h
      exact ih h
    | error e' =>
      rw [hadd] at h
      obtain rfl := Except.error.inj h
      unfold addLevel at hadd
      split at hadd
      · cases hadd
      · next v hv =>
        by_cases hfits : Fits (v+o.remaining)
        · rw [result_of_fits hfits] at hadd
          cases hadd
        · rw [result_of_not_fits hfits] at hadd
          exact (Except.error.inj hadd).symm

/-- A rebuild changes the public books only, whether it returns or not. -/
theorem rebuildOrderbook_final (s : AppState) (env : Env) (marketId : String) :
    ∃ books, final id (rebuildOrderbook round s env marketId) =
      { s with orderbooks := books } := by
  unfold rebuildOrderbook
  cases hb : (s.restingOrders env marketId .buy).foldlM (addLevel round s)
      SortedMap.empty with
  | error e => exact ⟨s.orderbooks, addLevels_left hb⟩
  | ok bids =>
    cases ha : (s.restingOrders env marketId .sell).foldlM (addLevel round s)
        SortedMap.empty with
    | error e => exact ⟨s.orderbooks, addLevels_left ha⟩
    | ok asks => exact ⟨_, rfl⟩

theorem addOpenOrder_final (s : AppState) (env : Env) (address : Address) (order : OpenOrder) :
    ∃ books, final id (addOpenOrder round s env address order) =
      { s.addOpenOrder env address order with orderbooks := books } := rebuildOrderbook_final ..

theorem cancelOrder_final (s : AppState) (env : Env) (address : Address) (orderId : ℕ) :
    ∃ books, final id (cancelOrder round s env address orderId) =
      { s.cancelOrder env address orderId with orderbooks := books } := by
  unfold cancelOrder AppState.cancelOrder
  cases (s.openOrders address).find? (fun o => o.id = orderId) with
  | none => exact ⟨s.orderbooks, rfl⟩
  | some o => exact rebuildOrderbook_final ..

theorem matchTaker_exact {s : AppState} {env : Env} {marketId : String} {takerSide : Side}
    {takerPrice : Option ℚ} {takerQty : ℚ} {taker : Address} {r : List MatchedFill × AppState}
    (h : matchTaker id s env marketId takerSide takerPrice takerQty taker = .ok r) :
    r = s.matchTaker env marketId takerSide takerPrice takerQty taker := by
  unfold matchTaker fillSection at h
  cases hloop : matchLoop id env.now s.openOrders takerQty
      (s.candidates env marketId takerSide takerPrice taker) with
  | error e => simp [hloop] at h
  | ok x =>
    simp only [hloop, chain_ok_iff] at h
    obtain ⟨f, hf, s', hs', he⟩ := h
    obtain rfl := Except.ok.inj hf
    obtain rfl := rebuildOrderbook_exact hs'
    rw [← Except.ok.inj he]
    unfold AppState.matchTaker
    rw [← matchLoop_exact hloop]

theorem matchTaker_frame {s s' : AppState} {env : Env} {marketId : String} {takerSide : Side}
    {takerPrice : Option ℚ} {takerQty : ℚ} {taker : Address} {filled : List MatchedFill}
    (h : matchTaker round s env marketId takerSide takerPrice takerQty taker = .ok (filled,s')) :
    s' = { s with openOrders := s'.openOrders, orderbooks := s'.orderbooks } := by
  unfold matchTaker fillSection at h
  cases hloop : matchLoop round env.now s.openOrders takerQty
      (s.candidates env marketId takerSide takerPrice taker) with
  | error e => simp [hloop] at h
  | ok x =>
    simp only [hloop, chain_ok_iff] at h
    obtain ⟨f, hf, s₁, hs₁, he⟩ := h
    obtain rfl := Except.ok.inj hf
    obtain ⟨-, rfl⟩ := Prod.mk.inj (Except.ok.inj he)
    rw [rebuildOrderbook_frame hs₁]

/-- A taker whose fills no rounding shows in leaves the stores as on rationals. -/
theorem sameStores_matchTaker {env : Env} {marketId : String} {takerSide : Side}
    {takerPrice : Option ℚ} {takerQty : ℚ} {taker : Address}
    (h : Reports round d (.matchTaker env marketId takerSide takerPrice takerQty taker)) :
    SameStores (Edge.mutate devSeed d
          (.matchTaker env marketId takerSide takerPrice takerQty taker))
        (mutate round iter devSeed d
          (.matchTaker env marketId takerSide takerPrice takerQty taker)) ∧
      (mutate round iter devSeed d
          (.matchTaker env marketId takerSide takerPrice takerQty taker)).sent =
        (Edge.mutate devSeed d
          (.matchTaker env marketId takerSide takerPrice takerQty taker)).sent := by
  have h : Unrounded round fun ρ => (matchTaker ρ d.state env marketId takerSide takerPrice
      takerQty taker).toOption.map fun r => (r.1,r.2.openOrders) := h
  have heq := h.eq fun x hx => by
    obtain ⟨r, hr, rfl⟩ := Option.map_eq_some_iff.mp hx
    rw [matchTaker_exact (toOption_eq_some.mp hr)]
  obtain ⟨⟨filled,s'⟩, hr, he⟩ := Option.map_eq_some_iff.mp heq
  have hr := toOption_eq_some.mp hr
  obtain ⟨hfilled, horders⟩ := Prod.mk.inj he
  -- orders apart, matching changes books only, and the events are read off the orders
  have hframe := matchTaker_frame hr
  have hmutate : mutate round iter devSeed d (.matchTaker env marketId takerSide takerPrice
      takerQty taker) = { d with
        state := s'
        sent := d.sent++(seen filled).map fun a => .syncOrders a (s'.openOrders a) } := by
    unfold mutate
    simp only [hr]
  rw [hmutate]
  refine ⟨⟨horders, ?_, ?_, ?_, ?_⟩, ?_⟩
  · rw [hframe]; rfl
  · rw [hframe]; rfl
  · rw [hframe]; rfl
  · rw [hframe]; rfl
  · change _ = d.sent++(seen (d.state.matchTaker env marketId takerSide takerPrice takerQty
      taker).1).map fun a => .syncOrders a ((d.state.matchTaker env marketId takerSide takerPrice
        takerQty taker).2.openOrders a)
    rw [← hfilled, ← horders]

end Decimal

/-- What holds after the call on rationals holds after one that keeps and sends the same. -/
theorem SameStores.mutate_cases {d' : DurableState}
    (hsame : SameStores (mutate devSeed d m) d') (hsent : d'.sent = (mutate devSeed d m).sent)
    (h : Mirrors ids db d) (ho : ∀ i ∈ m.orderIds, i ∉ ids.orders)
    (hf : ∀ i ∈ m.fillIds, i ∉ ids.fills) (ht : ∀ i ∈ m.tradeIds, i ∉ ids.trades)
    (hes : d'.sent = d.sent++es) (hdb : db.applyAll es = some db') :
    m.Mirrored d ∧ Mirrors (m.addIds ids) db' d' ∨ ¬ m.Mirrored d ∧ ¬ RoundTrips db' d' :=
  (h.mutate_cases m ho hf ht (hsent.symm.trans hes) hdb).imp
    (fun ⟨hm, hmirror⟩ => ⟨hm, hsame.mirrors hmirror⟩)
    (fun ⟨hm, hbad⟩ => ⟨hm, fun hr => hbad (hsame.roundTrips hr)⟩)

theorem Mirrors.upsertPosition_ok (h : Mirrors ids db d) {now : ℕ} {address : Address}
    {marketId : String} {orderSide : Side} {qty price : ℚ} {s : AppState}
    (hok : Decimal.upsertPosition round d.state now address marketId orderSide qty price = .ok s)
    (hdb : db.apply (.syncPositions address (s.positions address)) = some db') :
    Mirrors ids db' { d with
      state := s, sent := d.sent++[.syncPositions address (s.positions address)] } := by
  obtain ⟨l, rfl⟩ := Decimal.upsertPosition_frame hok
  simp only [Function.update_self] at hdb ⊢
  exact h.setPositions hdb

theorem Mirrors.liquidatePosition (h : Mirrors ids db d) {env : Env} {now fillId tradeId : ℕ}
    {address : Address} {marketId : String}
    (hf : fillId ∉ ids.fills) (ht : tradeId ∉ ids.trades)
    (hes : (Decimal.liquidatePosition round d env now fillId tradeId address marketId).sent =
      d.sent++es)
    (hdb : db.applyAll es = some db') :
    Mirrors ⟨ids.orders, fillId :: ids.fills, tradeId :: ids.trades⟩ db'
      (Decimal.liquidatePosition round d env now fillId tradeId address marketId) := by
  have hnone (hes : d.sent = d.sent++es) :
      Mirrors ⟨ids.orders, fillId :: ids.fills, tradeId :: ids.trades⟩ db' d := by
    obtain rfl : es = [] := by simpa using hes
    simp only [Db.applyAll, Option.some.injEq] at hdb
    subst hdb
    exact h.mono (List.Subset.refl _) (List.subset_cons_self _ _) (List.subset_cons_self _ _)
  unfold Decimal.liquidatePosition at hes ⊢
  split at hes
  · exact hnone hes
  · exact hnone hes
  · next pos mark balance hclose =>
    simp only [DurableState.recordTrade, DurableState.recordFill, DurableState.setPositions,
      DurableState.setVaultBalance, List.append_assoc, List.cons_append, List.nil_append] at hes
    obtain rfl := List.append_cancel_left hes
    exact h.close hf ht hdb

namespace Decimal

/-- A call keeps the mirror exactly when it tells the database all that it does. -/
theorem mutate_cases (hr : Reports round d m) (h : Mirrors ids db d)
    (ho : ∀ i ∈ m.orderIds, i ∉ ids.orders) (hf : ∀ i ∈ m.fillIds, i ∉ ids.fills)
    (ht : ∀ i ∈ m.tradeIds, i ∉ ids.trades)
    (hes : (mutate round iter devSeed d m).sent = d.sent++es)
    (hdb : db.applyAll es = some db') :
    m.Mirrored d ∧ Mirrors (m.addIds ids) db' (mutate round iter devSeed d m) ∨
      ¬ m.Mirrored d ∧ ¬ RoundTrips db' (mutate round iter devSeed d m) := by
  cases m with
  | addOpenOrder env address order =>
    obtain ⟨books, hbooks⟩ := @addOpenOrder_final round d.state env address order
    have hsame : SameStores (Edge.mutate devSeed d (.addOpenOrder env address order))
        (mutate round iter devSeed d (.addOpenOrder env address order)) := .of_books hbooks rfl
    exact hsame.mutate_cases rfl h ho hf ht hes hdb
  | cancelOrder env address orderId =>
    obtain ⟨books, hbooks⟩ := @cancelOrder_final round d.state env address orderId
    have hsame : SameStores (Edge.mutate devSeed d (.cancelOrder env address orderId))
        (mutate round iter devSeed d (.cancelOrder env address orderId)) := .of_books hbooks rfl
    exact hsame.mutate_cases rfl h ho hf ht hes hdb
  | matchTaker env marketId takerSide takerPrice takerQty taker =>
    obtain ⟨hsame, hsent⟩ := @sameStores_matchTaker round iter devSeed d _ _ _ _ _ _ hr
    exact hsame.mutate_cases hsent h ho hf ht hes hdb
  | upsertPosition now address marketId orderSide qty price =>
    -- the event is sent after the arithmetic, which returns here
    obtain ⟨s, hs⟩ := hr
    unfold mutate at hes ⊢
    simp only [hs] at hes ⊢
    obtain rfl := List.append_cancel_left hes
    rw [applyAll_singleton] at hdb
    exact Or.inl ⟨trivial, h.upsertPosition_ok hs hdb⟩
  | liquidatePosition now fillId tradeId address marketId =>
    exact Or.inl ⟨trivial, h.liquidatePosition (hf _ List.mem_cons_self)
      (ht _ List.mem_cons_self) hes hdb⟩
  | setPositions address positions =>
    -- from here on nothing is computed that could be rounded
    exact @Mirrors.mutate_cases devSeed _ _ _ _ h _ _ ho hf ht hes hdb
  | recordFill address fill =>
    exact @Mirrors.mutate_cases devSeed _ _ _ _ h _ _ ho hf ht hes hdb
  | recordTrade marketId trade =>
    exact @Mirrors.mutate_cases devSeed _ _ _ _ h _ _ ho hf ht hes hdb
  | setVaultBalance address amount =>
    exact @Mirrors.mutate_cases devSeed _ _ _ _ h _ _ ho hf ht hes hdb
  | seedDevVault address =>
    exact @Mirrors.mutate_cases devSeed _ _ _ _ h _ _ ho hf ht hes hdb

theorem mutate_sent (d : DurableState) (m : Mutator) :
    ∃ es, (mutate round iter devSeed d m).sent = d.sent++es := by
  cases m with
  | addOpenOrder env address order => exact ⟨_, rfl⟩
  | cancelOrder env address orderId => exact ⟨_, rfl⟩
  | matchTaker env marketId takerSide takerPrice takerQty taker =>
    unfold mutate
    dsimp only
    split
    · exact ⟨[], by simp⟩
    · exact ⟨_, rfl⟩
  | upsertPosition now address marketId orderSide qty price =>
    unfold mutate
    dsimp only
    split
    · exact ⟨[], by simp⟩
    · exact ⟨_, rfl⟩
  | liquidatePosition now fillId tradeId address marketId =>
    unfold mutate liquidatePosition
    dsimp only
    split
    · exact ⟨[], by simp⟩
    · exact ⟨[], by simp⟩
    · simp only [DurableState.recordTrade, DurableState.recordFill, DurableState.setPositions,
        DurableState.setVaultBalance, List.append_assoc]
      exact ⟨_, rfl⟩
  | setPositions address positions => exact ⟨_, rfl⟩
  | recordFill address fill => exact ⟨_, rfl⟩
  | recordTrade marketId trade => exact ⟨_, rfl⟩
  | setVaultBalance address amount => exact ⟨_, rfl⟩
  | seedDevVault address => exact Edge.mutate_sent devSeed d (.seedDevVault address)

theorem mutateAll_append (ms : List Mutator) (m : Mutator) :
    mutateAll round iter devSeed (ms++[m]) =
      mutate round iter devSeed (mutateAll round iter devSeed ms) m := by
  simp [mutateAll]

theorem sent_mono {pre ms : List Mutator} (h : pre <+: ms) :
    (mutateAll round iter devSeed pre).sent <+: (mutateAll round iter devSeed ms).sent := by
  obtain ⟨post, rfl⟩ := h
  induction post using List.reverseRecOn with
  | nil => simp
  | append_singleton post m ih =>
    rw [← List.append_assoc, mutateAll_append]
    obtain ⟨es, he⟩ := @mutate_sent round iter devSeed
      (mutateAll round iter devSeed (pre++post)) m
    rw [he]
    exact ih.trans (List.prefix_append _ _)

theorem written_mono {pre ms : List Mutator} (h : written round iter devSeed ms = some db)
    (hpre : pre <+: ms) : ∃ db', written round iter devSeed pre = some db' := by
  obtain ⟨es, he⟩ := @sent_mono round iter devSeed _ _ hpre
  unfold written at h ⊢
  rw [← he, applyAll_append, Option.bind_eq_some_iff] at h
  obtain ⟨db', hdb', -⟩ := h
  exact ⟨db', hdb'⟩

end Decimal

end OneCall

/-- Whenever the process stops in a run whose calls report in time, a restart restores memory if
and only if every call of the run tells the database all that it does. -/
theorem run_roundTrips_iff (round : ℚ → ℚ) (iter : Mutator → Env) (devSeed : Bool)
    (ms : List Mutator) (hfresh : FreshIds ms)
    (hreports : ∀ pre m, pre++[m] <+: ms →
      Decimal.Reports round (Decimal.mutateAll round iter devSeed pre) m)
    (db : Db) (hok : Decimal.written round iter devSeed ms = some db) :
    (∀ pre, pre <+: ms → ∀ db, Decimal.written round iter devSeed pre = some db →
        RoundTrips db (Decimal.mutateAll round iter devSeed pre)) ↔
      ∀ pre m, pre++[m] <+: ms → m.Mirrored (Decimal.mutateAll round iter devSeed pre) := by
  refine forall_prefix_iff (P := fun pre => ∀ db,
    Decimal.written round iter devSeed pre = some db →
      Mirrors (idsOf pre) db (Decimal.mutateAll round iter devSeed pre)) ?_ ?_ ?_
  · intro db hdb
    obtain rfl := Option.some.inj hdb
    exact mirrors_new _
  · exact fun pre hP db hdb => (hP db hdb).roundTrips
  intro pre m hpre hP
  -- both databases exist, and the second comes from the first by the events of the call
  obtain ⟨db₁, h₁⟩ := Decimal.written_mono hok ((List.prefix_append pre [m]).trans hpre)
  obtain ⟨db₂, h₂⟩ := Decimal.written_mono hok hpre
  obtain ⟨es, hes⟩ := @Decimal.mutate_sent round iter devSeed
    (Decimal.mutateAll round iter devSeed pre) m
  have hstep : db₁.applyAll es = some db₂ := by
    unfold Decimal.written at h₁ h₂
    rw [Decimal.mutateAll_append, hes, applyAll_append, h₁] at h₂
    exact h₂
  obtain ⟨ho, hf, ht⟩ := hfresh.next hpre
  have hcases := Decimal.mutate_cases (hreports pre m hpre) (hP db₁ h₁) ho hf ht hes hstep
  rw [← Decimal.mutateAll_append, ← idsOf_append] at hcases
  have hall {P : Db → Prop} (h : P db₂) :
      ∀ db, Decimal.written round iter devSeed (pre++[m]) = some db → P db := by
    intro db hdb
    rw [h₂] at hdb
    exact Option.some.inj hdb ▸ h
  rcases hcases with ⟨hm, hmirror⟩ | ⟨hm, hbad⟩
  · exact ⟨iff_of_true (hall hmirror.roundTrips) hm, fun _ => hall hmirror⟩
  · exact ⟨iff_of_false (fun h => hbad (h db₂ h₂)) hm, fun h => absurd (h db₂ h₂) hbad⟩

/-- Account 2 offers one contract, and account 1 takes half of it. -/
def halfTaken : List Mutator :=
  [.addOpenOrder (twoAccounts 0) 2 (offer 0 1),
    .matchTaker (twoAccounts 1) "btc-usd" .buy (some 100) (1/2) 1,
    .upsertPosition 1 1 "btc-usd" .buy (1/2) 100,
    .recordTrade "btc-usd" ⟨0, "btc-usd", 100, 1/2, .buy, 1⟩,
    .setVaultBalance 1 1000000]

/-- The server with the rounding of `rust_decimal`. -/
def persisted (ms : List Mutator) : DurableState :=
  Decimal.mutateAll rustDecimal.halfEven (fun _ => twoAccounts 0) false ms

/-- Its database. -/
def tables (ms : List Mutator) : Option Db :=
  Decimal.written rustDecimal.halfEven (fun _ => twoAccounts 0) false ms

theorem halfTaken_offered (a : Address) : (persisted (halfTaken.take 1)).state.openOrders a =
    if a = 2 then [offer 0 1] else [] := by
  by_cases ha : a = 2
  · subst ha
    rw [if_pos rfl]
    decide +kernel
  · rw [if_neg ha]
    exact Function.update_of_ne ha _ _

theorem halfTaken_reports : ∀ pre m, pre++[m] <+: halfTaken →
    Decimal.Reports rustDecimal.halfEven (persisted pre) m := by
  refine forall_request_cons (P := fun pre => Decimal.Reports rustDecimal.halfEven
    (persisted pre)) trivial ?_
  refine forall_request_cons ?_ (forall_request_cons ?_ (forall_request_cons trivial
    (forall_request_cons trivial forall_request_nil)))
  · -- the book has one decimal
    have hgrid : Decimal.OnGrid 1 "btc-usd" (persisted (halfTaken.take 1)).state.openOrders := by
      intro a o ho _
      rw [halfTaken_offered] at ho
      split_ifs at ho
      · obtain rfl := List.mem_singleton.mp ho
        exact DecimalFormat.Grid.iff_den.mpr (by decide +kernel)
      · simp at ho
    have hfits : Decimal.LevelsOnGrid 1 (persisted (halfTaken.take 1)).state (twoAccounts 1)
        "btc-usd" := .of_sides hgrid fun side => by cases side <;> decide +kernel
    have hids (a : Address) :
        (((persisted (halfTaken.take 1)).state.openOrders a).map OpenOrder.id).Nodup := by
      rw [halfTaken_offered]
      split_ifs <;> simp
    have hq : rustDecimal.Grid 1 (1/2) := DecimalFormat.Grid.iff_den.mpr (by decide +kernel)
    have hmatch {ρ : ℚ → ℚ} (hρ : rustDecimal.IsRounding ρ) :=
      @Decimal.matchTaker_of_grid ρ 1 _ (twoAccounts 1) "btc-usd" .buy (some 100) (1/2) 1 hρ hids hq
        hgrid hfits
    refine ⟨_, congrArg _ (congrArg _ (hmatch rustDecimal.halfEven_isRounding)), ?_⟩
    exact congrArg _ (congrArg _ (hmatch fun _ _ => rfl))
  · have hup : Succeeds (Decimal.upsertPosition rustDecimal.halfEven
        (persisted (halfTaken.take 2)).state 1 1 "btc-usd" .buy (1/2) 100) := by decide +kernel
    exact hup

theorem run_roundTrips_iff_halfTaken : ∃ db, FreshIds halfTaken ∧
    tables halfTaken = some db ∧ ∀ pre, pre <+: halfTaken → ∀ db,
      tables pre = some db → RoundTrips db (persisted pre) := by
  have hfresh : FreshIds halfTaken := ⟨by decide, by decide, by decide⟩
  have hok : (tables halfTaken).isSome = true := by decide +kernel
  obtain ⟨db, hdb⟩ := Option.isSome_iff_exists.mp hok
  refine ⟨db, hfresh, hdb, (run_roundTrips_iff _ _ false halfTaken hfresh halfTaken_reports db
    hdb).mpr ?_⟩
  refine forall_request_cons (P := fun pre => Mutator.Mirrored (persisted pre)) trivial ?_
  refine forall_request_cons ?_ (forall_request_cons trivial (forall_request_cons rfl
    (forall_request_cons trivial forall_request_nil)))
  -- the only order on the book is not spent
  rintro a ⟨o, ho, -, hrem⟩
  have ho : o ∈ (persisted (halfTaken.take 1)).state.openOrders a := ho
  rw [halfTaken_offered] at ho
  split_ifs at ho
  · obtain rfl := List.mem_singleton.mp ho
    exact absurd hrem (by decide)
  · simp at ho

/-- Account 2 adds an order that is spent already, and account 1 finds no maker: memory drops
the order, and the table keeps it. -/
def spentReaped : List Mutator :=
  [.addOpenOrder (twoAccounts 0) 2 (offer 0 0),
    .matchTaker (twoAccounts 1) "btc-usd" .buy (some 100) 1 1]

theorem spent_order_comes_back : FreshIds spentReaped ∧ ∃ db,
    tables spentReaped = some db ∧ (persisted spentReaped).state.openOrders 2 = [] ∧
      (loadSnapshot db.rows).openOrders 2 = [offer 0 0] ∧ db.Returns db.rows ∧
      ¬ RoundTrips db (persisted spentReaped) := by
  have hmem : (persisted spentReaped).state.openOrders 2 = [] := by decide +kernel
  have hok : tables spentReaped =
      some { Db.empty with openOrders := [(offer 0 0).row 2] } := by decide +kernel
  have hload : (loadSnapshot ({ Db.empty with
      openOrders := [(offer 0 0).row 2] } : Db).rows).openOrders 2 = [offer 0 0] := by
    decide +kernel
  have hret : ({ Db.empty with openOrders := [(offer 0 0).row 2] } : Db).Returns
      ({ Db.empty with openOrders := [(offer 0 0).row 2] } : Db).rows :=
    ⟨List.Perm.refl _, List.Perm.refl _, List.Perm.refl _, List.Pairwise.nil, List.Perm.refl _,
      List.Perm.refl _, List.Pairwise.nil⟩
  refine ⟨⟨by decide, by decide, by decide⟩, _, hok, hmem, hload, hret, ?_⟩
  intro hr
  have hperm := (hr _ hret).openOrders 2
  rw [hload, hmem] at hperm
  exact absurd hperm.length_eq (by decide)

end Perplex.Edge
