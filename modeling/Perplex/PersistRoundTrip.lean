import Perplex.PersistModel

/-! A restart finds what memory held. The tables mirror the stores after every mutator, except
where matching reaps a spent order of an account that it does not fill, or a trade is recorded
under another market than its own. -/
namespace Perplex.Edge

/-- Ids of orders, fills and trades. -/
structure Ids where
  orders : List ℕ
  fills : List ℕ
  trades : List ℕ

/-- The invariant: every table holds its store, and only known ids. -/
structure Mirrors (ids : Ids) (db : Db) (d : DurableState) : Prop where
  orders : HoldsLists OrderRow.id OrderRow.address OrderRow.order db.openOrders
    d.state.openOrders
  orderIds : ∀ r ∈ db.openOrders, r.id ∈ ids.orders
  positions : HoldsLists PositionRow.key PositionRow.address PositionRow.position db.positions
    d.state.positions
  fills : HoldsLogs FillRow.id FillRow.seq FillRow.address FillRow.fill ids.fills db.fillSeq
    db.fills d.state.fills
  trades : HoldsLogs TradeRow.id TradeRow.seq TradeRow.marketId TradeRow.trade ids.trades
    db.tradeSeq db.publicTrades d.state.publicTrades
  vaults : HoldsValues VaultRow.address VaultRow.amount db.vaultBalances d.vault

theorem Mirrors.mono {ids ids' : Ids} {db : Db} {d : DurableState} (h : Mirrors ids db d)
    (ho : ids.orders ⊆ ids'.orders) (hf : ids.fills ⊆ ids'.fills)
    (ht : ids.trades ⊆ ids'.trades) : Mirrors ids' db d where
  orders := h.orders
  orderIds := fun r hr => ho (h.orderIds r hr)
  positions := h.positions
  fills := h.fills.mono hf
  trades := h.trades.mono ht
  vaults := h.vaults

/-- What was sent and the public book do not matter. -/
theorem Mirrors.congr {ids : Ids} {db : Db} {d d' : DurableState} (h : Mirrors ids db d)
    (ho : d'.state.openOrders = d.state.openOrders)
    (hp : d'.state.positions = d.state.positions) (hf : d'.state.fills = d.state.fills)
    (ht : d'.state.publicTrades = d.state.publicTrades) (hv : d'.vault = d.vault) :
    Mirrors ids db d' where
  orders := ho ▸ h.orders
  orderIds := h.orderIds
  positions := hp ▸ h.positions
  fills := hf ▸ h.fills
  trades := ht ▸ h.trades
  vaults := hv ▸ h.vaults

theorem mirrors_new (ids : Ids) : Mirrors ids Db.empty DurableState.new where
  orders := ⟨by simp [Db.empty], fun _ => List.Perm.refl _⟩
  orderIds := by simp [Db.empty]
  positions := ⟨by simp [Db.empty], fun _ => List.Perm.refl _⟩
  fills := ⟨by simp [Db.empty], by simp [Db.empty], by simp [Db.empty], fun _ => rfl⟩
  trades := ⟨by simp [Db.empty], by simp [Db.empty], by simp [Db.empty], fun _ => rfl⟩
  vaults := ⟨by simp [Db.empty], rfl⟩

theorem applyAll_append (db : Db) (xs ys : List PersistEvent) :
    db.applyAll (xs++ys) = (db.applyAll xs).bind fun db => db.applyAll ys := by
  induction xs generalizing db with
  | nil => rfl
  | cons e xs ih =>
    simp only [List.cons_append, Db.applyAll]
    cases db.apply e with
    | none => rfl
    | some db => exact ih db

theorem applyAll_singleton (db : Db) (e : PersistEvent) : db.applyAll [e] = db.apply e := by
  simp [Db.applyAll]

section Steps
variable {ids : Ids} {db db' : Db} {d : DurableState}

theorem Mirrors.row_of_mem (h : Mirrors ids db d) {a : Address} {o : OpenOrder}
    (ho : o ∈ d.state.openOrders a) : ∃ r ∈ db.openOrders, r.address = a ∧ r.order = o :=
  (mem_grouped _ _).mp ((h.orders.read a).mem_iff.mpr ho)

theorem Mirrors.id_of_mem (h : Mirrors ids db d) {a : Address} {o : OpenOrder}
    (ho : o ∈ d.state.openOrders a) : o.id ∈ ids.orders := by
  obtain ⟨r, hr, -, rfl⟩ := h.row_of_mem ho
  exact h.orderIds r hr

/-- The ids of one account differ. -/
theorem Mirrors.nodup (h : Mirrors ids db d) (a : Address) :
    ((d.state.openOrders a).map OpenOrder.id).Nodup := by
  refine (((h.orders.read a).map OpenOrder.id).nodup_iff).mp ?_
  unfold grouped
  rw [List.map_map]
  exact h.orders.keyed.sublist (List.filter_sublist.map _)

/-- An id belongs to one account. -/
theorem Mirrors.owner_unique (h : Mirrors ids db d) {a b : Address} {o o' : OpenOrder}
    (ho : o ∈ d.state.openOrders a) (ho' : o' ∈ d.state.openOrders b) (hid : o.id = o'.id) :
    a = b := by
  obtain ⟨r, hr, rfl, rfl⟩ := h.row_of_mem ho
  obtain ⟨r', hr', rfl, rfl⟩ := h.row_of_mem ho'
  have he : r = r' := List.inj_on_of_nodup_map h.orders.keyed hr hr' hid
  rw [he]

theorem Mirrors.addOpenOrder (h : Mirrors ids db d) (env : Env) (address : Address)
    {order : OpenOrder} (hnew : order.id ∉ ids.orders)
    (hdb : db.apply (.upsertOrder address order) = some db') :
    Mirrors ⟨order.id :: ids.orders, ids.fills, ids.trades⟩ db'
      (d.addOpenOrder env address order) := by
  have hfresh : (order.row address).id ∉ db.openOrders.map OrderRow.id := by
    intro hmem
    obtain ⟨r, hr, he⟩ := List.mem_map.mp hmem
    have he : r.id = order.id := he
    exact hnew (he ▸ h.orderIds r hr)
  simp only [Db.apply, Option.some.injEq] at hdb
  rw [insertOrUpdate_of_fresh hfresh] at hdb
  subst hdb
  refine { h with orders := h.orders.push hfresh, orderIds := ?_ }
  intro r hr
  rcases List.mem_append.mp hr with hr | hr
  · exact List.mem_cons_of_mem _ (h.orderIds r hr)
  · rw [List.mem_singleton.mp hr]
    exact List.mem_cons_self

/-- The statement deletes by id alone, memory in the list of one account. -/
theorem holdsLists_deleteOrder {t : List OrderRow} {m : Address → List OpenOrder}
    (h : HoldsLists OrderRow.id OrderRow.address OrderRow.order t m) (id : ℕ) :
    HoldsLists OrderRow.id OrderRow.address OrderRow.order (t.filter fun r => r.id ≠ id)
      fun a => (m a).filter fun o => o.id ≠ id := by
  refine ⟨nodup_filter_key _ h.keyed, ?_⟩
  intro a
  have hswap : grouped OrderRow.address OrderRow.order (t.filter fun r => r.id ≠ id) a =
      (grouped OrderRow.address OrderRow.order t a).filter fun o => o.id ≠ id := by
    unfold grouped
    rw [List.filter_map, List.filter_filter, List.filter_filter]
    congr 1
    apply List.filter_congr
    intro r _
    exact Bool.and_comm _ _
  rw [hswap]
  exact (h.read a).filter _

theorem Mirrors.cancelOrder (h : Mirrors ids db d) (env : Env) (address : Address)
    (orderId : ℕ)
    (hdb : db.applyAll (if (d.state.openOrders address).any (fun o => o.id = orderId)
      then [.deleteOrder orderId] else []) = some db') :
    Mirrors ids db' (d.cancelOrder env address orderId) := by
  have hbook (a : Address) : (d.cancelOrder env address orderId).state.openOrders a =
      if a = address then (d.state.openOrders a).filter fun o => o.id ≠ orderId
      else d.state.openOrders a := AppState.cancelOrder_openOrders ..
  have hframe := AppState.cancelOrder_frame d.state env address orderId
  -- by the frame only the orders have to be looked at
  have hrest {db' : Db} (ho : HoldsLists OrderRow.id OrderRow.address OrderRow.order
      db'.openOrders (d.cancelOrder env address orderId).state.openOrders)
      (hids : ∀ r ∈ db'.openOrders, r.id ∈ ids.orders)
      (hdb' : db' = { db with openOrders := db'.openOrders }) :
      Mirrors ids db' (d.cancelOrder env address orderId) := by
    refine ⟨ho, hids, ?_, ?_, ?_, ?_⟩
    all_goals
      rw [hdb']
      unfold DurableState.cancelOrder
      rw [hframe]
    · exact h.positions
    · exact h.fills
    · exact h.trades
    · exact h.vaults
  by_cases hany : (d.state.openOrders address).any (fun o => o.id = orderId)
  · rw [if_pos hany, applyAll_singleton, Db.apply, Option.some.injEq] at hdb
    subst hdb
    obtain ⟨o, ho, he⟩ := List.any_eq_true.mp hany
    have he : o.id = orderId := by simpa using he
    refine hrest ?_ ?_ rfl
    · have hall := holdsLists_deleteOrder h.orders orderId
      have hsame : (d.cancelOrder env address orderId).state.openOrders =
          fun a => (d.state.openOrders a).filter fun o => o.id ≠ orderId := by
        funext a
        rw [hbook]
        split_ifs with ha
        · rfl
        · -- no other account has the id
          symm
          apply List.filter_eq_self.mpr
          intro o' ho'
          have hne : o'.id ≠ orderId := fun hid =>
            ha (h.owner_unique ho' ho (hid.trans he.symm))
          simpa using hne
      rw [hsame]
      exact hall
    · intro r hr
      exact h.orderIds r (List.mem_filter.mp hr).1
  · rw [if_neg hany, Db.applyAll, Option.some.injEq] at hdb
    subst hdb
    refine hrest ?_ h.orderIds rfl
    have hsame : (d.cancelOrder env address orderId).state.openOrders = d.state.openOrders := by
      funext a
      rw [hbook]
      split_ifs with ha
      · subst ha
        apply List.filter_eq_self.mpr
        intro o ho
        by_contra hid
        exact hany (List.any_eq_true.mpr ⟨o, ho, by simpa using hid⟩)
      · rfl
    rw [hsame]
    exact h.orders

theorem Mirrors.setPositions (h : Mirrors ids db d) {address : Address}
    {positions : List PositionInfo}
    (hdb : db.apply (.syncPositions address positions) = some db') :
    Mirrors ids db' (d.setPositions address positions) := by
  simp only [Db.apply, Option.map_eq_some_iff] at hdb
  obtain ⟨t, ht, rfl⟩ := hdb
  have hnew := h.positions.replace (f := PositionInfo.row address) (fun _ => rfl) (fun _ => rfl) ht
  exact { h with positions := hnew }

theorem Mirrors.upsertPosition (h : Mirrors ids db d) {now : ℕ} {address : Address}
    {marketId : String} {orderSide : Side} {qty price : ℚ}
    (hdb : db.apply (.syncPositions address ((d.state.upsertPosition now address marketId
      orderSide qty price).positions address)) = some db') :
    Mirrors ids db' (d.upsertPosition now address marketId orderSide qty price) := by
  refine (h.setPositions hdb).congr rfl ?_ rfl rfl rfl
  -- the list that is sent is the one that was just stored
  change Function.update d.state.positions address _ = Function.update d.state.positions address
    (Function.update d.state.positions address _ address)
  rw [Function.update_self]

theorem Mirrors.recordFill (h : Mirrors ids db d) {address : Address} {fill : FillInfo}
    (hnew : fill.id ∉ ids.fills) (hdb : db.apply (.insertFill address fill) = some db') :
    Mirrors ⟨ids.orders, fill.id :: ids.fills, ids.trades⟩ db' (d.recordFill address fill) := by
  simp only [Db.apply, Option.some.injEq] at hdb
  subst hdb
  exact { h with fills := HoldsLogs.push (r := fill.row address db.fillSeq) h.fills hnew }

/-- A trade is stored under its own market. -/
theorem Mirrors.recordTrade (h : Mirrors ids db d) {trade : PublicTrade}
    (hnew : trade.id ∉ ids.trades) (hdb : db.apply (.insertTrade trade) = some db') :
    Mirrors ⟨ids.orders, ids.fills, trade.id :: ids.trades⟩ db'
      (d.recordTrade trade.marketId trade) := by
  simp only [Db.apply, Option.some.injEq] at hdb
  subst hdb
  exact { h with trades := HoldsLogs.push (r := trade.row db.tradeSeq) h.trades hnew }

theorem Mirrors.setVaultBalance (h : Mirrors ids db d) {address : Address} {amount : ℚ}
    (hdb : db.apply (.upsertVault address amount) = some db') :
    Mirrors ids db' (d.setVaultBalance address amount) := by
  simp only [Db.apply, Option.some.injEq] at hdb
  subst hdb
  have hput := HoldsValues.put (r := (⟨address, amount⟩ : VaultRow))
    (u := fun r => { r with amount }) h.vaults (fun _ => rfl) (fun _ => rfl)
  have hvault : (d.setVaultBalance address amount).vault =
      Function.update d.vault address (some amount) := by
    funext a
    by_cases ha : a = address
    · subst ha
      simp [DurableState.vault, DurableState.setVaultBalance]
    · simp [DurableState.vault, DurableState.setVaultBalance, ha]
  exact { h with vaults := hvault ▸ hput }

/-- The four setters of a forced close, one after the other. -/
theorem Mirrors.close (h : Mirrors ids db d) {address : Address} {balance : ℚ}
    {kept : List PositionInfo} {fill : FillInfo} {trade : PublicTrade} (hf : fill.id ∉ ids.fills)
    (ht : trade.id ∉ ids.trades)
    (hdb : db.applyAll [.upsertVault address balance, .syncPositions address kept,
      .insertFill address fill, .insertTrade trade] = some db') :
    Mirrors ⟨ids.orders, fill.id :: ids.fills, trade.id :: ids.trades⟩ db'
      ((((d.setVaultBalance address balance).setPositions address kept).recordFill address
        fill).recordTrade trade.marketId trade) := by
  simp only [Db.applyAll, Option.bind_eq_some_iff, Option.some.injEq] at hdb
  obtain ⟨db₁, h₁, db₂, h₂, db₃, h₃, db₄, h₄, rfl⟩ := hdb
  have hvault := h.setVaultBalance h₁
  have hpos := hvault.setPositions h₂
  have hfill := hpos.recordFill hf h₃
  exact hfill.recordTrade ht h₄

theorem mem_seen {filled : List MatchedFill} {a : Address} :
    a ∈ seen filled ↔ ∃ f ∈ filled, f.makerAddress = a := by
  induction filled using List.reverseRecOn with
  | nil => simp [seen]
  | append_singleton filled f ih =>
    have hstep : seen (filled++[f]) =
        if f.makerAddress ∈ seen filled then seen filled else seen filled++[f.makerAddress] := by
      unfold seen
      rw [List.foldl_append]
      rfl
    rw [hstep]
    split_ifs with hf
    · rw [ih]
      constructor
      · rintro ⟨g, hg, he⟩
        exact ⟨g, List.mem_append_left _ hg, he⟩
      · rintro ⟨g, hg, rfl⟩
        rcases List.mem_append.mp hg with hg | hg
        · exact ⟨g, hg, rfl⟩
        · obtain rfl := List.mem_singleton.mp hg
          exact ih.mp hf
    · simp only [List.mem_append, ih, List.mem_singleton]
      constructor
      · rintro (⟨g, hg, he⟩ | rfl)
        · exact ⟨g, Or.inl hg, he⟩
        · exact ⟨f, Or.inr rfl, rfl⟩
      · rintro ⟨g, hg | rfl, he⟩
        · exact Or.inl ⟨g, hg, he⟩
        · exact Or.inr he.symm

/-- The lists of some accounts are sent again. -/
theorem Mirrors.syncOrders (h : Mirrors ids db d) {lists : Address → List OpenOrder}
    (hids : ∀ a, ∀ o ∈ lists a, o.id ∈ ids.orders) {as : List Address}
    (hdb : db.applyAll (as.map fun a => .syncOrders a (lists a)) = some db') :
    Mirrors ids db' { d with state := { d.state with
      openOrders := fun a => if a ∈ as then lists a else d.state.openOrders a } } := by
  induction as generalizing db d with
  | nil =>
    simp only [List.map_nil, Db.applyAll, Option.some.injEq] at hdb
    subst hdb
    exact h.congr (by simp) rfl rfl rfl rfl
  | cons a as ih =>
    simp only [List.map_cons, Db.applyAll, Option.bind_eq_some_iff] at hdb
    obtain ⟨db₁, h₁, hrest⟩ := hdb
    simp only [Db.apply, Option.map_eq_some_iff] at h₁
    obtain ⟨t, ht, rfl⟩ := h₁
    have hone := h.orders.replace (f := OpenOrder.row a) (fun _ => rfl) (fun _ => rfl) ht
    have hwithin : ∀ r ∈ t, r.id ∈ ids.orders := by
      obtain ⟨rfl, -⟩ := (insertRows_eq_some (nodup_filter_key _ h.orders.keyed)).mp ht
      intro r hr
      rcases List.mem_append.mp hr with hr | hr
      · exact h.orderIds r (List.mem_filter.mp hr).1
      · obtain ⟨o, ho, rfl⟩ := List.mem_map.mp hr
        exact hids a o ho
    have hmid : Mirrors ids { db with openOrders := t } { d with state := { d.state with
        openOrders := Function.update d.state.openOrders a (lists a) } } :=
      { h with orders := hone, orderIds := hwithin }
    refine (ih hmid hrest).congr ?_ rfl rfl rfl rfl
    funext b
    by_cases hb : b = a
    · subst hb
      simp
    · simp [hb]

theorem matchLoop_of_not_filled (now : ℕ) (cs : List Candidate)
    (orders : Address → List OpenOrder) (q : ℚ) {a : Address}
    (h : ∀ m ∈ (matchLoop now orders q cs).1, m.makerAddress ≠ a) :
    (matchLoop now orders q cs).2 a = orders a := by
  induction cs generalizing orders q with
  | nil => rfl
  | cons c cs ih =>
    unfold matchLoop at h ⊢
    split_ifs at h ⊢ with h0
    · rfl
    cases hfind : (orders c.address).find? (fun o => o.id = c.id) with
    | none =>
      simp only [hfind] at h ⊢
      exact ih _ _ h
    | some o =>
      simp only [hfind] at h ⊢
      split_ifs at h ⊢ with hspent
      · exact ih _ _ h
      · have hne : c.address ≠ a := h _ List.mem_cons_self
        have hrest := ih _ _ fun m hm => h m (List.mem_cons_of_mem _ hm)
        rw [hrest, Function.update_of_ne (Ne.symm hne)]

namespace AppState
variable (s : AppState) (env : Env) (marketId : String) (takerSide : Side)
  (takerPrice : Option ℚ) (takerQty : ℚ) (taker : Address)

/-- The taker outlasts the makers ahead of some order of the account. -/
def DrawsFrom (a : Address) : Prop :=
  ∃ front c back, s.candidates env marketId takerSide takerPrice taker = front++c :: back ∧
    Outlasts Candidate.rem takerQty front ∧ c.address = a

variable {s env marketId takerSide takerPrice takerQty taker}

theorem filled_iff_drawsFrom (h : ∀ a, ((s.openOrders a).map OpenOrder.id).Nodup)
    {a : Address} :
    (∃ f ∈ (s.matchTaker env marketId takerSide takerPrice takerQty taker).1,
        f.makerAddress = a) ↔
      s.DrawsFrom env marketId takerSide takerPrice takerQty taker a := by
  rw [matchTaker_eq_drain h]
  constructor
  · rintro ⟨f, hf, rfl⟩
    obtain ⟨x, hx, rfl⟩ := List.mem_map.mp hf
    obtain ⟨xs, ys, hsplit⟩ := List.mem_iff_append.mp hx
    obtain ⟨front, back, hc, hout, -, -⟩ :=
      (drain_eq_append_iff Candidate.rem).mp ⟨ys, hsplit⟩
    exact ⟨front, x.1, back, hc, hout, rfl⟩
  · rintro ⟨front, c, back, hc, hout, rfl⟩
    obtain ⟨ys, hys⟩ := (drain_eq_append_iff Candidate.rem).mpr
      ⟨front, back, hc, hout, rfl, rfl⟩
    have hmem : (c,min (takerQty-(front.map Candidate.rem).sum) c.rem) ∈
        drain Candidate.rem takerQty (s.candidates env marketId takerSide takerPrice taker) := by
      rw [hys]
      exact List.mem_append_right _ List.mem_cons_self
    exact ⟨_, List.mem_map_of_mem hmem, rfl⟩

theorem matchTaker_openOrders_of_not_drawsFrom
    (h : ∀ a, ((s.openOrders a).map OpenOrder.id).Nodup) {a : Address}
    (ha : ¬ s.DrawsFrom env marketId takerSide takerPrice takerQty taker a) :
    (s.matchTaker env marketId takerSide takerPrice takerQty taker).2.openOrders a =
      reap marketId (s.openOrders a) := by
  have hnone : ∀ m ∈ (s.matchTaker env marketId takerSide takerPrice takerQty taker).1,
      m.makerAddress ≠ a := fun m hm he => ha ((filled_iff_drawsFrom h).mp ⟨m, hm, he⟩)
  change reap marketId ((matchLoop env.now s.openOrders takerQty _).2 a) = _
  rw [matchLoop_of_not_filled _ _ _ _ hnone]

end AppState

/-- After `match_taker` the tables hold what memory had, with the filled accounts brought up to
date. -/
theorem Mirrors.matchTaker (h : Mirrors ids db d) {env : Env} {marketId : String}
    {takerSide : Side} {takerPrice : Option ℚ} {takerQty : ℚ} {taker : Address}
    (hdb : db.applyAll ((seen (d.state.matchTaker env marketId takerSide takerPrice takerQty
        taker).1).map fun a => .syncOrders a ((d.state.matchTaker env marketId takerSide
          takerPrice takerQty taker).2.openOrders a)) = some db') :
    Mirrors ids db' { d with state := { d.state with
      openOrders := fun a => if a ∈ seen (d.state.matchTaker env marketId takerSide takerPrice
          takerQty taker).1
        then (d.state.matchTaker env marketId takerSide takerPrice takerQty taker).2.openOrders a
        else d.state.openOrders a } } := by
  refine h.syncOrders ?_ hdb
  intro a o ho
  have hold := (AppState.matchTaker_ids _ _ _ _ _ _ _ a).subset (List.mem_map_of_mem ho)
  obtain ⟨o₀, ho₀, he⟩ := List.mem_map.mp hold
  rw [← he]
  exact h.id_of_mem ho₀

end Steps

/-- The loaded stores are those in memory; an account without rows has an empty list. -/
structure Restores (snap : DbSnapshot) (d : DurableState) : Prop where
  openOrders : ∀ a, (snap.openOrders a).Perm (d.state.openOrders a)
  positions : ∀ a, (snap.positions a).Perm (d.state.positions a)
  fills : ∀ a, snap.fills a = d.state.fills a
  vaultBalances : ∀ a, snap.vaultBalances a = d.vault a
  publicTrades : ∀ mk, snap.publicTrades mk = d.state.publicTrades mk

/-- A restart restores memory, in whatever order the rows come back. -/
def RoundTrips (db : Db) (d : DurableState) : Prop :=
  ∀ f, db.Returns f → Restores (loadSnapshot f) d

theorem Mirrors.restores {ids : Ids} {db : Db} {d : DurableState} (h : Mirrors ids db d)
    {f : Fetched} (hf : db.Returns f) : Restores (loadSnapshot f) d where
  openOrders := by
    intro a
    change (pushAll _ _ f.openOrders a).Perm _
    rw [pushAll_eq_grouped]
    exact (grouped_perm _ _ hf.openOrders a).trans (h.orders.read a)
  positions := by
    intro a
    change (pushAll _ _ f.positions a).Perm _
    rw [pushAll_eq_grouped]
    exact (grouped_perm _ _ hf.positions a).trans (h.positions.read a)
  fills := by
    intro a
    change pushAll _ _ f.fills a = _
    rw [pushAll_eq_grouped, eq_of_perm_of_numbered hf.fills h.fills.ordered hf.fills_ordered]
    exact h.fills.read a
  vaultBalances := by
    intro a
    have hnd := (hf.vaultBalances.map VaultRow.address).nodup_iff.mpr h.vaults.keyed
    change putAll _ _ f.vaultBalances a = _
    rw [putAll_perm _ _ hf.vaultBalances hnd]
    exact congrFun h.vaults.read a
  publicTrades := by
    intro mk
    change pushAll _ _ f.publicTrades mk = _
    rw [pushAll_eq_grouped,
      eq_of_perm_of_numbered hf.publicTrades h.trades.ordered hf.publicTrades_ordered]
    exact h.trades.read mk

theorem Mirrors.roundTrips {ids : Ids} {db : Db} {d : DurableState} (h : Mirrors ids db d) :
    RoundTrips db d := fun _ hf => h.restores hf

/-- The rows as the tables hold them. -/
def Db.rows (db : Db) : Fetched :=
  ⟨db.openOrders, db.positions, db.fills, db.vaultBalances, db.publicTrades⟩

theorem Mirrors.returns {ids : Ids} {db : Db} {d : DurableState} (h : Mirrors ids db d) :
    db.Returns db.rows where
  openOrders := List.Perm.refl _
  positions := List.Perm.refl _
  fills := List.Perm.refl _
  fills_ordered := h.fills.ordered.imp fun hab => hab.le
  vaultBalances := List.Perm.refl _
  publicTrades := List.Perm.refl _
  publicTrades_ordered := h.trades.ordered.imp fun hab => hab.le

/-- Two states that one database can be restored to have the same orders. -/
theorem RoundTrips.orders_perm {ids : Ids} {db : Db} {d d' : DurableState}
    (hr : RoundTrips db d') (h : Mirrors ids db d) (a : Address) :
    (d.state.openOrders a).Perm (d'.state.openOrders a) :=
  ((h.restores h.returns).openOrders a).symm.trans ((hr _ h.returns).openOrders a)

theorem RoundTrips.trades_eq {ids : Ids} {db : Db} {d d' : DurableState}
    (hr : RoundTrips db d') (h : Mirrors ids db d) (mk : String) :
    d.state.publicTrades mk = d'.state.publicTrades mk :=
  ((h.restores h.returns).publicTrades mk).symm.trans ((hr _ h.returns).publicTrades mk)

namespace Mutator

def orderIds : Mutator → List ℕ
  | .addOpenOrder _ _ order => [order.id]
  | _ => []

def fillIds : Mutator → List ℕ
  | .recordFill _ fill => [fill.id]
  | .liquidatePosition _ fillId _ _ _ => [fillId]
  | _ => []

def tradeIds : Mutator → List ℕ
  | .recordTrade _ trade => [trade.id]
  | .liquidatePosition _ _ tradeId _ _ => [tradeId]
  | _ => []

/-- The ids that a call may bring in, before those of earlier calls. -/
def addIds (m : Mutator) (ids : Ids) : Ids :=
  ⟨m.orderIds++ids.orders, m.fillIds++ids.fills, m.tradeIds++ids.trades⟩

/-- The call tells the database all that it does: a trade is filed under its own market, and
every account with a spent order in the market is one that the taker draws from. -/
def Mirrored (d : DurableState) : Mutator → Prop
  | .recordTrade marketId trade => trade.marketId = marketId
  | .matchTaker env marketId takerSide takerPrice takerQty taker =>
    ∀ a, (∃ o ∈ d.state.openOrders a, o.marketId = marketId ∧ o.remaining = 0) →
      d.state.DrawsFrom env marketId takerSide takerPrice takerQty taker a
  | _ => True

end Mutator

/-- No id is used twice. -/
structure FreshIds (ms : List Mutator) : Prop where
  orders : (ms.flatMap Mutator.orderIds).Nodup
  fills : (ms.flatMap Mutator.fillIds).Nodup
  trades : (ms.flatMap Mutator.tradeIds).Nodup

theorem mutate_sent (devSeed : Bool) (d : DurableState) (m : Mutator) :
    ∃ es, (mutate devSeed d m).sent = d.sent++es := by
  cases m with
  | addOpenOrder env address order => exact ⟨_, rfl⟩
  | cancelOrder env address orderId => exact ⟨_, rfl⟩
  | matchTaker env marketId takerSide takerPrice takerQty taker => exact ⟨_, rfl⟩
  | upsertPosition now address marketId orderSide qty price => exact ⟨_, rfl⟩
  | setPositions address positions => exact ⟨_, rfl⟩
  | recordFill address fill => exact ⟨_, rfl⟩
  | recordTrade marketId trade => exact ⟨_, rfl⟩
  | setVaultBalance address amount => exact ⟨_, rfl⟩
  | seedDevVault address =>
    unfold mutate DurableState.seedDevVault
    dsimp only
    split_ifs
    · exact ⟨[], by simp⟩
    · exact ⟨_, rfl⟩
  | liquidatePosition now fillId tradeId address marketId =>
    unfold mutate DurableState.liquidatePosition
    dsimp only
    split
    · exact ⟨[], by simp⟩
    · simp only [DurableState.recordTrade, DurableState.recordFill, DurableState.setPositions,
        DurableState.setVaultBalance, List.append_assoc]
      exact ⟨_, rfl⟩

section OneCall
variable {devSeed : Bool} {ids : Ids} {db db' : Db} {d : DurableState}

/-- A taker that leaves spent orders behind, and then only, is not mirrored. -/
theorem Mirrors.matchTaker_cases (h : Mirrors ids db d) {env : Env} {marketId : String}
    {takerSide : Side} {takerPrice : Option ℚ} {takerQty : ℚ} {taker : Address}
    (hdb : db.applyAll ((seen (d.state.matchTaker env marketId takerSide takerPrice takerQty
        taker).1).map fun a => .syncOrders a ((d.state.matchTaker env marketId takerSide
          takerPrice takerQty taker).2.openOrders a)) = some db') :
    (Mutator.matchTaker env marketId takerSide takerPrice takerQty taker).Mirrored d ∧
        Mirrors ids db' (d.matchTaker env marketId takerSide takerPrice takerQty taker) ∨
      ¬ (Mutator.matchTaker env marketId takerSide takerPrice takerQty taker).Mirrored d ∧
        ¬ RoundTrips db' (d.matchTaker env marketId takerSide takerPrice takerQty taker) := by
  have hnd := h.nodup
  have hafter := h.matchTaker hdb
  have hseen (a : Address) : a ∈ seen (d.state.matchTaker env marketId takerSide takerPrice
      takerQty taker).1 ↔ d.state.DrawsFrom env marketId takerSide takerPrice takerQty taker a :=
    mem_seen.trans (AppState.filled_iff_drawsFrom hnd)
  have hkept {a : Address} (ha : ¬ d.state.DrawsFrom env marketId takerSide takerPrice takerQty
      taker a) : (d.state.matchTaker env marketId takerSide takerPrice takerQty
        taker).2.openOrders a = reap marketId (d.state.openOrders a) :=
    AppState.matchTaker_openOrders_of_not_drawsFrom hnd ha
  by_cases hm : (Mutator.matchTaker env marketId takerSide takerPrice takerQty taker).Mirrored d
  · refine Or.inl ⟨hm, hafter.congr ?_ rfl rfl rfl rfl⟩
    funext a
    dsimp only
    split_ifs with ha
    · rfl
    · -- an account that was not filled has nothing to reap
      rw [hseen] at ha
      refine (hkept ha).trans ?_
      apply List.filter_eq_self.mpr
      intro o ho
      by_contra hspent
      simp only [decide_eq_true_eq, not_or, not_not] at hspent
      exact ha (hm a ⟨o, ho, hspent⟩)
  · refine Or.inr ⟨hm, ?_⟩
    intro hr
    simp only [Mutator.Mirrored, not_forall] at hm
    -- an account that is not filled keeps its spent order in the database
    obtain ⟨a, ⟨o, ho, hmarket, hrem⟩, ha⟩ := hm
    have hperm := hr.orders_perm hafter a
    dsimp only at hperm
    rw [if_neg (fun hs => ha ((hseen a).mp hs))] at hperm
    have hmem : o ∈ reap marketId (d.state.openOrders a) := (hkept ha) ▸ hperm.mem_iff.mp ho
    simpa [reap, hmarket, hrem] using (List.mem_filter.mp hmem).2

theorem Mirrors.recordTrade_cases (h : Mirrors ids db d) {marketId : String}
    {trade : PublicTrade} (hnew : trade.id ∉ ids.trades)
    (hdb : db.apply (.insertTrade trade) = some db') :
    trade.marketId = marketId ∧ Mirrors ⟨ids.orders, ids.fills, trade.id :: ids.trades⟩ db'
        (d.recordTrade marketId trade) ∨
      trade.marketId ≠ marketId ∧ ¬ RoundTrips db' (d.recordTrade marketId trade) := by
  have hafter := h.recordTrade hnew hdb
  by_cases hm : trade.marketId = marketId
  · subst hm
    exact Or.inl ⟨rfl, hafter⟩
  · refine Or.inr ⟨hm, ?_⟩
    intro hr
    -- memory has one trade more in the market of the call
    have heq := hr.trades_eq hafter marketId
    simp [DurableState.recordTrade, AppState.recordTrade, Ne.symm hm] at heq

/-- A call keeps the mirror exactly when it tells the database all that it does. -/
theorem Mirrors.mutate_cases (h : Mirrors ids db d) (m : Mutator) {es : List PersistEvent}
    (ho : ∀ i ∈ m.orderIds, i ∉ ids.orders) (hf : ∀ i ∈ m.fillIds, i ∉ ids.fills)
    (ht : ∀ i ∈ m.tradeIds, i ∉ ids.trades) (hes : (mutate devSeed d m).sent = d.sent++es)
    (hdb : db.applyAll es = some db') :
    m.Mirrored d ∧ Mirrors (m.addIds ids) db' (mutate devSeed d m) ∨
      ¬ m.Mirrored d ∧ ¬ RoundTrips db' (mutate devSeed d m) := by
  cases m with
  | addOpenOrder env address order =>
    obtain rfl := List.append_cancel_left hes
    rw [applyAll_singleton] at hdb
    exact Or.inl ⟨trivial, h.addOpenOrder env address (ho _ List.mem_cons_self) hdb⟩
  | cancelOrder env address orderId =>
    obtain rfl := List.append_cancel_left hes
    exact Or.inl ⟨trivial, h.cancelOrder env address orderId hdb⟩
  | matchTaker env marketId takerSide takerPrice takerQty taker =>
    obtain rfl := List.append_cancel_left hes
    exact h.matchTaker_cases hdb
  | upsertPosition now address marketId orderSide qty price =>
    obtain rfl := List.append_cancel_left hes
    rw [applyAll_singleton] at hdb
    exact Or.inl ⟨trivial, h.upsertPosition hdb⟩
  | setPositions address positions =>
    obtain rfl := List.append_cancel_left hes
    rw [applyAll_singleton] at hdb
    exact Or.inl ⟨trivial, h.setPositions hdb⟩
  | recordFill address fill =>
    obtain rfl := List.append_cancel_left hes
    rw [applyAll_singleton] at hdb
    exact Or.inl ⟨trivial, h.recordFill (hf _ List.mem_cons_self) hdb⟩
  | recordTrade marketId trade =>
    obtain rfl := List.append_cancel_left hes
    rw [applyAll_singleton] at hdb
    exact h.recordTrade_cases (ht _ List.mem_cons_self) hdb
  | setVaultBalance address amount =>
    obtain rfl := List.append_cancel_left hes
    rw [applyAll_singleton] at hdb
    exact Or.inl ⟨trivial, h.setVaultBalance hdb⟩
  | seedDevVault address =>
    refine Or.inl ⟨trivial, ?_⟩
    unfold Perplex.Edge.mutate DurableState.seedDevVault at hes ⊢
    dsimp only at hes ⊢
    split_ifs at hes ⊢ with hseed
    · obtain rfl : es = [] := by simpa using hes
      simp only [Db.applyAll, Option.some.injEq] at hdb
      exact hdb ▸ h
    · obtain rfl := List.append_cancel_left hes
      rw [applyAll_singleton] at hdb
      exact h.setVaultBalance hdb
  | liquidatePosition now fillId tradeId address marketId =>
    -- nothing is told where nothing is closed
    refine Or.inl ⟨trivial, ?_⟩
    unfold Perplex.Edge.mutate DurableState.liquidatePosition at hes ⊢
    dsimp only at hes ⊢
    split at hes
    · obtain rfl : es = [] := by simpa using hes
      simp only [Db.applyAll, Option.some.injEq] at hdb
      subst hdb
      exact h.mono (List.subset_append_right _ _) (List.subset_append_right _ _)
        (List.subset_append_right _ _)
    · next pos health mark hliq =>
      simp only [DurableState.recordTrade, DurableState.recordFill, DurableState.setPositions,
        DurableState.setVaultBalance, List.append_assoc, List.cons_append, List.nil_append]
        at hes
      obtain rfl := List.append_cancel_left hes
      exact h.close (hf _ List.mem_cons_self) (ht _ List.mem_cons_self) hdb

end OneCall

/-- The ids of a run, latest first. -/
def idsOf (ms : List Mutator) : Ids := ms.foldl (fun ids m => m.addIds ids) ⟨[], [], []⟩

theorem idsOf_append (ms : List Mutator) (m : Mutator) :
    idsOf (ms++[m]) = m.addIds (idsOf ms) := by
  simp [idsOf]

theorem mem_idsOf (ms : List Mutator) (i : ℕ) :
    (i ∈ (idsOf ms).orders ↔ i ∈ ms.flatMap Mutator.orderIds) ∧
      (i ∈ (idsOf ms).fills ↔ i ∈ ms.flatMap Mutator.fillIds) ∧
      (i ∈ (idsOf ms).trades ↔ i ∈ ms.flatMap Mutator.tradeIds) := by
  induction ms using List.reverseRecOn with
  | nil => simp [idsOf]
  | append_singleton ms m ih =>
    rw [idsOf_append]
    simp only [Mutator.addIds, List.mem_append, List.flatMap_append, List.flatMap_singleton,
      ih.1, ih.2.1, ih.2.2]
    exact ⟨or_comm, or_comm, or_comm⟩

/-- The ids of the next call are new. -/
theorem FreshIds.next {ms pre : List Mutator} {m : Mutator} (h : FreshIds ms)
    (hpre : pre++[m] <+: ms) : (∀ i ∈ m.orderIds, i ∉ (idsOf pre).orders) ∧
      (∀ i ∈ m.fillIds, i ∉ (idsOf pre).fills) ∧ ∀ i ∈ m.tradeIds, i ∉ (idsOf pre).trades := by
  obtain ⟨post, rfl⟩ := hpre
  have hsplit {f : Mutator → List ℕ} (hnd : ((pre++[m]++post).flatMap f).Nodup) :
      ∀ i ∈ f m, i ∉ pre.flatMap f := by
    intro i hi hold
    rw [List.flatMap_append, List.flatMap_append, List.flatMap_singleton] at hnd
    exact (List.nodup_append.mp (List.nodup_append.mp hnd).1).2.2 i hold i hi rfl
  refine ⟨fun i hi hold => ?_, fun i hi hold => ?_, fun i hi hold => ?_⟩
  · exact hsplit h.orders i hi ((mem_idsOf pre i).1.mp hold)
  · exact hsplit h.fills i hi ((mem_idsOf pre i).2.1.mp hold)
  · exact hsplit h.trades i hi ((mem_idsOf pre i).2.2.mp hold)

/-- An offer of account 2 at a price of 100. -/
def offer (id : ℕ) (remaining : ℚ) : OpenOrder :=
  ⟨id, "btc-usd", .sell, .limit, 100, 1, remaining, 0, none⟩

end Perplex.Edge
