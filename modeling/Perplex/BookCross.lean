import Perplex.BookFacts

/-! The outer crossing loop and `cross` as one specification: the taker meets the levels of
the opposite side, best price first, and the other side is left alone. -/
namespace Perplex.Book

/-- The makers a taker may meet, in price-time priority. -/
def crossing (taker : Order) (ls : List (ℚ × Queue)) : List Order :=
  (ls.takeWhile (fun l => taker.crosses l.1)).flatMap Prod.snd

theorem crossing_cons {taker : Order} {key : ℚ} (h : taker.crosses key = true) (q : Queue)
    (ls : List (ℚ × Queue)) : crossing taker ((key,q) :: ls) = q++crossing taker ls := by
  simp [crossing, h]

section Levels
variable (mode : SelfTradeMode) (market : MarketId)

/-- A taker crosses the same levels after it has traded. -/
theorem crossing_swept (key : ℚ) (s : Pass) (q : Queue) (ls : List (ℚ × Queue)) :
    crossing (sweepQueue mode market key s q).pass.taker ls = crossing s.taker ls := by
  unfold crossing
  rw [sweepQueue_crosses]

/-- The loop reads the keys only through their prices. -/
theorem sweepLevels_map {K : Type} [LinearOrder K] (priceOf : K → ℚ) (s : Pass)
    (ls : List (K × Queue)) :
    let r := sweepLevels priceOf mode market s ls
    let r' := sweepLevels id mode market s (ls.map (fun e => (priceOf e.1,e.2)))
    r'.pass = r.pass ∧ r'.err = r.err ∧
      r'.levels = r.levels.map (fun e => (priceOf e.1,e.2)) := by
  induction ls generalizing s with
  | nil => exact ⟨rfl, rfl, rfl⟩
  | cons e rest ih =>
    obtain ⟨key, q⟩ := e
    simp only [List.map_cons, sweepLevels, id]
    split_ifs
    · exact ⟨rfl, rfl, rfl⟩
    · exact ih _
    · exact ⟨rfl, rfl, rfl⟩
    · exact ⟨rfl, rfl, rfl⟩

theorem sweepLevels_taker (s : Pass) (ls : List (ℚ × Queue)) :
    (sweepLevels id mode market s ls).pass.taker =
      { s.taker with remaining := (sweepLevels id mode market s ls).pass.taker.remaining } := by
  induction ls generalizing s with
  | nil => rfl
  | cons e rest ih =>
    obtain ⟨key, q⟩ := e
    have hq := sweepQueue_taker mode market (id key) s q
    simp only [sweepLevels]
    split_ifs
    · exact hq
    · rw [ih, hq]
    · exact hq
    · rfl

/-- The loop spends the taker on the crossing makers in order. -/
theorem spend_sweepLevels (s : Pass) (ls : List (ℚ × Queue)) :
    spend mode s.taker s.taker.remaining (crossing s.taker ls) =
      if (sweepLevels id mode market s ls).err.isSome then none
      else some (sweepLevels id mode market s ls).pass.taker.remaining := by
  induction ls generalizing s with
  | nil => rfl
  | cons e rest ih =>
    obtain ⟨key, q⟩ := e
    by_cases hx : s.taker.crosses key = true
    · rw [crossing_cons hx, spend_sweepQueue mode market key]
      simp only [sweepLevels, id, hx, and_true]
      by_cases hr : 0 < s.taker.remaining
      · simp only [hr, if_true]
        -- an error stops both; so does a queue that is not used up
        by_cases he : (sweepQueue mode market key s q).err.isSome = true
        · simp [he]
        · simp only [he]
          have ht := sweepQueue_taker mode market key s q
          by_cases hl : (sweepQueue mode market key s q).left = []
          · have hih := ih (sweepQueue mode market key s q).pass
            have hsp : ∀ r ms, spend mode (sweepQueue mode market key s q).pass.taker r ms =
                spend mode s.taker r ms := by
              intro r ms
              rw [ht]
              exact spend_congr mode s.taker _ r ms
            rw [crossing_swept, hsp] at hih
            simpa [hl] using hih
          · have hdone := sweepQueue_left_ne_nil mode market key s q (by simpa using he) hl
            simp [hl, spend_of_nonpos hdone]
      · have hle := not_lt.mp hr
        have hs : sweepQueue mode market key s q = ⟨s, [], q, none⟩ := by
          cases q with
          | nil => rfl
          | cons m q => simp [sweepQueue, hr]
        simp [hr, hs, spend_of_nonpos hle]
    · simp [crossing, hx, sweepLevels, spend]

def orderCount (ls : List (ℚ × Queue)) : ℕ := (ls.map (fun l => l.2.length)).sum

/-- Orders leave the side or use up fill ids, over the whole loop. -/
theorem sweepLevels_fillId_orderCount (s : Pass) (ls : List (ℚ × Queue)) :
    s.nextFillId+orderCount (sweepLevels id mode market s ls).levels ≤
      (sweepLevels id mode market s ls).pass.nextFillId+orderCount ls := by
  induction ls generalizing s with
  | nil => exact le_rfl
  | cons e rest ih =>
    obtain ⟨key, q⟩ := e
    have hid := sweepQueue_fillId_le mode market key s q
    have hk := Swept.kept_length_le mode market key s q
    have hih := ih (sweepQueue mode market key s q).pass
    simp only [Swept.kept] at hk
    simp only [sweepLevels, id]
    split_ifs with h1 h2 h3
    · simp only [h2, if_true] at hk
      simp only [orderCount, List.map_cons, List.sum_cons] at hih ⊢
      omega
    · simp only [orderCount, List.map_cons, List.sum_cons] at hih ⊢
      omega
    · simp only [h2, Bool.false_eq_true, if_false] at hk
      simp only [orderCount, List.map_cons, List.sum_cons] at hih ⊢
      omega
    · exact le_rfl

/-- If the first crossing maker is visited at all, the side or the fill counter changes. -/
theorem sweepLevels_touched {s : Pass} {ls : List (ℚ × Queue)} {m : Order}
    (hne : ∀ l ∈ ls, l.2 ≠ []) (hr : 0 < s.taker.remaining)
    (hm : (crossing s.taker ls).head? = some m) (ha : mode.action m s.taker ≠ .rejectTaker) :
    s.nextFillId+orderCount (sweepLevels id mode market s ls).levels <
      (sweepLevels id mode market s ls).pass.nextFillId+orderCount ls := by
  cases ls with
  | nil => simp [crossing] at hm
  | cons e rest =>
    obtain ⟨key, q⟩ := e
    have hx : s.taker.crosses key = true := by
      by_contra hx
      simp [crossing, hx] at hm
    -- the first maker of the first level is traded with or dropped, which one of the counts shows
    obtain ⟨m', q', rfl⟩ := List.exists_cons_of_ne_nil (hne (key,q) List.mem_cons_self)
    obtain rfl : m' = m := by simpa [crossing, hx] using hm
    have hp := sweepQueue_progress mode market key (q := q') hr ha
    have hrest := sweepLevels_fillId_orderCount mode market
      (sweepQueue mode market key s (m' :: q')).pass rest
    simp only [Swept.kept] at hp
    simp only [sweepLevels, id, hr, hx, and_self, if_true]
    split_ifs with h2 h3
    · simp only [h2, if_true] at hp
      simp only [orderCount, List.map_cons, List.sum_cons] at hrest ⊢
      omega
    · simp only [orderCount, List.map_cons, List.sum_cons] at hrest ⊢
      omega
    · simp only [h2, Bool.false_eq_true, if_false] at hp
      simp only [orderCount, List.map_cons, List.sum_cons] at hrest ⊢
      omega

/-- If it is not visited, the loop stops before it has changed anything. -/
theorem sweepLevels_untouched {s : Pass} {ls : List (ℚ × Queue)} (hne : ∀ l ∈ ls, l.2 ≠ [])
    (h : ∀ m, (crossing s.taker ls).head? = some m → mode.action m s.taker = .rejectTaker) :
    (sweepLevels id mode market s ls).pass = s ∧
      (sweepLevels id mode market s ls).levels = ls := by
  cases ls with
  | nil => exact ⟨rfl, rfl⟩
  | cons e rest =>
    obtain ⟨key, q⟩ := e
    by_cases hg : 0 < s.taker.remaining ∧ s.taker.crosses key = true
    · obtain ⟨hr, hx⟩ := hg
      obtain ⟨m, q', rfl⟩ := List.exists_cons_of_ne_nil (hne (key,q) List.mem_cons_self)
      have ha := h m (by simp [crossing, hx])
      simp [sweepLevels, hr, hx, sweepQueue, ha]
    · simp [sweepLevels, hg]

end Levels

/-- Levels as the book keeps them on every path: no empty queue, no negative quantity. -/
structure LevelsOk (ls : List (ℚ × Queue)) : Prop where
  nonempty : ∀ l ∈ ls, l.2 ≠ []
  nonneg : ∀ l ∈ ls, ∀ o ∈ l.2, 0 ≤ o.remaining

theorem LevelsOk.tail {l : ℚ × Queue} {ls : List (ℚ × Queue)} (h : LevelsOk (l :: ls)) :
    LevelsOk ls where
  nonempty := fun x hx => h.nonempty x (List.mem_cons_of_mem _ hx)
  nonneg := fun x hx => h.nonneg x (List.mem_cons_of_mem _ hx)

/-- Every level that crossing leaves is an old one, or an old one whose queue kept only
makers it had, shrunk or (after the early error return) with nothing left. -/
theorem sweepLevels_mem (mode : SelfTradeMode) (market : MarketId) (s : Pass)
    (ls : List (ℚ × Queue)) :
    ∀ l' ∈ (sweepLevels id mode market s ls).levels, l' ∈ ls ∨ ∃ l ∈ ls, l'.1 = l.1 ∧
      l'.2 ≠ [] ∧ ∀ o ∈ l'.2, (∃ m ∈ l.2, Shrunk m o) ∨
        ((sweepLevels id mode market s ls).err.isSome ∧ o.remaining = 0) := by
  induction ls generalizing s with
  | nil => intro l' hl'; simp [sweepLevels] at hl'
  | cons e rest ih =>
    obtain ⟨key, q⟩ := e
    simp only [sweepLevels, id]
    split_ifs with h1 h2 h3
    · intro l' hl'
      rcases List.mem_cons.mp hl' with rfl | hl'
      · obtain ⟨e, he⟩ := Option.isSome_iff_exists.mp h2
        obtain ⟨-, -, ⟨m, ms, hleft, -⟩, hgone⟩ := sweepQueue_err mode market key he
        -- the early return keeps what was passed, with nothing left, in front of what was not
        refine Or.inr ⟨(key,q), List.mem_cons_self, rfl, by simp [hleft], ?_⟩
        intro o ho
        rcases List.mem_append.mp ho with ho | ho
        · exact Or.inr ⟨h2, hgone o ho⟩
        · exact Or.inl (sweepQueue_left mode market key s q o ho)
      · exact Or.inl (List.mem_cons_of_mem _ hl')
    · intro l' hl'
      rcases ih _ l' hl' with hl' | ⟨l, hl, h⟩
      · exact Or.inl (List.mem_cons_of_mem _ hl')
      · exact Or.inr ⟨l, List.mem_cons_of_mem _ hl, h⟩
    · intro l' hl'
      rcases List.mem_cons.mp hl' with rfl | hl'
      · refine Or.inr ⟨(key,q), List.mem_cons_self, rfl, by simpa using h3, ?_⟩
        exact fun o ho => Or.inl (sweepQueue_left mode market key s q o ho)
      · exact Or.inl (List.mem_cons_of_mem _ hl')
    · exact fun l' hl' => Or.inl hl'

theorem sweepLevels_levelsOk (mode : SelfTradeMode) (market : MarketId) (s : Pass)
    {ls : List (ℚ × Queue)} (h : LevelsOk ls) :
    LevelsOk (sweepLevels id mode market s ls).levels := by
  constructor
  · intro l' hl'
    rcases sweepLevels_mem mode market s ls l' hl' with hl' | ⟨l, -, -, hne, -⟩
    · exact h.nonempty l' hl'
    · exact hne
  · intro l' hl' o ho
    rcases sweepLevels_mem mode market s ls l' hl' with hl' | ⟨l, hl, -, -, hall⟩
    · exact h.nonneg l' hl' o ho
    · rcases hall o ho with ⟨m, hm, hs⟩ | ⟨-, h0⟩
      · exact hs.nonneg (h.nonneg l hl m hm)
      · exact h0.ge

/-- The pass a taker starts with. -/
def Orderbook.pass (b : Orderbook) (taker : Order) : Pass := ⟨taker, [], b.byId, b.nextFillId⟩

/-- What the opposite side's loop computes for a taker. -/
def Orderbook.sweep (b : Orderbook) (taker : Order) : SweptLevels ℚ :=
  sweepLevels id b.selfTrade b.market (b.pass taker) (b.levelsOf taker.side.opposite)

/-- `cross_buy` and `cross_sell` at once. -/
theorem cross_spec (b : Orderbook) (taker : Order) :
    let r := b.sweep taker
    let o := b.cross taker
    o.1 = r.err ∧ o.2.1 = r.pass.taker ∧ o.2.2.1 = r.pass.fills ∧
      o.2.2.2.byId = r.pass.byId ∧ o.2.2.2.nextFillId = r.pass.nextFillId ∧
      o.2.2.2.levelsOf taker.side.opposite = r.levels ∧
      o.2.2.2.levelsOf taker.side = b.levelsOf taker.side ∧
      o.2.2.2.market = b.market ∧ o.2.2.2.selfTrade = b.selfTrade := by
  cases hs : taker.side with
  | buy =>
    obtain ⟨h1, h2, h3⟩ := crossLoop_eq_sweep id b.selfTrade b.market
      (b.asks.entries.length+1) ⟨b.asks, b.byId, b.nextFillId, taker, []⟩ le_rfl
    simp only [Orderbook.cross, Orderbook.crossBuy, Orderbook.sweep, hs, Side.opposite,
      Orderbook.levelsOf]
    exact ⟨h2, congrArg Pass.taker h1, congrArg Pass.fills h1, congrArg Pass.byId h1,
      congrArg Pass.nextFillId h1, h3, trivial, trivial, trivial⟩
  | sell =>
    obtain ⟨h1, h2, h3⟩ := crossLoop_eq_sweep OrderDual.ofDual b.selfTrade b.market
      (b.bids.entries.length+1) ⟨b.bids, b.byId, b.nextFillId, taker, []⟩ le_rfl
    -- bids run under the dual order; by price it is the same sweep
    obtain ⟨g1, g2, g3⟩ := sweepLevels_map b.selfTrade b.market OrderDual.ofDual
      (b.pass taker) b.bids.entries
    simp only [Orderbook.cross, Orderbook.crossSell, Orderbook.sweep, hs, Side.opposite,
      Orderbook.levelsOf]
    rw [g1, g2, g3]
    exact ⟨h2, congrArg Pass.taker h1, congrArg Pass.fills h1, congrArg Pass.byId h1,
      congrArg Pass.nextFillId h1, congrArg _ h3, trivial, trivial, trivial⟩

/-- Two books with the same levels and counters are the same book. -/
theorem Orderbook.eq_of_levels {a b : Orderbook} (hl : ∀ side, a.levelsOf side = b.levelsOf side)
    (hm : a.market = b.market) (hi : a.byId = b.byId) (hn : a.nextFillId = b.nextFillId)
    (ht : a.selfTrade = b.selfTrade) : a = b := by
  have hasks : a.asks = b.asks := SortedMap.ext (hl .sell)
  have hbids : a.bids = b.bids := by
    apply SortedMap.ext
    have h := hl .buy
    simp only [Orderbook.levelsOf] at h
    exact List.map_injective_iff.mpr (fun x y hxy => hxy) h
  cases a
  cases b
  simp_all

end Perplex.Book
