import Perplex.BookModel

/-! The crossing loops in closed form. `sweepQueue` computes what one level's loop leaves
behind without indices or compaction, `sweepLevels` what the outer loop leaves behind by
recursion on the levels; the source's loops are shown equal to them. -/
namespace Perplex.Book

/-- What crossing edits apart from the queues. -/
structure Pass where
  taker : Order
  fills : List Fill
  byId : OrderId → Option Side
  nextFillId : ℕ

def Pass.forget (s : Pass) (maker : Order) : Pass :=
  { s with byId := Function.update s.byId maker.id none }

def Pass.fill (market : MarketId) (price : ℚ) (s : Pass) (maker : Order) : Pass :=
  let traded := min s.taker.remaining maker.remaining
  { s with
    taker := { s.taker with remaining := s.taker.remaining-traded }
    fills := s.fills++[⟨s.nextFillId+1, market, maker.id, s.taker.id, maker.owner, s.taker.owner,
      price, traded, s.taker.side, s.taker.tsNs⟩]
    nextFillId := s.nextFillId+1 }

/-- `gone` are the makers marked for removal, `left` is the queue behind them. -/
structure Swept where
  pass : Pass
  gone : List Order
  left : Queue
  err : Option SubmitError

def Swept.after (r : Swept) (maker : Order) : Swept := { r with gone := maker :: r.gone }

def sweepQueue (mode : SelfTradeMode) (market : MarketId) (price : ℚ) : Pass → Queue → Swept
  | s, [] => ⟨s, [], [], none⟩
  | s, maker :: rest =>
    if 0 < s.taker.remaining then
      match mode.action maker s.taker with
      | .rejectTaker => ⟨s, [], maker :: rest, some .selfTradeRejected⟩
      | .dropMaker => (sweepQueue mode market price (s.forget maker) rest).after maker
      | .proceed =>
        if maker.remaining ≤ s.taker.remaining then
          (sweepQueue mode market price ((s.fill market price maker).forget maker) rest).after
            { maker with remaining := 0 }
        else ⟨s.fill market price maker, [],
          { maker with remaining := maker.remaining-s.taker.remaining } :: rest, none⟩
    else ⟨s, [], maker :: rest, none⟩

theorem eraseIdx_range_reverse {α : Type*} (front back : List α) :
    (List.range front.length).reverse.foldl (fun q i => q.eraseIdx i) (front++back) = back := by
  induction front using List.reverseRecOn with
  | nil => rfl
  | append_singleton front x ih =>
    have he : (front++[x]++back).eraseIdx front.length = front++back := by
      rw [List.append_assoc, List.eraseIdx_append_of_length_le le_rfl]
      simp
    simp only [List.length_append, List.length_singleton, List.range_succ, List.reverse_append,
      List.reverse_singleton, List.singleton_append, List.foldl_cons]
    rw [he, ih]

def LevelPass.toPass (st : LevelPass) : Pass := ⟨st.taker, st.fills, st.byId, st.nextFillId⟩

theorem LevelPass.drop_toPass (st : LevelPass) (maker : Order) :
    (st.drop maker).toPass = st.toPass.forget maker := rfl

theorem LevelPass.drop_visited (st : LevelPass) (maker : Order) :
    (st.drop maker).visited = st.visited++[maker] := rfl

theorem LevelPass.consume_toPass (market : MarketId) (price : ℚ) (st : LevelPass)
    (maker : Order) (i : ℕ) : ((st.trade market price maker).consume maker i).toPass =
      (st.toPass.fill market price maker).forget maker := rfl

theorem LevelPass.consume_visited {market : MarketId} {price : ℚ} {st : LevelPass}
    {maker : Order} {i : ℕ} (hz : maker.remaining-min st.taker.remaining maker.remaining = 0) :
    ((st.trade market price maker).consume maker i).visited =
      st.visited++[{ maker with remaining := 0 }] := by
  simp only [consume, trade, hz]

/-- The loop of `cross_one_level` marks every maker it passes, so its indices are an
initial segment and its in-place queue is the visited makers followed by the rest. -/
theorem crossQueue_eq_sweep (mode : SelfTradeMode) (market : MarketId) (price : ℚ)
    (st : LevelPass) (q : Queue) (hc : st.consumed = List.range st.visited.length) :
    let r := sweepQueue mode market price st.toPass q
    let o := crossQueue mode market price st q
    o.1.toPass = r.pass ∧ o.2.2 = r.err ∧ o.1.visited++o.2.1 = st.visited++r.gone++r.left ∧
      (r.err = none → compact (o.1.visited++o.2.1) o.1.consumed = r.left) := by
  induction q generalizing st with
  | nil =>
    refine ⟨rfl, rfl, by simp [crossQueue, sweepQueue], fun _ => ?_⟩
    simp only [crossQueue, sweepQueue, compact, hc]
    exact eraseIdx_range_reverse st.visited []
  | cons maker rest ih =>
    have hpass : st.toPass.taker = st.taker := rfl
    by_cases hr : 0 < st.taker.remaining
    · simp only [crossQueue, sweepQueue, hpass, if_pos hr]
      cases ha : mode.action maker st.taker with
      | rejectTaker => exact ⟨rfl, rfl, by simp, fun h => by simp at h⟩
      | dropMaker =>
        -- the marked index is the length of the visited part, so the segment grows by one
        obtain ⟨h1, h2, h3, h4⟩ := ih (st.drop maker) (by
          simp [LevelPass.drop, hc, List.range_succ])
        refine ⟨h1, h2, ?_, h4⟩
        rw [h3, LevelPass.drop_visited, LevelPass.drop_toPass]
        simp [Swept.after]
      | proceed =>
        by_cases hm : maker.remaining ≤ st.taker.remaining
        · have hz : maker.remaining-min st.taker.remaining maker.remaining = 0 := by
            rw [min_eq_right hm, sub_self]
          obtain ⟨h1, h2, h3, h4⟩ := ih ((st.trade market price maker).consume maker
            st.visited.length) (by
              simp [LevelPass.consume, LevelPass.trade, hc, List.range_succ])
          simp only [if_pos hm, if_pos hz]
          refine ⟨h1, h2, ?_, h4⟩
          rw [h3, LevelPass.consume_visited hz, LevelPass.consume_toPass]
          simp [Swept.after]
        · have hlt : st.taker.remaining < maker.remaining := not_le.mp hm
          have hmin : min st.taker.remaining maker.remaining = st.taker.remaining :=
            min_eq_left hlt.le
          have hz : maker.remaining-min st.taker.remaining maker.remaining ≠ 0 := by
            rw [hmin]
            exact (sub_pos.mpr hlt).ne'
          simp only [if_neg hm, if_neg hz]
          refine ⟨rfl, trivial, by simp [LevelPass.trade, hmin], fun _ => ?_⟩
          simp only [LevelPass.trade, compact, hc, hmin, List.append_assoc, List.singleton_append]
          exact eraseIdx_range_reverse st.visited _
    · simp only [crossQueue, sweepQueue, hpass, if_neg hr]
      refine ⟨trivial, trivial, by simp, fun _ => ?_⟩
      simp only [compact, hc]
      exact eraseIdx_range_reverse st.visited _

section Levels
variable {K : Type} [LinearOrder K] (priceOf : K → ℚ) (mode : SelfTradeMode)
  (market : MarketId)

/-- Where the outer loop stops: its pass, the levels it leaves and the error, if any. -/
structure SweptLevels (K : Type) where
  pass : Pass
  levels : List (K × Queue)
  err : Option SubmitError

def sweepLevels : Pass → List (K × Queue) → SweptLevels K
  | s, [] => ⟨s, [], none⟩
  | s, (key,q) :: rest =>
    if 0 < s.taker.remaining ∧ s.taker.crosses (priceOf key) then
      let r := sweepQueue mode market (priceOf key) s q
      if r.err.isSome then ⟨r.pass, (key,r.gone++r.left) :: rest, r.err⟩
      else if r.left.isEmpty then sweepLevels r.pass rest
      else ⟨r.pass, (key,r.left) :: rest, none⟩
    else ⟨s, (key,q) :: rest, none⟩

/-- A queue that survives its level's loop without an error has stopped the taker. -/
theorem sweepQueue_left_ne_nil (price : ℚ) (s : Pass) (q : Queue)
    (he : (sweepQueue mode market price s q).err = none)
    (hl : (sweepQueue mode market price s q).left ≠ []) :
    (sweepQueue mode market price s q).pass.taker.remaining ≤ 0 := by
  fun_induction sweepQueue mode market price s q with
  | case1 => simp at hl
  | case2 => simp at he
  | case3 s maker rest hr ha ih => exact ih he hl
  | case4 s maker rest hr ha hm ih => exact ih he hl
  | case5 s maker rest hr ha hm =>
    have hlt := not_le.mp hm
    simp [Pass.fill, min_eq_left hlt.le]
  | case6 s maker rest hr => exact not_lt.mp hr

def Crossing.toPass (c : Crossing K) : Pass := ⟨c.taker, c.fills, c.byId, c.nextFillId⟩

/-- One call of `cross_one_level` on the first level of a side. -/
theorem crossOneLevel_head {c : Crossing K} {key : K} {q : Queue} {rest : List (K × Queue)}
    (hc : c.levels.entries = (key,q) :: rest) :
    let r := sweepQueue mode market (priceOf key) c.toPass q
    let o := crossOneLevel priceOf mode market key c
    o.1.toPass = r.pass ∧ o.2 = r.err ∧ o.1.levels.entries =
      (key,if r.err.isSome then r.gone++r.left else r.left) :: rest := by
  have hq : (c.levels.get? key).getD [] = q := by rw [SortedMap.get?_head hc, Option.getD_some]
  -- the loop starts with nothing visited and nothing consumed
  have hs := crossQueue_eq_sweep mode market (priceOf key)
    ⟨c.taker, c.fills, c.byId, c.nextFillId, [], []⟩ q rfl
  dsimp only at hs
  obtain ⟨h1, h2, h3, h4⟩ := hs
  simp only [LevelPass.toPass, List.nil_append] at h1 h2 h3 h4
  refine ⟨?_, ?_, ?_⟩
  · simp only [crossOneLevel, hq, Crossing.toPass]
    exact h1
  · simp only [crossOneLevel, hq]
    exact h2
  · simp only [crossOneLevel, hq]
    rw [SortedMap.adjust_head _ hc, h2, h3]
    simp only [Crossing.toPass]
    by_cases he : (sweepQueue mode market (priceOf key) c.toPass q).err.isSome = true
    · simp only [Crossing.toPass] at he
      simp only [he, if_true]
    · simp only [Crossing.toPass] at he
      rw [← h3, h4 (by simpa using he)]
      simp only [he]

/-- The first level goes once nothing waits in it. -/
theorem dropEmptyLevel_of_empty {key : K} {c : Crossing K} {rest : List (K × Queue)}
    (h : c.levels.entries = (key,[]) :: rest) :
    dropEmptyLevel key c = { c with levels := c.levels.erase key } := by
  simp [dropEmptyLevel, SortedMap.get?_head h]

theorem dropEmptyLevel_of_cons {key : K} {c : Crossing K} {m : Order} {ms : Queue}
    {rest : List (K × Queue)} (h : c.levels.entries = (key,m :: ms) :: rest) :
    dropEmptyLevel key c = c := by
  simp [dropEmptyLevel, SortedMap.get?_head h]

/-- With one round more than levels the loop ends by itself, as `sweepLevels` says. -/
theorem crossLoop_eq_sweep (fuel : ℕ) (c : Crossing K)
    (hf : c.levels.entries.length+1 ≤ fuel) :
    let r := sweepLevels priceOf mode market c.toPass c.levels.entries
    let o := crossLoop priceOf mode market fuel c
    o.1.toPass = r.pass ∧ o.2 = r.err ∧ o.1.levels.entries = r.levels := by
  induction fuel generalizing c with
  | zero => omega
  | succ fuel ih =>
    have hpass : c.toPass.taker = c.taker := rfl
    cases hc : c.levels.entries with
    | nil => simp [crossLoop, sweepLevels, hc]
    | cons e rest =>
      obtain ⟨key, q⟩ := e
      simp only [crossLoop, sweepLevels, hc, List.head?_cons, hpass]
      by_cases hr : c.taker.remaining ≤ 0
      · simp [hr, not_lt.mpr hr, hc]
      by_cases hx : c.taker.crosses (priceOf key) = true
      · obtain ⟨h1, h2, h3⟩ := crossOneLevel_head priceOf mode market hc
        have hpos : 0 < c.taker.remaining := not_le.mp hr
        simp only [hr, hx, hpos, if_false, Bool.not_true, Bool.false_eq_true, and_self, if_true]
        generalize ho : crossOneLevel priceOf mode market key c = o at h1 h2 h3
        obtain ⟨c', err⟩ := o
        dsimp only at h1 h2 h3
        cases err with
        | some e =>
          rw [← h2] at h3 ⊢
          simp only [Option.isSome_some, if_true] at h3 ⊢
          exact ⟨h1, trivial, h3⟩
        | none =>
          rw [← h2] at h3 ⊢
          simp only [Option.isSome_none, Bool.false_eq_true, if_false] at h3 ⊢
          cases hl : (sweepQueue mode market (priceOf key) c.toPass q).left with
          | nil =>
            -- the level is exhausted and removed; the loop goes on with the rest
            rw [hl] at h3
            have hd := dropEmptyLevel_of_empty h3
            have hrest : (c'.levels.erase key).entries = rest := SortedMap.erase_head h3
            have hih := ih (dropEmptyLevel key c') (by
              rw [hd]
              simp only [hrest]
              simp only [hc, List.length_cons] at hf
              omega)
            simp only [hd, hrest] at hih
            have hp : ({ c' with levels := c'.levels.erase key } : Crossing K).toPass
                = (sweepQueue mode market (priceOf key) c.toPass q).pass := h1
            rw [hp] at hih
            simpa [hd] using hih
          | cons m ms =>
            -- the level stays, so the taker is exhausted and the next round returns
            have hdone := sweepQueue_left_ne_nil mode market (priceOf key) c.toPass q h2.symm
              (by simp [hl])
            rw [← h1] at hdone
            rw [hl] at h3
            have hd := dropEmptyLevel_of_cons h3
            obtain ⟨n, rfl⟩ : ∃ n, fuel = n+1 := ⟨fuel-1, by
              simp only [hc, List.length_cons] at hf
              omega⟩
            have hle : c'.taker.remaining ≤ 0 := hdone
            simp only [hd, crossLoop, hle, if_true]
            rw [h3]
            exact ⟨h1, rfl, rfl⟩
      · simp [hr, hx, hc]

end Levels
end Perplex.Book
