import Mathlib.Algebra.BigOperators.Group.List.Basic
import Perplex.BookSweep

/-! What crossing does to a book: which makers leave, which stay and with what, and how
the quantity the taker spends depends on the makers in priority order. -/
namespace Perplex.Book

/-- `o` is `m` with at most its remaining quantity. -/
structure Shrunk (m o : Order) : Prop where
  same : o = { m with remaining := o.remaining }
  le : o.remaining ≤ m.remaining
  eq_or_pos : o = m ∨ 0 < o.remaining

theorem Shrunk.refl (m : Order) : Shrunk m m := ⟨rfl, le_rfl, Or.inl rfl⟩

theorem Shrunk.pos {m o : Order} (h : Shrunk m o) (hm : 0 < m.remaining) : 0 < o.remaining := by
  rcases h.eq_or_pos with rfl | h
  · exact hm
  · exact h

theorem Shrunk.nonneg {m o : Order} (h : Shrunk m o) (hm : 0 ≤ m.remaining) :
    0 ≤ o.remaining := by
  rcases h.eq_or_pos with rfl | h
  · exact hm
  · exact h.le

section Queue
variable (mode : SelfTradeMode) (market : MarketId) (price : ℚ)

theorem sweepQueue_taker (s : Pass) (q : Queue) :
    (sweepQueue mode market price s q).pass.taker =
      { s.taker with remaining := (sweepQueue mode market price s q).pass.taker.remaining } := by
  fun_induction sweepQueue mode market price s q with
  | case1 => rfl
  | case2 => rfl
  | case3 s maker rest hr ha ih => exact ih
  | case4 s maker rest hr ha hm ih => exact ih
  | case5 => rfl
  | case6 => rfl

@[simp]
theorem sweepQueue_owner (s : Pass) (q : Queue) :
    (sweepQueue mode market price s q).pass.taker.owner = s.taker.owner := by
  rw [sweepQueue_taker]

@[simp]
theorem sweepQueue_crosses (s : Pass) (q : Queue) :
    (sweepQueue mode market price s q).pass.taker.crosses = s.taker.crosses := by
  rw [sweepQueue_taker]
  rfl

/-- The queue splits into the makers that were passed and those that stay, as far as `f`
can see, when it does not look at remaining quantities. -/
theorem sweepQueue_map {β : Type} {f : Order → β} (s : Pass) (q : Queue)
    (hf : ∀ (o : Order) (r : ℚ), f { o with remaining := r } = f o) :
    q.map f = (sweepQueue mode market price s q).gone.map f++
      (sweepQueue mode market price s q).left.map f := by
  fun_induction sweepQueue mode market price s q with
  | case1 => rfl
  | case2 => rfl
  | case3 s maker rest hr ha ih =>
    simp only [Swept.after, List.map_cons, List.cons_append]
    rw [ih]
  | case4 s maker rest hr ha hm ih =>
    simp only [Swept.after, List.map_cons, List.cons_append]
    rw [ih, hf maker 0]
  | case5 s maker rest hr ha hm =>
    simp only [List.map_nil, List.map_cons, List.nil_append]
    rw [hf maker (maker.remaining-s.taker.remaining)]
  | case6 => rfl

theorem sweepQueue_ids (s : Pass) (q : Queue) :
    q.map Order.id = (sweepQueue mode market price s q).gone.map Order.id++
      (sweepQueue mode market price s q).left.map Order.id :=
  sweepQueue_map mode market price s q fun _ _ => rfl

/-- The id map forgets exactly the makers that were passed. -/
theorem sweepQueue_byId (s : Pass) (q : Queue) (id : OrderId) :
    (sweepQueue mode market price s q).pass.byId id =
      if id ∈ (sweepQueue mode market price s q).gone.map Order.id then none
      else s.byId id := by
  fun_induction sweepQueue mode market price s q with
  | case1 => rfl
  | case2 => rfl
  | case3 s maker rest hr ha ih =>
    simp only [Swept.after, List.map_cons, List.mem_cons]
    rw [ih]
    by_cases hid : id = maker.id <;> simp [Pass.forget, hid]
  | case4 s maker rest hr ha hm ih =>
    simp only [Swept.after, List.map_cons, List.mem_cons]
    rw [ih]
    by_cases hid : id = maker.id <;> simp [Pass.forget, Pass.fill, hid]
  | case5 => rfl
  | case6 => rfl

theorem sweepQueue_left (s : Pass) (q : Queue) :
    ∀ o ∈ (sweepQueue mode market price s q).left, ∃ m ∈ q, Shrunk m o := by
  fun_induction sweepQueue mode market price s q with
  | case1 => intro o ho; simp at ho
  | case2 => exact fun o ho => ⟨o, ho, Shrunk.refl o⟩
  | case3 s maker rest hr ha ih =>
    intro o ho
    obtain ⟨m, hm, hs⟩ := ih o ho
    exact ⟨m, List.mem_cons_of_mem _ hm, hs⟩
  | case4 s maker rest hr ha hm ih =>
    intro o ho
    obtain ⟨m, hm, hs⟩ := ih o ho
    exact ⟨m, List.mem_cons_of_mem _ hm, hs⟩
  | case5 s maker rest hr ha hm =>
    intro o ho
    rcases List.mem_cons.mp ho with rfl | ho
    -- the last maker traded with keeps what the taker could not use
    · exact ⟨maker, List.mem_cons_self, rfl, by simp [hr.le],
        Or.inr (sub_pos.mpr (not_le.mp hm))⟩
    · exact ⟨o, List.mem_cons_of_mem _ ho, Shrunk.refl o⟩
  | case6 => exact fun o ho => ⟨o, ho, Shrunk.refl o⟩

/-- Crossing fails only by meeting an own maker under `CancelNewest`; that maker stays
at the head of what is left, and everything passed before it has nothing left. -/
theorem sweepQueue_err {s : Pass} {q : Queue} {e : SubmitError}
    (h : (sweepQueue mode market price s q).err = some e) :
    e = .selfTradeRejected ∧ mode = .cancelNewest ∧
      (∃ m rest, (sweepQueue mode market price s q).left = m :: rest ∧
        m.owner = s.taker.owner) ∧
      ∀ o ∈ (sweepQueue mode market price s q).gone, o.remaining = 0 := by
  fun_induction sweepQueue mode market price s q with
  | case1 => simp at h
  | case2 s maker rest hr ha =>
    -- only an own maker rejects, and only in one mode
    simp only [SelfTradeMode.action] at ha
    have ho : maker.owner = s.taker.owner := by
      by_contra hne
      simp [hne] at ha
    cases mode <;> simp [ho] at ha
    exact ⟨(Option.some.inj h).symm, rfl, ⟨maker, rest, rfl, ho⟩, by simp⟩
  | case3 s maker rest hr ha ih =>
    -- a maker is dropped under `CancelBoth` only, which never fails
    have hm := (ih h).2.1
    simp only [hm, SelfTradeMode.action] at ha
    split_ifs at ha
  | case4 s maker rest hr ha hm ih =>
    obtain ⟨h1, h2, h3, h4⟩ := ih h
    refine ⟨h1, h2, h3, ?_⟩
    intro o ho
    rcases List.mem_cons.mp ho with rfl | ho
    · rfl
    · exact h4 o ho
  | case5 => simp at h
  | case6 => simp at h

theorem sweepQueue_fillId_le (s : Pass) (q : Queue) :
    s.nextFillId ≤ (sweepQueue mode market price s q).pass.nextFillId := by
  fun_induction sweepQueue mode market price s q with
  | case1 => exact le_rfl
  | case2 => exact le_rfl
  | case3 s maker rest hr ha ih => exact ih
  | case4 s maker rest hr ha hm ih => exact (Nat.le_succ _).trans ih
  | case5 => exact Nat.le_succ _
  | case6 => exact le_rfl

theorem sweepQueue_length (s : Pass) (q : Queue) :
    (sweepQueue mode market price s q).gone.length+
      (sweepQueue mode market price s q).left.length = q.length := by
  have h := congrArg List.length (sweepQueue_ids mode market price s q)
  simpa using h.symm

/-- The queue a level keeps: the early error return skips the compaction. -/
def Swept.kept (r : Swept) : Queue := if r.err.isSome then r.gone++r.left else r.left

theorem Swept.kept_length_le (s : Pass) (q : Queue) :
    (sweepQueue mode market price s q).kept.length ≤ q.length := by
  have h := sweepQueue_length mode market price s q
  unfold Swept.kept
  split_ifs
  · simp only [List.length_append]; omega
  · omega

/-- Visiting the first maker shows: a fill id is used up or the queue gets shorter. -/
theorem sweepQueue_progress {s : Pass} {m : Order} {q : Queue}
    (hr : 0 < s.taker.remaining) (ha : mode.action m s.taker ≠ .rejectTaker) :
    s.nextFillId+(sweepQueue mode market price s (m :: q)).kept.length <
      (sweepQueue mode market price s (m :: q)).pass.nextFillId+(m :: q).length := by
  have hk := Swept.kept_length_le mode market price s (m :: q)
  cases hact : mode.action m s.taker with
  | rejectTaker => exact absurd hact ha
  | dropMaker =>
    -- no fill, so it is the queue that gets shorter
    have hi := sweepQueue_fillId_le mode market price s (m :: q)
    have hne : (sweepQueue mode market price s (m :: q)).err = none := by
      cases he : (sweepQueue mode market price s (m :: q)).err with
      | none => rfl
      | some e =>
        have hm := (sweepQueue_err mode market price he).2.1
        simp only [hm, SelfTradeMode.action] at hact
        split_ifs at hact
    have hl := sweepQueue_length mode market price (s.forget m) q
    have hleft : (sweepQueue mode market price s (m :: q)).left =
        (sweepQueue mode market price (s.forget m) q).left := by
      simp [sweepQueue, hr, hact, Swept.after]
    simp only [Swept.kept, hne, Option.isSome_none, Bool.false_eq_true, if_false, hleft,
      List.length_cons]
    omega
  | proceed =>
    -- a trade uses up a fill id
    have hi : s.nextFillId+1 ≤ (sweepQueue mode market price s (m :: q)).pass.nextFillId := by
      simp only [sweepQueue, if_pos hr, hact]
      split_ifs
      · exact sweepQueue_fillId_le mode market price ((s.fill market price m).forget m) q
      · exact le_rfl
    omega

end Queue

/-- The quantity a taker is left with after the makers in priority order, `none` when an
own maker rejects it. -/
def spend (mode : SelfTradeMode) (taker : Order) : ℚ → List Order → Option ℚ
  | r, [] => some r
  | r, m :: ms =>
    if 0 < r then
      match mode.action m taker with
      | .rejectTaker => none
      | .dropMaker => spend mode taker r ms
      | .proceed => spend mode taker (r-min r m.remaining) ms
    else some r

theorem spend_of_nonpos {mode : SelfTradeMode} {taker : Order} {r : ℚ} (h : r ≤ 0)
    (ms : List Order) : spend mode taker r ms = some r := by
  cases ms with
  | nil => rfl
  | cons m ms => simp [spend, not_lt.mpr h]

theorem action_congr (mode : SelfTradeMode) (m t : Order) (r : ℚ) :
    mode.action m { t with remaining := r } = mode.action m t := rfl

theorem spend_congr (mode : SelfTradeMode) (t : Order) (x r : ℚ) (ms : List Order) :
    spend mode { t with remaining := x } r ms = spend mode t r ms := by
  induction ms generalizing r with
  | nil => rfl
  | cons m ms ih => simp only [spend, action_congr, ih]

/-- Spending on a queue and then on what follows it. -/
theorem spend_sweepQueue (mode : SelfTradeMode) (market : MarketId) (price : ℚ) (s : Pass)
    (q ms : List Order) :
    spend mode s.taker s.taker.remaining (q++ms) =
      if (sweepQueue mode market price s q).err.isSome then none
      else spend mode s.taker (sweepQueue mode market price s q).pass.taker.remaining ms := by
  fun_induction sweepQueue mode market price s q with
  | case1 => rfl
  | case2 s maker rest hr ha => simp [spend, hr, ha]
  | case3 s maker rest hr ha ih =>
    simp only [List.cons_append, spend, if_pos hr, ha]
    exact ih
  | case4 s maker rest hr ha hm ih =>
    simp only [List.cons_append, spend, if_pos hr, ha]
    have ht : ((s.fill market price maker).forget maker).taker =
      { s.taker with remaining := s.taker.remaining-min s.taker.remaining maker.remaining } := rfl
    rw [ht] at ih
    simp only [spend_congr] at ih
    exact ih
  | case5 s maker rest hr ha hm =>
    -- the taker is used up on this maker, and nothing behind it matters
    have hlt := not_le.mp hm
    simp [spend, hr, ha, Pass.fill, min_eq_left hlt.le, spend_of_nonpos]
  | case6 s maker rest hr =>
    have hle := not_lt.mp hr
    simp [spend_of_nonpos hle]

end Perplex.Book
