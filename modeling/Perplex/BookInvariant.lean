import Perplex.BookAtomicity

/-! The representation invariant of the order book and the one step that breaks it: a
taker stopped at its own resting order after it has used up makers of the same level. -/
namespace Perplex.Book

def Orderbook.ids (b : Orderbook) (side : Side) : List OrderId := (b.makers side).map Order.id

/-- An order as it may rest on `side` at `price`. -/
structure RestsAt (side : Side) (price : ℚ) (o : Order) : Prop where
  side_eq : o.side = side
  price_eq : o.price = price
  limit : o.orderType = .limit
  pos : 0 < o.remaining
  le_qty : o.remaining ≤ o.qty

structure Orderbook.RepInv (b : Orderbook) : Prop where
  nonempty : ∀ side, ∀ l ∈ b.levelsOf side, l.2 ≠ []
  rests : ∀ side, ∀ l ∈ b.levelsOf side, ∀ o ∈ l.2, RestsAt side l.1 o
  ids_nodup : (b.ids .buy++b.ids .sell).Nodup
  byId_iff : ∀ id side, b.byId id = some side ↔ id ∈ b.ids side

/-- The id map has one side per id, so ids distinct within each side are distinct. -/
theorem Orderbook.ids_nodup_of_sides {b : Orderbook} (hn : ∀ side, (b.ids side).Nodup)
    (hb : ∀ id side, b.byId id = some side ↔ id ∈ b.ids side) :
    (b.ids .buy++b.ids .sell).Nodup := by
  refine List.nodup_append.mpr ⟨hn .buy, hn .sell, ?_⟩
  rintro x hx y hy rfl
  have h1 := (hb x .buy).mpr hx
  rw [(hb x .sell).mpr hy] at h1
  simp at h1

theorem Orderbook.RepInv.side_nodup {b : Orderbook} (h : b.RepInv) (side : Side) :
    (b.ids side).Nodup := by
  have hn := List.nodup_append.mp h.ids_nodup
  cases side
  · exact hn.1
  · exact hn.2.1

theorem Orderbook.RepInv.sane {b : Orderbook} (h : b.RepInv) : b.Sane := fun side =>
  ⟨h.nonempty side, fun l hl o ho => (h.rests side l hl o ho).pos.le⟩

/-- The level that stops a taker of `owner` has makers of others ahead of the own one, and
the taker can use them up. -/
def strandsAt (owner : Address) : ℚ → List (ℚ × Queue) → Prop
  | _, [] => False
  | r, (_,q) :: rest =>
    if ∃ m ∈ q, m.owner = owner then
      q.takeWhile (fun m => m.owner ≠ owner) ≠ [] ∧
        sumRemaining (q.takeWhile (fun m => m.owner ≠ owner)) < r
    else strandsAt owner (r-sumRemaining q) rest

/-- Under `CancelNewest` the order would leave used-up makers in a queue. -/
def Orderbook.Strands (b : Orderbook) (order : Order) : Prop :=
  b.selfTrade = .cancelNewest ∧ strandsAt order.owner order.qty
    ((b.levelsOf order.side.opposite).takeWhile (fun l => order.crosses l.1))

theorem takeWhile_crosses {t : Order} {key : ℚ} (h : t.crosses key = true) (q : Queue)
    (rest : List (ℚ × Queue)) : ((key,q) :: rest).takeWhile (fun l => t.crosses l.1) =
      (key,q) :: rest.takeWhile (fun l => t.crosses l.1) := by
  simp [h]

theorem strandsAt_pos {owner : Address} {r : ℚ} {ls : List (ℚ × Queue)}
    (hls : ∀ l ∈ ls, ∀ o ∈ l.2, 0 ≤ o.remaining) (h : strandsAt owner r ls) : 0 < r := by
  induction ls generalizing r with
  | nil => exact h.elim
  | cons l rest ih =>
    have hq : ∀ o ∈ l.2, 0 ≤ o.remaining := hls l List.mem_cons_self
    unfold strandsAt at h
    split_ifs at h with ho
    · have h0 := sumRemaining_nonneg
        (fun o ho => hq o ((List.takeWhile_prefix (fun m => decide (m.owner ≠ owner))).subset ho))
      exact lt_of_le_of_lt h0 h.2
    · have h1 := ih (fun l hl => hls l (List.mem_cons_of_mem _ hl)) h
      have h2 := sumRemaining_nonneg hq
      linarith

section Queue
variable (market : MarketId) (price : ℚ)

/-- Without own makers a taker that is not used up empties the queue. -/
theorem sweepQueue_exhausts (mode : SelfTradeMode) {s : Pass} {q : Queue}
    (hown : ∀ m ∈ q, m.owner ≠ s.taker.owner) (hq : ∀ m ∈ q, 0 ≤ m.remaining)
    (hlt : sumRemaining q < s.taker.remaining) :
    (sweepQueue mode market price s q).err = none ∧
      (sweepQueue mode market price s q).left = [] ∧
      (sweepQueue mode market price s q).pass.taker.remaining =
        s.taker.remaining-sumRemaining q := by
  induction q generalizing s with
  | nil => simp [sweepQueue, sumRemaining]
  | cons m q ih =>
    have hm := hq m List.mem_cons_self
    have hsum : sumRemaining (m :: q) = m.remaining+sumRemaining q := by simp [sumRemaining]
    have hq0 := sumRemaining_nonneg (fun x hx => hq x (List.mem_cons_of_mem _ hx))
    have hr : 0 < s.taker.remaining := by linarith
    have hle : m.remaining ≤ s.taker.remaining := by linarith
    -- nobody here is the taker, so every mode goes on to the fill
    have ha : mode.action m s.taker = .proceed := by
      simp [SelfTradeMode.action, hown m List.mem_cons_self]
    have hstep : ((s.fill market price m).forget m).taker.remaining =
        s.taker.remaining-m.remaining := by
      simp [Pass.fill, Pass.forget, min_eq_right hle]
    obtain ⟨h1, h2, h3⟩ := ih (s := (s.fill market price m).forget m)
      (fun x hx => hown x (List.mem_cons_of_mem _ hx))
      (fun x hx => hq x (List.mem_cons_of_mem _ hx)) (by rw [hstep]; linarith)
    simp only [sweepQueue, if_pos hr, ha, if_pos hle, Swept.after]
    refine ⟨h1, h2, ?_⟩
    rw [h3, hstep, hsum]
    ring

/-- Under `CancelNewest` own makers are never passed. -/
theorem sweepQueue_gone_not_own {s : Pass} {q : Queue} :
    ∀ o ∈ (sweepQueue .cancelNewest market price s q).gone, o.owner ≠ s.taker.owner := by
  generalize hmode : SelfTradeMode.cancelNewest = mode
  fun_induction sweepQueue mode market price s q with
  | case1 => intro o ho; simp at ho
  | case2 => intro o ho; simp at ho
  | case3 s maker rest hr ha ih =>
    subst hmode
    simp only [SelfTradeMode.action] at ha
    split_ifs at ha
  | case4 s maker rest hr ha hm ih =>
    intro o ho
    rcases List.mem_cons.mp ho with rfl | ho
    · intro heq
      subst hmode
      have ho : maker.owner = s.taker.owner := heq
      simp [SelfTradeMode.action, ho] at ha
    · exact ih o ho
  | case5 => intro o ho; simp at ho
  | case6 => intro o ho; simp at ho

/-- The owners passed and left are those of the queue, in order. -/
theorem sweepQueue_owners (mode : SelfTradeMode) (s : Pass) (q : Queue) :
    q.map Order.owner = (sweepQueue mode market price s q).gone.map Order.owner++
      (sweepQueue mode market price s q).left.map Order.owner := by
  fun_induction sweepQueue mode market price s q with
  | case1 => rfl
  | case2 => rfl
  | case3 s maker rest hr ha ih =>
    simp only [Swept.after, List.map_cons, List.cons_append]
    rw [ih]
  | case4 s maker rest hr ha hm ih =>
    simp only [Swept.after, List.map_cons, List.cons_append]
    rw [ih]
  | case5 => rfl
  | case6 => rfl

/-- A rejected level has passed exactly the makers before the first own one. -/
theorem sweepQueue_err_gone {s : Pass} {q : Queue}
    (he : (sweepQueue .cancelNewest market price s q).err.isSome) :
    (sweepQueue .cancelNewest market price s q).gone.length =
      (q.takeWhile (fun m => m.owner ≠ s.taker.owner)).length := by
  obtain ⟨e, he⟩ := Option.isSome_iff_exists.mp he
  obtain ⟨-, -, ⟨m, rest, hleft, ho⟩, -⟩ := sweepQueue_err .cancelNewest market price he
  have hown := sweepQueue_owners market price .cancelNewest s q
  have hg : ∀ o ∈ (sweepQueue .cancelNewest market price s q).gone, o.owner ≠ s.taker.owner :=
    sweepQueue_gone_not_own market price
  generalize (sweepQueue .cancelNewest market price s q).gone = gone at hown hg
  rw [hleft] at hown
  -- compare through the owners, which the pass does not change
  have hmap : ∀ l : List Order, (l.takeWhile (fun m => m.owner ≠ s.taker.owner)).length =
      ((l.map Order.owner).takeWhile (fun a => a ≠ s.taker.owner)).length := by
    intro l
    rw [List.takeWhile_map, List.length_map]
    rfl
  rw [hmap, hown, List.map_cons, List.takeWhile_append_of_pos, List.takeWhile_cons_of_neg]
  · simp
  · simp [ho]
  · intro a ha
    obtain ⟨x, hx, rfl⟩ := List.mem_map.mp ha
    simpa using hg x hx

theorem sweepQueue_err_iff {s : Pass} {q : Queue} (hq : ∀ m ∈ q, 0 ≤ m.remaining) :
    (sweepQueue .cancelNewest market price s q).err.isSome ↔
      (∃ m ∈ q, m.owner = s.taker.owner) ∧
      sumRemaining (q.takeWhile (fun m => m.owner ≠ s.taker.owner)) < s.taker.remaining := by
  have hs := spend_sweepQueue .cancelNewest market price s q []
  have hi := (spend_iff .cancelNewest s.taker q hq s.taker.remaining).1
  rw [List.append_nil] at hs
  rw [hs] at hi
  simp only [tradable, true_and] at hi
  rw [← hi]
  split_ifs with he <;> simp [he, spend]

end Queue

section Levels
variable (mode : SelfTradeMode) (market : MarketId)

/-- What crossing does to a side when no maker is stranded: some ids leave the queues and
the id map, and every order that stays had at least its quantity before. -/
structure Clean (s : Pass) (ls : List (ℚ × Queue)) (r : SweptLevels ℚ) : Prop where
  ids : ∃ out, (ls.flatMap Prod.snd).map Order.id =
      out++(r.levels.flatMap Prod.snd).map Order.id ∧
    ∀ id, r.pass.byId id = if id ∈ out then none else s.byId id
  levels : ∀ l' ∈ r.levels, ∃ l ∈ ls, l'.1 = l.1 ∧ l'.2 ≠ [] ∧ ∀ o ∈ l'.2, ∃ m ∈ l.2, Shrunk m o

theorem Clean.refl {s : Pass} {ls : List (ℚ × Queue)} (hne : ∀ l ∈ ls, l.2 ≠ [])
    (err : Option SubmitError) : Clean s ls ⟨s, ls, err⟩ :=
  ⟨⟨[], rfl, fun _ => by simp⟩,
    fun l hl => ⟨l, hl, rfl, hne l hl, fun o ho => ⟨o, ho, Shrunk.refl o⟩⟩⟩

/-- The level that ends the loop keeps `q'` of its queue `q`. -/
theorem Clean.stop {s : Pass} {key : ℚ} {q q' : Queue} {rest : List (ℚ × Queue)}
    (hne : ∀ l ∈ (key,q) :: rest, l.2 ≠ []) (err : Option SubmitError)
    (hleft : (sweepQueue mode market key s q).left = q') (hq' : q' ≠ []) :
    Clean s ((key,q) :: rest) ⟨(sweepQueue mode market key s q).pass, (key,q') :: rest, err⟩ := by
  subst hleft
  constructor
  · refine ⟨_, ?_, sweepQueue_byId mode market key s q⟩
    simp only [List.flatMap_cons, List.map_append]
    rw [sweepQueue_ids mode market key s q, List.append_assoc]
  · intro l' hl'
    rcases List.mem_cons.mp hl' with rfl | hl'
    · exact ⟨(key,q), List.mem_cons_self, rfl, hq', sweepQueue_left mode market key s q⟩
    · exact ⟨l', List.mem_cons_of_mem _ hl', rfl, hne l' (List.mem_cons_of_mem _ hl'),
        fun o ho => ⟨o, ho, Shrunk.refl o⟩⟩

/-- An exhausted level goes as a whole and the loop goes on behind it. -/
theorem Clean.next {s : Pass} {key : ℚ} {q : Queue} {rest : List (ℚ × Queue)}
    {r : SweptLevels ℚ} (hleft : (sweepQueue mode market key s q).left = [])
    (h : Clean (sweepQueue mode market key s q).pass rest r) : Clean s ((key,q) :: rest) r := by
  obtain ⟨⟨out, hids, hby⟩, hlev⟩ := h
  have hq := sweepQueue_ids mode market key s q
  rw [hleft] at hq
  simp only [List.map_nil, List.append_nil] at hq
  constructor
  · refine ⟨q.map Order.id++out, ?_, ?_⟩
    · simp only [List.flatMap_cons, List.map_append, hids, List.append_assoc]
    · intro id
      rw [hby, sweepQueue_byId, ← hq]
      simp only [List.mem_append]
      by_cases h1 : id ∈ q.map Order.id <;> by_cases h2 : id ∈ out <;> simp only [h1, h2,
        or_true, or_false, if_true, if_false]
  · intro l' hl'
    obtain ⟨l, hl, h⟩ := hlev l' hl'
    exact ⟨l, List.mem_cons_of_mem _ hl, h⟩

theorem sweepQueue_left_nil_not_own {s : Pass} {q : Queue} {key : ℚ}
    (hleft : (sweepQueue .cancelNewest market key s q).left = []) :
    ∀ m ∈ q, m.owner ≠ s.taker.owner := by
  intro m hm
  have hown := sweepQueue_owners market key .cancelNewest s q
  rw [hleft] at hown
  simp only [List.map_nil, List.append_nil] at hown
  have hmem : m.owner ∈ (sweepQueue .cancelNewest market key s q).gone.map Order.owner := by
    rw [← hown]
    exact List.mem_map_of_mem hm
  obtain ⟨o, ho, heq⟩ := List.mem_map.mp hmem
  rw [← heq]
  exact sweepQueue_gone_not_own market key o ho

/-- A queue without own makers that a taker has used up cost it the whole quantity. -/
theorem sweepQueue_left_nil_remaining {s : Pass} {q : Queue} {key : ℚ}
    (hleft : (sweepQueue mode market key s q).left = [])
    (hown : ∀ m ∈ q, m.owner ≠ s.taker.owner) :
    (sweepQueue mode market key s q).pass.taker.remaining =
      s.taker.remaining-sumRemaining q := by
  fun_induction sweepQueue mode market key s q with
  | case1 => simp [sumRemaining]
  | case2 => simp at hleft
  | case3 s maker rest hr ha ih =>
    simp [SelfTradeMode.action, hown maker List.mem_cons_self] at ha
  | case4 s maker rest hr ha hm ih =>
    have h := ih hleft (fun x hx => hown x (List.mem_cons_of_mem _ hx))
    simp only [Swept.after]
    rw [h]
    simp only [Pass.forget, Pass.fill, min_eq_right hm, sumRemaining, List.map_cons, List.sum_cons]
    ring
  | case5 => simp at hleft
  | case6 => simp at hleft

theorem sweepLevels_clean (s : Pass) (ls : List (ℚ × Queue)) (hls : LevelsOk ls)
    (hns : mode = .cancelNewest → ¬ strandsAt s.taker.owner s.taker.remaining
      (ls.takeWhile (fun l => s.taker.crosses l.1))) :
    Clean s ls (sweepLevels id mode market s ls) := by
  induction ls generalizing s with
  | nil => exact Clean.refl (by simp) none
  | cons e rest ih =>
    obtain ⟨key, q⟩ := e
    have hq : ∀ o ∈ q, 0 ≤ o.remaining := hls.nonneg (key,q) List.mem_cons_self
    have hrest := hls.tail
    simp only [sweepLevels, id]
    split_ifs with hg he hl
    · -- rejected: the invariant needs that nothing was passed at this level
      obtain ⟨e, hsome⟩ := Option.isSome_iff_exists.mp he
      obtain ⟨-, hmode, ⟨m, ms, hleft, -⟩, -⟩ := sweepQueue_err mode market key hsome
      subst hmode
      obtain ⟨hown, hlt⟩ := (sweepQueue_err_iff market key hq).mp he
      have hgone : (sweepQueue .cancelNewest market key s q).gone = [] := by
        by_contra hne
        refine hns rfl ?_
        rw [takeWhile_crosses hg.2]
        unfold strandsAt
        rw [if_pos hown]
        refine ⟨?_, hlt⟩
        intro hnil
        have hlen := sweepQueue_err_gone market key he
        rw [hnil] at hlen
        exact hne (List.length_eq_zero_iff.mp hlen)
      rw [hgone, List.nil_append]
      exact Clean.stop .cancelNewest market hls.nonempty _ rfl (by simp [hleft])
    -- the level is used up, and the taker strands in the rest only if it does here
    · have hnil := List.isEmpty_iff.mp hl
      refine Clean.next mode market hnil (ih _ hrest ?_)
      rintro rfl hst
      have hown := sweepQueue_left_nil_not_own market hnil
      have hrem := sweepQueue_left_nil_remaining .cancelNewest market hnil hown
      refine hns rfl ?_
      rw [takeWhile_crosses hg.2]
      unfold strandsAt
      have hnone : ¬ ∃ m ∈ q, m.owner = s.taker.owner := by
        rintro ⟨m, hm, ho⟩
        exact hown m hm ho
      rw [if_neg hnone, ← hrem]
      have ht := sweepQueue_taker .cancelNewest market key s q
      rw [ht] at hst
      exact hst
    · exact Clean.stop mode market hls.nonempty _ rfl (by simpa using hl)
    · exact Clean.refl hls.nonempty none

/-- A stranding taker is rejected and leaves an order with nothing left in a queue. -/
theorem sweepLevels_strands (s : Pass) (ls : List (ℚ × Queue)) (hls : LevelsOk ls)
    (h : strandsAt s.taker.owner s.taker.remaining
      (ls.takeWhile (fun l => s.taker.crosses l.1))) :
    (sweepLevels id .cancelNewest market s ls).err.isSome ∧
      ∃ l ∈ (sweepLevels id .cancelNewest market s ls).levels, ∃ o ∈ l.2, o.remaining = 0 := by
  induction ls generalizing s with
  | nil => exact h.elim
  | cons e rest ih =>
    obtain ⟨key, q⟩ := e
    have hq : ∀ o ∈ q, 0 ≤ o.remaining := hls.nonneg (key,q) List.mem_cons_self
    have hrest := hls.tail
    have hx : s.taker.crosses key = true := by
      by_contra hx
      simp [hx, strandsAt] at h
    have hpos : 0 < s.taker.remaining := strandsAt_pos
      (fun l hl => hls.nonneg l ((List.takeWhile_prefix _).subset hl)) h
    rw [takeWhile_crosses hx] at h
    unfold strandsAt at h
    simp only [sweepLevels, id, hpos, hx, and_self, if_true]
    split_ifs at h with hown
    · -- this level holds an own maker behind one that the taker has used up
      have he := (sweepQueue_err_iff market key hq).mpr ⟨hown, h.2⟩
      obtain ⟨e, hsome⟩ := Option.isSome_iff_exists.mp he
      have hlen := sweepQueue_err_gone market key he
      have hz := (sweepQueue_err .cancelNewest market key hsome).2.2.2
      obtain ⟨o, os, hgone⟩ : ∃ o os,
          (sweepQueue .cancelNewest market key s q).gone = o :: os := by
        apply List.exists_cons_of_ne_nil
        intro hnil
        rw [hnil] at hlen
        exact h.1 (List.length_eq_zero_iff.mp hlen.symm)
      rw [if_pos he]
      refine ⟨he, _, List.mem_cons_self, o, by simp [hgone], hz o (by simp [hgone])⟩
    · -- no own maker here: the level goes and the taker arrives at the next one
      have hno : ∀ m ∈ q, m.owner ≠ s.taker.owner := fun m hm ho => hown ⟨m, hm, ho⟩
      have hp := strandsAt_pos (fun l hl => hrest.nonneg l
        ((List.takeWhile_prefix _).subset hl)) h
      obtain ⟨h1, h2, h3⟩ := sweepQueue_exhausts market key .cancelNewest hno hq
        (by linarith)
      have ht := sweepQueue_taker .cancelNewest market key s q
      simp only [h1, h2, Option.isSome_none, Bool.false_eq_true, if_false, List.isEmpty_nil,
        if_true]
      apply ih _ hrest
      rw [h3]
      rw [ht]
      exact h

/-- Crossing adds nothing to the id map. -/
theorem sweepLevels_byId_le (s : Pass) (ls : List (ℚ × Queue)) (x : OrderId) (side : Side)
    (h : (sweepLevels id mode market s ls).pass.byId x = some side) :
    s.byId x = some side := by
  induction ls generalizing s with
  | nil => exact h
  | cons e rest ih =>
    obtain ⟨key, q⟩ := e
    have hq : (sweepQueue mode market key s q).pass.byId x = some side →
        s.byId x = some side := by
      intro hs
      rw [sweepQueue_byId] at hs
      split_ifs at hs
      exact hs
    simp only [sweepLevels] at h
    split_ifs at h
    · exact hq h
    · exact hq (ih _ h)
    · exact hq h
    · exact h

theorem spend_le {mode : SelfTradeMode} {t : Order} (ms : List Order)
    (hms : ∀ m ∈ ms, 0 ≤ m.remaining) (r x : ℚ) (h : spend mode t r ms = some x) : x ≤ r := by
  induction ms generalizing r with
  | nil => exact (Option.some.inj h).ge
  | cons m ms ih =>
    have hms' : ∀ m ∈ ms, 0 ≤ m.remaining := fun x hx => hms x (List.mem_cons_of_mem _ hx)
    unfold spend at h
    split_ifs at h with hr
    · cases ha : mode.action m t with
      | rejectTaker => simp [ha] at h
      | dropMaker =>
        simp only [ha] at h
        exact ih hms' r h
      | proceed =>
        simp only [ha] at h
        have h1 := ih hms' _ h
        have h2 := le_min hr.le (hms m List.mem_cons_self)
        linarith
    · exact (Option.some.inj h).ge

end Levels

end Perplex.Book
