import Perplex.BookInvariant
import Perplex.BookUncrossed
import Perplex.BookFills

/-! The quantity at each price, and which calls change it where. Crossing changes levels it
has fills at; besides, it removes own makers under `CancelBoth`, and what it has passed when
it is rejected. -/
namespace Perplex.Book

/-- The quantity resting at a price. -/
def ladderQty (ls : List (ℚ × Queue)) (price : ℚ) : ℚ :=
  (ls.map fun l => if l.1 = price then sumRemaining l.2 else 0).sum

@[simp]
theorem ladderQty_cons (l : ℚ × Queue) (ls : List (ℚ × Queue)) (price : ℚ) :
    ladderQty (l :: ls) price =
      (if l.1 = price then sumRemaining l.2 else 0)+ladderQty ls price := rfl

@[simp]
theorem ladderQty_append (ls ls' : List (ℚ × Queue)) (price : ℚ) :
    ladderQty (ls++ls') price = ladderQty ls price+ladderQty ls' price := by
  simp [ladderQty]

theorem ladderQty_of_absent {ls : List (ℚ × Queue)} {price : ℚ} (h : ∀ l ∈ ls, l.1 ≠ price) :
    ladderQty ls price = 0 := by
  apply List.sum_eq_zero
  intro x hx
  obtain ⟨l, hl, rfl⟩ := List.mem_map.mp hx
  exact if_neg (h l hl)

/-- Keys are distinct, so the sum over a key is the value found under it. -/
theorem sum_find_eq {K : Type} [LinearOrder K] {l : List (K × Queue)}
    (h : l.Pairwise (fun a b => a.1 < b.1)) (k : K) :
    sumRemaining (((l.find? (fun e => e.1 = k)).map Prod.snd).getD []) =
      (l.map fun e => if e.1 = k then sumRemaining e.2 else 0).sum := by
  induction l with
  | nil => rfl
  | cons e rest ih =>
    obtain ⟨he, hrest⟩ := List.pairwise_cons.mp h
    by_cases hk : e.1 = k
    · -- keys grow, so no later level has this one
      have hzero : (rest.map fun e => if e.1 = k then sumRemaining e.2 else 0).sum = 0 := by
        apply List.sum_eq_zero
        intro x hx
        obtain ⟨l, hl, rfl⟩ := List.mem_map.mp hx
        exact if_neg (hk ▸ (he l hl).ne')
      simp [hk, hzero]
    · have hih := ih hrest
      simpa [hk] using hih

theorem Orderbook.levelQty_eq (b : Orderbook) (side : Side) (price : ℚ) :
    b.levelQty side price = ladderQty (b.levelsOf side) price := by
  cases side with
  | sell => exact sum_find_eq b.asks.sorted price
  | buy =>
    -- bids are kept under the dual order, which has the same keys
    have h := sum_find_eq b.bids.sorted (OrderDual.toDual price)
    unfold ladderQty levelsOf
    rw [List.map_map]
    exact h

theorem Orderbook.levelsOf_keys (b : Orderbook) (side : Side) :
    (b.levelsOf side).Pairwise (fun a c => a.1 ≠ c.1) := by
  apply (b.levelsOf_sorted side).imp
  intro a c h
  cases side with
  | buy => exact h.ne'
  | sell => exact h.ne

section Queue
variable (mode : SelfTradeMode) (market : MarketId) {price : ℚ} {s : Pass} {q : Queue}

/-- A used-up queue has cost the taker all it could trade with. -/
theorem sweepQueue_used_up (he : (sweepQueue mode market price s q).err = none)
    (hleft : (sweepQueue mode market price s q).left = []) :
    (sweepQueue mode market price s q).pass.taker.remaining =
      s.taker.remaining-sumRemaining (tradable mode s.taker.owner q) := by
  fun_induction sweepQueue mode market price s q with
  | case1 => cases mode <;> simp [tradable, sumRemaining]
  | case2 => simp at he
  | case3 s maker rest hr ha ih =>
    rw [tradable_dropMaker ha]
    exact ih he hleft
  | case4 s maker rest hr ha hm ih =>
    have hrest := ih he hleft
    rw [tradable_proceed ha]
    -- a maker that is passed was used up, so it cost the taker its whole remainder
    change _ = _-(maker.remaining+sumRemaining (tradable mode s.taker.owner rest))
    change (sweepQueue mode market price ((s.fill market price maker).forget maker)
      rest).pass.taker.remaining = _
    rw [hrest]
    change s.taker.remaining-min s.taker.remaining maker.remaining-_ = _
    rw [min_eq_right hm]
    exact sub_sub _ _ _
  | case5 => simp at hleft
  | case6 => simp at hleft

/-- A queue that stays without an error covers the taker. -/
theorem sweepQueue_covers (hq : ∀ m ∈ q, 0 ≤ m.remaining)
    (he : (sweepQueue mode market price s q).err = none)
    (hleft : (sweepQueue mode market price s q).left ≠ []) :
    s.taker.remaining ≤ sumRemaining (tradable mode s.taker.owner q) := by
  have hdone := sweepQueue_left_ne_nil mode market price s q he hleft
  have hs := spend_sweepQueue mode market price s q []
  rw [List.append_nil, he] at hs
  have hiff := (spend_iff mode s.taker q hq s.taker.remaining).2 _ hs
  exact not_lt.mp fun hlt => not_lt.mpr hdone (hiff.mpr hlt)

theorem sweepQueue_prices (price : ℚ) (s : Pass) (q : Queue) : ∃ new,
    (sweepQueue mode market price s q).pass.fills = s.fills++new ∧ ∀ f ∈ new, f.price = price := by
  have hfill : ∀ (s : Pass) (maker : Order), ∃ f : Fill,
      (s.fill market price maker).fills = s.fills++[f] ∧ f.price = price :=
    fun s maker => ⟨_, rfl, rfl⟩
  fun_induction sweepQueue mode market price s q with
  | case1 => exact ⟨[], by simp, by simp⟩
  | case2 => exact ⟨[], by simp, by simp⟩
  | case3 s maker rest hr ha ih => exact ih
  | case4 s maker rest hr ha hm ih =>
    obtain ⟨new, hnew, hp⟩ := ih
    obtain ⟨f, hf, hfp⟩ := hfill s maker
    change _ = (s.fill market price maker).fills++new at hnew
    rw [hf, List.append_assoc] at hnew
    exact ⟨f :: new, hnew, List.forall_mem_cons.mpr ⟨hfp, hp⟩⟩
  | case5 s maker rest hr ha hm =>
    obtain ⟨f, hf, hfp⟩ := hfill s maker
    exact ⟨[f], hf, by simpa using hfp⟩
  | case6 => exact ⟨[], by simp, by simp⟩

/-- A level has a new fill as soon as it has a maker to trade with. -/
theorem sweepQueue_new_fills (price : ℚ) {s : Pass} (q : Queue) (hr : 0 < s.taker.remaining) :
    ∃ new,
    (sweepQueue mode market price s q).pass.fills = s.fills++new ∧
      (∀ f ∈ new, f.price = price) ∧ (new = [] ↔ tradable mode s.taker.owner q = []) := by
  obtain ⟨new, hnew, hp⟩ := sweepQueue_prices mode market price s q
  obtain ⟨xs, ⟨new', hnew', hfor, -⟩, htrades⟩ := sweepQueue_fills mode market price s q []
  obtain rfl : new = new' := List.append_cancel_left (hnew.symm.trans hnew')
  refine ⟨new, hnew, hp, ?_⟩
  -- there is one fill for each draw, and a live taker draws from the first maker it may trade with
  have hxs : xs = draw Order.remaining s.taker.remaining (tradable mode s.taker.owner q) := by
    rw [← trades_eq_draw, ← List.append_nil q, htrades]
    split_ifs <;> simp [trades]
  have hlen := hfor.length_eq
  rw [← List.length_eq_zero_iff, hlen, List.length_eq_zero_iff, hxs]
  cases tradable mode s.taker.owner q with
  | nil => simp [draw]
  | cons m ms => simp [draw, hr]

end Queue

/-- Before it is filled, the taker reaches a level of quantity that is all its own. -/
def dropsUnseen (owner : Address) : ℚ → List (ℚ × Queue) → Prop
  | _, [] => False
  | r, (_,q) :: rest => 0 < r ∧ ((∀ m ∈ q, m.owner = owner) ∧ sumRemaining q ≠ 0 ∨
      dropsUnseen owner (r-sumRemaining (q.filter (fun m => m.owner ≠ owner))) rest)

section Levels
variable (mode : SelfTradeMode) (market : MarketId)

/-- With nothing to trade with and no error, all makers are own ones and are dropped. -/
theorem tradable_nil {mode : SelfTradeMode} {s : Pass} {key : ℚ} {q : Queue} (hne : q ≠ [])
    (hr : 0 < s.taker.remaining) (he : (sweepQueue mode market key s q).err = none)
    (hnil : tradable mode s.taker.owner q = []) :
    mode = .cancelBoth ∧ ∀ m ∈ q, m.owner = s.taker.owner := by
  cases mode with
  | allow => exact absurd hnil hne
  | cancelBoth =>
    refine ⟨rfl, fun m hm => ?_⟩
    by_contra hown
    have hmem : m ∈ tradable .cancelBoth s.taker.owner q :=
      List.mem_filter.mpr ⟨hm, by simpa using hown⟩
    rw [hnil] at hmem
    simp at hmem
  | cancelNewest =>
    -- an own maker in front is an error in this mode
    obtain ⟨m, rest, rfl⟩ := List.exists_cons_of_ne_nil hne
    have hown : m.owner = s.taker.owner := by
      by_contra hown
      simp [tradable, hown] at hnil
    simp [sweepQueue, hr, SelfTradeMode.action, hown] at he

theorem dropsUnseen_of_nonpos {owner : Address} {r : ℚ} (h : r ≤ 0) (ls : List (ℚ × Queue)) :
    ¬ dropsUnseen owner r ls := by
  cases ls with
  | nil => exact id
  | cons l ls => exact fun hd => absurd hd.1 (not_lt.mpr h)

theorem ladderQty_swept_absent {s : Pass} {ls : List (ℚ × Queue)} {p : ℚ}
    (h : ∀ l ∈ ls, p ≠ l.1) : ladderQty (sweepLevels id mode market s ls).levels p = 0 := by
  apply ladderQty_of_absent
  intro l hl
  obtain ⟨l₀, hl₀, hkey⟩ := sweepLevels_key mode market hl
  exact fun hp => h l₀ hl₀ (hkey.trans hp).symm

/-- A level that covers the taker is announced, and nothing is touched behind it. -/
theorem unannounced_stop {s : Pass} {key : ℚ} {q : Queue} (rest tw : List (ℚ × Queue))
    (hq : ∀ m ∈ q, 0 ≤ m.remaining) (hr : 0 < s.taker.remaining)
    (he : (sweepQueue mode market key s q).err = none)
    (hleft : (sweepQueue mode market key s q).left ≠ []) {new : List Fill}
    (hprice : ∀ f ∈ new, f.price = key) (hnil : new = [] ↔ tradable mode s.taker.owner q = []) :
    (∀ p, (∀ f ∈ new, f.price ≠ p) →
      ladderQty ((key,(sweepQueue mode market key s q).left) :: rest) p =
        ladderQty ((key,q) :: rest) p) ∧
    ¬ (mode = .cancelBoth ∧
      dropsUnseen s.taker.owner s.taker.remaining ((key,q) :: tw)) := by
  -- the level holds a maker of another owner, with whom the taker has traded
  have hcover := sweepQueue_covers mode market hq he hleft
  have htr : tradable mode s.taker.owner q ≠ [] := by
    intro h
    rw [h] at hcover
    exact absurd hr (not_lt.mpr hcover)
  constructor
  · intro p hp
    obtain ⟨f, hf⟩ := List.exists_mem_of_ne_nil new (mt hnil.mp htr)
    have hkey : key ≠ p := hprice f hf ▸ hp f hf
    rw [ladderQty_cons, ladderQty_cons, if_neg hkey, if_neg hkey]
  · rintro ⟨rfl, -, hd⟩
    rcases hd with ⟨hown, -⟩ | hd
    · apply htr
      simp only [tradable, List.filter_eq_nil_iff]
      intro m hm
      simpa using hown m hm
    · exact dropsUnseen_of_nonpos (sub_nonpos.mpr hcover) _ hd

/-- A level that is used up is announced unless it was all the taker's own. -/
theorem unannounced_next {s : Pass} {key : ℚ} {q : Queue} {rest tw : List (ℚ × Queue)}
    {after : List (ℚ × Queue)} {new new' : List Fill} (hne : q ≠ [])
    (hr : 0 < s.taker.remaining) (he : (sweepQueue mode market key s q).err = none)
    (hprice : ∀ f ∈ new, f.price = key) (hnil : new = [] ↔ tradable mode s.taker.owner q = [])
    (hrest : ladderQty rest key = 0) (hafter : ladderQty after key = 0)
    (hprice' : ∀ f ∈ new', f.price ≠ key)
    (hih : (∀ p, (∀ f ∈ new', f.price ≠ p) → ladderQty after p = ladderQty rest p) ↔
      ¬ (mode = .cancelBoth ∧ dropsUnseen s.taker.owner
        (s.taker.remaining-sumRemaining (tradable mode s.taker.owner q)) tw)) :
    (∀ p, (∀ f ∈ new++new', f.price ≠ p) → ladderQty after p = ladderQty ((key,q) :: rest) p) ↔
      ¬ (mode = .cancelBoth ∧
        dropsUnseen s.taker.owner s.taker.remaining ((key,q) :: tw)) := by
  -- no fill at this level means that every maker was an own one and was dropped
  have hown : new = [] ↔ mode = .cancelBoth ∧ ∀ m ∈ q, m.owner = s.taker.owner := by
    rw [hnil]
    refine ⟨tradable_nil market hne hr he, ?_⟩
    rintro ⟨rfl, hall⟩
    simp only [tradable, List.filter_eq_nil_iff]
    intro m hm
    simpa using hall m hm
  -- the price of this level and the other prices are looked at apart
  have hsplit : (∀ p, (∀ f ∈ new++new', f.price ≠ p) →
      ladderQty after p = ladderQty ((key,q) :: rest) p) ↔
      (new = [] → sumRemaining q = 0) ∧
        ∀ p, (∀ f ∈ new', f.price ≠ p) → ladderQty after p = ladderQty rest p := by
    simp only [List.forall_mem_append, ladderQty_cons]
    constructor
    · intro h
      constructor
      · rintro rfl
        have hkey := h key ⟨by simp, hprice'⟩
        rw [if_pos rfl, hrest, hafter] at hkey
        linarith
      · intro p hp
        by_cases hk : key = p
        · rw [← hk, hrest, hafter]
        · have hkey := h p ⟨fun f hf => (hprice f hf).symm ▸ hk, hp⟩
          rw [if_neg hk, zero_add] at hkey
          exact hkey
    · rintro ⟨hq0, h⟩ p ⟨hp, hp'⟩
      rw [h p hp']
      split_ifs with hk
      · have hnew : new = [] := by
          by_contra hcon
          obtain ⟨f, hf⟩ := List.exists_mem_of_ne_nil new hcon
          exact hp f hf ((hprice f hf).trans hk)
        rw [hq0 hnew, zero_add]
      · rw [zero_add]
  rw [hsplit, hih, hown]
  constructor
  · rintro ⟨h1, h2⟩ ⟨rfl, -, hd⟩
    rcases hd with ⟨hall, hq0⟩ | hd
    · exact hq0 (h1 ⟨rfl, hall⟩)
    · exact h2 ⟨rfl, hd⟩
  · intro h
    constructor
    · rintro ⟨hm, hall⟩
      by_contra hq0
      exact h ⟨hm, hr, Or.inl ⟨hall, hq0⟩⟩
    · rintro ⟨rfl, hd⟩
      exact h ⟨rfl, hr, Or.inr hd⟩

/-- Without an error, the levels that change without a fill are those of own makers. -/
theorem sweepLevels_unannounced (s : Pass) {ls : List (ℚ × Queue)} (hok : LevelsOk ls)
    (hkeys : ls.Pairwise (fun a c => a.1 ≠ c.1))
    (he : (sweepLevels id mode market s ls).err = none) : ∃ new,
      (sweepLevels id mode market s ls).pass.fills = s.fills++new ∧
      (∀ f ∈ new, ∃ l ∈ ls, l.1 = f.price) ∧
      ((∀ p, (∀ f ∈ new, f.price ≠ p) →
        ladderQty (sweepLevels id mode market s ls).levels p = ladderQty ls p) ↔
      ¬ (mode = .cancelBoth ∧ dropsUnseen s.taker.owner s.taker.remaining
        (ls.takeWhile (fun l => s.taker.crosses l.1)))) := by
  induction ls generalizing s with
  | nil => exact ⟨[], by simp [sweepLevels], by simp, by simp [sweepLevels, dropsUnseen]⟩
  | cons e rest ih =>
    obtain ⟨key, q⟩ := e
    obtain ⟨hkey, hkeys'⟩ := List.pairwise_cons.mp hkeys
    have hok' := hok.tail
    have hq := hok.nonneg (key,q) List.mem_cons_self
    have hne := hok.nonempty (key,q) List.mem_cons_self
    by_cases hg : 0 < s.taker.remaining ∧ s.taker.crosses key = true
    · obtain ⟨hr, hx⟩ := hg
      have htake : ((key,q) :: rest).takeWhile (fun l => s.taker.crosses l.1) =
          (key,q) :: rest.takeWhile (fun l => s.taker.crosses l.1) :=
        List.takeWhile_cons_of_pos hx
      obtain ⟨new, hnew, hprice, hnil⟩ := sweepQueue_new_fills mode market key q hr
      simp only [sweepLevels, id, hr, hx, and_self, if_true] at he ⊢
      by_cases herr : (sweepQueue mode market key s q).err.isSome = true
      · rw [if_pos herr] at he
        have hnone : (sweepQueue mode market key s q).err = none := he
        simp [hnone] at herr
      have hnone : (sweepQueue mode market key s q).err = none := by simpa using herr
      simp only [if_neg herr] at he ⊢
      rw [htake]
      cases hleft : (sweepQueue mode market key s q).left with
      | cons m ms =>
        have hleft' : (sweepQueue mode market key s q).left ≠ [] := by simp [hleft]
        obtain ⟨hunch, hno⟩ := unannounced_stop mode market rest
          (rest.takeWhile (fun l => s.taker.crosses l.1)) hq hr hnone hleft' hprice hnil
        rw [hleft] at hunch
        refine ⟨new, hnew, ?_, fun _ => hno, fun _ => hunch⟩
        exact fun f hf => ⟨(key,q), List.mem_cons_self, (hprice f hf).symm⟩
      | nil =>
        simp only [hleft, List.isEmpty_nil, if_true] at he ⊢
        -- the level is gone, and the taker goes on to the next one
        obtain ⟨new', hnew', hin, hih⟩ := ih _ hok' hkeys' he
        have hrem := sweepQueue_used_up mode market hnone hleft
        rw [sweepQueue_crosses, sweepQueue_owner, hrem] at hih
        refine ⟨new++new', ?_, ?_, unannounced_next mode market hne hr hnone hprice hnil
          (ladderQty_of_absent fun l hl => (hkey l hl).symm)
          (ladderQty_swept_absent mode market hkey) ?_ hih⟩
        · rw [hnew', hnew, List.append_assoc]
        · intro f hf
          rcases List.mem_append.mp hf with hf | hf
          · exact ⟨(key,q), List.mem_cons_self, (hprice f hf).symm⟩
          · obtain ⟨l, hl, hlp⟩ := hin f hf
            exact ⟨l, List.mem_cons_of_mem _ hl, hlp⟩
        · intro f hf
          obtain ⟨l, hl, hlp⟩ := hin f hf
          exact fun hp => hkey l hl (hp.symm.trans hlp.symm)
    · have hsame : sweepLevels id mode market s ((key,q) :: rest) =
          ⟨s, (key,q) :: rest, none⟩ := by
        simp only [sweepLevels, id]
        exact if_neg hg
      -- the loop stops here: the taker is filled, or the best level is out of its reach
      have hno : ¬ dropsUnseen s.taker.owner s.taker.remaining
          (((key,q) :: rest).takeWhile (fun l => s.taker.crosses l.1)) := by
        by_cases hr : 0 < s.taker.remaining
        · have hx : ¬ s.taker.crosses key = true := fun hx => hg ⟨hr, hx⟩
          rw [List.takeWhile_cons_of_neg (by simpa using hx)]
          exact id
        · exact dropsUnseen_of_nonpos (not_lt.mp hr) _
      rw [hsame]
      exact ⟨[], by simp, by simp, fun _ h => hno h.2, fun _ _ _ => rfl⟩

/-- The makers that crossing passes when it does not fill the order. -/
def passed (mode : SelfTradeMode) (owner : Address) (ms : List Order) : List Order :=
  match mode with
  | .cancelNewest => ms.takeWhile (fun m => m.owner ≠ owner)
  | _ => ms

theorem passed_nonneg {mode : SelfTradeMode} {owner : Address} {ms : List Order}
    (h : ∀ m ∈ ms, 0 ≤ m.remaining) : 0 ≤ sumRemaining (passed mode owner ms) := by
  apply sumRemaining_nonneg
  intro m hm
  cases mode with
  | cancelNewest => exact h m ((List.takeWhile_prefix _).subset hm)
  | allow => exact h m hm
  | cancelBoth => exact h m hm

theorem sumRemaining_append (ms ms' : List Order) :
    sumRemaining (ms++ms') = sumRemaining ms+sumRemaining ms' := by
  simp [sumRemaining]

theorem sumRemaining_cons (m : Order) (ms : List Order) :
    sumRemaining (m :: ms) = m.remaining+sumRemaining ms := rfl

theorem sweepQueue_err_left {mode : SelfTradeMode} {s : Pass} {key : ℚ} {q : Queue}
    (hmode : mode = .cancelNewest) (he : (sweepQueue mode market key s q).err ≠ none) :
    sumRemaining (sweepQueue mode market key s q).left+
      sumRemaining (q.takeWhile (fun m => m.owner ≠ s.taker.owner)) = sumRemaining q := by
  fun_induction sweepQueue mode market key s q with
  | case1 => simp at he
  | case2 s maker rest hr ha =>
    have hown := (rejectTaker_iff.mp ha).2
    rw [List.takeWhile_cons_of_neg (by simpa using hown)]
    exact add_zero _
  | case3 s maker rest hr ha ih =>
    simp only [hmode, SelfTradeMode.action] at ha
    split_ifs at ha
  | case4 s maker rest hr ha hm ih =>
    have hown : maker.owner ≠ s.taker.owner := by
      intro ho
      rw [rejectTaker_iff.mpr ⟨hmode, ho⟩] at ha
      simp at ha
    have hrest := ih he
    rw [List.takeWhile_cons_of_pos (by simpa using hown), sumRemaining_cons, sumRemaining_cons,
      ← hrest]
    exact add_left_comm _ _ _
  | case5 => simp at he
  | case6 => simp at he

/-- A rejected level keeps what stood from the own maker on. -/
theorem sweepQueue_err_kept {mode : SelfTradeMode} {s : Pass} {key : ℚ} {q : Queue}
    (he : (sweepQueue mode market key s q).err.isSome) :
    sumRemaining ((sweepQueue mode market key s q).gone++(sweepQueue mode market key s q).left)+
      sumRemaining (q.takeWhile (fun m => m.owner ≠ s.taker.owner)) = sumRemaining q := by
  obtain ⟨e, herr⟩ := Option.isSome_iff_exists.mp he
  obtain ⟨-, hmode, -, hgone⟩ := sweepQueue_err mode market key herr
  -- what was passed is kept by the early return, but with nothing left
  have hzero : sumRemaining (sweepQueue mode market key s q).gone = 0 := by
    apply List.sum_eq_zero
    intro x hx
    obtain ⟨m, hm, rfl⟩ := List.mem_map.mp hx
    exact hgone m hm
  rw [sumRemaining_append, hzero, zero_add]
  exact sweepQueue_err_left market hmode (by simp [herr])

theorem takeWhile_append_own {owner : Address} {q : Queue} (h : ∃ m ∈ q, m.owner = owner)
    (ms : List Order) : (q++ms).takeWhile (fun m => m.owner ≠ owner) =
      q.takeWhile (fun m => m.owner ≠ owner) := by
  induction q with
  | nil => simp at h
  | cons m q ih =>
    by_cases hm : m.owner = owner
    · simp [hm]
    · have hq : ∃ m ∈ q, m.owner = owner := by simpa [hm] using h
      simpa [hm] using ih hq

/-- A level that is used up leaves the makers behind it to be passed as well. -/
theorem passed_append {mode : SelfTradeMode} {s : Pass} {key : ℚ} {q : Queue}
    (hleft : (sweepQueue mode market key s q).left = []) (ms : List Order) :
    passed mode s.taker.owner (q++ms) = q++passed mode s.taker.owner ms := by
  cases mode with
  | allow => rfl
  | cancelBoth => rfl
  | cancelNewest =>
    have hno := sweepQueue_left_nil_not_own market hleft
    apply List.takeWhile_append_of_pos
    intro m hm
    simpa using hno m hm

/-- A rejected order keeps the level of the own maker, with what stood from that maker on. -/
theorem unfilled_rejected {s : Pass} {key : ℚ} {q : Queue} (rest : List (ℚ × Queue))
    (ms : List Order) (hq : ∀ m ∈ q, 0 ≤ m.remaining)
    (herr : (sweepQueue mode market key s q).err.isSome = true) :
    (∀ p, ladderQty ((key,(sweepQueue mode market key s q).gone++
        (sweepQueue mode market key s q).left) :: rest) p = ladderQty ((key,q) :: rest) p) ↔
      sumRemaining (passed mode s.taker.owner (q++ms)) = 0 := by
  obtain ⟨e, he⟩ := Option.isSome_iff_exists.mp herr
  obtain ⟨-, rfl, -⟩ := sweepQueue_err mode market key he
  have hkept := sweepQueue_err_kept market herr
  have hown := ((sweepQueue_err_iff market key hq).mp herr).1
  have htw : passed .cancelNewest s.taker.owner (q++ms) =
      q.takeWhile (fun m => m.owner ≠ s.taker.owner) := takeWhile_append_own hown _
  rw [htw]
  simp only [ladderQty_cons]
  constructor
  · intro h
    have hlevel := h key
    rw [if_pos rfl, if_pos rfl] at hlevel
    linarith
  · intro hzero p
    rw [hzero, add_zero] at hkept
    rw [hkept]

/-- A level that is gone was without quantity exactly when no level has changed so far. -/
theorem unfilled_next {key : ℚ} {q : Queue} {rest after : List (ℚ × Queue)}
    (hrest : ladderQty rest key = 0) (hafter : ladderQty after key = 0) :
    (∀ p, ladderQty after p = ladderQty ((key,q) :: rest) p) ↔
      sumRemaining q = 0 ∧ ∀ p, ladderQty after p = ladderQty rest p := by
  simp only [ladderQty_cons]
  constructor
  · intro h
    constructor
    · have hlevel := h key
      rw [if_pos rfl, hrest, hafter] at hlevel
      linarith
    · intro p
      by_cases hk : key = p
      · rw [← hk, hrest, hafter]
      · have hlevel := h p
        rw [if_neg hk, zero_add] at hlevel
        exact hlevel
  · rintro ⟨hzero, h⟩ p
    rw [h p, hzero, ite_self, zero_add]

/-- An order that is not filled leaves every level as it was only if all it has passed had
nothing left. -/
theorem sweepLevels_unfilled (s : Pass) {ls : List (ℚ × Queue)} (hok : LevelsOk ls)
    (hkeys : ls.Pairwise (fun a c => a.1 ≠ c.1))
    (hfail : (sweepLevels id mode market s ls).err.isSome ∨
      0 < (sweepLevels id mode market s ls).pass.taker.remaining) :
    (∀ p, ladderQty (sweepLevels id mode market s ls).levels p = ladderQty ls p) ↔
      sumRemaining (passed mode s.taker.owner (crossing s.taker ls)) = 0 := by
  induction ls generalizing s with
  | nil => cases mode <;> simp [sweepLevels, crossing, passed, sumRemaining]
  | cons e rest ih =>
    obtain ⟨key, q⟩ := e
    obtain ⟨hkey, hkeys'⟩ := List.pairwise_cons.mp hkeys
    have hq := hok.nonneg (key,q) List.mem_cons_self
    by_cases hx : s.taker.crosses key = true
    · have hr : 0 < s.taker.remaining := by
        by_contra hr
        simp [sweepLevels, hr] at hfail
      rw [crossing_cons hx]
      simp only [sweepLevels, id, hr, hx, and_self, if_true] at hfail ⊢
      by_cases herr : (sweepQueue mode market key s q).err.isSome = true
      · rw [if_pos herr]
        exact unfilled_rejected mode market rest (crossing s.taker rest) hq herr
      simp only [if_neg herr] at hfail ⊢
      cases hleft : (sweepQueue mode market key s q).left with
      | cons m ms =>
        -- the queue covers the taker, which is then filled
        have hdone := sweepQueue_left_ne_nil mode market key s q (by simpa using herr)
          (by simp [hleft])
        simp [hleft, not_lt.mpr hdone] at hfail
      | nil =>
        simp only [hleft, List.isEmpty_nil, if_true] at hfail ⊢
        have hih := ih _ hok.tail hkeys' hfail
        rw [crossing_swept, sweepQueue_owner] at hih
        have hp0 : 0 ≤ sumRemaining (passed mode s.taker.owner (crossing s.taker rest)) := by
          apply passed_nonneg
          intro m hm
          obtain ⟨l, hl, hm⟩ := List.mem_flatMap.mp hm
          exact hok.tail.nonneg l ((List.takeWhile_prefix _).subset hl) m hm
        rw [passed_append market hleft, sumRemaining_append,
          add_eq_zero_iff_of_nonneg (sumRemaining_nonneg hq) hp0, ← hih]
        exact unfilled_next (ladderQty_of_absent fun l hl => (hkey l hl).symm)
          (ladderQty_swept_absent mode market hkey)
    · have hnone : crossing s.taker ((key,q) :: rest) = [] := by simp [crossing, hx]
      have hsame : sweepLevels id mode market s ((key,q) :: rest) =
          ⟨s, (key,q) :: rest, none⟩ := by simp [sweepLevels, hx]
      rw [hnone, hsame]
      cases mode <;> simp [passed, sumRemaining]

end Levels

theorem sum_upsertList {K : Type} [LinearOrder K] (k x : K) (o : Order) (l : List (K × Queue)) :
    ((SortedMap.upsertList k [] (·++[o]) l).map
        fun e => if e.1 = x then sumRemaining e.2 else 0).sum =
      (l.map fun e => if e.1 = x then sumRemaining e.2 else 0).sum+
        (if k = x then o.remaining else 0) := by
  have hone : sumRemaining [o] = o.remaining := by simp [sumRemaining]
  induction l with
  | nil => simp [SortedMap.upsertList, hone]
  | cons e rest ih =>
    unfold SortedMap.upsertList
    by_cases h1 : k < e.1
    · rw [if_pos h1]
      simp only [List.map_cons, List.sum_cons, List.nil_append, hone]
      ring
    · by_cases h2 : k = e.1
      · rw [if_neg h1, if_pos h2, h2]
        simp only [List.map_cons, List.sum_cons, sumRemaining_append, hone]
        split_ifs <;> ring
      · rw [if_neg h1, if_neg h2]
        simp only [List.map_cons, List.sum_cons, ih]
        ring

theorem sumRemaining_eraseP {q : Queue} {p : Order → Bool} {o : Order} (h : q.find? p = some o) :
    sumRemaining (q.eraseP p)+o.remaining = sumRemaining q := by
  induction q with
  | nil => simp at h
  | cons m q ih =>
    cases hp : p m with
    | true =>
      rw [List.find?_cons_of_pos hp] at h
      obtain rfl := Option.some.inj h
      rw [List.eraseP_cons_of_pos hp, sumRemaining_cons]
      exact add_comm _ _
    | false =>
      have hn : ¬ p m = true := by simp [hp]
      rw [List.find?_cons_of_neg hn] at h
      rw [List.eraseP_cons_of_neg hn, sumRemaining_cons, sumRemaining_cons, ← ih h]
      exact add_assoc _ _ _

/-- Removing an id takes the quantity of its first order off one level. -/
theorem removeFromSide_sum {K : Type} [LinearOrder K] (map : SortedMap K Queue) (id : OrderId) :
    (Orderbook.removeFromSide map id = map ∧
      (map.entries.flatMap Prod.snd).find? (fun o => o.id = id) = none) ∨
    ∃ (key : K) (o : Order), (map.entries.flatMap Prod.snd).find? (fun o => o.id = id) = some o ∧
      ∀ x, ((Orderbook.removeFromSide map id).entries.map
          fun e => if e.1 = x then sumRemaining e.2 else 0).sum+
            (if key = x then o.remaining else 0) =
        (map.entries.map fun e => if e.1 = x then sumRemaining e.2 else 0).sum := by
  rcases removeFromSide_cases map id with
    ⟨hsame, hno⟩ | ⟨pre, key, q, post, hs, hpre, hq, hafter⟩
  · refine Or.inl ⟨hsame, ?_⟩
    apply List.find?_eq_none.mpr
    intro o ho
    obtain ⟨e, he, ho⟩ := List.mem_flatMap.mp ho
    simpa using hno e he o ho
  · -- the first order with the id, in the order of the levels, is the one the search erases
    obtain ⟨o, ho⟩ : ∃ o, q.find? (fun o => o.id = id) = some o := by
      apply Option.isSome_iff_exists.mp
      simpa using hq
    have hsum := sumRemaining_eraseP ho
    have hnone : (pre.flatMap Prod.snd).find? (fun o => decide (o.id = id)) = none := by
      apply List.find?_eq_none.mpr
      intro m hm
      obtain ⟨e, he, hm⟩ := List.mem_flatMap.mp hm
      simpa using hpre e he m hm
    refine Or.inr ⟨key, o, ?_, fun x => ?_⟩
    · rw [hs, List.flatMap_append, List.flatMap_cons, List.find?_append, hnone, Option.none_or,
        List.find?_append, ho, Option.some_or]
    · rw [hafter, hs]
      -- a level that is emptied goes, and counted nothing else
      split_ifs with hempty hx hx
      · rw [List.isEmpty_iff.mp hempty] at hsum
        change 0+o.remaining = _ at hsum
        simp only [List.map_append, List.map_cons, List.sum_append, List.sum_cons, if_pos hx]
        linarith
      · simp [hx]
      · simp only [List.map_append, List.map_cons, List.sum_append, List.sum_cons, if_pos hx]
        linarith
      · simp [hx]

namespace Orderbook

theorem rest_levelQty_same (b : Orderbook) (o : Order) (price : ℚ) :
    (b.rest o).levelQty o.side price =
      b.levelQty o.side price+(if o.price = price then o.remaining else 0) := by
  rw [levelQty_eq, levelQty_eq]
  unfold rest ladderQty
  cases hs : o.side with
  | sell =>
    simp only [levelsOf]
    exact sum_upsertList o.price price o b.asks.entries
  | buy =>
    simp only [levelsOf, List.map_map]
    exact sum_upsertList (OrderDual.toDual o.price) (OrderDual.toDual price) o b.bids.entries

theorem rest_levelQty_other {b : Orderbook} {o : Order} {side : Side} (h : side ≠ o.side)
    (price : ℚ) : (b.rest o).levelQty side price = b.levelQty side price := by
  rw [levelQty_eq, levelQty_eq, rest_levelsOf_other h]

theorem cancel_levelQty_same {b : Orderbook} {id : OrderId} {s : Side} (h : b.byId id = some s) :
    (((b.makers s).find? (fun o => o.id = id) = none ∧
      ∀ p, ((b.cancel id).2).levelQty s p = b.levelQty s p)) ∨
    ∃ (key : ℚ) (o : Order), (b.makers s).find? (fun o => o.id = id) = some o ∧
      ∀ p, ((b.cancel id).2).levelQty s p+(if key = p then o.remaining else 0) =
        b.levelQty s p := by
  simp only [levelQty_eq]
  unfold cancel makers ladderQty
  cases s with
  | sell =>
    simp only [h, levelsOf]
    rcases removeFromSide_sum b.asks id with ⟨hsame, hno⟩ | ⟨key, o, ho, hsum⟩
    · exact Or.inl ⟨hno, fun p => by rw [hsame]⟩
    · exact Or.inr ⟨key, o, ho, hsum⟩
  | buy =>
    simp only [h, levelsOf, List.flatMap_map, List.map_map]
    rcases removeFromSide_sum b.bids id with ⟨hsame, hno⟩ | ⟨key, o, ho, hsum⟩
    · exact Or.inl ⟨hno, fun p => by rw [hsame]⟩
    · exact Or.inr ⟨OrderDual.ofDual key, o, ho, fun p => hsum (OrderDual.toDual p)⟩

/-- A cancel changes no level exactly when the order it removes has nothing left. -/
theorem cancel_levelQty_iff {b : Orderbook} {id : OrderId} {s : Side} (h : b.byId id = some s) :
    (∀ side p, ((b.cancel id).2).levelQty side p = b.levelQty side p) ↔
      ∀ o, (b.makers s).find? (fun o => o.id = id) = some o → o.remaining = 0 := by
  have hother : ∀ side, side ≠ s → ∀ p,
      ((b.cancel id).2).levelQty side p = b.levelQty side p := by
    intro side hne p
    rw [levelQty_eq, levelQty_eq, cancel_levelsOf_other h hne]
  rcases cancel_levelQty_same h with ⟨hno, hsame⟩ | ⟨key, o, ho, hsum⟩
  · rw [hno]
    refine ⟨fun _ o ho => by simp at ho, fun _ side p => ?_⟩
    by_cases hs : side = s
    · rw [hs, hsame]
    · exact hother side hs p
  · rw [ho]
    constructor
    · intro hall x hx
      obtain rfl := Option.some.inj hx
      -- at the price of the order the difference is what it had left
      have hkey := hsum key
      rw [if_pos rfl, hall s key] at hkey
      linarith
    · intro hzero side p
      by_cases hs : side = s
      · have hp := hsum p
        rw [hzero o rfl, ite_self, add_zero] at hp
        rw [hs, hp]
      · exact hother side hs p

theorem crossed_levelQty_same (b : Orderbook) (order : Order) (p : ℚ) :
    (b.crossed order).levelQty order.side p = b.levelQty order.side p := by
  obtain ⟨-, -, -, -, -, -, hown, -⟩ := cross_spec b (taker order)
  rw [levelQty_eq, levelQty_eq]
  exact congrArg (ladderQty · p) hown

theorem crossed_levelQty_opposite (b : Orderbook) (order : Order) (p : ℚ) :
    (b.crossed order).levelQty order.side.opposite p =
      ladderQty (b.sweep (taker order)).levels p := by
  obtain ⟨-, -, -, -, -, hopp, -⟩ := cross_spec b (taker order)
  rw [levelQty_eq]
  exact congrArg (ladderQty · p) hopp

/-- The levels the order crosses. -/
def crossedLevels (b : Orderbook) (order : Order) : List (ℚ × Queue) :=
  (b.levelsOf order.side.opposite).takeWhile (fun l => order.crosses l.1)

/-- Crossing that does not fill the order. -/
theorem crossed_unfilled {b : Orderbook} (h : b.Sane) {order : Order}
    (hfail : (b.sweep (taker order)).err.isSome ∨
      0 < (b.sweep (taker order)).pass.taker.remaining) :
    (∀ side p, (b.crossed order).levelQty side p = b.levelQty side p) ↔
      sumRemaining (passed b.selfTrade order.owner (b.crossable order)) = 0 := by
  have hiff := sweepLevels_unfilled b.selfTrade b.market (b.pass (taker order))
    (h order.side.opposite) (b.levelsOf_keys order.side.opposite) hfail
  refine Iff.trans ?_ hiff
  constructor
  · intro hall p
    have hp := hall order.side.opposite p
    rw [crossed_levelQty_opposite, levelQty_eq] at hp
    exact hp
  · intro hall side p
    rcases Side.eq_or_eq_opposite side order.side with rfl | rfl
    · exact crossed_levelQty_same b order p
    · rw [crossed_levelQty_opposite, levelQty_eq]
      exact hall p

/-- Crossing without an error. -/
theorem crossed_unannounced {b : Orderbook} (h : b.Sane) {order : Order}
    (he : (b.sweep (taker order)).err = none) :
    (∀ p, (∀ f ∈ (b.sweep (taker order)).pass.fills, f.price ≠ p) →
      (b.crossed order).levelQty order.side.opposite p = b.levelQty order.side.opposite p) ↔
      ¬ (b.selfTrade = .cancelBoth ∧
        dropsUnseen order.owner order.qty (b.crossedLevels order)) := by
  obtain ⟨new, hnew, -, hiff⟩ := sweepLevels_unannounced b.selfTrade b.market
    (b.pass (taker order)) (h order.side.opposite) (b.levelsOf_keys order.side.opposite) he
  have hfills : (b.sweep (taker order)).pass.fills = new := hnew
  rw [hfills]
  simp only [crossed_levelQty_opposite]
  simp only [levelQty_eq]
  exact hiff

end Orderbook

end Perplex.Book
