import Perplex.BookLedger
import Perplex.Loop

/-! Crossing ends. The loop of `cross_buy` and `cross_sell` has no counter and reads the best level
anew in each round; a round that goes on either removes that level or leaves nothing of the
taker. -/
namespace Perplex.Book

section Round
variable {K : Type} [LinearOrder K] (priceOf : K → ℚ) (mode : SelfTradeMode) (market : MarketId)

/-- One round of the loop: it returns, or goes on with what it has left. -/
def crossRound (c : Crossing K) : Crossing K ⊕ (Crossing K × Option SubmitError) :=
  if c.taker.remaining ≤ 0 then .inr (c,none)
  else match c.levels.entries.head? with
    | none => .inr (c,none)
    | some (key,_) =>
      if !c.taker.crosses (priceOf key) then .inr (c,none)
      else match crossOneLevel priceOf mode market key c with
        | (c',some e) => .inr (c',some e)
        | (c',none) => .inl (dropEmptyLevel key c')

/-- The levels of the side, and one more for a taker that is not filled. -/
def Crossing.unfinished (c : Crossing K) : ℕ :=
  c.levels.entries.length+if 0 < c.taker.remaining then 1 else 0

/-- What a round that goes on has done. -/
structure Crossing.Progress (c c' : Crossing K) : Prop where
  spent : c'.taker.remaining = 0 ∨ c'.levels.entries = c.levels.entries.tail
  fewer : c'.unfinished < c.unfinished

variable {priceOf mode market}

theorem crossLoop_eq_runFor (n : ℕ) (c : Crossing K) : crossLoop priceOf mode market n c =
    Loop.runFor (crossRound priceOf mode market) (fun c => (c,none)) n c := by
  induction n generalizing c with
  | zero => rfl
  | succ n ih =>
    rw [crossLoop, Loop.runFor, crossRound]
    split_ifs with hdone
    · rfl
    cases hc : c.levels.entries.head? with
    | none => rfl
    | some e =>
      obtain ⟨key, q⟩ := e
      dsimp only
      split_ifs with hcross
      · rfl
      · rcases crossOneLevel priceOf mode market key c with ⟨c', _ | e⟩
        · exact ih _
        · rfl

/-- A round that goes on has met a level, with something of the taker left. -/
theorem crossRound_eq_inl {c c' : Crossing K} (h : crossRound priceOf mode market c = .inl c') :
    0 < c.taker.remaining ∧ ∃ key q rest, c.levels.entries = (key,q) :: rest ∧
      ∃ c₁, crossOneLevel priceOf mode market key c = (c₁,none) ∧ c' = dropEmptyLevel key c₁ := by
  unfold crossRound at h
  split_ifs at h with hdone
  refine ⟨not_le.mp hdone, ?_⟩
  cases hc : c.levels.entries with
  | nil => simp [hc] at h
  | cons e rest =>
    obtain ⟨key, q⟩ := e
    simp only [hc, List.head?_cons] at h
    split_ifs at h with hcross
    refine ⟨key, q, rest, rfl, ?_⟩
    cases hlevel : crossOneLevel priceOf mode market key c with
    | mk c₁ err =>
      rw [hlevel] at h
      cases err with
      | some e => cases h
      | none => exact ⟨c₁, rfl, (Sum.inl.inj h).symm⟩

theorem crossRound_progress {c c' : Crossing K}
    (h : crossRound priceOf mode market c = .inl c') : c.Progress c' := by
  obtain ⟨hpos, key, q, rest, hc, c₁, hlevel, rfl⟩ := crossRound_eq_inl h
  obtain ⟨hpass, herr, hlevels⟩ := crossOneLevel_head priceOf mode market hc
  rw [hlevel] at hpass herr hlevels
  set r := sweepQueue mode market (priceOf key) c.toPass q with hr
  have hnone : r.err = none := herr.symm
  have htaker : c₁.taker.remaining = r.pass.taker.remaining :=
    congrArg (fun p => p.taker.remaining) hpass
  simp only [hnone, Option.isSome_none, Bool.false_eq_true, if_false] at hlevels
  cases hleft : r.left with
  | nil =>
    -- every maker of the level is gone, and the level with them
    rw [hleft] at hlevels
    have hrest : (dropEmptyLevel key c₁).levels.entries = rest := by
      rw [dropEmptyLevel_of_empty hlevels]
      exact SortedMap.erase_head hlevels
    refine ⟨.inr (by rw [hrest, hc, List.tail_cons]), ?_⟩
    simp only [Crossing.unfinished, hrest, hc, List.length_cons, if_pos hpos]
    split_ifs <;> omega
  | cons m ms =>
    -- a maker that stays has taken all that was left of the taker
    have hle : r.pass.taker.remaining ≤ 0 :=
      sweepQueue_left_ne_nil mode market (priceOf key) c.toPass q hnone
        (by rw [← hr, hleft]; exact List.cons_ne_nil _ _)
    have hzero : c₁.taker.remaining = 0 := htaker.trans (le_antisymm hle
      (sweepQueue_remaining_nonneg mode market (priceOf key) c.toPass q hpos.le))
    rw [hleft] at hlevels
    rw [dropEmptyLevel_of_cons hlevels]
    refine ⟨.inl hzero, ?_⟩
    simp only [Crossing.unfinished, hlevels, hc, List.length_cons, hzero, lt_irrefl, if_false,
      if_pos hpos]
    omega

/-- More rounds than there are levels are enough. -/
theorem crossLoop_returns {n : ℕ} {c : Crossing K} (hn : c.levels.entries.length < n) :
    Loop.Returns (crossRound priceOf mode market) c (crossLoop priceOf mode market n c) := by
  rw [crossLoop_eq_runFor]
  refine Loop.returns_runFor (fun c => c.unfinished-1) ?_ _ ?_
  · intro c c' h
    obtain ⟨hpos, key, q, rest, hc, -⟩ := crossRound_eq_inl h
    have hfewer := (crossRound_progress h).fewer
    have htwo : 2 ≤ c.unfinished := by
      simp only [Crossing.unfinished, hc, List.length_cons, if_pos hpos]
      omega
    omega
  · simp only [Crossing.unfinished]
    split_ifs <;> omega

/-- The number of rounds does not matter beyond that. -/
theorem crossLoop_eq_of_lt {n n' : ℕ} {c : Crossing K} (hn : c.levels.entries.length < n)
    (hn' : c.levels.entries.length < n') :
    crossLoop priceOf mode market n c = crossLoop priceOf mode market n' c :=
  (crossLoop_returns hn).unique (crossLoop_returns hn')

end Round

/-- Crossing returns, for every book, taker and mode, and what it returns is the result of the
loop; and each round that goes on lowers the number of levels and unfilled takers. -/
theorem cross_terminates (b : Orderbook) (taker : Order) :
    ((∃ c err, Loop.Returns (crossRound id b.selfTrade b.market)
        ⟨b.asks, b.byId, b.nextFillId, taker, []⟩ (c,err) ∧
        b.crossBuy taker = (err,c.taker,c.fills,
          { b with asks := c.levels, byId := c.byId, nextFillId := c.nextFillId })) ∧
      ∀ c c' : Crossing ℚ, crossRound id b.selfTrade b.market c = .inl c' → c.Progress c') ∧
    (∃ c err, Loop.Returns (crossRound OrderDual.ofDual b.selfTrade b.market)
        ⟨b.bids, b.byId, b.nextFillId, taker, []⟩ (c,err) ∧
        b.crossSell taker = (err,c.taker,c.fills,
          { b with bids := c.levels, byId := c.byId, nextFillId := c.nextFillId })) ∧
      ∀ c c' : Crossing ℚᵒᵈ, crossRound OrderDual.ofDual b.selfTrade b.market c = .inl c' →
        c.Progress c' :=
  ⟨⟨⟨_, _, crossLoop_returns (Nat.lt_succ_self _), rfl⟩, fun _ _ => crossRound_progress⟩,
    ⟨_, _, crossLoop_returns (Nat.lt_succ_self _), rfl⟩, fun _ _ => crossRound_progress⟩

end Perplex.Book
