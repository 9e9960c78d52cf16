import Perplex.EdgeEquity

/-! The position book against the shared margin math. The book keeps a side and an unsigned size
and stores its entry price cut to eighteen places, so each add may leave the stored entry a unit
further below the exact one, until the next fill that opens or flips. -/
namespace Perplex.Edge

theorem trunc_eq_floor {x : ℚ} (h : 0 ≤ x) : trunc x = ⌊x⌋ := by
  rw [trunc, Int.tdiv_eq_ediv_of_nonneg (Rat.num_nonneg.mpr h), Rat.floor_def']

theorem scaleX18_nonneg {price : ℚ} (h : 0 ≤ price) : 0 ≤ scaleX18 price := by
  have hx : 0 ≤ price*10^18 := by positivity
  rw [scaleX18, trunc_eq_floor hx]
  exact Int.floor_nonneg.mpr hx

theorem cut_nonneg {price : ℚ} (h : 0 ≤ price) : 0 ≤ cut price := by
  have hx : 0 ≤ price*10^18 := by positivity
  have hfloor : (scaleX18 price:ℚ) ≤ price*10^18 := by
    rw [scaleX18, trunc_eq_floor hx]
    exact Int.floor_le _
  rw [cut, unscaleX18, sub_nonneg, div_le_iff₀ (by norm_num)]
  exact hfloor

/-- A price of at most eighteen decimals is stored as it is. -/
theorem unscaleX18_scaleX18 {n : ℤ} (h : 0 ≤ n) :
    unscaleX18 (scaleX18 (unscaleX18 n)) = unscaleX18 n := by
  have hn : (0:ℚ) ≤ n := by exact_mod_cast h
  have hx : unscaleX18 n*10^18 = n := by
    unfold unscaleX18
    field_simp
  rw [scaleX18, hx, trunc_eq_floor hn, Int.floor_intCast]

/-- A call of `upsert_position` for one account and market. -/
structure PositionFill where
  now : ℕ
  side : Side
  qty : ℚ
  price : ℚ

namespace PositionFill

/-- The fill with a sign, as the margin math takes it. -/
def delta (f : PositionFill) : ℚ := f.side.sign*f.qty

/-- A positive quantity at a positive price of at most eighteen decimals. -/
structure Valid (f : PositionFill) : Prop where
  qty : 0 < f.qty
  price : 0 < f.price
  decimals : ∃ n : ℤ, f.price = unscaleX18 n

theorem Valid.stored {f : PositionFill} (h : f.Valid) :
    unscaleX18 (scaleX18 f.price) = f.price := by
  obtain ⟨n, hn⟩ := h.decimals
  have hpos := h.price
  have hn0 : 0 ≤ n := by
    rw [hn, unscaleX18] at hpos
    have h18 : (0:ℚ) < 10^18 := by norm_num
    exact_mod_cast ((div_pos_iff_of_pos_right h18).mp hpos).le
  rw [hn, unscaleX18_scaleX18 hn0]

end PositionFill

/-- The records of a market. -/
def recordsIn (marketId : String) (l : List PositionInfo) : List PositionInfo :=
  l.filter fun p => p.marketId = marketId

/-- A fill looks at the records of its market only. -/
theorem recordsIn_applyPositionFill (now : ℕ) (marketId : String) (side : Side) (qty price : ℚ)
    (l : List PositionInfo) : recordsIn marketId (applyPositionFill now marketId side qty price l) =
      applyPositionFill now marketId side qty price (recordsIn marketId l) := by
  induction l with
  | nil => simp [recordsIn, applyPositionFill]
  | cons p rest ih =>
    unfold recordsIn at *
    by_cases hm : p.marketId = marketId
    · rw [List.filter_cons_of_pos (by simpa using hm)]
      unfold applyPositionFill
      rw [if_neg (not_not_intro hm), if_neg (not_not_intro hm)]
      dsimp only
      split_ifs
      all_goals simp [hm]
    · rw [List.filter_cons_of_neg (by simpa using hm), ← ih]
      rw [applyPositionFill, if_pos hm, List.filter_cons_of_neg (by simpa using hm)]

/-- Signed size, and the same-side adds since the position was last opened or flipped. -/
def sameSideAdds (x : ℚ × ℕ) (f : PositionFill) : ℚ × ℕ :=
  (x.1+f.delta,
    if 0 < x.1*f.delta then x.2+1 else if 0 < x.1*(x.1+f.delta) then x.2 else 0)

/-- The record stands for a position of the margin math. Its entry price is below the exact one
by a unit of the last place at most for each add. -/
structure StandsFor (marketId : String) (q : Margin.Position) (k : ℕ) (p : PositionInfo) :
    Prop where
  market : p.marketId = marketId
  pos : 0 < p.size
  size : q.size = p.side.sign*p.size
  entry : 0 ≤ unscaleX18 p.entryPriceX18
  below : 0 ≤ q.entryPrice-unscaleX18 p.entryPriceX18
  close : q.entryPrice-unscaleX18 p.entryPriceX18 ≤ k/10^18

/-- The records of the market: none without a position, and one for a position. -/
inductive Tracks (marketId : String) (q : Margin.Position) (k : ℕ) : List PositionInfo → Prop where
  | flat (hsize : q.size = 0) : Tracks marketId q k []
  | held (p : PositionInfo) (h : StandsFor marketId q k p) : Tracks marketId q k [p]

/-- What one fill makes of the position in the margin math. -/
def coreStep (q : Margin.Position) (f : PositionFill) : Margin.Position :=
  (Margin.applyFill q f.delta f.price).2

theorem PositionFill.Valid.delta_ne_zero {f : PositionFill} (h : f.Valid) : f.delta ≠ 0 := by
  have hq := h.qty.ne'
  unfold PositionFill.delta
  cases f.side <;> simpa [Side.sign] using hq

/-- The exact average moves by the weight of the old size, the stored one is cut once more. -/
theorem average_sub_stored {size qty : ℚ} (h : size+qty ≠ 0) (entry entry' price : ℚ) :
    (size*entry+qty*price)/(size+qty)-
        unscaleX18 (scaleX18 ((size*entry'+qty*price)/(size+qty))) =
      size/(size+qty)*(entry-entry')+cut ((size*entry'+qty*price)/(size+qty)) := by
  rw [cut]
  field_simp
  ring

section Step
variable {marketId : String} {q : Margin.Position} {k : ℕ} {p : PositionInfo} {f : PositionFill}

/-- A record at the price of a fill is exact. -/
theorem StandsFor.atFill (hf : f.Valid) (hmarket : p.marketId = marketId) (hpos : 0 < p.size)
    (hsize : q.size = p.side.sign*p.size) (hprice : q.entryPrice = f.price)
    (hentry : p.entryPriceX18 = scaleX18 f.price) : StandsFor marketId q k p := by
  have hzero : q.entryPrice-unscaleX18 p.entryPriceX18 = 0 := by
    rw [hprice, hentry, hf.stored, sub_self]
  refine ⟨hmarket, hpos, hsize, ?_, hzero.ge, ?_⟩
  · rw [hentry, hf.stored]
    exact hf.price.le
  · rw [hzero]
    positivity

theorem Tracks.opened (h : q.size = 0) (hf : f.Valid) :
    Tracks marketId (coreStep q f) (sameSideAdds (q.size,k) f).2
      (applyPositionFill f.now marketId f.side f.qty f.price []) := by
  have hcore : coreStep q f = ⟨f.delta, f.price⟩ := by
    rw [coreStep, Margin.applyFill_open h hf.delta_ne_zero]
  rw [hcore, applyPositionFill]
  refine .held _ (.atFill hf rfl hf.qty ?_ rfl rfl)
  rw [sign_position]
  rfl

/-- The margin math on a fill for the side of the position. -/
theorem coreStep_add (h : StandsFor marketId q k p) (hf : f.Valid)
    (hside : p.side = f.side.position) : 0 < q.size*f.delta ∧ coreStep q f =
      ⟨p.side.sign*(p.size+f.qty),
        (p.size*q.entryPrice+f.qty*f.price)/(p.size+f.qty)⟩ := by
  have hpos := h.pos
  have hq := hf.qty
  have hsum : 0 < p.size+f.qty := by linarith
  have hone := f.side.abs_sign
  have hold : q.size = f.side.sign*p.size := by rw [h.size, hside, sign_position]
  have hnew : q.size+f.delta = f.side.sign*(p.size+f.qty) := by
    rw [hold, PositionFill.delta]
    ring
  have hprod : 0 < q.size*f.delta := by
    have he : q.size*f.delta = f.side.sign*f.side.sign*(p.size*f.qty) := by
      rw [hold, PositionFill.delta]
      ring
    rw [he, Side.sign_mul_self, one_mul]
    exact mul_pos hpos hq
  have hne : q.size+f.delta ≠ 0 := by
    intro h0
    rw [← abs_eq_zero, hnew, abs_mul, hone, one_mul, abs_of_pos hsum] at h0
    exact hsum.ne' h0
  refine ⟨hprod, ?_⟩
  rw [coreStep, Margin.applyFill_add hprod hne, hnew, hold, PositionFill.delta, hside,
    sign_position]
  simp only [abs_mul, hone, one_mul, abs_of_pos hpos, abs_of_pos hq, abs_of_pos hsum]

theorem Tracks.added (h : StandsFor marketId q k p) (hf : f.Valid)
    (hside : p.side = f.side.position) :
    Tracks marketId (coreStep q f) (sameSideAdds (q.size,k) f).2
      (applyPositionFill f.now marketId f.side f.qty f.price [p]) := by
  obtain ⟨hprod, hcore⟩ := coreStep_add h hf hside
  have hpos := h.pos
  have hq := hf.qty
  have hprice := hf.price
  have hold := h.entry
  have hsum : 0 < p.size+f.qty := by linarith
  have hcount : (sameSideAdds (q.size,k) f).2 = k+1 := if_pos hprod
  -- the stored average is of nonnegative prices, so cutting it goes down
  set entry := (p.size*unscaleX18 p.entryPriceX18+f.qty*f.price)/(p.size+f.qty) with he
  have hstored : 0 ≤ entry := by positivity
  have hdiff := average_sub_stored hsum.ne' q.entryPrice (unscaleX18 p.entryPriceX18) f.price
  rw [← he] at hdiff
  have hweight : 0 ≤ p.size/(p.size+f.qty) := by positivity
  have hweight' : p.size/(p.size+f.qty) ≤ 1 := (div_le_one hsum).mpr (by linarith)
  have hbook : applyPositionFill f.now marketId f.side f.qty f.price [p] =
      [{ p with
        size := p.size+f.qty
        entryPriceX18 := scaleX18 entry
        markPriceX18 := scaleX18 entry
        notionalUsdc := scaleUsdc6 ((p.size+f.qty)*entry)
        lastUpdatedTsNs := f.now }] := by
    rw [applyPositionFill, if_neg (not_not_intro h.market), if_pos hside]
    simp only [ne_eq, hsum.ne', not_false_iff, if_true, ← he]
  rw [hcore, hcount, hbook]
  refine .held _ ⟨h.market, hsum, rfl, ?_, ?_, ?_⟩
  · have h0 : (0:ℚ) ≤ scaleX18 entry := by exact_mod_cast scaleX18_nonneg hstored
    rw [unscaleX18]
    positivity
  · rw [hdiff]
    exact add_nonneg (mul_nonneg hweight h.below) (cut_nonneg hstored)
  · have hcut := (abs_lt.mp (abs_cut_lt entry)).2
    have hshare := mul_le_of_le_one_left h.below hweight'
    have hclose := h.close
    rw [hdiff]
    push_cast
    linarith

theorem Tracks.offset (h : StandsFor marketId q k p) (hf : f.Valid)
    (hside : p.side ≠ f.side.position) :
    Tracks marketId (coreStep q f) (sameSideAdds (q.size,k) f).2
      (applyPositionFill f.now marketId f.side f.qty f.price [p]) := by
  have hpos := h.pos
  have hq := hf.qty
  have hsign := sign_of_ne_position hside
  have hold : q.size = -f.side.sign*p.size := by rw [h.size, hsign]
  have hnew : q.size+f.delta = f.side.sign*(f.qty-p.size) := by
    rw [hold, PositionFill.delta]
    ring
  have hprod : q.size*f.delta < 0 := by
    have he : q.size*f.delta = -(f.side.sign*f.side.sign*(p.size*f.qty)) := by
      rw [hold, PositionFill.delta]
      ring
    rw [he, Side.sign_mul_self, one_mul]
    exact neg_neg_of_pos (mul_pos hpos hq)
  have hleft : q.size*(q.size+f.delta) = p.size*(p.size-f.qty) := by
    have he : q.size*(q.size+f.delta) = f.side.sign*f.side.sign*(p.size*(p.size-f.qty)) := by
      rw [hnew, hold]
      ring
    rw [he, Side.sign_mul_self, one_mul]
  have hcount : (sameSideAdds (q.size,k) f).2 =
      if 0 < p.size*(p.size-f.qty) then k else 0 := by
    rw [sameSideAdds, if_neg hprod.not_gt, hleft]
  rw [applyPositionFill, if_neg (not_not_intro h.market), if_neg hside, hcount, coreStep]
  rcases lt_trichotomy f.qty p.size with hlt | heq | hgt
  · -- a reduction keeps both entry prices
    have hstay : 0 < p.size*(p.size-f.qty) := mul_pos hpos (sub_pos.mpr hlt)
    rw [if_pos hlt, if_pos hstay, Margin.applyFill_reduce hprod (hleft ▸ hstay)]
    refine .held _ ⟨h.market, sub_pos.mpr hlt, ?_, h.entry, h.below, h.close⟩
    rw [hnew, hsign]
    ring
  · have hzero : q.size+f.delta = 0 := by rw [hnew, heq, sub_self, mul_zero]
    rw [if_neg heq.not_lt, if_pos heq, Margin.applyFill_close hzero]
    exact .flat rfl
  · have hover : p.size*(p.size-f.qty) < 0 := mul_neg_of_pos_of_neg hpos (sub_neg.mpr hgt)
    rw [if_neg hgt.not_gt, if_neg hgt.ne', Margin.applyFill_flip hprod (hleft ▸ hover)]
    refine .held _ (.atFill hf h.market (sub_pos.mpr hgt) ?_ rfl rfl)
    rw [hnew, sign_position]

/-- One fill keeps the records next to the margin math. -/
theorem Tracks.step {l : List PositionInfo} (h : Tracks marketId q k l) (hf : f.Valid) :
    Tracks marketId (coreStep q f) (sameSideAdds (q.size,k) f).2
      (applyPositionFill f.now marketId f.side f.qty f.price l) := by
  cases h with
  | flat hsize => exact .opened hsize hf
  | held p h =>
    by_cases hside : p.side = f.side.position
    · exact .added h hf hside
    · exact .offset h hf hside

theorem Tracks.none_or_one {l : List PositionInfo} (h : Tracks marketId q k l) :
    (l = [] ∧ q.size = 0) ∨ ∃ p, l = [p] ∧ StandsFor marketId q k p := by
  cases h with
  | flat hsize => exact Or.inl ⟨rfl, hsize⟩
  | held p h => exact Or.inr ⟨p, rfl, h⟩

theorem StandsFor.size_ne_zero (h : StandsFor marketId q k p) : q.size ≠ 0 := by
  have hpos := h.pos.ne'
  rw [h.size]
  cases p.side <;> simpa [PositionSide.sign] using hpos

theorem coreStep_size (q : Margin.Position) (f : PositionFill) :
    (coreStep q f).size = q.size+f.delta :=
  Margin.applyFill_size q f.delta f.price

end Step

/-- A run of `upsert_position` on one account and market. -/
def AppState.upsertAll (s : AppState) (address : Address) (marketId : String)
    (fs : List PositionFill) : AppState :=
  fs.foldl (fun s f => s.upsertPosition f.now address marketId f.side f.qty f.price) s

theorem recordsIn_upsertPosition (s : AppState) (address : Address) (marketId : String)
    (f : PositionFill) : recordsIn marketId
        ((s.upsertPosition f.now address marketId f.side f.qty f.price).positions address) =
      applyPositionFill f.now marketId f.side f.qty f.price
        (recordsIn marketId (s.positions address)) := by
  rw [← recordsIn_applyPositionFill]
  simp only [AppState.upsertPosition, Function.update_self]

theorem Tracks.run {marketId : String} {address : Address} {fs : List PositionFill}
    (hfs : ∀ f ∈ fs, f.Valid) {s : AppState} {q : Margin.Position} {k : ℕ}
    (h : Tracks marketId q k (recordsIn marketId (s.positions address))) :
    Tracks marketId (fs.foldl coreStep q) (fs.foldl sameSideAdds (q.size,k)).2
      (recordsIn marketId ((s.upsertAll address marketId fs).positions address)) := by
  induction fs generalizing s q k with
  | nil => exact h
  | cons f fs ih =>
    obtain ⟨hf, hrest⟩ := List.forall_mem_cons.mp hfs
    have hstep := h.step hf
    rw [← recordsIn_upsertPosition] at hstep
    have hrun := ih hrest hstep
    rw [coreStep_size] at hrun
    exact hrun

/-- The book follows the margin math: there is a record exactly when there is a position, the
signed sizes are equal, and the stored entry price is below the exact one by a unit of its last
place at most for each same-side add since the position was opened or flipped. -/
theorem upsertAll_follows_applyFill {s : AppState} {address : Address} {marketId : String}
    (h : ∀ p ∈ s.positions address, p.marketId ≠ marketId) {fs : List PositionFill}
    (hfs : ∀ f ∈ fs, f.Valid) :
    let records := recordsIn marketId ((s.upsertAll address marketId fs).positions address)
    let core := fs.foldl (fun q f => (Margin.applyFill q f.delta f.price).2) ⟨0, 0⟩
    let k := (fs.foldl sameSideAdds (0,0)).2
    (records = [] ∧ core.size = 0) ∨ ∃ p, records = [p] ∧ core.size ≠ 0 ∧
      p.core.size = core.size ∧ 0 ≤ core.entryPrice-unscaleX18 p.entryPriceX18 ∧
        core.entryPrice-unscaleX18 p.entryPriceX18 ≤ k*(1/10^18) := by
  intro records core k
  have hnone : recordsIn marketId (s.positions address) = [] := by
    rw [recordsIn, List.filter_eq_nil_iff]
    intro p hp
    simpa using h p hp
  have hrun : Tracks marketId core k records :=
    Tracks.run hfs (q := ⟨0, 0⟩) (k := 0) (hnone ▸ .flat rfl)
  rcases hrun.none_or_one with hflat | ⟨p, hp, hstands⟩
  · exact Or.inl hflat
  · refine Or.inr ⟨p, hp, hstands.size_ne_zero, ?_, hstands.below, ?_⟩
    · rw [PositionInfo.core_eq]
      exact hstands.size.symm
    · rw [mul_one_div]
      exact hstands.close

/-- Two buys whose average has no end, and a sale of a part. -/
def uneven : List PositionFill := [⟨0, .buy, 1, 100⟩, ⟨1, .buy, 2, 101⟩, ⟨2, .sell, 1, 90⟩]

theorem upsertAll_follows_applyFill_uneven :
    let l := (AppState.new.upsertAll 1 "btc-usd" uneven).positions 1
    let core := uneven.foldl (fun q f => (Margin.applyFill q f.delta f.price).2) ⟨0, 0⟩
    (recordsIn "btc-usd" l).map (fun p => core.entryPrice-unscaleX18 p.entryPriceX18) =
      [2/(3*10^18)] ∧
    ((recordsIn "btc-usd" l = [] ∧ core.size = 0) ∨ ∃ p, recordsIn "btc-usd" l = [p] ∧
      core.size ≠ 0 ∧ p.core.size = core.size ∧
        0 ≤ core.entryPrice-unscaleX18 p.entryPriceX18 ∧
          core.entryPrice-unscaleX18 p.entryPriceX18 ≤
            (uneven.foldl sameSideAdds (0,0)).2*(1/10^18)) := by
  have hvalid : ∀ f ∈ uneven, f.Valid := by
    have hwhole {now : ℕ} {side : Side} {qty : ℚ} (n : ℕ) (hn : 0 < n) (hq : 0 < qty) :
        PositionFill.Valid ⟨now, side, qty, n⟩ := by
      have hprice : (0:ℚ) < n := by exact_mod_cast hn
      have hscale : (10:ℚ)^18 ≠ 0 := by norm_num
      refine ⟨hq, hprice, n*10^18, ?_⟩
      rw [unscaleX18, Int.cast_mul, Int.cast_pow, Int.cast_natCast]
      exact (mul_div_cancel_right₀ (n:ℚ) hscale).symm
    intro f hf
    simp only [uneven, List.mem_cons, List.not_mem_nil, or_false] at hf
    rcases hf with rfl | rfl | rfl
    · exact hwhole 100 (by norm_num) (by norm_num)
    · exact hwhole 101 (by norm_num) (by norm_num)
    · exact hwhole 90 (by norm_num) (by norm_num)
  exact ⟨by decide +kernel, upsertAll_follows_applyFill (by simp [AppState.new]) hvalid⟩

end Perplex.Edge
