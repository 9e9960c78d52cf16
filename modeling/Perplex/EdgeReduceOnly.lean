import Perplex.EdgeLeverage
import Perplex.GreedyDraw

/-! Reduce-only orders at the edge. The flag lifts the risk gate and is then forgotten, so
what keeps a fill of such an order from opening a position is only the position itself: the
fill has to be covered by it at the time it is made. -/
namespace Perplex.Edge

/-- No larger in size, and not on the opposite side. -/
def NotGrown (x x' : ℚ) : Prop := |x'| ≤ |x| ∧ 0 ≤ x*x'

instance (x x' : ℚ) : Decidable (NotGrown x x') := inferInstanceAs (Decidable (_ ∧ _))

/-- A signed trade against a position that covers it. -/
def Offsets (x d : ℚ) : Prop := (0 ≤ -d ∧ -d ≤ x) ∨ (0 ≤ d ∧ d ≤ -x)

theorem notGrown_add_iff {x d : ℚ} : NotGrown x (x+d) ↔ Offsets x d := by
  constructor
  · rintro ⟨habs, hsign⟩
    -- by the side of the position; without one nothing can be traded against it
    rcases lt_trichotomy x 0 with hx | hx | hx
    · have hle : x+d ≤ 0 := by
        by_contra hpos
        linarith [mul_neg_of_neg_of_pos hx (not_le.mp hpos)]
      rw [abs_of_nonpos hle, abs_of_neg hx] at habs
      exact Or.inr ⟨by linarith, by linarith⟩
    · subst hx
      have hd : d = 0 := by simpa using habs
      exact Or.inl ⟨by linarith, by linarith⟩
    · have hge : 0 ≤ x+d := nonneg_of_mul_nonneg_right hsign hx
      rw [abs_of_nonneg hge, abs_of_pos hx] at habs
      exact Or.inl ⟨by linarith, by linarith⟩
  · rintro (⟨hd, hle⟩ | ⟨hd, hle⟩)
    · have hx : 0 ≤ x := by linarith
      have hge : 0 ≤ x+d := by linarith
      refine ⟨?_, mul_nonneg hx hge⟩
      rw [abs_of_nonneg hge, abs_of_nonneg hx]
      linarith
    · have hx : x ≤ 0 := by linarith
      have hge : x+d ≤ 0 := by linarith
      refine ⟨?_, mul_nonneg_of_nonpos_of_nonpos hx hge⟩
      rw [abs_of_nonpos hge, abs_of_nonpos hx]
      linarith

/-- Nothing comes out of no position. -/
theorem notGrown_zero_iff {x : ℚ} : NotGrown 0 x ↔ x = 0 := by
  simp [NotGrown]

/-- The fill for what is drawn from a candidate. -/
def Candidate.fill (now : ℕ) (c : Candidate) (qty : ℚ) : MatchedFill :=
  ⟨c.address, c.id, c.price, qty, now⟩

/-- The loop fills the candidates by what is drawn from them. -/
theorem matchLoop_eq_drain {marketId : String} {side : Side} {now : ℕ} {cs : List Candidate}
    {orders : Address → List OpenOrder} {q : ℚ} (hlive : Live orders marketId side cs)
    (hrem : ∀ c ∈ cs, c.rem ≠ 0) : (matchLoop now orders q cs).1 =
      (drain Candidate.rem q cs).map (fun x => x.1.fill now x.2) := by
  induction cs generalizing orders q with
  | nil => rfl
  | cons c cs ih =>
    unfold matchLoop drain
    by_cases hq : q = 0
    · rw [if_pos hq, if_pos hq]
      rfl
    rw [if_neg hq, if_neg hq]
    -- the candidate is still as it was collected
    obtain ⟨o, ho, -, -, hr⟩ := hlive.stored c List.mem_cons_self
    have hne : ¬ o.remaining = 0 := hr ▸ hrem c List.mem_cons_self
    have hrest := ih (q := q-min q o.remaining)
      (hlive.tail (o.remaining-min q o.remaining)) fun c' hc' =>
        hrem c' (List.mem_cons_of_mem _ hc')
    simp only [ho, if_neg hne, List.map_cons, hrest]
    rw [← hr]
    rfl

namespace AppState
variable {s : AppState}

theorem candidates_rem_ne_zero {env : Env} {marketId : String} {side : Side}
    {price : Option ℚ} {user : Address} :
    ∀ c ∈ s.candidates env marketId side price user, c.rem ≠ 0 := by
  intro c hc
  obtain ⟨-, o, -, hmaker, he⟩ := mem_candidates hc
  simp only [OpenOrder.isMaker, decide_eq_true_eq] at hmaker
  rw [he]
  exact hmaker.2.2.2.2.1

theorem matchTaker_eq_drain (h : ∀ a, ((s.openOrders a).map OpenOrder.id).Nodup) {env : Env}
    {marketId : String} {takerSide : Side} {takerPrice : Option ℚ} {takerQty : ℚ}
    {taker : Address} : (s.matchTaker env marketId takerSide takerPrice takerQty taker).1 =
      (drain Candidate.rem takerQty (s.candidates env marketId takerSide takerPrice taker)).map
        (fun x => x.1.fill env.now x.2) :=
  matchLoop_eq_drain (candidates_live h) candidates_rem_ne_zero

/-- The makers of an order, in the priority in which it meets them. -/
def met (s : AppState) (env : Env) (user : Address) (t : Taker) : List Candidate :=
  s.candidates env t.marketId t.side t.price user

theorem matched_eq_drain (h : ∀ a, ((s.openOrders a).map OpenOrder.id).Nodup) (env : Env)
    (user : Address) (t : Taker) : (s.matched env user t).1 =
      (drain Candidate.rem t.qty (s.met env user t)).map (fun x => x.1.fill env.now x.2) :=
  matchTaker_eq_drain h

/-- A fill is made with a maker exactly when the order outlasts the makers ahead of it. -/
theorem matched_eq_append_iff (h : s.Indexed) {env : Env} {user : Address} {t : Taker}
    {ahead : List MatchedFill} {m : MatchedFill} :
    (∃ behind, (s.matched env user t).1 = ahead++m :: behind) ↔
      ∃ front c back, s.met env user t = front++c :: back ∧
        Outlasts Candidate.rem t.qty front ∧
        ahead = front.map (fun c => c.fill env.now c.rem) ∧
        m = c.fill env.now (min (t.qty-(front.map Candidate.rem).sum) c.rem) := by
  rw [matched_eq_drain h.nodup]
  constructor
  · rintro ⟨behind, hsplit⟩
    -- fills are the image of draws, so a split of the one is a split of the other
    obtain ⟨xs, l, hdrain, rfl, hl⟩ := List.map_eq_append_iff.mp hsplit
    obtain ⟨x, ys, rfl, rfl, -⟩ := List.map_eq_cons_iff.mp hl
    obtain ⟨front, back, hmet, hout, rfl, hx⟩ :=
      (drain_eq_append_iff Candidate.rem).mp ⟨ys, hdrain⟩
    refine ⟨front, x.1, back, hmet, hout, ?_, ?_⟩
    · rw [List.map_map]
      rfl
    · rw [← hx]
  · rintro ⟨front, c, back, hmet, hout, rfl, rfl⟩
    obtain ⟨ys, hys⟩ := (drain_eq_append_iff Candidate.rem).mpr
      ⟨front, back, hmet, hout, rfl, rfl⟩
    refine ⟨ys.map (fun x => x.1.fill env.now x.2), ?_⟩
    rw [hys, List.map_append, List.map_cons, List.map_map]
    rfl

/-- What holds of every fill can be said of the makers an order draws from. -/
theorem forall_fill_iff (h : s.Indexed) {env : Env} {user : Address} {t : Taker}
    {P : List MatchedFill → MatchedFill → Prop} :
    (∀ (ahead : List MatchedFill) (m : MatchedFill) (behind : List MatchedFill),
      (s.matched env user t).1 = ahead++m :: behind → P ahead m) ↔
    ∀ (front : List Candidate) (c : Candidate) (back : List Candidate),
      s.met env user t = front++c :: back → Outlasts Candidate.rem t.qty front →
        P (front.map fun c => c.fill env.now c.rem)
          (c.fill env.now (min (t.qty-(front.map Candidate.rem).sum) c.rem)) := by
  constructor
  · intro hall front c back hmet hout
    obtain ⟨behind, hsplit⟩ := (matched_eq_append_iff h).mpr
      ⟨front, c, back, hmet, hout, rfl, rfl⟩
    exact hall _ _ behind hsplit
  · intro hall ahead m behind hsplit
    obtain ⟨front, c, back, hmet, hout, rfl, rfl⟩ :=
      (matched_eq_append_iff h).mp ⟨behind, hsplit⟩
    exact hall front c back hmet hout

/-- What an account holds in the market of an order once the fills `fs` are settled. -/
def holding (s : AppState) (env : Env) (user : Address) (t : Taker) (fs : List MatchedFill)
    (a : Address) : ℚ :=
  netSize t.marketId ((fs.foldl (s.settling env user t) (s.matched env user t).2).positions a)

/-- Every fill of the order leaves its owner's position no larger. -/
def TakerShrinks (s : AppState) (env : Env) (user : Address) (t : Taker) : Prop :=
  ∀ (ahead : List MatchedFill) (m : MatchedFill) (behind : List MatchedFill),
    (s.matched env user t).1 = ahead++m :: behind →
      NotGrown (s.holding env user t ahead user) (s.holding env user t (ahead++[m]) user)

/-- So does every fill that the order makes with a certain resting one. -/
def MakerShrinks (s : AppState) (env : Env) (user : Address) (t : Taker) (owner : Address)
    (orderId : ℕ) : Prop :=
  ∀ (ahead : List MatchedFill) (m : MatchedFill) (behind : List MatchedFill),
    (s.matched env user t).1 = ahead++m :: behind → m.makerAddress = owner →
      m.makerOrderId = orderId →
      NotGrown (s.holding env user t ahead owner) (s.holding env user t (ahead++[m]) owner)

/-- What an account has resting among candidates. -/
def ownedRem (a : Address) (cs : List Candidate) : ℚ :=
  (cs.map fun c => if c.address = a then c.rem else 0).sum

/-- Whatever the order draws is covered by its owner's position, as it stands behind the
makers drawn before. -/
def TakerCovered (s : AppState) (env : Env) (user : Address) (t : Taker) : Prop :=
  ∀ (front : List Candidate) (c : Candidate) (back : List Candidate),
    s.met env user t = front++c :: back → Outlasts Candidate.rem t.qty front →
      Offsets (netSize t.marketId (s.positions user)+t.side.sign*(front.map Candidate.rem).sum)
        (t.side.sign*min (t.qty-(front.map Candidate.rem).sum) c.rem)

/-- What the order draws from a certain resting one is covered by its owner's position. -/
def MakerCovered (s : AppState) (env : Env) (user : Address) (t : Taker) (owner : Address)
    (orderId : ℕ) : Prop :=
  ∀ (front : List Candidate) (c : Candidate) (back : List Candidate),
    s.met env user t = front++c :: back → Outlasts Candidate.rem t.qty front →
      c.address = owner → c.id = orderId →
      Offsets (netSize t.marketId (s.positions owner)-t.side.sign*ownedRem owner front)
        (-(t.side.sign*min (t.qty-(front.map Candidate.rem).sum) c.rem))

section Holding
variable {env : Env} {user : Address} {t : Taker} {front : List Candidate} {c : Candidate}

theorem holding_eq (s : AppState) (env : Env) (user : Address) (t : Taker)
    (fs : List MatchedFill) (a : Address) :
    s.holding env user t fs a = netSize t.marketId (s.positions a)+t.side.sign*
      ((if a = user then (fs.map MatchedFill.qty).sum else 0)-makerFilled a fs) := by
  have h := settleAll_netSize env.now s.nextUlid user t (s.feeBps t.marketId).1
    (s.feeBps t.marketId).2 fs (s.matched env user t).2 t.marketId a
  rw [if_pos rfl] at h
  exact h

theorem holding_append (s : AppState) (env : Env) (user : Address) (t : Taker)
    (fs : List MatchedFill) (m : MatchedFill) (a : Address) :
    s.holding env user t (fs++[m]) a = s.holding env user t fs a+t.side.sign*
      ((if a = user then m.qty else 0)-(if m.makerAddress = a then m.qty else 0)) := by
  simp only [holding_eq, makerFilled, List.map_append, List.sum_append, List.map_singleton,
    List.sum_singleton]
  split_ifs <;> ring

/-- The position of an account once the makers in `front` are drawn in full. -/
theorem holding_front (s : AppState) (env : Env) (user : Address) (t : Taker)
    (front : List Candidate) (a : Address) :
    s.holding env user t (front.map fun c => c.fill env.now c.rem) a =
      netSize t.marketId (s.positions a)+t.side.sign*
        ((if a = user then (front.map Candidate.rem).sum else 0)-ownedRem a front) := by
  have hqty : (front.map fun c => c.fill env.now c.rem).map MatchedFill.qty =
      front.map Candidate.rem := by
    rw [List.map_map]
    rfl
  have hmaker : makerFilled a (front.map fun c => c.fill env.now c.rem) = ownedRem a front := by
    unfold makerFilled ownedRem
    rw [List.map_map]
    rfl
  rw [holding_eq, hqty, hmaker]

/-- Nobody meets an order of his own. -/
theorem met_address (hc : c ∈ s.met env user t) : c.address ≠ user := (mem_candidates hc).1

theorem ownedRem_met {back : List Candidate} (h : s.met env user t = front++back) :
    ownedRem user front = 0 := by
  apply List.sum_eq_zero
  intro x hx
  obtain ⟨c, hc, rfl⟩ := List.mem_map.mp hx
  have hne := met_address (h ▸ List.mem_append_left back hc : c ∈ s.met env user t)
  rw [if_neg hne]

end Holding

theorem takerShrinks_iff (h : s.Indexed) (env : Env) (user : Address) (t : Taker) :
    s.TakerShrinks env user t ↔ s.TakerCovered env user t := by
  unfold TakerShrinks TakerCovered
  rw [forall_fill_iff h]
  refine forall₃_congr fun front c back => forall₂_congr fun hmet _ => ?_
  -- the maker is somebody else, so the owner moves by the taker's side alone
  have hne : (c.fill env.now
      (min (t.qty-(front.map Candidate.rem).sum) c.rem)).makerAddress ≠ user :=
    met_address (hmet ▸ List.mem_append_right front List.mem_cons_self)
  rw [holding_append, holding_front, if_pos rfl, if_pos rfl, if_neg hne, ownedRem_met hmet,
    sub_zero, sub_zero, notGrown_add_iff]
  rfl

/-- In particular an account without a position gets none. -/
theorem TakerShrinks.flat {env : Env} {user : Address} {t : Taker}
    (h : s.TakerShrinks env user t) (hflat : netSize t.marketId (s.positions user) = 0) :
    netSize t.marketId ((s.execute env user t).2.positions user) = 0 := by
  have hfills : ∀ fs, fs <+: (s.matched env user t).1 → s.holding env user t fs user = 0 := by
    intro fs
    induction fs using List.reverseRecOn with
    | nil => exact fun _ => hflat
    | append_singleton fs m ih =>
      intro hpre
      obtain ⟨behind, hsplit⟩ := hpre
      rw [List.append_assoc] at hsplit
      have hstep := h fs m behind hsplit.symm
      rw [ih ⟨[m]++behind, hsplit⟩, notGrown_zero_iff] at hstep
      exact hstep
  rw [execute_frame]
  exact hfills _ (List.prefix_refl _)

theorem makerShrinks_iff (h : s.Indexed) (env : Env) (user : Address) (t : Taker)
    (owner : Address) (orderId : ℕ) :
    s.MakerShrinks env user t owner orderId ↔ s.MakerCovered env user t owner orderId := by
  unfold MakerShrinks MakerCovered
  rw [forall_fill_iff h]
  refine forall₃_congr fun front c back => forall₂_congr fun hmet _ => ?_
  refine forall₂_congr fun hown _ => ?_
  set q := min (t.qty-(front.map Candidate.rem).sum) c.rem
  have hfill : (c.fill env.now q).makerAddress = owner := hown
  have hne : owner ≠ user := by
    rw [← hfill]
    exact met_address (hmet ▸ List.mem_append_right front List.mem_cons_self)
  -- the owner is on the maker's side only, here and in the makers ahead
  have hheld : netSize t.marketId (s.positions owner)+t.side.sign*(0-ownedRem owner front) =
      netSize t.marketId (s.positions owner)-t.side.sign*ownedRem owner front := by ring
  have hmove : t.side.sign*(0-(c.fill env.now q).qty) = -(t.side.sign*q) := by
    rw [zero_sub, mul_neg]
    rfl
  rw [holding_append, holding_front, if_neg hne, if_neg hne, if_pos hfill, hheld, hmove,
    notGrown_add_iff]

end AppState

/-- `set_positions`. -/
def AppState.setPositions (s : AppState) (address : Address) (positions : List PositionInfo) :
    AppState :=
  { s with positions := Function.update s.positions address positions }

/-- Requests, and what forced closes do to the positions between them. -/
inductive Event where
  | request (c : Cmd)
  | setPositions (address : Address) (positions : List PositionInfo)

def handle (s : AppState) : Event → Except ApiError AppState
  | .request c => exec s c
  | .setPositions address positions => return s.setPositions address positions

theorem handle_indexed {s : AppState} (h : s.Indexed) (es : List Event) :
    (runAll handle s es).Indexed := by
  have hstep : ∀ s e s', s.Indexed → True → handle s e = .ok s' → s'.Indexed := by
    intro s e s' hs _ hok
    cases e with
    | request c => exact exec_indexed hs hok
    | setPositions address positions =>
      obtain rfl := Except.ok.inj hok
      exact ⟨hs.nodup, hs.below⟩
  exact runAll_invariant hstep h (fun _ _ => trivial)

/-- Every fill that the event makes with the resting order leaves its owner's position no
larger. -/
def Event.ShrinksMaker (owner : Address) (orderId : ℕ) (s : AppState) : Event → Prop
  | .request (.placeOrder env user req) => ∀ t, s.Accepts env user req t →
      s.MakerShrinks env user t owner orderId
  | _ => True

/-- Whatever the event draws from the resting order is covered by its owner's position. -/
def Event.CoversMaker (owner : Address) (orderId : ℕ) (s : AppState) : Event → Prop
  | .request (.placeOrder env user req) => ∀ t, s.Accepts env user req t →
      s.MakerCovered env user t owner orderId
  | _ => True

theorem shrinksMaker_iff {s : AppState} (h : s.Indexed) (owner : Address) (orderId : ℕ)
    (e : Event) : e.ShrinksMaker owner orderId s ↔ e.CoversMaker owner orderId s := by
  unfold Event.ShrinksMaker Event.CoversMaker
  split
  · next env user req =>
    constructor
    · intro hs t ht
      exact (AppState.makerShrinks_iff h env user t owner orderId).mp (hs t ht)
    · intro hc t ht
      exact (AppState.makerShrinks_iff h env user t owner orderId).mpr (hc t ht)
  · exact Iff.rfl

/-- Whatever happens after an accepted reduce-only order, each of its fills leaves its
owner's position no larger and on its side, if and only if each is covered by that position
when it is made. -/
theorem fills_shrink_iff {s : AppState} (h : s.Indexed) (env : Env)
    (owner : Address) (req : PlaceOrderRequest) (es : List Event) :
    (req.reduceOnly = true → ∀ (t : Taker) (r : PlaceOrderResponse) (s' : AppState),
      s.validate req = .ok t → s.placeOrder env owner req = .ok (r,s') →
        s.TakerShrinks env owner t ∧ ∀ (pre : List Event) (e : Event), pre++[e] <+: es →
          e.ShrinksMaker owner r.orderId (runAll handle s' pre)) ↔
    (req.reduceOnly = true → ∀ (t : Taker) (r : PlaceOrderResponse) (s' : AppState),
      s.validate req = .ok t → s.placeOrder env owner req = .ok (r,s') →
        s.TakerCovered env owner t ∧ ∀ (pre : List Event) (e : Event), pre++[e] <+: es →
          e.CoversMaker owner r.orderId (runAll handle s' pre)) := by
  have hplaced : ∀ (t : Taker) (r : PlaceOrderResponse) (s' : AppState),
      s.placeOrder env owner req = .ok (r,s') →
      ((s.TakerShrinks env owner t ∧ ∀ (pre : List Event) (e : Event), pre++[e] <+: es →
          e.ShrinksMaker owner r.orderId (runAll handle s' pre)) ↔
        (s.TakerCovered env owner t ∧ ∀ (pre : List Event) (e : Event), pre++[e] <+: es →
          e.CoversMaker owner r.orderId (runAll handle s' pre))) := by
    intro t r s' hok
    -- whatever follows starts from a state with fresh ids
    have hs' : s'.Indexed := by
      obtain ⟨t', -, hex⟩ := AppState.placeOrder_eq_ok.mp hok
      have hi := AppState.execute_indexed h env owner t'
      rw [hex] at hi
      exact hi
    rw [AppState.takerShrinks_iff h]
    apply and_congr_right
    intro _
    constructor
    · intro hall pre e hpre
      exact (shrinksMaker_iff (handle_indexed hs' pre) owner r.orderId e).mp (hall pre e hpre)
    · intro hall pre e hpre
      exact (shrinksMaker_iff (handle_indexed hs' pre) owner r.orderId e).mpr (hall pre e hpre)
  constructor
  · intro hall hro t r s' hv hok
    exact (hplaced t r s' hok).mp (hall hro t r s' hv hok)
  · intro hall hro t r s' hv hok
    exact (hplaced t r s' hok).mpr (hall hro t r s' hv hok)

namespace Decimal

section Model
variable (round : ℚ → ℚ)

/-- The signed position of an account when the first `n` fills of the order are settled. -/
def holding (s : AppState) (env : Env) (user : Address) (t : Taker) (n : ℕ) (a : Address) :
    Option ℚ :=
  (settled round s env user t n).map fun s' => netSize t.marketId (s'.positions a)

/-- Every fill of the order leaves its owner's position no larger. -/
def TakerShrinks (s : AppState) (env : Env) (user : Address) (t : Taker) : Prop :=
  ∀ m, matched round s env user t = some m →
    ∀ (ahead : List MatchedFill) (f : MatchedFill) (behind : List MatchedFill),
      m.1 = ahead++f :: behind → ∀ x x', holding round s env user t ahead.length user = some x →
        holding round s env user t (ahead.length+1) user = some x' → NotGrown x x'

/-- So does every fill that the order makes with a certain resting one. -/
def MakerShrinks (s : AppState) (env : Env) (user : Address) (t : Taker) (owner : Address)
    (orderId : ℕ) : Prop :=
  ∀ m, matched round s env user t = some m →
    ∀ (ahead : List MatchedFill) (f : MatchedFill) (behind : List MatchedFill),
      m.1 = ahead++f :: behind → f.makerAddress = owner → f.makerOrderId = orderId →
        ∀ x x', holding round s env user t ahead.length owner = some x →
          holding round s env user t (ahead.length+1) owner = some x' → NotGrown x x'

def serveEvent (s : AppState) : Event → Except AppState AppState
  | .request c => serve round s c
  | .setPositions address positions => return s.setPositions address positions

/-- The state after some events. -/
def serveEvents (s : AppState) (es : List Event) : AppState :=
  es.foldl (fun s e => final id (serveEvent round s e)) s

/-- Every fill that the event makes with the resting order leaves its owner's position no
larger. -/
def ShrinksMaker (owner : Address) (orderId : ℕ) (s : AppState) : Event → Prop
  | .request (.placeOrder env user req) => ∀ t, Accepts round s env user req t →
      MakerShrinks round s env user t owner orderId
  | _ => True

/-- Whatever the event draws from the resting order is covered by its owner's position. -/
def CoversMaker (owner : Address) (orderId : ℕ) (s : AppState) : Event → Prop
  | .request (.placeOrder env user req) => ∀ t, Accepts round s env user req t →
      s.MakerCovered env user t owner orderId
  | _ => True

def EventExact (s : AppState) : Event → Prop
  | .request c => CmdExact round s c
  | .setPositions _ _ => True

/-- Rounding does not show in any event of a run. -/
def ExactEvents (s : AppState) (es : List Event) : Prop :=
  ∀ (pre : List Event) (e : Event), pre++[e] <+: es → EventExact round (serveEvents round s pre) e

end Model

variable {round : ℚ → ℚ} {s : AppState} {env : Env} {user : Address} {req : PlaceOrderRequest}
  {t : Taker}

theorem serveEvent_eq {e : Event} (h : EventExact round s e) :
    serveEvent round s e = .ok (attempt Edge.handle s e) := by
  cases e with
  | setPositions address positions => rfl
  | request c => exact serve_eq h

theorem ExactEvents.run_eq {es : List Event} (h : ExactEvents round s es) :
    serveEvents round s es = runAll Edge.handle s es :=
  foldl_eq_of_reached fun pre e hpre => by
    have he := serveEvent_eq (h pre e hpre)
    unfold serveEvents at he
    rw [he]
    rfl

/-- Every event of such a run meets the state that it meets on rationals. -/
theorem ExactEvents.meets {es pre : List Event} (h : ExactEvents round s es) {e : Event}
    (hpre : pre++[e] <+: es) : serveEvents round s pre = runAll Edge.handle s pre ∧
      EventExact round (runAll Edge.handle s pre) e := by
  have hpast : ExactEvents round s pre := fun p e' hp =>
    h p e' (hp.trans ((List.prefix_append pre [e]).trans hpre))
  exact ⟨hpast.run_eq, hpast.run_eq ▸ h pre e hpre⟩

namespace OrderExact
variable (h : OrderExact round s env user req) (ht : s.Accepts env user req t)
include h ht

theorem holding_eq {ahead behind : List MatchedFill}
    (hm : (s.matched env user t).1 = ahead++behind) (a : Address) :
    holding round s env user t ahead.length a = some (s.holding env user t ahead a) := by
  rw [holding, h.settled_eq ht, hm, List.take_left]
  rfl

/-- Between two fills the position moves as on rationals. -/
theorem notGrown_iff {ahead behind : List MatchedFill} {f : MatchedFill}
    (hm : (s.matched env user t).1 = ahead++f :: behind) (a : Address) :
    (∀ x x', holding round s env user t ahead.length a = some x →
      holding round s env user t (ahead.length+1) a = some x' → NotGrown x x') ↔
      NotGrown (s.holding env user t ahead a) (s.holding env user t (ahead++[f]) a) := by
  have hm' : (s.matched env user t).1 = (ahead++[f])++behind := by simpa using hm
  have hnext := h.holding_eq ht hm' a
  rw [List.length_append, List.length_singleton] at hnext
  rw [h.holding_eq ht hm, hnext]
  simp only [Option.some.injEq]
  exact ⟨fun hall => hall _ _ rfl rfl, fun hone x x' hx hx' => hx ▸ hx' ▸ hone⟩

theorem takerShrinks_iff :
    TakerShrinks round s env user t ↔ s.TakerShrinks env user t := by
  simp only [TakerShrinks, h.matched_eq ht, Option.some.injEq, forall_eq']
  exact forall₃_congr fun ahead f behind => forall_congr' fun hm => h.notGrown_iff ht hm user

theorem makerShrinks_iff (owner : Address) (orderId : ℕ) :
    MakerShrinks round s env user t owner orderId ↔
      s.MakerShrinks env user t owner orderId := by
  simp only [MakerShrinks, h.matched_eq ht, Option.some.injEq, forall_eq']
  refine forall₃_congr fun ahead f behind => forall_congr' fun hm => ?_
  exact forall₂_congr fun _ _ => h.notGrown_iff ht hm owner

end OrderExact

theorem shrinksMaker_iff {e : Event} (h : EventExact round s e) (owner : Address) (orderId : ℕ) :
    ShrinksMaker round owner orderId s e ↔ e.ShrinksMaker owner orderId s := by
  unfold ShrinksMaker Event.ShrinksMaker
  split
  · next env user req =>
    refine forall_congr' fun t => ?_
    rw [OrderExact.accepts_iff h]
    exact forall_congr' fun ht => OrderExact.makerShrinks_iff h ht owner orderId
  · exact Iff.rfl

theorem coversMaker_iff {e : Event} (h : EventExact round s e) (owner : Address) (orderId : ℕ) :
    CoversMaker round owner orderId s e ↔ e.CoversMaker owner orderId s := by
  unfold CoversMaker Event.CoversMaker
  split
  · next env user req =>
    exact forall_congr' fun t => by rw [OrderExact.accepts_iff h]
  · exact Iff.rfl

/-- What holds of an accepted order and of every event after it on rationals holds of them in the
arithmetic of `Decimal`, and the other way round. -/
theorem OrderExact.after_iff {es : List Event} (h : OrderExact round s env user req)
    (hevents : ∀ r, placed round s env user req = some r → ExactEvents round r.2 es)
    {A B : Taker → Prop} {M N : ℕ → AppState → Event → Prop}
    (htaker : ∀ t, s.Accepts env user req t → (A t ↔ B t))
    (hlater : ∀ id x e, EventExact round x e → (M id x e ↔ N id x e)) :
    (∀ (t : Taker) (r : PlaceOrderResponse × AppState), s.validate req = .ok t →
      placed round s env user req = some r → A t ∧ ∀ (pre : List Event) (e : Event),
        pre++[e] <+: es → M r.1.orderId (serveEvents round r.2 pre) e) ↔
    ∀ (t : Taker) (r : PlaceOrderResponse) (s' : AppState), s.validate req = .ok t →
      s.placeOrder env user req = .ok (r,s') → B t ∧ ∀ (pre : List Event) (e : Event),
        pre++[e] <+: es → N r.orderId (runAll Edge.handle s' pre) e := by
  have hplaced {t : Taker} {r : PlaceOrderResponse × AppState} (hv : s.validate req = .ok t)
      (hr : placed round s env user req = some r) : (A t ∧ ∀ (pre : List Event) (e : Event),
        pre++[e] <+: es → M r.1.orderId (serveEvents round r.2 pre) e) ↔
      B t ∧ ∀ (pre : List Event) (e : Event),
        pre++[e] <+: es → N r.1.orderId (runAll Edge.handle r.2 pre) e := by
    refine and_congr (htaker t (h.accepts_iff.mp ⟨hv, by rw [hr]; rfl⟩)) ?_
    refine forall₂_congr fun pre e => forall_congr' fun hpre => ?_
    obtain ⟨hrun, he⟩ := (hevents r hr).meets hpre
    rw [hrun]
    exact hlater _ _ _ he
  constructor
  · intro hall t r s' hv hok
    have hr := h.placed_iff.mpr hok
    exact (hplaced hv hr).mp (hall t _ hv hr)
  · intro hall t r hv hr
    exact (hplaced hv hr).mpr (hall t _ _ hv (h.placed_iff.mp hr))

end Decimal

/-- A sell of account 1 marked `reduce_only`. -/
def reduceOnlySell : PlaceOrderRequest :=
  { btcOrder "sell" "limit" (some 100000) 1 with reduceOnly := true }

end Perplex.Edge
