import Perplex.QuoteDesk
import Perplex.QuoteLease

/-! What an instance leaves on the book when its market is taken over. An iteration cancels the ids
that the state of its own instance holds, and these are answers to orders of that instance. -/
namespace Perplex.Cli

section Iteration
variable {F : Type} [F64 F] {marketId : String} {config : QuoteAgentConfig F} {t : Tick F}
  {kill : KillSwitch F} {state : MarketState F}

/-- The ids of a state. -/
def MarketState.Holds (state : MarketState F) (id : String) : Prop :=
  state.bidOrderId = some id ∨ state.askOrderId = some id

omit [F64 F] in
theorem MarketState.holds_of_mem_cancels {id : String} {ok : Bool}
    (h : .cancelOrder id ok ∈ state.cancels t) : state.Holds id := by
  unfold MarketState.cancels at h
  rcases List.mem_append.mp h with h | h
  · obtain ⟨bid, hbid, he⟩ := Option.map_eq_some_iff.mp (Option.mem_toList.mp h)
    obtain ⟨rfl, -⟩ := EdgeCall.cancelOrder.inj he
    exact .inl hbid
  · obtain ⟨ask, hask, he⟩ := Option.map_eq_some_iff.mp (Option.mem_toList.mp h)
    obtain ⟨rfl, -⟩ := EdgeCall.cancelOrder.inj he
    exact .inr hask

/-- The calls that an iteration makes, and what it makes of the ids. -/
structure OwnIds (state : MarketState F) (r : Iteration F) : Prop where
  cancels : ∀ id ok, .cancelOrder id ok ∈ r.calls → state.Holds id
  holds : ∀ id, r.state.Holds id → state.Holds id ∨ ∃ req, .placeOrder req (some id) ∈ r.calls

theorem runQuoteIteration_ownIds :
    OwnIds state (runQuoteIteration marketId config t kill state) := by
  have hcancel {vol : VolWindow F} {inventory : Option F} {id : String} {ok : Bool}
      (h : .cancelOrder id ok ∈ MarketState.cancels
        { state with vol, lastInventory := inventory } t) : state.Holds id := by
    have hholds := MarketState.holds_of_mem_cancels h
    exact hholds
  have hnone {id : String} (h : none = some id ∨ none = some id) : False := by
    rcases h with h | h <;> cases h
  unfold runQuoteIteration
  cases t.mid with
  | none => exact ⟨fun _ _ h => absurd h List.not_mem_nil,fun _ => .inl⟩
  | some mid =>
    cases t.risk with
    | none => exact ⟨fun _ _ h => absurd h List.not_mem_nil,fun _ => .inl⟩
    | some risk =>
      dsimp only
      split_ifs
      · exact ⟨fun _ _ => hcancel,fun _ h => (hnone h).elim⟩
      · exact ⟨fun _ _ h => absurd h List.not_mem_nil,fun _ => .inl⟩
      · cases t.placeBid with
        | none =>
          refine ⟨?_,fun _ h => (hnone h).elim⟩
          intro id ok h
          rcases List.mem_append.mp h with h | h
          · exact hcancel h
          · cases List.mem_singleton.mp h
        | some bidId =>
          cases t.placeAsk with
          | none =>
            refine ⟨?_,fun _ h => (hnone h).elim⟩
            intro id ok h
            rcases List.mem_append.mp h with h | h
            · exact hcancel h
            · simp at h
          | some askId =>
            constructor
            · intro id ok h
              rcases List.mem_append.mp h with h | h
              · exact hcancel h
              · simp at h
            · rintro id (h | h)
              · obtain rfl := Option.some.inj h
                exact .inr ⟨_,List.mem_append_right _ List.mem_cons_self⟩
              · obtain rfl := Option.some.inj h
                exact .inr ⟨_,List.mem_append_right _
                  (List.mem_cons_of_mem _ List.mem_cons_self)⟩

end Iteration

namespace Lease

/-- The sections of an instance, or of what lets time pass. -/
inductive Shape : List Section → Prop where
  | clock {ws : List Section} (h : ∀ w ∈ ws, ∃ duration, w = .advance duration) : Shape ws
  | acquire : Shape [.acquire]
  | renew (n : ℕ) : Shape [.renew n]
  | iterate (calls : List EdgeCall) (since n : ℕ) :
    Shape (calls.map (fun c => .call c since)++[.ended n])

section Perform
variable {ι F : Type} [DecidableEq ι] [F64 F] {f : Fleet ι F} {i : ι} {w : Section}
  {ws new : List Section} {s s' : Shared ι F}

theorem Shape.perform (h : Shape (w :: ws)) (hs : perform f i w s = some (s',new)) :
    Shape (new++ws) := by
  generalize hl : w :: ws = l at h
  cases h with
  | clock h =>
    subst hl
    obtain ⟨duration, rfl⟩ := h w List.mem_cons_self
    cases hs
    exact .clock fun x hx => h x (List.mem_cons_of_mem _ hx)
  | acquire =>
    obtain ⟨rfl, rfl⟩ := List.cons.inj hl
    cases hs
    rw [List.append_nil]
    split_ifs
    · exact .renew 0
    · exact .clock (List.forall_mem_nil _)
  | renew n =>
    obtain ⟨rfl, rfl⟩ := List.cons.inj hl
    rw [List.append_nil]
    simp only [Lease.perform] at hs
    split_ifs at hs <;> cases hs
    · exact .iterate _ _ n
    · exact .clock (List.forall_mem_nil _)
  | iterate calls since n =>
    cases calls with
    | nil =>
      obtain ⟨rfl, rfl⟩ := List.cons.inj hl
      cases hs
      exact .renew (n+1)
    | cons call calls =>
      obtain ⟨rfl, rfl⟩ := List.cons.inj hl
      cases hs
      exact .iterate calls since n

end Perform

section Runs
variable {ι F : Type} [DecidableEq ι] [F64 F]

/-- An id that was the answer to an order of an instance. -/
def Placed (calls : List (Called ι)) (i : ι) (id : String) : Prop :=
  ∃ y ∈ calls, y.caller = i ∧ ∃ req, y.call = .placeOrder req (some id)

/-- The instance knows only of its own orders. -/
structure KnowsOwn (c : Pool ι Section (Shared ι F)) : Prop where
  shape : ∀ i, Shape (c.pending i)
  holds : ∀ i id, (c.shared.agents i).state.Holds id → Placed c.shared.calls i id ∨
    ∃ req since, .call (.placeOrder req (some id)) since ∈ c.pending i
  cancels : ∀ i id ok since, .call (.cancelOrder id ok) since ∈ c.pending i →
    Placed c.shared.calls i id
  calls : ∀ x older, (x :: older) <:+ c.shared.calls → ∀ id ok, x.call = .cancelOrder id ok →
    Placed older x.caller id

variable {f : Fleet ι F} {c : Pool ι Section (Shared ι F)} {i : ι} {w : Section}
  {ws new : List Section} {s' : Shared ι F}

theorem KnowsOwn.step (h : KnowsOwn c) (hp : c.pending i = w :: ws)
    (hs : perform f i w c.shared = some (s',new)) :
    KnowsOwn ⟨s', Function.update c.pending i (new++ws)⟩ := by
  have hshape (j : ι) : Shape (Function.update c.pending i (new++ws) j) := by
    by_cases hj : j = i
    · subst hj
      rw [Function.update_self]
      exact (hp ▸ h.shape j).perform hs
    · rw [Function.update_of_ne hj]
      exact h.shape j
  -- what neither calls nor iterates leaves all of this alone
  have hquiet (hagents : s'.agents = c.shared.agents) (hcalls : s'.calls = c.shared.calls)
      (hnew : ∀ call since, .call call since ∉ new) (hw : ∀ call since, w ≠ .call call since) :
      KnowsOwn ⟨s', Function.update c.pending i (new++ws)⟩ := by
    refine ⟨hshape,?_,?_,hcalls ▸ h.calls⟩
    · intro j id hid
      rw [hcalls]
      refine (h.holds j id (hagents ▸ hid)).imp_right ?_
      rintro ⟨req, since, hcall⟩
      exact ⟨req,since,Pool.mem_pending_of_ne new hp hcall fun _ he => hw _ _ he.symm⟩
    · intro j id ok since hcall
      rw [hcalls]
      rcases Pool.mem_pending_update hp hcall with hold | ⟨-, hnew'⟩
      · exact h.cancels j id ok since hold
      · exact absurd hnew' (hnew _ _)
  cases w with
  | acquire =>
    cases hs
    refine hquiet rfl rfl ?_ fun _ _ he => by cases he
    intro call since hcall
    split_ifs at hcall
    · cases List.mem_singleton.mp hcall
    · cases hcall
  | ended n =>
    cases hs
    refine hquiet rfl rfl ?_ fun _ _ he => by cases he
    intro call since hcall
    cases List.mem_singleton.mp hcall
  | advance duration =>
    cases hs
    exact hquiet rfl rfl (fun _ _ => List.not_mem_nil) fun _ _ he => by cases he
  | renew n =>
    -- nothing of the iteration before is left
    have hall (id : String) (hid : (c.shared.agents i).state.Holds id) :
        Placed c.shared.calls i id := by
      rcases h.holds i id hid with hplaced | ⟨req, since, hcall⟩
      · exact hplaced
      · have hshape := h.shape i
        rw [hp] at hshape hcall
        generalize hl : Section.renew n :: ws = l at hshape hcall
        cases hshape with
        | clock hclock =>
          obtain ⟨duration, he⟩ := hclock _ hcall
          cases he
        | acquire => cases hl
        | renew m => cases List.mem_singleton.mp hcall
        | iterate calls since m => cases calls <;> cases hl
    simp only [perform] at hs
    split_ifs at hs <;> cases hs
    · have hown : OwnIds (c.shared.agents i).state (runQuoteIteration (f.loop i).marketId
          (f.loop i).config ((f.loop i).ticks n) (c.shared.agents i).kill
            (c.shared.agents i).state) := runQuoteIteration_ownIds
      refine ⟨hshape,?_,?_,h.calls⟩
      · intro j id hid
        by_cases hj : j = i
        · subst hj
          dsimp only at hid
          rw [Function.update_self] at hid
          rcases hown.holds id hid with hold | ⟨req, hplace⟩
          · exact .inl (hall id hold)
          · refine .inr ⟨req,c.shared.now,?_⟩
            apply Pool.mem_pending_new
            exact List.mem_append_left _ (List.mem_map.mpr ⟨_,hplace,rfl⟩)
        · dsimp only at hid
          rw [Function.update_of_ne hj] at hid
          dsimp only
          rw [Function.update_of_ne hj]
          exact h.holds j id hid
      · intro j id ok since hcall
        rcases Pool.mem_pending_update hp hcall with hold | ⟨rfl, hnew⟩
        · exact h.cancels j id ok since hold
        · rcases List.mem_append.mp hnew with hnew | hnew
          · obtain ⟨call, hmem, he⟩ := List.mem_map.mp hnew
            obtain ⟨rfl, -⟩ := Section.call.inj he
            exact hall id (hown.cancels id ok hmem)
          · cases List.mem_singleton.mp hnew
    · exact hquiet rfl rfl (fun _ _ => List.not_mem_nil) fun _ _ he => by cases he
  | call call since =>
    cases hs
    have hmono {j : ι} {id : String} (hplaced : Placed c.shared.calls j id) :
        Placed (⟨i,since,c.shared.now,call⟩ :: c.shared.calls) j id := by
      obtain ⟨y, hy, hplace⟩ := hplaced
      exact ⟨y,List.mem_cons_of_mem _ hy,hplace⟩
    refine ⟨hshape,?_,?_,?_⟩
    · intro j id hid
      rcases h.holds j id hid with hplaced | ⟨req, since', hcall⟩
      · exact .inl (hmono hplaced)
      · by_cases he : j = i ∧ Section.call (.placeOrder req (some id)) since' = .call call since
        · obtain ⟨rfl, he⟩ := he
          obtain ⟨rfl, -⟩ := Section.call.inj he
          exact .inl ⟨_,List.mem_cons_self,rfl,req,rfl⟩
        · refine .inr ⟨req,since',Pool.mem_pending_of_ne [] hp hcall ?_⟩
          exact fun hj hcall => he ⟨hj,hcall⟩
    · intro j id ok since' hcall
      rcases Pool.mem_pending_update hp hcall with hold | ⟨-, hnew⟩
      · exact hmono (h.cancels j id ok since' hold)
      · cases hnew
    · intro x older hsuffix id ok hx
      rcases List.suffix_cons_iff.mp hsuffix with he | hsuffix
      · obtain ⟨rfl, rfl⟩ := List.cons.inj he
        obtain rfl : call = .cancelOrder id ok := hx
        exact h.cancels i id ok since (by simp [hp])
      · exact h.calls x older hsuffix id ok hx

/-- An instance cancels only ids that it got itself for an order before. So when a market has
been taken over, no other instance cancels what the one before has left on the book. -/
theorem cancels_own (f : Fleet ι F) (c : Pool ι Section (Shared ι F)) (hc : Start f c)
    (hnew : ∀ i, (c.shared.agents i).state = MarketState.new (f.loop i).config.volWindow)
    (is : List ι) (x : Called ι) (older : List (Called ι))
    (hx : (x :: older) <:+ (c.run (perform f) is).shared.calls) (id : String) (ok : Bool)
    (hcancel : x.call = .cancelOrder id ok) : Placed older x.caller id := by
  have hstart : KnowsOwn c := by
    refine ⟨?_,?_,?_,?_⟩
    · intro i
      rcases hc.pending i with hp | hp
      · rw [hp]
        exact .acquire
      · exact .clock hp
    · intro i id hid
      rw [hnew] at hid
      rcases hid with h | h <;> cases h
    · intro i id ok since hcall
      rcases hc.pending i with hp | hp
      · simp [hp] at hcall
      · obtain ⟨duration, he⟩ := hp _ hcall
        cases he
    · intro x older hsuffix
      rw [hc.calls] at hsuffix
      cases List.suffix_nil.mp hsuffix
  have hrun : KnowsOwn (c.run (perform f) is) := by
    refine Pool.run_invariant (P := KnowsOwn) (R := fun _ _ => True) ?_ hstart fun _ _ _ => trivial
    exact fun c i w ws s new h _ hp hs => h.step hp hs
  exact hrun.calls x older hx id ok hcancel

end Runs

/-- The two instances when the mid moves between iterations. -/
def movingMid : Fleet (Fin 3) Fraction where
  loop i := { twoLoops.loop i with
    ticks := fun n => ⟨n, some ⟨100+n⟩, some ⟨⟨0⟩, ⟨0⟩⟩, true, true, some "bid", some "ask", 0, 1⟩ }
  token_injective := twoLoops.token_injective

/-- The first instance quotes twice; the second time it cancels its bid. -/
theorem cancels_own_movingMid :
    ∃ x older, (slowEdge.run (perform movingMid) [0, 0, 0, 0, 0, 0, 0]).shared.calls =
        x :: older ∧ x.call = .cancelOrder "bid" true ∧ Placed older x.caller "bid" := by
  let calls := (slowEdge.run (perform movingMid) [0, 0, 0, 0, 0, 0, 0]).shared.calls
  have hfirst : calls.head?.map Called.call = some (.cancelOrder "bid" true) := by decide +kernel
  obtain ⟨x, hx, hcancel⟩ := Option.map_eq_some_iff.mp hfirst
  obtain ⟨older, he⟩ := List.head?_eq_some_iff.mp hx
  refine ⟨x,older,he,hcancel,?_⟩
  exact cancels_own movingMid slowEdge ⟨slowEdge_start.pending,slowEdge_start.tokens,rfl,rfl⟩ (fun _ => rfl)
    [0, 0, 0, 0, 0, 0, 0] x older (he ▸ List.suffix_refl _) "bid" true hcancel

end Lease
end Perplex.Cli
