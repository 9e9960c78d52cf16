import Mathlib.Data.List.Induction
import Mathlib.Tactic.Linarith
import Mathlib.Tactic.Ring

/-! Computations that either return a value or fail, with guards and bounded integers.
A failed computation has no result, so its callers fail as well. -/
namespace Perplex
variable {ε α β : Type}

/-- The value `a`, provided that `p` holds. -/
def ensure (p : Prop) [Decidable p] (e : ε) (a : α) : Except ε α := if p then .ok a else .error e

@[simp]
theorem ensure_eq_ok {p : Prop} [Decidable p] {e : ε} {a b : α} :
    ensure p e a = .ok b ↔ p ∧ a = b := by
  unfold ensure
  split_ifs with h <;> simp [h]

theorem ensure_of {p : Prop} [Decidable p] (h : p) (e : ε) (a : α) :
    ensure p e a = .ok a := if_pos h

/-- A chain of computations succeeds exactly when each of them does. -/
@[simp]
theorem chain_ok_iff {first : Except ε α} {next : α → Except ε β} {result : β} :
    first >>= next = .ok result ↔ ∃ a, first = .ok a ∧ next a = .ok result := by
  rcases first with e | a
  · exact ⟨fun h => by simp [bind, Except.bind] at h, fun ⟨a, h, _⟩ => by simp at h⟩
  · exact ⟨fun h => ⟨a, rfl, h⟩, fun ⟨b, hb, h⟩ => by cases hb; exact h⟩

/-- Mapping the result of a chain maps the result of its last computation. -/
theorem map_chain {γ : Type} {first : Except ε α} {next : α → Except ε β} {f : β → γ} :
    (first >>= next).map f = first >>= fun a => (next a).map f := by
  rcases first with e | a <;> rfl

/-- Unsigned results below `2^w`. -/
def boundU (w : ℕ) (e : ε) (n : ℕ) : Except ε ℕ := ensure (n < 2^w) e n

/-- Signed results in two's complement range. -/
def boundI (w : ℕ) (e : ε) (z : ℤ) : Except ε ℤ :=
  ensure (-2^(w-1) ≤ z ∧ z < 2^(w-1)) e z

@[simp]
theorem boundU_eq_ok {w : ℕ} {e : ε} {n m : ℕ} : boundU w e n = .ok m ↔ n < 2^w ∧ n = m :=
  ensure_eq_ok

@[simp]
theorem boundI_eq_ok {w : ℕ} {e : ε} {z y : ℤ} :
    boundI w e z = .ok y ↔ (-2^(w-1) ≤ z ∧ z < 2^(w-1)) ∧ z = y :=
  ensure_eq_ok

/-- The computation returns. -/
def Succeeds (x : Except ε α) : Prop := ∃ a, x = .ok a

instance (x : Except ε α) : Decidable (Succeeds x) :=
  match x with
  | .ok a => isTrue ⟨a,rfl⟩
  | .error _ => isFalse fun ⟨_,h⟩ => nomatch h

@[simp]
theorem succeeds_ok (a : α) : Succeeds (.ok a : Except ε α) := ⟨a, rfl⟩

@[simp]
theorem succeeds_pure (a : α) : Succeeds (pure a : Except ε α) := ⟨a, rfl⟩

@[simp]
theorem not_succeeds_error (e : ε) : ¬ Succeeds (.error e : Except ε α) := by
  rintro ⟨a, ha⟩
  cases ha

@[simp]
theorem succeeds_map {f : α → β} {x : Except ε α} :
    Succeeds (f <$> x) ↔ Succeeds x := by
  cases x with
  | error e => exact iff_of_false (not_succeeds_error e) (not_succeeds_error e)
  | ok a => exact iff_of_true ⟨f a, rfl⟩ ⟨a, rfl⟩

theorem succeeds_chain {first : Except ε α} {next : α → Except ε β} :
    Succeeds (first >>= next) ↔ Succeeds first ∧ ∀ a, first = .ok a → Succeeds (next a) := by
  rcases first with e | a
  · exact ⟨fun h => absurd h (not_succeeds_error e), fun h => absurd h.1 (not_succeeds_error e)⟩
  · exact ⟨fun h => ⟨⟨a, rfl⟩, fun b hb => Except.ok.inj hb ▸ h⟩, fun h => h.2 a rfl⟩

/-- A computation whose value is known goes through under its condition. -/
theorem succeeds_chain_of {p : Prop} {v : α} {first : Except ε α} {next : α → Except ε β}
    (h : ∀ a, first = .ok a ↔ p ∧ v = a) : Succeeds (first >>= next) ↔ p ∧ Succeeds (next v) := by
  rw [succeeds_chain]
  constructor
  · rintro ⟨⟨a, ha⟩, hnext⟩
    exact ⟨((h a).mp ha).1, hnext v ((h v).mpr ⟨((h a).mp ha).1, rfl⟩)⟩
  · rintro ⟨hp, hv⟩
    refine ⟨⟨v, (h v).mpr ⟨hp, rfl⟩⟩, ?_⟩
    intro a ha
    obtain ⟨-, rfl⟩ := (h a).mp ha
    exact hv

section Loops
variable {f : β → α → Except ε β}

/-- `P` holds before every pass of a loop. -/
def BeforeEach (f : β → α → Except ε β) (P : β → α → Prop) : β → List α → Prop
  | _, [] => True
  | b, a :: l => P b a ∧ ∀ b', f b a = .ok b' → BeforeEach f P b' l

theorem foldlM_cons_eq_ok {a : α} {l : List α} {b r : β} :
    (a :: l).foldlM f b = .ok r ↔ ∃ b', f b a = .ok b' ∧ l.foldlM f b' = .ok r := by
  rw [List.foldlM_cons, chain_ok_iff]

/-- A loop returns when each of its passes does, in the state that pass starts from. -/
theorem succeeds_foldlM {P : β → α → Prop} {l : List α}
    (h : ∀ b, ∀ a ∈ l, (Succeeds (f b a) ↔ P b a)) (b : β) :
    Succeeds (l.foldlM f b) ↔ BeforeEach f P b l := by
  induction l generalizing b with
  | nil => exact ⟨fun _ => trivial, fun _ => succeeds_pure b⟩
  | cons a l ih =>
    have hrest := ih fun b x hx => h b x (List.mem_cons_of_mem _ hx)
    rw [List.foldlM_cons, succeeds_chain, h b a List.mem_cons_self]
    exact and_congr_right fun _ => forall₂_congr fun b' _ => hrest b'

/-- What every pass keeps is kept by the loop. -/
theorem foldlM_invariant {P : β → Prop} {l : List α}
    (h : ∀ b, ∀ a ∈ l, ∀ b', P b → f b a = .ok b' → P b') {b r : β} (hb : P b)
    (hr : l.foldlM f b = .ok r) : P r := by
  induction l generalizing b with
  | nil => exact Except.ok.inj hr ▸ hb
  | cons a l ih =>
    obtain ⟨b', hb', hrest⟩ := foldlM_cons_eq_ok.mp hr
    exact ih (fun b x hx => h b x (List.mem_cons_of_mem _ hx))
      (h b a List.mem_cons_self b' hb hb') hrest

/-- A loop whose passes return `g` returns the fold of `g`. -/
theorem foldlM_eq_foldl {g : β → α → β} (h : ∀ b a b', f b a = .ok b' → b' = g b a)
    {l : List α} {b r : β} (hr : l.foldlM f b = .ok r) : r = l.foldl g b := by
  induction l generalizing b with
  | nil => exact (Except.ok.inj hr).symm
  | cons a l ih =>
    obtain ⟨b', hb', hrest⟩ := foldlM_cons_eq_ok.mp hr
    rw [List.foldl_cons, ← h b a b' hb']
    exact ih hrest

end Loops

section Runs
variable {σ κ : Type} (exec : σ → κ → Except ε σ)

/-- A request that fails leaves the state as it was. -/
def attempt (s : σ) (c : κ) : σ :=
  match exec s c with
  | .ok s' => s'
  | .error _ => s

def runAll (s : σ) (cs : List κ) : σ := cs.foldl (attempt exec) s

variable {exec}

theorem attempt_of_ok {s s' : σ} {c : κ} (h : exec s c = .ok s') : attempt exec s c = s' := by
  simp only [attempt, h]

theorem attempt_of_not {s : σ} {c : κ} (h : ¬ Succeeds (exec s c)) : attempt exec s c = s := by
  cases he : exec s c with
  | error e => simp only [attempt, he]
  | ok s' => exact absurd ⟨s',he⟩ h

/-- What every successful request keeps is kept by every run. -/
theorem runAll_invariant {P : σ → Prop} {Allowed : κ → Prop}
    (h : ∀ s c s', P s → Allowed c → exec s c = .ok s' → P s')
    {s : σ} (hs : P s) {cs : List κ} (hcs : ∀ c ∈ cs, Allowed c) : P (runAll exec s cs) := by
  induction cs generalizing s with
  | nil => exact hs
  | cons c cs ih =>
    have hstep : P (attempt exec s c) := by
      unfold attempt
      split
      · next s' he => exact h s c s' hs (hcs c List.mem_cons_self) he
      · exact hs
    exact ih hstep (fun c' hc => hcs c' (List.mem_cons_of_mem _ hc))

/-- What a step keeps, under a condition on where it is made, is kept by every run whose steps
meet the condition. -/
theorem foldl_invariant {step : σ → κ → σ} {P : σ → Prop} {R : σ → κ → Prop}
    (h : ∀ s c, P s → R s c → P (step s c)) {s : σ} (hs : P s) {cs : List κ}
    (hcs : ∀ pre c, pre++[c] <+: cs → R (pre.foldl step s) c) : P (cs.foldl step s) := by
  induction cs using List.reverseRecOn with
  | nil => exact hs
  | append_singleton cs c ih =>
    have hprev := ih fun pre c' hpre => hcs pre c' (hpre.trans (List.prefix_append _ _))
    rw [List.foldl_append]
    exact h _ c hprev (hcs cs c (List.prefix_refl _))

/-- Two systems that step alike wherever a run of the first comes make the same run. -/
theorem foldl_eq_of_reached {step step' : σ → κ → σ} {s : σ} {cs : List κ}
    (h : ∀ pre c, pre++[c] <+: cs → step (pre.foldl step s) c = step' (pre.foldl step s) c) :
    cs.foldl step s = cs.foldl step' s := by
  induction cs using List.reverseRecOn with
  | nil => rfl
  | append_singleton cs c ih =>
    have hprev := ih fun pre c' hpre => h pre c' (hpre.trans (List.prefix_append _ _))
    rw [List.foldl_append, List.foldl_append, ← hprev]
    exact h cs c (List.prefix_refl _)

theorem runAll_append (s : σ) (cs : List κ) (c : κ) :
    runAll exec s (cs++[c]) = attempt exec (runAll exec s cs) c := by
  simp [runAll]

/-- A property of every state reached and of every request met there is settled by the
requests alone, once it is so for a single request. -/
theorem runAll_prefix_iff {P : σ → Prop} {Q R : σ → κ → Prop} {s : σ} (hs : P s)
    (cs : List κ)
    (hstep : ∀ pre c, P (runAll exec s pre) → (R (runAll exec s pre) c ↔
      P (attempt exec (runAll exec s pre) c) ∧ Q (runAll exec s pre) c)) :
    ((∀ pre, pre <+: cs → P (runAll exec s pre)) ∧
        ∀ pre c, pre++[c] <+: cs → Q (runAll exec s pre) c) ↔
      ∀ pre c, pre++[c] <+: cs → R (runAll exec s pre) c := by
  constructor
  · rintro ⟨hP, hQ⟩ pre c hpre
    have hnext := hP _ hpre
    rw [runAll_append] at hnext
    exact (hstep pre c (hP pre ((List.prefix_append pre [c]).trans hpre))).mpr
      ⟨hnext, hQ pre c hpre⟩
  · intro hR
    -- by induction from the end: the last request starts in a state that has `P`
    have hP : ∀ pre, pre <+: cs → P (runAll exec s pre) := by
      intro pre
      induction pre using List.reverseRecOn with
      | nil => exact fun _ => hs
      | append_singleton pre c ih =>
        intro hpre
        have hpre' := (List.prefix_append pre [c]).trans hpre
        rw [runAll_append]
        exact ((hstep pre c (ih hpre')).mp (hR pre c hpre)).1
    refine ⟨hP, ?_⟩
    intro pre c hpre
    have hpre' := (List.prefix_append pre [c]).trans hpre
    exact ((hstep pre c (hP pre hpre')).mp (hR pre c hpre)).2

/-- A property of every prefix of a run is settled request by request, once an invariant that
gives it is carried along. -/
theorem forall_prefix_iff {P Q : List κ → Prop} {R : List κ → κ → Prop} {cs : List κ}
    (hnil : P []) (hQ : ∀ pre, P pre → Q pre)
    (hstep : ∀ pre c, pre++[c] <+: cs → P pre →
      (Q (pre++[c]) ↔ R pre c) ∧ (Q (pre++[c]) → P (pre++[c]))) :
    (∀ pre, pre <+: cs → Q pre) ↔ ∀ pre c, pre++[c] <+: cs → R pre c := by
  -- either side carries the invariant along the run
  have hinv (h : ∀ pre c, pre++[c] <+: cs → P pre → Q (pre++[c])) :
      ∀ pre, pre <+: cs → P pre := by
    intro pre
    induction pre using List.reverseRecOn with
    | nil => exact fun _ => hnil
    | append_singleton pre c ih =>
      intro hpre
      have hP := ih ((List.prefix_append pre [c]).trans hpre)
      exact (hstep pre c hpre hP).2 (h pre c hpre hP)
  constructor
  · intro hall pre c hpre
    have hP := hinv (fun pre c hpre _ => hall _ hpre) pre
      ((List.prefix_append pre [c]).trans hpre)
    exact (hstep pre c hpre hP).1.mp (hall _ hpre)
  · intro hall pre hpre
    exact hQ pre (hinv (fun pre c hpre hP => (hstep pre c hpre hP).1.mpr (hall pre c hpre))
      pre hpre)

/-- Checking every request of a run, one after the other. -/
theorem forall_request_cons {P : List κ → κ → Prop} {c₀ : κ} {cs : List κ} (h₀ : P [] c₀)
    (h : ∀ pre c, pre++[c] <+: cs → P (c₀ :: pre) c) :
    ∀ pre c, pre++[c] <+: c₀ :: cs → P pre c := by
  intro pre c hpre
  cases pre with
  | nil =>
    obtain ⟨rfl, -⟩ := List.cons_prefix_cons.mp hpre
    exact h₀
  | cons x pre =>
    obtain ⟨rfl, hrest⟩ := List.cons_prefix_cons.mp hpre
    exact h pre c hrest

theorem forall_request_nil {P : List κ → κ → Prop} :
    ∀ pre c, pre++[c] <+: [] → P pre c := by
  intro pre c hpre
  simp at hpre

end Runs

end Perplex
