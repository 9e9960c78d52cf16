import Mathlib.Data.List.Induction
import Mathlib.Logic.Function.Basic

/-! Calls that run side by side over one state. Each call is the list of sections it still has
to run; a section is atomic, may put others in front of the rest of its call, and may have to
wait. A schedule says which call moves next. -/
namespace Perplex

/-- The shared state, and what each call has still to do. -/
structure Pool (ι ω σ : Type) where
  shared : σ
  pending : ι → List ω

namespace Pool
variable {ι ω σ : Type} [DecidableEq ι] (perform : ι → ω → σ → Option (σ × List ω))

/-- One call runs its next section; nothing happens when it has returned or has to wait. -/
def step (c : Pool ι ω σ) (i : ι) : Pool ι ω σ :=
  match c.pending i with
  | [] => c
  | w :: ws =>
    match perform i w c.shared with
    | none => c
    | some (s,new) => ⟨s, Function.update c.pending i (new++ws)⟩

def run (c : Pool ι ω σ) (is : List ι) : Pool ι ω σ := is.foldl (step perform) c

/-- Every call has returned. -/
def Returned (c : Pool ι ω σ) : Prop := ∀ i, c.pending i = []

/-- A step that does something runs the first section of the call. -/
theorem step_cases (c : Pool ι ω σ) (i : ι) : c.step perform i = c ∨
    ∃ w ws s new, c.pending i = w :: ws ∧ perform i w c.shared = some (s,new) ∧
      c.step perform i = ⟨s, Function.update c.pending i (new++ws)⟩ := by
  unfold step
  cases hp : c.pending i with
  | nil => exact Or.inl rfl
  | cons w ws =>
    cases hs : perform i w c.shared with
    | none => exact Or.inl (by simp [hs])
    | some r => exact Or.inr ⟨w, ws, r.1, r.2, rfl, hs, by simp [hs]⟩

variable {perform} {c : Pool ι ω σ} {i : ι}

theorem step_eq {w : ω} {ws new : List ω} {s : σ} (hp : c.pending i = w :: ws)
    (hs : perform i w c.shared = some (s,new)) :
    c.step perform i = ⟨s, Function.update c.pending i (new++ws)⟩ := by
  unfold step
  rw [hp]
  simp only [hs]

/-- The other calls stay where they are. -/
theorem step_pending_of_ne {j : ι} (hj : j ≠ i) : (c.step perform i).pending j = c.pending j := by
  rcases c.step_cases perform i with he | ⟨w, ws, s, new, -, -, he⟩
  · rw [he]
  · rw [he]
    exact Function.update_of_ne hj _ _

@[simp]
theorem run_nil (c : Pool ι ω σ) : c.run perform [] = c := rfl

@[simp]
theorem run_cons (c : Pool ι ω σ) (i : ι) (is : List ι) :
    c.run perform (i :: is) = (c.step perform i).run perform is := rfl

theorem run_append (c : Pool ι ω σ) (is js : List ι) :
    c.run perform (is++js) = (c.run perform is).run perform js := by
  simp [run]

/-- What each section keeps, under a condition on where it is run, is kept by every schedule
whose steps meet the condition. -/
theorem run_invariant {P : Pool ι ω σ → Prop} {R : Pool ι ω σ → ι → Prop}
    (h : ∀ c i w ws s new, P c → R c i → c.pending i = w :: ws →
      perform i w c.shared = some (s,new) → P ⟨s, Function.update c.pending i (new++ws)⟩)
    (hc : P c) {is : List ι} (his : ∀ pre i, pre++[i] <+: is → R (c.run perform pre) i) :
    P (c.run perform is) := by
  induction is using List.reverseRecOn with
  | nil => exact hc
  | append_singleton is i ih =>
    have hprev := ih fun pre j hpre => his pre j (hpre.trans (List.prefix_append _ _))
    rw [run_append]
    rcases step_cases perform (c.run perform is) i with he | ⟨w, ws, s, new, hw, hs, he⟩
    · rw [run_cons, run_nil, he]
      exact hprev
    · rw [run_cons, run_nil, he]
      exact h _ i w ws s new hprev (his is i (List.prefix_refl _)) hw hs

/-- Sections that are still to be run after a step: those of the other calls, the rest of the
call that moved, and those it has put in front. -/
theorem mem_pending_update {p : ι → List ω} {w : ω} {ws new : List ω} (hp : p i = w :: ws)
    {j : ι} {x : ω} (h : x ∈ Function.update p i (new++ws) j) :
    x ∈ p j ∨ j = i ∧ x ∈ new := by
  by_cases hj : j = i
  · subst hj
    rw [Function.update_self] at h
    rcases List.mem_append.mp h with h | h
    · exact Or.inr ⟨rfl, h⟩
    · exact Or.inl (hp ▸ List.mem_cons_of_mem _ h)
  · rw [Function.update_of_ne hj] at h
    exact Or.inl h

/-- A section other than the one that is run stays. -/
theorem mem_pending_of_ne {p : ι → List ω} {w : ω} {ws : List ω} (new : List ω)
    (hp : p i = w :: ws) {j : ι} {x : ω} (h : x ∈ p j) (hx : j = i → x ≠ w) :
    x ∈ Function.update p i (new++ws) j := by
  by_cases hj : j = i
  · subst hj
    rw [Function.update_self]
    rw [hp] at h
    rcases List.mem_cons.mp h with h | h
    · exact absurd h (hx rfl)
    · exact List.mem_append_right _ h
  · rw [Function.update_of_ne hj]
    exact h

theorem mem_pending_new {p : ι → List ω} {ws new : List ω} {x : ω} (h : x ∈ new) :
    x ∈ Function.update p i (new++ws) i := by
  rw [Function.update_self]
  exact List.mem_append_left _ h

/-- Some call has still to run a section of a kind. -/
def Awaits (c : Pool ι ω σ) (S : ω → Prop) : Prop := ∃ i, ∃ w ∈ c.pending i, S w

/-- Some call other than `i` has. -/
def AwaitsBeside (c : Pool ι ω σ) (i : ι) (S : ω → Prop) : Prop :=
  ∃ j, j ≠ i ∧ ∃ w ∈ c.pending j, S w

section Awaits
variable {S : ω → Prop} {w : ω} {ws new : List ω} {s : σ}

theorem Awaits.keep (h : c.Awaits S) (hp : c.pending i = w :: ws) (hw : ¬ S w) :
    (⟨s, Function.update c.pending i (new++ws)⟩ : Pool ι ω σ).Awaits S := by
  obtain ⟨j, x, hx, hS⟩ := h
  exact ⟨j, x, mem_pending_of_ne new hp hx fun _ he => hw (he ▸ hS), hS⟩

/-- What the others have still to run does not depend on the call that moves. -/
theorem AwaitsBeside.keep (h : c.AwaitsBeside i S) (hp : c.pending i = w :: ws) :
    (⟨s, Function.update c.pending i (new++ws)⟩ : Pool ι ω σ).Awaits S := by
  obtain ⟨j, hj, x, hx, hS⟩ := h
  exact ⟨j, x, mem_pending_of_ne new hp hx fun he => absurd he hj, hS⟩

omit [DecidableEq ι] in
theorem Awaits.of_next (hp : c.pending i = w :: ws) (hw : S w) : c.Awaits S :=
  ⟨i, w, by simp [hp], hw⟩

theorem Awaits.of_new {x : ω} (hx : x ∈ new) (hS : S x) :
    (⟨s, Function.update c.pending i (new++ws)⟩ : Pool ι ω σ).Awaits S :=
  ⟨i, x, mem_pending_new hx, hS⟩

omit [DecidableEq ι] in
theorem Returned.not_awaits (h : c.Returned) : ¬ c.Awaits S := by
  rintro ⟨j, x, hx, -⟩
  rw [h j] at hx
  simp at hx

end Awaits

end Pool

namespace Pool
variable {ι ω σ : Type} {perform : ι → ω → σ → Option (σ × List ω)} {i : ι}

/-- A call that nobody interrupts runs from its first section to its return. -/
inductive Finishes (perform : ι → ω → σ → Option (σ × List ω)) (i : ι) :
    σ → List ω → σ → Prop where
  | nil (s : σ) : Finishes perform i s [] s
  | cons {s s₁ s₂ : σ} {w : ω} {ws new : List ω} (hs : perform i w s = some (s₁,new))
      (h : Finishes perform i s₁ (new++ws) s₂) : Finishes perform i s (w :: ws) s₂

theorem Finishes.append {s s₁ s₂ : σ} {ws ws' : List ω} (h : Finishes perform i s ws s₁)
    (h' : Finishes perform i s₁ ws' s₂) : Finishes perform i s (ws++ws') s₂ := by
  induction h with
  | nil => exact h'
  | cons hs _ ih =>
    have hrest := ih h'
    rw [List.append_assoc] at hrest
    exact .cons hs hrest

/-- It does so under the schedule that names no other call. -/
theorem Finishes.run [DecidableEq ι] {c : Pool ι ω σ} {s : σ} {ws : List ω}
    (h : Finishes perform i c.shared ws s) (hp : c.pending i = ws) :
    ∃ n, c.run perform (List.replicate n i) = ⟨s, Function.update c.pending i []⟩ := by
  obtain ⟨s₀, p⟩ := c
  dsimp only at h hp ⊢
  induction h generalizing p with
  | nil s => exact ⟨0, by rw [← hp, Function.update_eq_self]; rfl⟩
  | @cons s₀ s₁ s₂ w ws new hs h ih =>
    obtain ⟨n, hn⟩ := ih (Function.update p i (new++ws)) (Function.update_self ..)
    refine ⟨n+1, ?_⟩
    rw [List.replicate_succ, run_cons, step_eq hp hs, hn, Function.update_idem]

end Pool
end Perplex
