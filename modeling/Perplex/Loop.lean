import Mathlib.Data.Nat.Basic

/-! Loops without a counter. A round goes on from a new state or returns; a loop whose rounds lower
a measure returns, and as many rounds as the measure counts are enough. -/
namespace Perplex.Loop
variable {σ ρ : Type} (round : σ → σ ⊕ ρ)

/-- The loop returns, after finitely many rounds that go on. -/
inductive Returns : σ → ρ → Prop where
  | done {s : σ} {r : ρ} (h : round s = .inr r) : Returns s r
  | again {s s' : σ} {r : ρ} (h : round s = .inl s') (hrest : Returns s' r) : Returns s r

/-- The loop cut off after some rounds, with a result for the state it has reached by then. -/
def runFor (out : σ → ρ) : ℕ → σ → ρ
  | 0, s => out s
  | n+1, s =>
    match round s with
    | .inr r => r
    | .inl s' => runFor out n s'

variable {round}

/-- A loop returns one result. -/
theorem Returns.unique {s : σ} {r r' : ρ} (h : Returns round s r) (h' : Returns round s r') :
    r = r' := by
  induction h with
  | done h =>
    cases h' with
    | done h₂ => exact Sum.inr.inj (h.symm.trans h₂)
    | again h₂ _ => cases h.symm.trans h₂
  | again h _ ih =>
    cases h' with
    | done h₂ => cases h.symm.trans h₂
    | again h₂ hrest =>
      obtain rfl := Sum.inl.inj (h.symm.trans h₂)
      exact ih hrest

/-- With more rounds than the measure the cut is never reached. -/
theorem returns_runFor (measure : σ → ℕ)
    (h : ∀ s s', round s = .inl s' → measure s' < measure s) (out : σ → ρ) {n : ℕ} {s : σ}
    (hn : measure s < n) : Returns round s (runFor round out n s) := by
  induction n generalizing s with
  | zero => omega
  | succ n ih =>
    rw [runFor]
    cases hround : round s with
    | inr r => exact .done hround
    | inl s' =>
      have hless := h s s' hround
      exact .again hround (ih (by omega))

end Perplex.Loop
