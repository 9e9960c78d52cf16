import Mathlib.Data.List.Basic

/-! Two runs of one machine that differ in hidden steps only. When hidden steps keep a relation
between states, and the other steps made on both sides keep it, the runs end in states that are
related to the one reached without the hidden steps. -/
namespace Perplex
variable {σ κ : Type} (step : σ → κ → σ) (hidden : σ → κ → Bool)

/-- A run without its hidden steps. -/
def shown : σ → List κ → List κ
  | _, [] => []
  | s, c :: cs => if hidden s c then shown (step s c) cs else c :: shown (step s c) cs

section Simulation
variable {step hidden} {P : σ → Prop} {R : σ → κ → Prop} {S : σ → σ → Prop}
  (hP : ∀ s c, P s → R s c → P (step s c))
  (hhidden : ∀ s s' c, P s → hidden s c → S s s' → S (step s c) s')
  (hshown : ∀ s s' c, P s → S s s' → S (step s c) (step s' c))
include hP hhidden hshown

theorem sim_shown {s s' : σ} (hs : P s) (hsim : S s s') {cs : List κ}
    (hcs : ∀ pre c, pre++[c] <+: cs → R (pre.foldl step s) c) :
    S (cs.foldl step s) ((shown step hidden s cs).foldl step s') := by
  induction cs generalizing s s' with
  | nil => exact hsim
  | cons c cs ih =>
    have hc : R s c := hcs [] c ⟨cs,rfl⟩
    have hrest (pre : List κ) (c' : κ) (hpre : pre++[c'] <+: cs) :
        R (pre.foldl step (step s c)) c' :=
      hcs (c :: pre) c' (List.cons_prefix_cons.mpr ⟨rfl,hpre⟩)
    rw [shown]
    split_ifs with hhide
    · exact ih (hP s c hs hc) (hhidden s s' c hs hhide hsim) hrest
    · exact ih (hP s c hs hc) (hshown s s' c hs hsim) hrest

/-- Runs with the same steps shown are both related to one state. -/
theorem sim_of_shown_eq {s : σ} (hs : P s) (hsim : S s s) {cs₁ cs₂ : List κ}
    (h₁ : ∀ pre c, pre++[c] <+: cs₁ → R (pre.foldl step s) c)
    (h₂ : ∀ pre c, pre++[c] <+: cs₂ → R (pre.foldl step s) c)
    (heq : shown step hidden s cs₁ = shown step hidden s cs₂) :
    ∃ s', S (cs₁.foldl step s) s' ∧ S (cs₂.foldl step s) s' := by
  refine ⟨_, sim_shown hP hhidden hshown hs hsim h₁, ?_⟩
  rw [heq]
  exact sim_shown hP hhidden hshown hs hsim h₂

end Simulation

end Perplex
