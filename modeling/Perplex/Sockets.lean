import Mathlib.Data.List.Basic
import Mathlib.Logic.Function.Basic

/-! Sockets of a client, as a program sees them: numbered in the order of their creation, each
with its ready state and the frames sent on it. A socket that is closed stays closed. -/
namespace Perplex

inductive ReadyState where
  | CONNECTING
  | OPEN
  | CLOSING
  | CLOSED
deriving DecidableEq, Repr

structure Sockets (φ : Type) where
  count : ℕ
  ready : ℕ → ReadyState
  sent : ℕ → List φ
  unused : ∀ i, count ≤ i → ready i = .CLOSED
  unsent : ∀ i, ready i = .CONNECTING → sent i = []

namespace Sockets
variable {φ : Type}

def new : Sockets φ := ⟨0,fun _ => .CLOSED,fun _ => [],fun _ _ => rfl,fun _ _ => rfl⟩

/-- Connecting, or open and not being closed. -/
def live (s : Sockets φ) (i : ℕ) : Prop := s.ready i = .CONNECTING ∨ s.ready i = .OPEN

instance (s : Sockets φ) (i : ℕ) : Decidable (s.live i) := inferInstanceAs (Decidable (_ ∨ _))

theorem not_live_of_le {s : Sockets φ} {i : ℕ} (hi : s.count ≤ i) : ¬s.live i := by
  simp [live, s.unused i hi]

/-- A new socket, with the number `count`. -/
def create (s : Sockets φ) : Sockets φ where
  count := s.count+1
  ready := Function.update s.ready s.count .CONNECTING
  sent := Function.update s.sent s.count []
  unused i hi := by
    rw [Function.update_of_ne (by omega)]
    exact s.unused i (by omega)
  unsent i hi := by
    by_cases hc : i = s.count
    · simp [hc]
    · rw [Function.update_of_ne hc] at hi ⊢
      exact s.unsent i hi

/-- The ready state of a socket that is not closed moves on. -/
def move (s : Sockets φ) (i : ℕ) (r : ReadyState) (hr : r ≠ .CONNECTING) : Sockets φ where
  count := s.count
  ready j := if j = i ∧ s.ready j ≠ .CLOSED then r else s.ready j
  sent := s.sent
  unused j hj := by simp [s.unused j hj]
  unsent j hj := by
    split_ifs at hj
    · exact absurd hj hr
    · exact s.unsent j hj

/-- The handshake of a connecting socket succeeds. -/
def opened (s : Sockets φ) (i : ℕ) : Sockets φ :=
  if s.ready i = .CONNECTING then s.move i .OPEN (by decide) else s

/-- Either end starts to close. -/
def close (s : Sockets φ) (i : ℕ) : Sockets φ :=
  if s.live i then s.move i .CLOSING (by decide) else s

def closed (s : Sockets φ) (i : ℕ) : Sockets φ := s.move i .CLOSED (by decide)

/-- What is sent while the socket is not open is lost. -/
def send (s : Sockets φ) (i : ℕ) (f : φ) : Sockets φ where
  count := s.count
  ready := s.ready
  sent := if s.ready i = .OPEN then Function.update s.sent i (s.sent i++[f]) else s.sent
  unused := s.unused
  unsent j hj := by
    split_ifs with hi
    · have hne : j ≠ i := by
        rintro rfl
        cases hi.symm.trans hj
      rw [Function.update_of_ne hne]
      exact s.unsent j hj
    · exact s.unsent j hj

def sendAll (s : Sockets φ) (i : ℕ) (fs : List φ) : Sockets φ := fs.foldl (·.send i) s

variable {s : Sockets φ} {i j : ℕ}

@[simp]
theorem count_opened : (s.opened i).count = s.count := by
  unfold opened
  split <;> rfl

@[simp]
theorem count_close : (s.close i).count = s.count := by
  unfold close
  split <;> rfl

@[simp]
theorem sent_opened : (s.opened i).sent = s.sent := by
  unfold opened
  split <;> rfl

@[simp]
theorem sent_close : (s.close i).sent = s.sent := by
  unfold close
  split <;> rfl

@[simp]
theorem sent_closed : (s.closed i).sent = s.sent := rfl

@[simp]
theorem ready_sendAll (fs : List φ) : (s.sendAll i fs).ready = s.ready := by
  induction fs generalizing s with
  | nil => rfl
  | cons f fs ih => exact ih

theorem live_create : s.create.live j ↔ j = s.count ∨ s.live j := by
  by_cases hj : j = s.count
  · simp [live, create, hj]
  · simp [live, create, hj]

@[simp]
theorem live_opened : (s.opened i).live j ↔ s.live j := by
  unfold opened
  split_ifs with hi
  · by_cases hj : j = i
    · simp [live, move, hj, hi]
    · simp [live, move, hj]
  · rfl

theorem live_close : (s.close i).live j ↔ j ≠ i ∧ s.live j := by
  unfold close
  split_ifs with hi
  · by_cases hj : j = i
    · have hne : s.ready i ≠ .CLOSED := by
        rcases hi with hi | hi <;> simp [hi]
      simp [live, move, hj, hne]
    · simp [live, move, hj]
  · have hne (hj : s.live j) : j ≠ i := fun h => hi (h ▸ hj)
    exact ⟨fun hj => ⟨hne hj,hj⟩,And.right⟩

theorem live_closed : (s.closed i).live j ↔ j ≠ i ∧ s.live j := by
  by_cases hj : j = i
  · by_cases hi : s.ready i = .CLOSED <;> simp [live, closed, move, hj, hi]
  · simp [live, closed, move, hj]

theorem ready_create_eq_open : s.create.ready j = .OPEN ↔ s.ready j = .OPEN := by
  by_cases hj : j = s.count
  · simp [create, hj, s.unused s.count (Nat.le_refl _)]
  · simp [create, hj]

theorem ready_opened_eq_open :
    (s.opened i).ready j = .OPEN ↔ s.ready j = .OPEN ∨ (j = i ∧ s.ready i = .CONNECTING) := by
  unfold opened
  split_ifs with hi
  · by_cases hj : j = i
    · simp [move, hj, hi]
    · simp [move, hj]
  · simp [hi]

theorem ready_close_eq_open : (s.close i).ready j = .OPEN ↔ j ≠ i ∧ s.ready j = .OPEN := by
  unfold close
  split_ifs with hi
  · by_cases hj : j = i
    · by_cases hc : s.ready i = .CLOSED <;> simp [move, hj, hc]
    · simp [move, hj]
  · have hne (hj : s.ready j = .OPEN) : j ≠ i := fun h => hi (h ▸ Or.inr hj)
    exact ⟨fun hj => ⟨hne hj,hj⟩,And.right⟩

theorem ready_closed_eq_open : (s.closed i).ready j = .OPEN ↔ j ≠ i ∧ s.ready j = .OPEN := by
  by_cases hj : j = i
  · by_cases hi : s.ready i = .CLOSED <;> simp [closed, move, hj, hi]
  · simp [closed, move, hj]

theorem ready_move_of_closed (hj : s.ready j = .CLOSED) {r : ReadyState} (hr : r ≠ .CONNECTING) :
    (s.move i r hr).ready j = .CLOSED := by
  simp [move, hj]

theorem ready_opened_of_closed (hj : s.ready j = .CLOSED) : (s.opened i).ready j = .CLOSED := by
  unfold opened
  split_ifs
  · exact ready_move_of_closed hj _
  · exact hj

theorem ready_close_of_closed (hj : s.ready j = .CLOSED) : (s.close i).ready j = .CLOSED := by
  unfold close
  split_ifs
  · exact ready_move_of_closed hj _
  · exact hj

theorem ready_closed_ne (hj : (s.closed i).ready j ≠ .CLOSED) :
    j ≠ i ∧ s.ready j ≠ .CLOSED := by
  refine ⟨?_,fun hc => hj (ready_move_of_closed hc _)⟩
  rintro rfl
  apply hj
  by_cases hc : s.ready j = .CLOSED <;> simp [closed, move, hc]

theorem sent_create (hj : j ≠ s.count) : s.create.sent j = s.sent j :=
  Function.update_of_ne hj _ _

theorem sent_send (hi : s.ready i = .OPEN) (f : φ) : (s.send i f).sent i = s.sent i++[f] := by
  simp [send, hi]

theorem sent_send_of_ne (hj : j ≠ i) (f : φ) : (s.send i f).sent j = s.sent j := by
  unfold send
  split_ifs
  · exact Function.update_of_ne hj _ _
  · rfl

theorem sent_sendAll (hi : s.ready i = .OPEN) (fs : List φ) :
    (s.sendAll i fs).sent i = s.sent i++fs := by
  induction fs generalizing s with
  | nil => simp [sendAll]
  | cons f fs ih =>
    have h := ih (s := s.send i f) hi
    rw [sent_send hi, List.append_assoc] at h
    exact h

theorem sent_sendAll_of_ne (hj : j ≠ i) (fs : List φ) : (s.sendAll i fs).sent j = s.sent j := by
  induction fs generalizing s with
  | nil => rfl
  | cons f fs ih => exact (ih (s := s.send i f)).trans (sent_send_of_ne hj f)

/-- No socket but the given one is live. -/
def Sole (s : Sockets φ) (ws : Option ℕ) : Prop := ∀ i, s.live i → ws = some i

variable {ws : Option ℕ}

theorem sole_new (ws : Option ℕ) : (new : Sockets φ).Sole ws := by
  intro i hi
  exact absurd hi (not_live_of_le (Nat.zero_le i))

theorem Sole.unique (h : s.Sole ws) (hi : s.live i) (hj : s.live j) : i = j :=
  Option.some.inj ((h i hi).symm.trans (h j hj))

theorem Sole.mono {s' : Sockets φ} (h : s.Sole ws) (hs : ∀ i, s'.live i → s.live i) :
    s'.Sole ws :=
  fun i hi => h i (hs i hi)

/-- The only socket that comes to life becomes the current one. -/
theorem Sole.created {s' : Sockets φ} (h : s.Sole none)
    (hs : ∀ j, s'.live j → j = i ∨ s.live j) : s'.Sole (some i) := by
  intro j hj
  rcases hs j hj with rfl | hj
  · rfl
  · cases h j hj

/-- The current socket is let go when it is not live any more. -/
theorem Sole.dropped {s' : Sockets φ} (h : s.Sole ws)
    (hs : ∀ j, s'.live j → ws ≠ some j ∧ s.live j) : s'.Sole none := by
  intro j hj
  obtain ⟨hne, hj⟩ := hs j hj
  exact absurd (h j hj) hne

end Sockets

end Perplex
