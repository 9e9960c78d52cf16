import Mathlib.Data.List.Basic
import Mathlib.Logic.Function.Basic

/-! Workers with a state of their own, each taking requests from a bounded mailbox, one after the
other. The requests that got into a mailbox are numbered in that order, over all mailboxes. Every
answer is the one that the worker would give if it had handled the requests in this order, each
at once when it got in. -/
namespace Perplex

/-- The state each worker starts in, what a request does to it, and the answer. -/
structure Workers (κ α ρ σ : Type) where
  init : κ → σ
  step : σ → α → σ
  reply : σ → α → ρ

structure Mailboxes (κ α ρ σ : Type) where
  state : κ → σ
  queue : κ → List (ℕ × α)
  replies : ℕ → Option ρ
  /-- The requests that got in, with their keys. -/
  log : List (κ × α)

/-- A caller puts a request into a mailbox, or a worker takes one. -/
inductive Move (κ α : Type) where
  | send (k : κ) (a : α)
  | work (k : κ)
deriving DecidableEq, Repr

namespace Workers
variable {κ α ρ σ : Type} [DecidableEq κ] (w : Workers κ α ρ σ)

/-- The requests of a log for one key. -/
def requests (k : κ) (log : List (κ × α)) : List α := (log.filter (·.1 = k)).map (·.2)

/-- The state of a worker that has handled the requests of a log. -/
def after (log : List (κ × α)) (k : κ) : σ := (requests k log).foldl w.step (w.init k)

@[simp]
theorem requests_concat (k : κ) (log : List (κ × α)) (k' : κ) (a : α) :
    requests k (log++[(k',a)]) = requests k log++if k' = k then [a] else [] := by
  by_cases hk : k' = k <;> simp [requests, hk]

end Workers

namespace Mailboxes
variable {κ α ρ σ : Type} [DecidableEq κ] (w : Workers κ α ρ σ) (capacity : ℕ)

def start : Mailboxes κ α ρ σ := ⟨w.init,fun _ => [],fun _ => none,[]⟩

/-- A caller waits while the mailbox is full. -/
def send (c : Mailboxes κ α ρ σ) (k : κ) (a : α) : Mailboxes κ α ρ σ :=
  if (c.queue k).length < capacity then
    { c with
      queue := Function.update c.queue k (c.queue k++[(c.log.length,a)])
      log := c.log++[(k,a)] }
  else c

/-- A worker waits while its mailbox is empty. -/
def work (c : Mailboxes κ α ρ σ) (k : κ) : Mailboxes κ α ρ σ :=
  match c.queue k with
  | [] => c
  | (n,a) :: rest =>
    { c with
      state := Function.update c.state k (w.step (c.state k) a)
      queue := Function.update c.queue k rest
      replies := Function.update c.replies n (some (w.reply (c.state k) a)) }

def step (c : Mailboxes κ α ρ σ) : Move κ α → Mailboxes κ α ρ σ
  | .send k a => c.send capacity k a
  | .work k => c.work w k

def run (c : Mailboxes κ α ρ σ) (ms : List (Move κ α)) : Mailboxes κ α ρ σ :=
  ms.foldl (step w capacity) c

open Workers

/-- Each worker has handled the first requests for its key, in order, and has the others before
it; the answers given are those of handling the log in order. -/
structure Serial (c : Mailboxes κ α ρ σ) (received : κ → List α) : Prop where
  state : ∀ k, c.state k = (received k).foldl w.step (w.init k)
  log : ∀ k, requests k c.log = received k++(c.queue k).map (·.2)
  queued : ∀ k before x after, c.queue k = before++x :: after →
    c.log[x.1]? = some (k,x.2) ∧
      requests k (c.log.take x.1) = received k++before.map (·.2)
  replies : ∀ n v, c.replies n = some v → ∃ k a, c.log[n]? = some (k,a) ∧
    v = w.reply (w.after (c.log.take n) k) a
  answered : ∀ n k a, c.log[n]? = some (k,a) → (c.replies n).isSome ∨ (n,a) ∈ c.queue k

variable {w capacity} {c : Mailboxes κ α ρ σ} {received : κ → List α}

theorem serial_start : (start w).Serial w fun _ => [] where
  state _ := rfl
  log _ := rfl
  queued k before x after h := by
    cases before <;> cases h
  replies n v h := by cases h
  answered n k a h := by simp [start] at h

/-- A request that gets in comes after all others. -/
theorem Serial.send (h : c.Serial w received) (k : κ) (a : α) :
    (c.send capacity k a).Serial w received := by
  unfold Mailboxes.send
  split_ifs
  · have hold {n : ℕ} {x : κ × α} (hn : c.log[n]? = some x) :
        (c.log++[(k,a)])[n]? = some x ∧ (c.log++[(k,a)]).take n = c.log.take n := by
      obtain ⟨hlt, -⟩ := List.getElem?_eq_some_iff.mp hn
      exact ⟨by rw [List.getElem?_append_left hlt, hn],List.take_append_of_le_length (Nat.le_of_lt hlt)⟩
    refine ⟨h.state,?_,?_,?_,?_⟩
    · intro k'
      rw [requests_concat, h.log k']
      by_cases hk : k = k'
      · subst hk
        simp
      · have hne : k' ≠ k := fun he => hk he.symm
        simp [hk, Function.update_of_ne hne]
    · intro k' before x after hq
      dsimp only at hq ⊢
      by_cases hk : k' = k
      · subst hk
        rw [Function.update_self] at hq
        rcases List.eq_nil_or_concat after with rfl | ⟨after', y, rfl⟩
        · -- the new request itself
          obtain ⟨hbefore, hx⟩ := List.append_inj' hq rfl
          obtain rfl := List.singleton_inj.mp hx
          refine ⟨by simp,?_⟩
          simp only [List.take_left']
          rw [h.log k', hbefore]
        · have hq' : c.queue k'++[(c.log.length,a)] = (before++x :: after')++[y] := by
            rw [hq]
            simp
          obtain ⟨hbefore, -⟩ := List.append_inj' hq' rfl
          obtain ⟨hx, htake⟩ := h.queued k' before x after' hbefore
          obtain ⟨hx', htake'⟩ := hold hx
          exact ⟨hx',htake' ▸ htake⟩
      · rw [Function.update_of_ne hk] at hq
        obtain ⟨hx, htake⟩ := h.queued k' before x after hq
        obtain ⟨hx', htake'⟩ := hold hx
        exact ⟨hx',htake' ▸ htake⟩
    · intro n v hv
      obtain ⟨k', a', hn, hreply⟩ := h.replies n v hv
      obtain ⟨hn', htake⟩ := hold hn
      exact ⟨k',a',hn',by rw [htake]; exact hreply⟩
    · intro n k' a' hn
      dsimp only at hn ⊢
      rcases Nat.lt_or_ge n c.log.length with hlt | hge
      · rw [List.getElem?_append_left hlt] at hn
        refine (h.answered n k' a' hn).imp_right fun hmem => ?_
        by_cases hk : k' = k
        · subst hk
          rw [Function.update_self]
          exact List.mem_append_left _ hmem
        · rw [Function.update_of_ne hk]
          exact hmem
      · right
        rw [List.getElem?_append_right hge] at hn
        obtain ⟨hlt, hx⟩ := List.getElem?_eq_some_iff.mp hn
        have hzero : n-c.log.length = 0 := by simpa using hlt
        obtain rfl : n = c.log.length := by omega
        obtain ⟨rfl, rfl⟩ : k = k' ∧ a = a' := by simpa using hx
        rw [Function.update_self]
        exact List.mem_append_right _ List.mem_cons_self
  · exact h

/-- A worker takes the first request of its mailbox. -/
theorem Serial.work (h : c.Serial w received) (k : κ) :
    ∃ received', (c.work w k).Serial w received' := by
  unfold Mailboxes.work
  split
  · exact ⟨received,h⟩
  · next n a rest hq =>
    obtain ⟨hn, htake⟩ := h.queued k [] (n,a) rest hq
    rw [List.map_nil, List.append_nil] at htake
    refine ⟨Function.update received k (received k++[a]),?_,?_,?_,?_,?_⟩
    · intro k'
      by_cases hk : k' = k
      · subst hk
        simp [h.state k']
      · simp [Function.update_of_ne hk, h.state k']
    · intro k'
      by_cases hk : k' = k
      · subst hk
        rw [h.log k', hq]
        simp
      · simp [Function.update_of_ne hk, h.log k']
    · intro k' before x after hq'
      dsimp only at hq' ⊢
      by_cases hk : k' = k
      · subst hk
        rw [Function.update_self] at hq' ⊢
        obtain ⟨hx, htake'⟩ := h.queued k' ((n,a) :: before) x after (by rw [hq, hq']; rfl)
        refine ⟨hx,?_⟩
        rw [htake', List.append_assoc]
        rfl
      · rw [Function.update_of_ne hk] at hq' ⊢
        exact h.queued k' before x after hq'
    · intro m v hv
      dsimp only at hv ⊢
      by_cases hm : m = n
      · subst hm
        rw [Function.update_self] at hv
        refine ⟨k,a,hn,?_⟩
        -- the state is that after the requests that came before
        rw [Workers.after, htake, ← h.state k]
        exact (Option.some.inj hv).symm
      · rw [Function.update_of_ne hm] at hv
        exact h.replies m v hv
    · intro m k' a' hm
      dsimp only at hm ⊢
      by_cases hmn : m = n
      · subst hmn
        left
        rw [Function.update_self]
        rfl
      · rw [Function.update_of_ne hmn]
        refine (h.answered m k' a' hm).imp_right fun hmem => ?_
        by_cases hk : k' = k
        · subst hk
          rw [Function.update_self]
          rw [hq] at hmem
          refine (List.mem_cons.mp hmem).resolve_left fun he => hmn ?_
          exact congrArg Prod.fst he
        · rw [Function.update_of_ne hk]
          exact hmem

theorem Serial.step (h : c.Serial w received) (m : Move κ α) :
    ∃ received', (c.step w capacity m).Serial w received' := by
  cases m with
  | send k a => exact ⟨received,h.send k a⟩
  | work k => exact h.work k

theorem serial_run (h : c.Serial w received) (ms : List (Move κ α)) :
    ∃ received', (c.run w capacity ms).Serial w received' := by
  induction ms generalizing c received with
  | nil => exact ⟨received,h⟩
  | cons m ms ih =>
    obtain ⟨received', hstep⟩ := h.step m
    exact ih hstep

theorem log_prefix_step (c : Mailboxes κ α ρ σ) (m : Move κ α) :
    c.log <+: (c.step w capacity m).log := by
  cases m with
  | send k a =>
    unfold step send
    dsimp only
    split_ifs
    · exact List.prefix_append _ _
    · exact List.prefix_refl _
  | work k =>
    unfold step work
    dsimp only
    split <;> exact List.prefix_refl _

/-- What has got in stays in front of what gets in later. -/
theorem log_prefix_run (c : Mailboxes κ α ρ σ) (ms : List (Move κ α)) :
    c.log <+: (c.run w capacity ms).log := by
  induction ms generalizing c with
  | nil => exact List.prefix_refl _
  | cons m ms ih => exact (log_prefix_step c m).trans (ih _)

theorem isSome_replies_step (c : Mailboxes κ α ρ σ) (m : Move κ α) {n : ℕ}
    (h : (c.replies n).isSome) : ((c.step w capacity m).replies n).isSome := by
  cases m with
  | send k a =>
    unfold step send
    dsimp only
    split_ifs <;> exact h
  | work k =>
    unfold step work
    dsimp only
    split
    · exact h
    · next i _ _ _ =>
      dsimp only
      by_cases hn : n = i
      · subst hn
        rw [Function.update_self]
        rfl
      · rw [Function.update_of_ne hn]
        exact h

theorem isSome_replies_run (c : Mailboxes κ α ρ σ) (ms : List (Move κ α)) {n : ℕ}
    (h : (c.replies n).isSome) : ((c.run w capacity ms).replies n).isSome := by
  induction ms generalizing c with
  | nil => exact h
  | cons m ms ih => exact ih _ (isSome_replies_step c m h)

/-- An answer once given stands: it rests on what got in before. -/
theorem replies_run (h : c.Serial w received) (ms : List (Move κ α)) {n : ℕ} {v : ρ}
    (hv : c.replies n = some v) : (c.run w capacity ms).replies n = some v := by
  obtain ⟨received', h'⟩ := serial_run h ms
  obtain ⟨v', hv'⟩ := Option.isSome_iff_exists.mp
    (isSome_replies_run c ms (by rw [hv]; rfl))
  obtain ⟨k, a, hn, hreply⟩ := h.replies n v hv
  obtain ⟨k', a', hn', hreply'⟩ := h'.replies n v' hv'
  obtain ⟨later, hlog⟩ := log_prefix_run c ms
  obtain ⟨hlt, -⟩ := List.getElem?_eq_some_iff.mp hn
  rw [← hlog] at hn' hreply'
  rw [List.getElem?_append_left hlt, hn] at hn'
  obtain ⟨rfl, rfl⟩ : k = k' ∧ a = a' := by simpa using hn'
  rw [List.take_append_of_le_length (Nat.le_of_lt hlt), ← hreply] at hreply'
  rw [hv', hreply']

/-- A worker that is run often enough empties its mailbox, and puts nothing into the log. -/
theorem run_work (c : Mailboxes κ α ρ σ) (k : κ) :
    let c' := c.run w capacity (List.replicate (c.queue k).length (.work k))
    c'.queue k = [] ∧ c'.log = c.log := by
  generalize hlength : (c.queue k).length = n
  induction n generalizing c with
  | zero => exact ⟨List.length_eq_zero_iff.mp hlength,rfl⟩
  | succ n ih =>
    obtain ⟨x, rest, hq⟩ := List.exists_cons_of_length_eq_add_one hlength
    have hstep : (c.work w k).queue k = rest ∧ (c.work w k).log = c.log := by
      unfold work
      rw [hq]
      exact ⟨Function.update_self ..,rfl⟩
    have hrest := ih (c.work w k) (by rw [hstep.1]; simpa [hq] using hlength)
    rw [List.replicate_succ]
    exact ⟨hrest.1,hrest.2.trans hstep.2⟩

/-- So every request that got in is answered. -/
theorem answered_run (h : c.Serial w received) {n : ℕ} {k : κ} {a : α}
    (hn : c.log[n]? = some (k,a)) :
    ((c.run w capacity (List.replicate (c.queue k).length (.work k))).replies n).isSome := by
  obtain ⟨received', hserial⟩ := serial_run h
    (List.replicate (c.queue k).length (.work k))
  obtain ⟨hempty, hlog⟩ := run_work (w := w) c k
  refine (hserial.answered n k a (by rw [hlog]; exact hn)).resolve_right ?_
  rw [hempty]
  exact List.not_mem_nil

end Mailboxes

end Perplex
