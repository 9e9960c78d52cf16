import Mathlib.Data.List.Basic
import Mathlib.Data.List.Induction
import Mathlib.Data.List.Nodup
import Mathlib.Logic.Function.Basic
import Mathlib.Order.Basic

/-! Lists that only grow at the end, with a key for each entry. The latest entry of a key is the
last one in the list, and a table that is written entry by entry holds the latest ones. Entries
with a time are in order when no key ever goes back. -/
namespace Perplex.Journal
variable {α κ β γ : Type} [DecidableEq κ] (key : α → κ)

def latest (log : List α) (k : κ) : Option α := log.reverse.find? fun x => key x = k

/-- Each entry is written under its key. -/
def record (val : α → γ) (table : κ → Option γ) (log : List α) : κ → Option γ :=
  log.foldl (fun t x => Function.update t (key x) (some (val x))) table

/-- Among entries of one key the times never decrease. -/
def Ordered [LE β] (time : α → β) (log : List α) : Prop :=
  log.Pairwise fun x y => key x = key y → time x ≤ time y

variable {key}

@[simp]
theorem latest_nil (k : κ) : latest key ([] : List α) k = none := rfl

theorem latest_append (log more : List α) (k : κ) :
    latest key (log++more) k = (latest key more k).or (latest key log k) := by
  rw [latest, List.reverse_append, List.find?_append]
  rfl

theorem latest_concat (log : List α) (x : α) (k : κ) :
    latest key (log++[x]) k = if key x = k then some x else latest key log k := by
  rw [latest_append]
  by_cases h : key x = k <;> simp [latest, h]

theorem latest_eq_none {log : List α} {k : κ} :
    latest key log k = none ↔ ∀ x ∈ log, key x ≠ k := by
  simp [latest]

/-- Two keys that single out the same entries have the same latest one. -/
theorem latest_congr {κ' : Type} [DecidableEq κ'] {key' : α → κ'} {k : κ} {k' : κ'}
    (h : ∀ x, key x = k ↔ key' x = k') (log : List α) : latest key log k = latest key' log k' := by
  simp only [latest, h]

theorem key_of_latest {log : List α} {k : κ} {x : α} (h : latest key log k = some x) :
    key x = k := by
  simpa using List.find?_some h

theorem mem_of_latest {log : List α} {k : κ} {x : α} (h : latest key log k = some x) : x ∈ log :=
  List.mem_reverse.mp (List.mem_of_find?_eq_some h)

/-- The table holds the latest entries, and is as before where there is none. -/
theorem record_apply (val : α → γ) (table : κ → Option γ) (log : List α) (k : κ) :
    record key val table log k = ((latest key log k).map val).or (table k) := by
  induction log using List.reverseRecOn with
  | nil => rfl
  | append_singleton log x ih =>
    have hstep : record key val table (log++[x]) =
        Function.update (record key val table log) (key x) (some (val x)) := by
      simp [record]
    rw [hstep, latest_concat]
    by_cases h : key x = k
    · rw [if_pos h, ← h, Function.update_self]
      rfl
    · rw [if_neg h, Function.update_of_ne (Ne.symm h), ih]

section Order
variable [Preorder β] {time : α → β} {log more : List α}

/-- Key by key, the list of times is sorted. -/
theorem ordered_iff : Ordered key time log ↔
    ∀ k, ((log.filter fun x => key x = k).map time).Pairwise (· ≤ ·) := by
  simp only [List.pairwise_map, List.pairwise_filter, decide_eq_true_eq]
  constructor
  · intro h k
    exact h.imp fun hle hx hy => hle (hx.trans hy.symm)
  · intro h
    induction log with
    | nil => exact List.Pairwise.nil
    | cons x log ih =>
      refine List.Pairwise.cons ?_ (ih fun k => (List.pairwise_cons.mp (h k)).2)
      intro y hy he
      exact (List.pairwise_cons.mp (h (key x))).1 y hy rfl he.symm

/-- No entry is after the latest one of its key. -/
theorem Ordered.le_latest (h : Ordered key time log) {x y : α} (hx : x ∈ log)
    (hy : latest key log (key x) = some y) : time x ≤ time y := by
  induction log using List.reverseRecOn with
  | nil => cases hx
  | append_singleton log z ih =>
    obtain ⟨hlog, -, hz⟩ := List.pairwise_append.mp h
    rw [latest_concat] at hy
    split_ifs at hy with hkey
    · cases hy
      rcases List.mem_append.mp hx with hx | hx
      · exact hz x hx y List.mem_cons_self hkey.symm
      · rw [List.mem_singleton.mp hx]
    · rcases List.mem_append.mp hx with hx | hx
      · exact ih hlog hx hy
      · exact absurd (congrArg key (List.mem_singleton.mp hx)).symm hkey

end Order
end Perplex.Journal
