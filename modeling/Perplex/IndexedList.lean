import Mathlib.Logic.Function.Basic
import Mathlib.Data.List.Nodup

/-! A list of distinct elements with a table of 1-based positions, zero for an absent
element. New elements go to the end; an element is removed by moving the last one into its
slot. -/
namespace Perplex
variable {α : Type} {l : List α} {idx : α → ℕ}

/-- The table is the inverse of the list. -/
def Inverse (l : List α) (idx : α → ℕ) : Prop := ∀ a k, idx a = k+1 ↔ l[k]? = some a

namespace Inverse

theorem mem_iff (h : Inverse l idx) (a : α) : a ∈ l ↔ idx a ≠ 0 := by
  rw [List.mem_iff_getElem?]
  constructor
  · rintro ⟨k, hk⟩
    have hidx := (h a k).mpr hk
    omega
  · intro hne
    obtain ⟨k, hk⟩ := Nat.exists_eq_succ_of_ne_zero hne
    exact ⟨k, (h a k).mp hk⟩

theorem nodup (h : Inverse l idx) : l.Nodup := by
  rw [List.nodup_iff_injective_getElem]
  intro i j hij
  have hi := (h _ i).mpr (List.getElem?_eq_getElem i.isLt)
  have hj := (h _ j).mpr (List.getElem?_eq_getElem j.isLt)
  have hij' : l[i.val] = l[j.val] := hij
  rw [hij', hj] at hi
  exact Fin.ext (by omega)

variable [DecidableEq α]

theorem push (h : Inverse l idx) {a : α} (ha : idx a = 0) :
    Inverse (l++[a]) (Function.update idx a (l.length+1)) := by
  have hnew : a ∉ l := fun hm => (h.mem_iff a).mp hm ha
  intro b k
  rw [List.getElem?_append, List.getElem?_singleton]
  by_cases hb : b = a
  · subst hb
    rw [Function.update_self]
    split_ifs with hk hk0
    · constructor
      · intro hlen
        omega
      · intro hget
        exact absurd (List.mem_of_getElem? hget) hnew
    · simp only [iff_true]
      omega
    · simp only [iff_false]
      omega
  · -- another element keeps its place, which is not the new last one
    rw [Function.update_of_ne hb, h b k]
    split_ifs with hk hk0
    · rfl
    · rw [List.getElem?_eq_none (Nat.le_of_not_lt hk)]
      simp [Ne.symm hb]
    · rw [List.getElem?_eq_none (Nat.le_of_not_lt hk)]
      simp

/-- Removing the last element. -/
theorem pop (h : Inverse l idx) {a : α} (ha : idx a = l.length) :
    Inverse l.dropLast (Function.update idx a 0) := by
  intro b k
  rw [List.getElem?_dropLast]
  by_cases hb : b = a
  · subst hb
    rw [Function.update_self]
    constructor
    · intro hk
      omega
    · intro hk
      split_ifs at hk with hlt
      have hk' := (h b k).mpr hk
      omega
  · rw [Function.update_of_ne hb, h b k]
    split_ifs with hlt
    · rfl
    · -- past the cut only the removed element could sit
      simp only [iff_false]
      intro hk
      have hlen := (List.getElem?_eq_some_iff.mp hk).1
      have hak : l[k]? = some a := (h a k).mp (by omega)
      rw [hak] at hk
      exact hb (Option.some.inj hk).symm

/-- Removing an element by moving the last one into its slot. -/
theorem swapRemove (h : Inverse l idx) {a last : α} {i : ℕ} (ha : idx a = i+1)
    (hi : i+1 ≠ l.length) (hlast : l[l.length-1]? = some last) :
    Inverse (l.set i last).dropLast
      (Function.update (Function.update idx last (i+1)) a 0) := by
  have hget : l[i]? = some a := (h a i).mp ha
  have hlt : i < l.length := (List.getElem?_eq_some_iff.mp hget).1
  have hlidx := (h last _).mpr hlast
  have hne : last ≠ a := by
    rintro rfl
    omega
  intro b k
  -- the slot `i` now holds the last entry, and the last slot is gone
  have hslot : (l.set i last).dropLast[k]? =
      if k < l.length-1 then if i = k then some last else l[k]? else none := by
    rw [List.getElem?_dropLast, List.getElem?_set, List.length_set]
    simp [hlt]
  rw [hslot]
  -- three kinds of entries: the one removed, the one moved, and the others
  by_cases hb : b = a
  · subst hb
    rw [Function.update_self]
    constructor
    · intro hk
      omega
    · intro hk
      split_ifs at hk with h1 h2
      · exact absurd (Option.some.inj hk) hne
      · have hk' := (h b k).mpr hk
        omega
  rw [Function.update_of_ne hb]
  by_cases hbl : b = last
  · subst hbl
    rw [Function.update_self]
    constructor
    · intro hk
      rw [if_pos (by omega), if_pos (by omega)]
    · intro hk
      split_ifs at hk with h1 h2
      · omega
      · have hk' := (h b k).mpr hk
        omega
  · rw [Function.update_of_ne hbl, h b k]
    constructor
    · intro hk
      have hklt := (List.getElem?_eq_some_iff.mp hk).1
      have hki : i ≠ k := by
        rintro rfl
        rw [hget] at hk
        exact hb (Option.some.inj hk).symm
      have hkn : k ≠ l.length-1 := by
        rintro rfl
        rw [hlast] at hk
        exact hbl (Option.some.inj hk).symm
      rw [if_pos (by omega), if_neg hki]
      exact hk
    · intro hk
      split_ifs at hk with h1 h2
      · exact absurd (Option.some.inj hk).symm hbl
      · exact hk

end Inverse
end Perplex
