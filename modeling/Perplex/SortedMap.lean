import Mathlib.Data.List.Sort
import Mathlib.Data.List.TakeWhile
import Mathlib.Tactic.Linarith
import Mathlib.Tactic.Ring

/-! Ordered maps as association lists whose keys increase strictly. Iteration follows
the key order, as it does for a balanced search tree. -/
namespace Perplex

/-- A finite map iterated in key order. -/
@[ext]
structure SortedMap (K V : Type*) [LinearOrder K] where
  entries : List (K × V)
  sorted : entries.Pairwise (fun a b => a.1 < b.1)

namespace SortedMap
variable {K V : Type*} [LinearOrder K]

instance [DecidableEq V] : DecidableEq (SortedMap K V) := fun a b =>
  decidable_of_iff (a.entries = b.entries) SortedMap.ext_iff.symm

def empty : SortedMap K V := ⟨[], List.Pairwise.nil⟩

def get? (m : SortedMap K V) (k : K) : Option V :=
  (m.entries.find? (fun e => e.1 = k)).map Prod.snd

theorem adjust_sorted (l : List (K × V)) (k : K) (f : V → V)
    (h : l.Pairwise (fun a b => a.1 < b.1)) :
    (l.map (fun e => if e.1 = k then (e.1,f e.2) else e)).Pairwise (fun a b => a.1 < b.1) := by
  rw [List.pairwise_map]
  refine h.imp ?_
  intro a b hab
  split_ifs <;> exact hab

/-- In-place edit of the value stored under `k`; nothing happens when `k` is absent. -/
def adjust (m : SortedMap K V) (k : K) (f : V → V) : SortedMap K V :=
  ⟨m.entries.map (fun e => if e.1 = k then (e.1,f e.2) else e), adjust_sorted _ k f m.sorted⟩

def erase (m : SortedMap K V) (k : K) : SortedMap K V :=
  ⟨m.entries.filter (fun e => e.1 ≠ k), m.sorted.filter _⟩

/-- Edit the value under `k`, starting from `d` in its ordered place when `k` is absent. -/
def upsertList (k : K) (d : V) (f : V → V) : List (K × V) → List (K × V)
  | [] => [(k,f d)]
  | e :: rest =>
    if k < e.1 then (k,f d) :: e :: rest
    else if k = e.1 then (e.1,f e.2) :: rest
    else e :: upsertList k d f rest

theorem mem_upsertList {k : K} {d : V} {f : V → V} {l : List (K × V)} {x : K × V}
    (h : x ∈ upsertList k d f l) :
    x ∈ l ∨ x = (k,f d) ∨ ∃ v, (k,v) ∈ l ∧ x = (k,f v) := by
  induction l with
  | nil => exact Or.inr (Or.inl (by simpa [upsertList] using h))
  | cons e rest ih =>
    unfold upsertList at h
    split_ifs at h with h1 h2
    · rcases List.mem_cons.mp h with rfl | h
      · exact Or.inr (Or.inl rfl)
      · exact Or.inl h
    · rcases List.mem_cons.mp h with rfl | h
      · exact Or.inr (Or.inr ⟨e.2, by simp [h2], by simp [h2]⟩)
      · exact Or.inl (List.mem_cons_of_mem _ h)
    · rcases List.mem_cons.mp h with rfl | h
      · exact Or.inl List.mem_cons_self
      · rcases ih h with h | h | ⟨v, hv, rfl⟩
        · exact Or.inl (List.mem_cons_of_mem _ h)
        · exact Or.inr (Or.inl h)
        · exact Or.inr (Or.inr ⟨v, List.mem_cons_of_mem _ hv, rfl⟩)

/-- An entry stays as it is or is the one that is edited. -/
theorem mem_upsertList_of_mem {l : List (K × V)} {x : K × V} (h : x ∈ l) (k : K) (d : V)
    (f : V → V) : x ∈ upsertList k d f l ∨ (x.1,f x.2) ∈ upsertList k d f l := by
  induction l with
  | nil => simp at h
  | cons e rest ih =>
    unfold upsertList
    rcases List.mem_cons.mp h with rfl | h
    · split_ifs
      · exact Or.inl (List.mem_cons_of_mem _ List.mem_cons_self)
      · exact Or.inr List.mem_cons_self
      · exact Or.inl List.mem_cons_self
    · split_ifs
      · exact Or.inl (List.mem_cons_of_mem _ (List.mem_cons_of_mem _ h))
      · exact Or.inl (List.mem_cons_of_mem _ h)
      · exact (ih h).imp (List.mem_cons_of_mem _) (List.mem_cons_of_mem _)

theorem upsertList_sorted (k : K) (d : V) (f : V → V) (l : List (K × V))
    (h : l.Pairwise (fun a b => a.1 < b.1)) :
    (upsertList k d f l).Pairwise (fun a b => a.1 < b.1) := by
  induction l with
  | nil => exact List.pairwise_singleton _ _
  | cons e rest ih =>
    obtain ⟨he, hr⟩ := List.pairwise_cons.mp h
    unfold upsertList
    split_ifs with h1 h2
    · refine List.pairwise_cons.mpr ⟨?_, h⟩
      intro x hx
      rcases List.mem_cons.mp hx with rfl | hx
      · exact h1
      · exact h1.trans (he x hx)
    · exact List.pairwise_cons.mpr ⟨he, hr⟩
    · refine List.pairwise_cons.mpr ⟨?_, ih hr⟩
      intro x hx
      -- `k` goes further down, so that the head stays the least key
      have hk : e.1 < k := lt_of_le_of_ne (not_lt.mp h1) (fun hh => h2 hh.symm)
      rcases mem_upsertList hx with hx | rfl | ⟨v, _, rfl⟩
      · exact he x hx
      · exact hk
      · exact hk

def upsert (m : SortedMap K V) (k : K) (d : V) (f : V → V) : SortedMap K V :=
  ⟨upsertList k d f m.entries, upsertList_sorted k d f _ m.sorted⟩

theorem upsertList_upsertList (k : K) (d : V) (f g : V → V) (l : List (K × V)) :
    upsertList k d f (upsertList k d g l) = upsertList k d (fun v => f (g v)) l := by
  induction l with
  | nil => simp [upsertList]
  | cons e rest ih =>
    rcases lt_trichotomy k e.1 with he | he | he
    · simp [upsertList, he]
    · simp [upsertList, he]
    · simp [upsertList, he.not_gt, he.ne', ih]

theorem upsertList_comm_of_lt {k k' : K} (hk : k < k') (d : V) (f g : V → V)
    (l : List (K × V)) :
    upsertList k d f (upsertList k' d g l) = upsertList k' d g (upsertList k d f l) := by
  induction l with
  | nil => simp [upsertList, hk, hk.not_gt, hk.ne']
  | cons e rest ih =>
    rcases lt_trichotomy k e.1 with he | he | he
    · -- `k` goes in front, wherever `k'` goes
      rcases lt_trichotomy k' e.1 with he' | he' | he'
      · simp [upsertList, he, he', hk, hk.not_gt, hk.ne']
      · simp [upsertList, he, he', he.not_gt, he.ne']
      · simp [upsertList, he, he'.not_gt, he'.ne', hk.not_gt, hk.ne']
    · have he' : e.1 < k' := he ▸ hk
      simp [upsertList, he, he'.not_gt, he'.ne']
    · have he' : e.1 < k' := he.trans hk
      simp [upsertList, he.not_gt, he.ne', he'.not_gt, he'.ne', ih]

/-- Edits that commute on values commute on maps. -/
theorem upsert_comm (m : SortedMap K V) (k k' : K) (d : V) {f g : V → V}
    (h : ∀ v, f (g v) = g (f v)) :
    (m.upsert k' d g).upsert k d f = (m.upsert k d f).upsert k' d g := by
  apply SortedMap.ext
  change upsertList k d f (upsertList k' d g m.entries) =
    upsertList k' d g (upsertList k d f m.entries)
  rcases lt_trichotomy k k' with hk | rfl | hk
  · exact upsertList_comm_of_lt hk d f g m.entries
  · rw [upsertList_upsertList, upsertList_upsertList, funext h]
  · exact (upsertList_comm_of_lt hk d g f m.entries).symm

section Lookup
variable {k k' : K} {d : V} {f g : V → V} {l : List (K × V)}

theorem find?_upsertList_of_ne (hk : k' ≠ k) :
    (upsertList k d f l).find? (fun e => e.1 = k') = l.find? (fun e => e.1 = k') := by
  induction l with
  | nil => simp [upsertList, hk.symm]
  | cons e rest ih =>
    unfold upsertList
    split_ifs with h1 h2
    · simp [hk.symm]
    · simp [← h2, hk.symm]
    · simp only [List.find?_cons, ih]

/-- A key before the first one is absent. -/
theorem find?_of_lt_head {e : K × V} (hl : (e :: l).Pairwise (fun a b => a.1 < b.1))
    (hk : k < e.1) : (e :: l).find? (fun x => x.1 = k) = none := by
  rw [List.find?_eq_none]
  intro x hx
  rcases List.mem_cons.mp hx with rfl | hx
  · simpa using hk.ne'
  · simpa using (hk.trans ((List.pairwise_cons.mp hl).1 x hx)).ne'

theorem find?_upsertList_self (hl : l.Pairwise (fun a b => a.1 < b.1)) :
    ((upsertList k d f l).find? (fun e => e.1 = k)).map Prod.snd =
      some (f (((l.find? (fun e => e.1 = k)).map Prod.snd).getD d)) := by
  induction l with
  | nil => simp [upsertList]
  | cons e rest ih =>
    unfold upsertList
    split_ifs with h1 h2
    · simp [find?_of_lt_head hl h1]
    · simp [h2]
    · have hne : e.1 ≠ k := fun hh => h2 hh.symm
      simpa [hne] using ih (List.pairwise_cons.mp hl).2

theorem upsertList_congr (hl : l.Pairwise (fun a b => a.1 < b.1))
    (h : f (((l.find? (fun e => e.1 = k)).map Prod.snd).getD d) =
      g (((l.find? (fun e => e.1 = k)).map Prod.snd).getD d)) :
    upsertList k d f l = upsertList k d g l := by
  induction l with
  | nil => simpa [upsertList] using h
  | cons e rest ih =>
    unfold upsertList
    split_ifs with h1 h2
    · have hd : f d = g d := by simpa [find?_of_lt_head hl h1] using h
      rw [hd]
    · have he : f e.2 = g e.2 := by simpa [h2] using h
      rw [he]
    · have hne : e.1 ≠ k := fun hh => h2 hh.symm
      rw [ih (List.pairwise_cons.mp hl).2 (by simpa [hne] using h)]

variable (m : SortedMap K V)

theorem get?_upsert_of_ne (hk : k' ≠ k) : (m.upsert k d f).get? k' = m.get? k' := by
  simp only [get?, upsert, find?_upsertList_of_ne hk]

theorem get?_upsert_self : (m.upsert k d f).get? k = some (f ((m.get? k).getD d)) :=
  find?_upsertList_self m.sorted

/-- What is listed is what is looked up. -/
theorem mem_entries_iff {m : SortedMap K V} {x : K × V} :
    x ∈ m.entries ↔ m.get? x.1 = some x.2 := by
  have hkeys {y : K × V} (hx : x ∈ m.entries) (hy : y ∈ m.entries) (he : y.1 = x.1) : y = x := by
    have hnd : (m.entries.map Prod.fst).Nodup :=
      List.pairwise_map.mpr (m.sorted.imp fun hlt => ne_of_lt hlt)
    exact List.inj_on_of_nodup_map hnd hy hx he
  constructor
  · intro hx
    obtain ⟨y, hy⟩ := Option.isSome_iff_exists.mp
      (List.find?_isSome (p := fun e : K × V => e.1 = x.1).mpr ⟨x, hx, by simp⟩)
    have he : y.1 = x.1 := by simpa using List.find?_some hy
    rw [get?, hy, hkeys hx (List.mem_of_find?_eq_some hy) he]
    rfl
  · intro h
    obtain ⟨y, hy, he⟩ := Option.map_eq_some_iff.mp h
    have hk : y.1 = x.1 := by simpa using List.find?_some hy
    exact Prod.ext hk he ▸ List.mem_of_find?_eq_some hy

/-- Edits that agree on the stored value are the same. -/
theorem upsert_congr (h : f ((m.get? k).getD d) = g ((m.get? k).getD d)) :
    m.upsert k d f = m.upsert k d g := SortedMap.ext (upsertList_congr m.sorted h)

end Lookup

section Middle
variable {m : SortedMap K V} {k : K} {v : V} {pre post : List (K × V)}

/-- No other entry has the key of a given one, so keyed edits are local. -/
theorem other_keys_ne (h : m.entries = pre++(k,v) :: post) :
    (∀ e ∈ pre, e.1 ≠ k) ∧ ∀ e ∈ post, e.1 ≠ k := by
  have hs := m.sorted
  rw [h, List.pairwise_append] at hs
  obtain ⟨-, hpost, hpre⟩ := hs
  refine ⟨fun e he => (hpre e he (k,v) List.mem_cons_self).ne, fun e he => ?_⟩
  exact ((List.pairwise_cons.mp hpost).1 e he).ne'

theorem adjust_middle (f : V → V) (h : m.entries = pre++(k,v) :: post) :
    (m.adjust k f).entries = pre++(k,f v) :: post := by
  obtain ⟨hpre, hpost⟩ := other_keys_ne h
  have hid (l : List (K × V)) (hl : ∀ e ∈ l, e.1 ≠ k) :
      l.map (fun e => if e.1 = k then (e.1,f e.2) else e) = l := by
    conv_rhs => rw [← List.map_id l]
    apply List.map_congr_left
    intro e he
    simp [hl e he]
  simp only [adjust, h, List.map_append, List.map_cons, if_true]
  rw [hid pre hpre, hid post hpost]

theorem erase_middle (h : m.entries = pre++(k,v) :: post) :
    (m.erase k).entries = pre++post := by
  obtain ⟨hpre, hpost⟩ := other_keys_ne h
  have hid (l : List (K × V)) (hl : ∀ e ∈ l, e.1 ≠ k) : l.filter (fun e => e.1 ≠ k) = l :=
    List.filter_eq_self.mpr (fun e he => by simpa using hl e he)
  simp only [erase, h, List.filter_append]
  rw [List.filter_cons_of_neg (by simp), hid pre hpre, hid post hpost]

end Middle

section Head
variable {m : SortedMap K V} {k : K} {v : V} {rest : List (K × V)}

theorem adjust_head (f : V → V) (h : m.entries = (k,v) :: rest) :
    (m.adjust k f).entries = (k,f v) :: rest := by
  have h' : m.entries = []++(k,v) :: rest := h
  exact adjust_middle f h'

theorem erase_head (h : m.entries = (k,v) :: rest) : (m.erase k).entries = rest := by
  have h' : m.entries = []++(k,v) :: rest := h
  exact erase_middle h'

theorem get?_head (h : m.entries = (k,v) :: rest) : m.get? k = some v := by
  simp [get?, h]

end Head
end SortedMap

/-- In a list sorted against `p`, nothing behind the first failure satisfies `p`. -/
theorem not_of_mem_dropWhile {α : Type} {p : α → Bool} {l : List α}
    (h : l.Pairwise (fun a b => p b = true → p a = true)) :
    ∀ x ∈ l.dropWhile p, ¬ p x = true := by
  induction l with
  | nil => simp
  | cons a rest ih =>
    obtain ⟨ha, hrest⟩ := List.pairwise_cons.mp h
    intro x hx
    by_cases hp : p a = true
    · rw [List.dropWhile_cons_of_pos hp] at hx
      exact ih hrest x hx
    · -- `a` is the first failure, and what stands behind it would carry `a` along
      rw [List.dropWhile_cons_of_neg hp] at hx
      rcases List.mem_cons.mp hx with rfl | hx
      · exact hp
      · exact fun hpx => hp (ha x hx hpx)

/-- In a list sorted against `p`, what satisfies it stands in front. -/
theorem takeWhile_eq_filter_of_pairwise {α : Type} {p : α → Bool} {l : List α}
    (h : l.Pairwise (fun a b => p b = true → p a = true)) :
    l.takeWhile p = l.filter p ∧ l.dropWhile p = l.filter (fun a => !p a) := by
  have hfront : ∀ x ∈ l.takeWhile p, p x = true := fun x hx => List.mem_takeWhile_imp hx
  have hback := not_of_mem_dropWhile h
  have hsplit := (List.takeWhile_append_dropWhile (p := p) (l := l)).symm
  constructor
  · conv_rhs => rw [hsplit]
    rw [List.filter_append, List.filter_eq_self.mpr hfront, List.filter_eq_nil_iff.mpr hback,
      List.append_nil]
  · conv_rhs => rw [hsplit]
    rw [List.filter_append, List.filter_eq_nil_iff.mpr (by simpa using hfront),
      List.filter_eq_self.mpr (by simpa using hback), List.nil_append]

end Perplex
