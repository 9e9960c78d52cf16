import Mathlib.Data.List.Induction
import Mathlib.Data.List.Nodup
import Mathlib.Data.List.Perm.Basic
import Mathlib.Data.List.Sort
import Mathlib.Tactic.Linarith
import Mathlib.Tactic.Ring

/-! Database tables as lists of rows in the order of insertion, with a key that no two rows
share. An insert fails when its key is taken unless it says what to do then. -/
namespace Perplex

section Keys
variable {ρ κ : Type} {key : ρ → κ} {t : List ρ} {r : ρ}

theorem nodup_append_fresh (ht : (t.map key).Nodup) (h : key r ∉ t.map key) :
    ((t++[r]).map key).Nodup := by
  rw [List.map_append]
  refine List.nodup_append.mpr ⟨ht, by simp, ?_⟩
  intro x hx y hy he
  rw [List.map_singleton, List.mem_singleton] at hy
  exact h (hy ▸ he ▸ hx)

theorem nodup_filter_key (p : ρ → Bool) (ht : (t.map key).Nodup) :
    ((t.filter p).map key).Nodup :=
  ht.sublist (List.filter_sublist.map _)

end Keys

section Rows
variable {ρ κ : Type} [DecidableEq κ] (key : ρ → κ)

/-- `INSERT`. -/
def insertRow (t : List ρ) (r : ρ) : Option (List ρ) :=
  if key r ∈ t.map key then none else some (t++[r])

/-- One `INSERT` for each row, in one transaction. -/
def insertRows : List ρ → List ρ → Option (List ρ)
  | t, [] => some t
  | t, r :: rs => (insertRow key t r).bind fun t => insertRows t rs

/-- `INSERT ... ON CONFLICT DO NOTHING`. -/
def insertOrIgnore (t : List ρ) (r : ρ) : List ρ := if key r ∈ t.map key then t else t++[r]

/-- `INSERT ... ON CONFLICT DO UPDATE`. -/
def insertOrUpdate (update : ρ → ρ) (t : List ρ) (r : ρ) : List ρ :=
  if key r ∈ t.map key then t.map fun x => if key x = key r then update x else x else t++[r]

variable {key} {t t' : List ρ} {r : ρ}

theorem insertRows_eq_some {rs : List ρ} (ht : (t.map key).Nodup) :
    insertRows key t rs = some t' ↔ t' = t++rs ∧ (t'.map key).Nodup := by
  induction rs generalizing t with
  | nil =>
    simp only [insertRows, Option.some.injEq, List.append_nil]
    exact ⟨fun h => ⟨h.symm, h ▸ ht⟩, fun h => h.1.symm⟩
  | cons r rs ih =>
    have happ : t++r :: rs = (t++[r])++rs := by simp
    simp only [insertRows, insertRow]
    by_cases hr : key r ∈ t.map key
    · simp only [hr, if_true, Option.bind_none, reduceCtorEq, false_iff, not_and]
      intro he hnd
      rw [he, happ, List.map_append] at hnd
      have hone := (List.nodup_append.mp hnd).1
      rw [List.map_append] at hone
      exact (List.nodup_append.mp hone).2.2 _ hr _ (by simp) rfl
    · simp only [hr, if_false, Option.bind_some]
      rw [ih (nodup_append_fresh ht hr), happ]

theorem insertOrIgnore_of_fresh (h : key r ∉ t.map key) : insertOrIgnore key t r = t++[r] :=
  if_neg h

theorem insertOrUpdate_of_fresh {update : ρ → ρ} (h : key r ∉ t.map key) :
    insertOrUpdate key update t r = t++[r] := if_neg h

theorem insertOrUpdate_nodup {update : ρ → ρ} (hkey : ∀ x, key (update x) = key x)
    (ht : (t.map key).Nodup) : ((insertOrUpdate key update t r).map key).Nodup := by
  unfold insertOrUpdate
  split_ifs with h
  · have hmap : (t.map fun x => if key x = key r then update x else x).map key = t.map key := by
      rw [List.map_map]
      apply List.map_congr_left
      intro x _
      simp only [Function.comp_apply]
      split_ifs
      · exact hkey x
      · rfl
    rwa [hmap]
  · exact nodup_append_fresh ht h

end Rows

section Group
variable {ρ α β : Type} [DecidableEq α] (owner : ρ → α) (val : ρ → β)

/-- The values of the rows of one owner. -/
def grouped (rows : List ρ) (a : α) : List β := (rows.filter fun r => owner r = a).map val

/-- The loop that pushes each row onto the list of its owner. -/
def pushAll (rows : List ρ) : α → List β :=
  rows.foldl (fun m r => Function.update m (owner r) (m (owner r)++[val r])) fun _ => []

/-- The loop that stores the value of each row under its owner. -/
def putAll (rows : List ρ) : α → Option β :=
  rows.foldl (fun m r => Function.update m (owner r) (some (val r))) fun _ => none

theorem grouped_append (rows rows' : List ρ) (a : α) :
    grouped owner val (rows++rows') a = grouped owner val rows a++grouped owner val rows' a := by
  simp [grouped]

theorem grouped_singleton (r : ρ) (a : α) :
    grouped owner val [r] a = if owner r = a then [val r] else [] := by
  by_cases h : owner r = a <;> simp [grouped, h]

theorem pushAll_eq_grouped (rows : List ρ) : pushAll owner val rows = grouped owner val rows := by
  induction rows using List.reverseRecOn with
  | nil => rfl
  | append_singleton rows r ih =>
    unfold pushAll at *
    funext a
    rw [List.foldl_append, ih, List.foldl_cons, List.foldl_nil, grouped_append, grouped_singleton]
    by_cases ha : owner r = a
    · rw [if_pos ha, ← ha, Function.update_self]
    · rw [if_neg ha, Function.update_of_ne (Ne.symm ha), List.append_nil]

theorem putAll_append_singleton (rows : List ρ) (r : ρ) :
    putAll owner val (rows++[r]) =
      Function.update (putAll owner val rows) (owner r) (some (val r)) := by
  simp [putAll]

/-- With one row for each owner, the value stored is that of the row. -/
theorem putAll_eq_some_iff {rows : List ρ} (h : (rows.map owner).Nodup) {a : α} {v : β} :
    putAll owner val rows a = some v ↔ ∃ r ∈ rows, owner r = a ∧ val r = v := by
  induction rows using List.reverseRecOn with
  | nil => simp [putAll]
  | append_singleton rows r ih =>
    rw [List.map_append, List.nodup_append] at h
    obtain ⟨hrows, -, hdisj⟩ := h
    rw [putAll_append_singleton]
    by_cases ha : owner r = a
    · subst ha
      rw [Function.update_self, Option.some.injEq]
      constructor
      · exact fun hv => ⟨r, by simp, rfl, hv⟩
      · rintro ⟨r', hr', ho, hv⟩
        rcases List.mem_append.mp hr' with hr' | hr'
        · exact absurd ho (hdisj _ (List.mem_map_of_mem hr') _ (by simp))
        · rw [← List.mem_singleton.mp hr']
          exact hv
    · rw [Function.update_of_ne (Ne.symm ha), ih hrows]
      constructor
      · rintro ⟨r', hr', h'⟩
        exact ⟨r', List.mem_append_left _ hr', h'⟩
      · rintro ⟨r', hr', ho, hv⟩
        rcases List.mem_append.mp hr' with hr' | hr'
        · exact ⟨r', hr', ho, hv⟩
        · rw [List.mem_singleton.mp hr'] at ho
          exact absurd ho ha

/-- Rows written for one owner are read back by it alone. -/
theorem grouped_map {row : β → ρ} {a : α} (ho : ∀ x, owner (row x) = a)
    (hv : ∀ x, val (row x) = x) (xs : List β) (b : α) :
    grouped owner val (xs.map row) b = if a = b then xs else [] := by
  unfold grouped
  by_cases h : a = b
  · simp [List.filter_map, Function.comp_def, ho, hv, h]
  · simp [List.filter_map, Function.comp_def, ho, h]

theorem grouped_delete (rows : List ρ) (a b : α) :
    grouped owner val (rows.filter fun r => owner r ≠ a) b =
      if a = b then [] else grouped owner val rows b := by
  unfold grouped
  rw [List.filter_filter]
  by_cases h : a = b
  · subst h
    simp
  · rw [if_neg h]
    congr 1
    apply List.filter_congr
    intro r _
    by_cases hr : owner r = b <;> simp [hr, Ne.symm h]

theorem mem_grouped {rows : List ρ} {a : α} {x : β} :
    x ∈ grouped owner val rows a ↔ ∃ r ∈ rows, owner r = a ∧ val r = x := by
  simp [grouped, and_assoc]

theorem grouped_perm {rows rows' : List ρ} (h : rows.Perm rows') (a : α) :
    (grouped owner val rows a).Perm (grouped owner val rows' a) :=
  (h.filter _).map _

/-- Whatever order the rows come back in, each owner gets the same value. -/
theorem putAll_perm {rows rows' : List ρ} (h : rows.Perm rows') (hnd : (rows.map owner).Nodup) :
    putAll owner val rows = putAll owner val rows' := by
  funext a
  apply Option.ext
  intro v
  rw [putAll_eq_some_iff owner val hnd,
    putAll_eq_some_iff owner val ((h.map owner).nodup_iff.mp hnd)]
  simp only [h.mem_iff]

end Group

/-- Rows that a counter has numbered come back in the order of insertion. -/
theorem eq_of_perm_of_numbered {ρ : Type} {seq : ρ → ℕ} {rows rows' : List ρ}
    (h : rows'.Perm rows) (hs : rows.Pairwise fun a b => seq a < seq b)
    (hs' : rows'.Pairwise fun a b => seq a ≤ seq b) : rows' = rows := by
  have hle : rows.Pairwise fun a b => seq a ≤ seq b := hs.imp fun hab => hab.le
  refine h.eq_of_pairwise ?_ hs' hle
  intro a b ha hb hab hba
  by_contra hne
  have hb' : b ∈ rows := hb
  have ha' : a ∈ rows := h.mem_iff.mp ha
  -- two rows with one number would be the same row
  have hinj := List.pairwise_iff_getElem.mp hs
  obtain ⟨i, hi, rfl⟩ := List.getElem_of_mem ha'
  obtain ⟨j, hj, rfl⟩ := List.getElem_of_mem hb'
  rcases lt_trichotomy i j with hij | hij | hij
  · exact absurd (hinj i j hi hj hij) (by omega)
  · exact hne (by simp [hij])
  · exact absurd (hinj j i hj hi hij) (by omega)

section Holds
variable {ρ κ α β : Type} [DecidableEq α]

/-- The rows of each owner are the list the map has for it, in some order. -/
structure HoldsLists (key : ρ → κ) (owner : ρ → α) (val : ρ → β) (t : List ρ) (m : α → List β) :
    Prop where
  keyed : (t.map key).Nodup
  read : ∀ a, (grouped owner val t a).Perm (m a)

/-- The row of each owner is the value the map has for it. -/
structure HoldsValues (owner : ρ → α) (val : ρ → β) (t : List ρ) (m : α → Option β) :
    Prop where
  keyed : (t.map owner).Nodup
  read : putAll owner val t = m

/-- The rows of each owner are the list the map has for it, numbered in that order. The keys
are among `ids`. -/
structure HoldsLogs (key : ρ → κ) (seq : ρ → ℕ) (owner : ρ → α) (val : ρ → β) (ids : List κ)
    (next : ℕ) (t : List ρ) (m : α → List β) : Prop where
  ordered : t.Pairwise fun a b => seq a < seq b
  below : ∀ r ∈ t, seq r < next
  within : ∀ r ∈ t, key r ∈ ids
  read : ∀ a, grouped owner val t a = m a

variable {key : ρ → κ} {owner : ρ → α} {val : ρ → β} {t t' : List ρ}

/-- Deleting the rows of an owner and inserting others replaces its list. -/
theorem HoldsLists.replace [DecidableEq κ] {m : α → List β} (h : HoldsLists key owner val t m)
    {a : α} {f : β → ρ} (ho : ∀ x, owner (f x) = a) (hv : ∀ x, val (f x) = x) {xs : List β}
    (hins : insertRows key (t.filter fun r => owner r ≠ a) (xs.map f) = some t') :
    HoldsLists key owner val t' (Function.update m a xs) := by
  obtain ⟨rfl, hnd⟩ := (insertRows_eq_some (nodup_filter_key _ h.keyed)).mp hins
  refine ⟨hnd, ?_⟩
  intro b
  rw [grouped_append, grouped_delete, grouped_map owner val ho hv]
  by_cases hb : a = b
  · subst hb
    rw [if_pos rfl, if_pos rfl, Function.update_self]
    exact List.Perm.refl _
  · rw [if_neg hb, if_neg hb, List.append_nil, Function.update_of_ne (Ne.symm hb)]
    exact h.read b

/-- A new row is added to the list of its owner. -/
theorem HoldsLists.push {m : α → List β} (h : HoldsLists key owner val t m) {r : ρ}
    (hnew : key r ∉ t.map key) :
    HoldsLists key owner val (t++[r])
      (Function.update m (owner r) (m (owner r)++[val r])) := by
  refine ⟨nodup_append_fresh h.keyed hnew, ?_⟩
  intro b
  rw [grouped_append, grouped_singleton]
  by_cases hb : owner r = b
  · subst hb
    rw [if_pos rfl, Function.update_self]
    exact (h.read _).append_right _
  · rw [if_neg hb, List.append_nil, Function.update_of_ne (Ne.symm hb)]
    exact h.read b

theorem HoldsValues.put {m : α → Option β} (h : HoldsValues owner val t m) {r : ρ}
    {u : ρ → ρ} (ho : ∀ x, owner (u x) = owner x) (hv : ∀ x, val (u x) = val r) :
    HoldsValues owner val (insertOrUpdate owner u t r)
      (Function.update m (owner r) (some (val r))) := by
  have hnd := insertOrUpdate_nodup (r := r) ho h.keyed
  refine ⟨hnd, ?_⟩
  rw [← h.read]
  by_cases hr : owner r ∈ t.map owner
  · -- the row of the owner is rewritten, and the others are as they were
    funext a
    apply Option.ext
    intro v
    rw [putAll_eq_some_iff owner val hnd]
    unfold insertOrUpdate
    rw [if_pos hr]
    by_cases ha : a = owner r
    · subst ha
      obtain ⟨x, hx, he⟩ := List.mem_map.mp hr
      rw [Function.update_self, Option.some.injEq]
      constructor
      · rintro ⟨y, hy, hoy, rfl⟩
        obtain ⟨z, -, rfl⟩ := List.mem_map.mp hy
        by_cases hz : owner z = owner r
        · rw [if_pos hz, hv]
        · rw [if_neg hz] at hoy
          exact absurd hoy hz
      · rintro rfl
        refine ⟨u x, List.mem_map.mpr ⟨x, hx, by rw [if_pos he]⟩, ?_, hv x⟩
        rw [ho, he]
    · rw [Function.update_of_ne ha, putAll_eq_some_iff owner val h.keyed]
      constructor
      · rintro ⟨y, hy, rfl, hvy⟩
        obtain ⟨z, hz, rfl⟩ := List.mem_map.mp hy
        by_cases hzr : owner z = owner r
        · rw [if_pos hzr, ho] at ha
          exact absurd hzr ha
        · rw [if_neg hzr] at hvy ⊢
          exact ⟨z, hz, rfl, hvy⟩
      · rintro ⟨y, hy, rfl, hvy⟩
        exact ⟨y, List.mem_map.mpr ⟨y, hy, by rw [if_neg ha]⟩, rfl, hvy⟩
  · rw [insertOrUpdate_of_fresh hr, putAll_append_singleton]

theorem HoldsLogs.mono {seq : ρ → ℕ} {ids ids' : List κ} {next : ℕ} {m : α → List β}
    (h : HoldsLogs key seq owner val ids next t m) (hsub : ids ⊆ ids') :
    HoldsLogs key seq owner val ids' next t m :=
  { h with within := fun r hr => hsub (h.within r hr) }

theorem HoldsLogs.push [DecidableEq κ] {seq : ρ → ℕ} {ids : List κ} {m : α → List β} {r : ρ}
    (h : HoldsLogs key seq owner val ids (seq r) t m) (hnew : key r ∉ ids) :
    HoldsLogs key seq owner val (key r :: ids) (seq r+1) (insertOrIgnore key t r)
      (Function.update m (owner r) (m (owner r)++[val r])) := by
  have hfresh : key r ∉ t.map key := by
    intro hmem
    obtain ⟨x, hx, he⟩ := List.mem_map.mp hmem
    exact hnew (he ▸ h.within x hx)
  rw [insertOrIgnore_of_fresh hfresh]
  refine ⟨?_, ?_, ?_, ?_⟩
  · refine List.pairwise_append.mpr ⟨h.ordered, List.pairwise_singleton _ _, ?_⟩
    intro x hx y hy
    rw [List.mem_singleton.mp hy]
    exact h.below x hx
  · intro x hx
    rcases List.mem_append.mp hx with hx | hx
    · have hlt := h.below x hx
      omega
    · rw [List.mem_singleton.mp hx]
      omega
  · intro x hx
    rcases List.mem_append.mp hx with hx | hx
    · exact List.mem_cons_of_mem _ (h.within x hx)
    · rw [List.mem_singleton.mp hx]
      exact List.mem_cons_self
  · intro b
    rw [grouped_append, grouped_singleton, h.read]
    by_cases hb : owner r = b
    · subst hb
      rw [if_pos rfl, Function.update_self]
    · rw [if_neg hb, List.append_nil, Function.update_of_ne (Ne.symm hb)]

end Holds

end Perplex
