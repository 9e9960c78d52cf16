import Mathlib.Data.List.Perm.Basic
import Mathlib.Data.List.Nodup
import Mathlib.Data.List.Pairwise
import Perplex.RankedDraw

/-! A queue of sources in the order of a rank, drawn down from the front. What a source has left
is told by the draws with its key, so that the sources may as well be kept in no order at all. -/
namespace Perplex

section Ranked
variable {α κ : Type} [LinearOrder κ] {rank : α → κ} {l l' : List α}

/-- A queue is determined by its members. -/
theorem eq_of_ranked (h : l.Pairwise fun a b => rank a < rank b)
    (h' : l'.Pairwise fun a b => rank a ≤ rank b) (hnodup : l'.Nodup)
    (hmem : ∀ a, a ∈ l' ↔ a ∈ l) : l' = l := by
  have hranks : (l.map rank).Nodup := List.pairwise_map.mpr (h.imp ne_of_lt)
  have hperm := (List.perm_ext_iff_of_nodup hnodup hranks.of_map).mpr hmem
  apply List.Perm.eq_of_pairwise ?_ h' (h.imp le_of_lt) hperm
  intro a b ha hb hab hba
  exact List.inj_on_of_nodup_map hranks ((hmem a).mp ha) hb (le_antisymm hab hba)

/-- A newcomer joins behind all that are not behind it. -/
theorem ranked_insert {a : α} {p : α → Bool} (h : l.Pairwise fun a b => rank a < rank b)
    (hfront : ∀ b ∈ l, p b = true → rank b < rank a)
    (hback : ∀ b ∈ l, p b = false → rank a < rank b) :
    (l.filter p++a :: l.filter fun b => !p b).Pairwise fun a b => rank a < rank b := by
  refine List.pairwise_append.mpr ⟨h.sublist List.filter_sublist,?_,?_⟩
  · refine List.pairwise_cons.mpr ⟨?_,h.sublist List.filter_sublist⟩
    intro b hb
    obtain ⟨hb, hpb⟩ := List.mem_filter.mp hb
    exact hback b hb (by simpa using hpb)
  · intro b hb c hc
    obtain ⟨hb, hpb⟩ := List.mem_filter.mp hb
    have hba := hfront b hb hpb
    rcases List.mem_cons.mp hc with rfl | hc
    · exact hba
    · obtain ⟨hc, hpc⟩ := List.mem_filter.mp hc
      exact hba.trans (hback c hc (by simpa using hpc))

end Ranked

/-- With distinct keys, erasing the first source with a key erases all of them. -/
theorem eraseP_eq_filter {α κ : Type} [DecidableEq κ] {key : α → κ} {l : List α}
    (h : (l.map key).Nodup) (k : κ) :
    l.eraseP (fun a => key a = k) = l.filter fun a => key a ≠ k := by
  induction l with
  | nil => rfl
  | cons a l ih =>
    obtain ⟨hnew, hrest⟩ := List.nodup_cons.mp h
    by_cases ha : key a = k
    · rw [List.eraseP_cons_of_pos (by simpa using ha),
        List.filter_cons_of_neg (by simpa using ha)]
      symm
      rw [List.filter_eq_self]
      intro b hb
      have hne : key b ≠ k := by
        intro he
        exact hnew (List.mem_map.mpr ⟨b,hb,he.trans ha.symm⟩)
      simpa using hne
    · rw [List.eraseP_cons_of_neg (by simpa using ha),
        List.filter_cons_of_pos (by simpa using ha), ih hrest]

section Draw
variable {α β κ : Type} (cap : α → ℚ)

theorem draw_map (f : β → α) (r : ℚ) (l : List β) :
    draw cap r (l.map f) = (draw (fun b => cap (f b)) r l).map fun x => (f x.1,x.2) := by
  induction l generalizing r with
  | nil => rfl
  | cons b l ih =>
    rw [List.map_cons, draw, draw]
    split_ifs
    · rw [List.map_cons, ih]
    · rfl

/-- What is drawn from the source with a key. -/
def drawnFrom [DecidableEq κ] (key : α → κ) (k : κ) (xs : List (α × ℚ)) : ℚ :=
  ((xs.filter fun x => key x.1 = k).map Prod.snd).sum

section Keyed
variable [DecidableEq κ] (key : α → κ)

theorem drawnFrom_cons (k : κ) (x : α × ℚ) (xs : List (α × ℚ)) :
    drawnFrom key k (x :: xs) = (if key x.1 = k then x.2 else 0)+drawnFrom key k xs := by
  unfold drawnFrom
  by_cases h : key x.1 = k
  · simp [h]
  · simp [h]

theorem drawnFrom_of_absent {k : κ} {xs : List (α × ℚ)} (h : ∀ x ∈ xs, key x.1 ≠ k) :
    drawnFrom key k xs = 0 := by
  have hnone : xs.filter (fun x => key x.1 = k) = [] := by
    rw [List.filter_eq_nil_iff]
    intro x hx
    simpa using h x hx
  rw [drawnFrom, hnone]
  rfl

variable {skip : α → Bool} {use : α → ℚ → α} {l : List α}

/-- Where nothing is skipped, the draws are those of a plain draw. -/
theorem drawDown_draws (hskip : ∀ a ∈ l, skip a = false) (r : ℚ) :
    (drawDown cap skip use r l).draws = draw cap r l := by
  induction l generalizing r with
  | nil => rfl
  | cons a l ih =>
    have ha := hskip a List.mem_cons_self
    have hrest := ih fun b hb => hskip b (List.mem_cons_of_mem _ hb)
    by_cases hr : 0 < r
    · rw [drawDown, draw, if_pos hr, if_pos hr, ha, if_neg (by simp), ← hrest]
    · rw [drawDown_of_nonpos cap skip use (not_lt.mp hr), draw_of_nonpos cap (not_lt.mp hr)]

/-- What is left of the queue: of each source what was not drawn from it, if anything. -/
theorem drawDown_left (hskip : ∀ a ∈ l, skip a = false) (hpos : ∀ a ∈ l, 0 < cap a)
    (hkeys : (l.map key).Nodup) (huse : ∀ a x, cap (use a x) = cap a-x)
    (hzero : ∀ a, use a 0 = a) (r : ℚ) :
    (drawDown cap skip use r l).left =
      (l.map fun a => use a (drawnFrom key (key a) (draw cap r l))).filter
        fun a => cap a ≠ 0 := by
  induction l generalizing r with
  | nil => rfl
  | cons a l ih =>
    have hcap := hpos a List.mem_cons_self
    obtain ⟨hnew, hkeys⟩ := List.nodup_cons.mp hkeys
    have hrest := ih (fun b hb => hskip b (List.mem_cons_of_mem _ hb))
      (fun b hb => hpos b (List.mem_cons_of_mem _ hb)) hkeys
    -- nothing is drawn from the first source with the key of another
    have hother (r : ℚ) : drawnFrom key (key a) (draw cap r l) = 0 := by
      apply drawnFrom_of_absent
      intro x hx he
      exact hnew (List.mem_map.mpr ⟨x.1,mem_of_mem_draw cap hx,he⟩)
    have hsame (x : ℚ) (xs : List (α × ℚ)) :
        (l.map fun b => use b (drawnFrom key (key b) ((a,x) :: xs))) =
          l.map fun b => use b (drawnFrom key (key b) xs) := by
      apply List.map_congr_left
      intro b hb
      have hne : key a ≠ key b := fun he => hnew (he ▸ List.mem_map_of_mem hb)
      rw [drawnFrom_cons, if_neg hne, zero_add]
    rcases le_or_gt r 0 with hr | hr
    · rw [drawDown_of_nonpos cap skip use hr, draw_of_nonpos cap hr]
      have hkeep : (a :: l).map (fun b => use b (drawnFrom key (key b) [])) = a :: l := by
        simp [drawnFrom, hzero]
      rw [hkeep]
      symm
      apply List.filter_eq_self.mpr
      intro b hb
      simpa using (hpos b hb).ne'
    · rw [draw, if_pos hr, List.map_cons, hsame, drawnFrom_cons, if_pos rfl, hother, add_zero]
      have ha := hskip a List.mem_cons_self
      rcases le_or_gt (cap a) r with hle | hlt
      · rw [drawDown_used_up _ _ _ hr ha hle, min_eq_right hle, List.filter_cons_of_neg]
        · exact hrest _
        · simp [huse]
      · rw [drawDown_enough _ _ _ hr ha hlt, min_eq_left hlt.le, List.filter_cons_of_pos]
        · rw [sub_self, ← hrest 0, drawDown_of_nonpos cap skip use le_rfl]
        · simpa [huse] using (sub_pos.mpr hlt).ne'

end Keyed

end Draw

end Perplex
