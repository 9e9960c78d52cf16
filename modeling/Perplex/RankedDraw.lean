import Perplex.GreedyDraw
import Perplex.SortedMap

/-! Drawing from sources in the order of a rank. A source is drawn in full before any of a
later rank, and what is drawn up to a rank depends on the capacities up to it, however the
sources of one rank are ordered. -/
namespace Perplex

section Draw
variable {α : Type} (cap : α → ℚ)

/-- A draw of a nonnegative amount never overdraws. -/
theorem drain_eq_draw {l : List α} (h : ∀ a ∈ l, 0 ≤ cap a) {r : ℚ} (hr : 0 ≤ r) :
    drain cap r l = draw cap r l := by
  induction l generalizing r with
  | nil => rfl
  | cons a l ih =>
    have hrest : ∀ x ∈ l, 0 ≤ cap x := fun x hx => h x (List.mem_cons_of_mem _ hx)
    rw [drain, draw]
    rcases hr.eq_or_lt with rfl | hpos
    · simp
    · rw [if_neg hpos.ne', if_pos hpos, ih hrest (sub_nonneg.mpr (min_le_left _ _))]

theorem draw_total {l : List α} (h : ∀ a ∈ l, 0 ≤ cap a) {r : ℚ} (hr : 0 ≤ r) :
    ((draw cap r l).map Prod.snd).sum = min r (l.map cap).sum := by
  induction l generalizing r with
  | nil => simp [draw, hr]
  | cons a l ih =>
    have ha := h a List.mem_cons_self
    have hrest : ∀ x ∈ l, 0 ≤ cap x := fun x hx => h x (List.mem_cons_of_mem _ hx)
    have hsum : 0 ≤ (l.map cap).sum := by
      apply List.sum_nonneg
      intro x hx
      obtain ⟨y, hy, rfl⟩ := List.mem_map.mp hx
      exact hrest y hy
    rw [draw, List.map_cons, List.sum_cons]
    rcases hr.eq_or_lt with rfl | hpos
    · simp only [lt_irrefl, if_false, List.map_nil, List.sum_nil]
      exact (min_eq_left (by linarith)).symm
    · rw [if_pos hpos, List.map_cons, List.sum_cons, ih hrest (sub_nonneg.mpr (min_le_left _ _))]
      -- either the first source ends the draw, or it is used up
      rcases le_total r (cap a) with hle | hle
      · rw [min_eq_left hle, sub_self, min_eq_left hsum, min_eq_left (by linarith), add_zero]
      · rw [min_eq_right hle, ← min_add_add_left]
        congr 1
        ring

/-- Drawing from the sources in front, and then what is left from those behind. -/
theorem draw_append_min {front : List α} (h : ∀ a ∈ front, 0 ≤ cap a) (back : List α) {r : ℚ}
    (hr : 0 ≤ r) : draw cap r (front++back) =
      draw cap r front++draw cap (r-min r (front.map cap).sum) back := by
  induction front generalizing r with
  | nil => simp [draw, hr]
  | cons a front ih =>
    have ha := h a List.mem_cons_self
    have hrest : ∀ x ∈ front, 0 ≤ cap x := fun x hx => h x (List.mem_cons_of_mem _ hx)
    rw [List.cons_append, draw, draw]
    have htotal := draw_total cap h hr
    rcases hr.eq_or_lt with rfl | hpos
    · rw [draw_of_nonpos cap le_rfl] at htotal
      simp only [lt_irrefl, if_false, List.nil_append]
      rw [← htotal]
      simp [draw_of_nonpos cap le_rfl]
    · have hleft : 0 ≤ r-min r (cap a) := sub_nonneg.mpr (min_le_left _ _)
      rw [← htotal, draw, if_pos hpos, if_pos hpos, ih hrest hleft, ← draw_total cap hrest hleft,
        List.map_cons, List.sum_cons, List.cons_append, sub_add_eq_sub_sub]

/-- The sources drawn from stand in front. -/
theorem draw_fst_initial (r : ℚ) (l : List α) : (draw cap r l).map Prod.fst <+: l := by
  induction l generalizing r with
  | nil => exact List.prefix_refl _
  | cons a l ih =>
    rw [draw]
    split_ifs
    · exact List.cons_prefix_cons.mpr ⟨rfl, ih _⟩
    · exact List.nil_prefix

/-- The draws keep what is so between the sources. -/
theorem draw_pairwise {R : α → α → Prop} {l : List α} (h : l.Pairwise R) (r : ℚ) :
    (draw cap r l).Pairwise fun x y => R x.1 y.1 := by
  have hdrawn := h.sublist (draw_fst_initial cap r l).sublist
  rwa [List.pairwise_map] at hdrawn

theorem draw_pos {l : List α} (h : ∀ a ∈ l, 0 < cap a) {r : ℚ} {x : α × ℚ}
    (hx : x ∈ draw cap r l) : 0 < x.2 ∧ x.2 ≤ cap x.1 := by
  induction l generalizing r with
  | nil => simp [draw] at hx
  | cons a l ih =>
    rw [draw] at hx
    split_ifs at hx with hr
    · rcases List.mem_cons.mp hx with rfl | hx
      · exact ⟨lt_min hr (h a List.mem_cons_self), min_le_right _ _⟩
      · exact ih (fun y hy => h y (List.mem_cons_of_mem _ hy)) hx
    · simp at hx

section Front
variable {l : List α} (h : ∀ a ∈ l, 0 ≤ cap a) {p : α → Bool}
  (hp : l.Pairwise fun a b => p b = true → p a = true) {r : ℚ} (hr : 0 ≤ r)
include h hp hr

/-- A draw splits at a predicate that the sources are sorted against. -/
theorem draw_split : draw cap r l = draw cap r (l.filter p)++
    draw cap (r-min r ((l.filter p).map cap).sum) (l.filter fun a => !p a) := by
  obtain ⟨hfront, hback⟩ := takeWhile_eq_filter_of_pairwise hp
  have hcap : ∀ a ∈ l.filter p, 0 ≤ cap a := fun a ha => h a (List.mem_filter.mp ha).1
  rw [← draw_append_min cap hcap _ hr, ← hfront, ← hback, List.takeWhile_append_dropWhile]

/-- What is drawn from the sources in front. -/
theorem draw_front_sum : (((draw cap r l).filter fun x => p x.1).map Prod.snd).sum =
    min r ((l.filter p).map cap).sum := by
  have hcap : ∀ a ∈ l.filter p, 0 ≤ cap a := fun a ha => h a (List.mem_filter.mp ha).1
  have hfront : (draw cap r (l.filter p)).filter (fun x => p x.1) = draw cap r (l.filter p) :=
    List.filter_eq_self.mpr fun x hx => (List.mem_filter.mp (mem_of_mem_draw cap hx)).2
  have hback (q : ℚ) : (draw cap q (l.filter fun a => !p a)).filter (fun x => p x.1) = [] :=
    List.filter_eq_nil_iff.mpr fun x hx => by
      simpa using (List.mem_filter.mp (mem_of_mem_draw cap hx)).2
  rw [draw_split cap h hp hr, List.filter_append, hfront, hback, List.append_nil,
    draw_total cap hcap hr]

/-- Once something behind is drawn from, everything in front is drawn in full. -/
theorem mem_draw_of_front {x : α × ℚ} (hx : x ∈ draw cap r l) (hxp : p x.1 = false) {a : α}
    (ha : a ∈ l) (hap : p a = true) : (a,cap a) ∈ draw cap r l := by
  have hcap : ∀ a ∈ l.filter p, 0 ≤ cap a := fun a ha => h a (List.mem_filter.mp ha).1
  obtain ⟨hfront, hback⟩ := takeWhile_eq_filter_of_pairwise hp
  have hsplit : l.filter p++(l.filter fun a => !p a) = l := by
    rw [← hfront, ← hback, List.takeWhile_append_dropWhile]
  rcases lt_or_ge ((l.filter p).map cap).sum r with hlt | hge
  · rw [← hsplit, draw_append cap hcap _ hlt]
    exact List.mem_append_left _ (List.mem_map.mpr ⟨a, List.mem_filter.mpr ⟨ha, hap⟩, rfl⟩)
  · -- otherwise the sources in front cover the amount, and nothing behind is drawn from
    rw [draw_split cap h hp hr, min_eq_left hge, sub_self, draw_of_nonpos cap le_rfl,
      List.append_nil] at hx
    have hfront := (List.mem_filter.mp (mem_of_mem_draw cap hx)).2
    simp [hxp] at hfront

end Front

section Rank
variable {κ : Type} [LinearOrder κ] (rank : α → κ) {l l' : List α} {r : ℚ}

theorem filter_sum_rank (f : α → ℚ) (k : κ) (l : List α) :
    ((l.filter fun a => rank a = k).map f).sum = ((l.filter fun a => rank a ≤ k).map f).sum-
      ((l.filter fun a => rank a < k).map f).sum := by
  induction l with
  | nil => simp
  | cons a l ih =>
    simp only [List.filter_cons]
    rcases lt_trichotomy (rank a) k with hlt | heq | hgt
    · simp [hlt.ne, hlt.le, hlt, ih]
    · simp only [heq, le_refl, lt_irrefl, decide_true, decide_false, if_true, Bool.false_eq_true,
        if_false, List.map_cons, List.sum_cons, ih]
      ring
    · simpa [hgt.ne', hgt.not_ge, hgt.not_gt] using ih

variable (hsorted : l.Pairwise fun a b => rank a ≤ rank b) (h : ∀ a ∈ l, 0 ≤ cap a)
  (hr : 0 ≤ r)
include hsorted h hr

/-- What is drawn from the sources of one rank. -/
theorem draw_rank_sum (k : κ) :
    (((draw cap r l).filter fun x => rank x.1 = k).map Prod.snd).sum =
      min r ((l.filter fun a => rank a ≤ k).map cap).sum-
        min r ((l.filter fun a => rank a < k).map cap).sum := by
  have hle : l.Pairwise fun a b => decide (rank b ≤ k) = true → decide (rank a ≤ k) = true :=
    hsorted.imp fun hab hb => by simpa using hab.trans (of_decide_eq_true hb)
  have hlt : l.Pairwise fun a b => decide (rank b < k) = true → decide (rank a < k) = true :=
    hsorted.imp fun hab hb => by simpa using hab.trans_lt (of_decide_eq_true hb)
  rw [filter_sum_rank (fun x : α × ℚ => rank x.1), draw_front_sum cap h hle hr,
    draw_front_sum cap h hlt hr]

/-- It is the same for every order of the sources that keeps to the rank. -/
theorem draw_rank_sum_perm (hperm : l.Perm l')
    (hsorted' : l'.Pairwise fun a b => rank a ≤ rank b) (k : κ) :
    (((draw cap r l).filter fun x => rank x.1 = k).map Prod.snd).sum =
      (((draw cap r l').filter fun x => rank x.1 = k).map Prod.snd).sum := by
  have h' : ∀ a ∈ l', 0 ≤ cap a := fun a ha => h a (hperm.mem_iff.mpr ha)
  rw [draw_rank_sum cap rank hsorted h hr, draw_rank_sum cap rank hsorted' h' hr,
    ((hperm.filter _).map cap).sum_eq, ((hperm.filter fun a => rank a < k).map cap).sum_eq]

/-- A source is drawn in full before any of a later rank. -/
theorem mem_draw_of_rank_lt {x : α × ℚ} (hx : x ∈ draw cap r l) {a : α} (ha : a ∈ l)
    (hlt : rank a < rank x.1) : (a,cap a) ∈ draw cap r l := by
  have hp : l.Pairwise fun a b =>
      decide (rank b < rank x.1) = true → decide (rank a < rank x.1) = true :=
    hsorted.imp fun hab hb => by simpa using hab.trans_lt (of_decide_eq_true hb)
  exact mem_draw_of_front cap h hp hr hx (by simp) ha (by simpa using hlt)

end Rank

end Draw

end Perplex
