import Mathlib.Algebra.BigOperators.Group.List.Basic
import Mathlib.Algebra.Order.BigOperators.Group.List
import Mathlib.Algebra.Order.Field.Rat
import Mathlib.Algebra.Order.Field.Basic
import Mathlib.Data.List.Forall2
import Mathlib.Tactic.Linarith
import Mathlib.Tactic.Ring

/-! Drawing an amount from sources in order, each up to its capacity. What is drawn from a
source depends on the sources ahead of it only through the sum of their capacities. -/
namespace Perplex

section Draw
variable {α : Type} (cap : α → ℚ)

def draw : ℚ → List α → List (α × ℚ)
  | _, [] => []
  | r, a :: l => if 0 < r then (a,min r (cap a)) :: draw (r-min r (cap a)) l else []

theorem draw_of_nonpos {r : ℚ} (h : r ≤ 0) (l : List α) : draw cap r l = [] := by
  cases l with
  | nil => rfl
  | cons a l => simp [draw, not_lt.mpr h]

theorem mem_of_mem_draw {r : ℚ} {l : List α} {x : α × ℚ} (h : x ∈ draw cap r l) : x.1 ∈ l := by
  induction l generalizing r with
  | nil => simp [draw] at h
  | cons a l ih =>
    rw [draw] at h
    split_ifs at h
    · rcases List.mem_cons.mp h with rfl | h
      · exact List.mem_cons_self
      · exact List.mem_cons_of_mem _ (ih h)
    · simp at h

/-- Sources that do not cover the amount are drawn in full. -/
theorem draw_append {front : List α} (h : ∀ a ∈ front, 0 ≤ cap a) (back : List α) {r : ℚ}
    (hlt : (front.map cap).sum < r) : draw cap r (front++back) =
      front.map (fun a => (a,cap a))++draw cap (r-(front.map cap).sum) back := by
  induction front generalizing r with
  | nil => simp
  | cons a front ih =>
    have ha := h a List.mem_cons_self
    have hrest : ∀ x ∈ front, 0 ≤ cap x := fun x hx => h x (List.mem_cons_of_mem _ hx)
    have hsum : 0 ≤ (front.map cap).sum := by
      apply List.sum_nonneg
      intro x hx
      obtain ⟨y, hy, rfl⟩ := List.mem_map.mp hx
      exact hrest y hy
    rw [List.map_cons, List.sum_cons] at hlt
    have hr : 0 < r := by linarith
    -- the first source is smaller than the amount, like all of `front`
    have hmin : min r (cap a) = cap a := min_eq_right (by linarith)
    rw [List.cons_append, draw, if_pos hr, hmin, ih hrest (by linarith), List.map_cons,
      List.map_cons, List.sum_cons, List.cons_append, sub_add_eq_sub_sub]

/-- A source is drawn from exactly when those ahead of it do not cover the amount. -/
theorem draw_eq_append_iff {l : List α} (h : ∀ a ∈ l, 0 ≤ cap a) {r x : ℚ} {a : α}
    {xs : List (α × ℚ)} : (∃ ys, draw cap r l = xs++(a,x) :: ys) ↔
      ∃ front back, l = front++a :: back ∧ (front.map cap).sum < r ∧
        xs = front.map (fun a => (a,cap a)) ∧ x = min (r-(front.map cap).sum) (cap a) := by
  constructor
  · intro hd
    induction l generalizing r xs with
    | nil => simp [draw] at hd
    | cons c l ih =>
      obtain ⟨ys, hd⟩ := hd
      have hc := h c List.mem_cons_self
      have hl : ∀ a ∈ l, 0 ≤ cap a := fun y hy => h y (List.mem_cons_of_mem _ hy)
      by_cases hr : 0 < r
      · rw [draw, if_pos hr] at hd
        cases xs with
        | nil =>
          obtain ⟨hx, -⟩ := List.cons.inj hd
          obtain ⟨rfl, rfl⟩ := Prod.mk.inj hx
          exact ⟨[], l, rfl, by simpa using hr, rfl, by simp⟩
        | cons y xs =>
          obtain ⟨hy, htail⟩ := List.cons.inj hd
          subst hy
          change draw cap (r-min r (cap c)) l = xs++(a,x) :: ys at htail
          obtain ⟨front, back, rfl, hsum, rfl, rfl⟩ := ih hl ⟨ys, htail⟩
          -- something is drawn behind `c`, so `c` did not cover the amount
          have hmin : min r (cap c) = cap c := by
            apply min_eq_right
            by_contra hlt
            rw [min_eq_left (not_le.mp hlt).le, sub_self, draw_of_nonpos cap le_rfl] at htail
            simp at htail
          rw [hmin] at hsum ⊢
          refine ⟨c :: front, back, rfl, ?_, rfl, ?_⟩
          · rw [List.map_cons, List.sum_cons]
            linarith
          · rw [List.map_cons, List.sum_cons, sub_add_eq_sub_sub]
      · rw [draw, if_neg hr] at hd
        simp at hd
  · rintro ⟨front, back, rfl, hsum, rfl, rfl⟩
    have hfront : ∀ a ∈ front, 0 ≤ cap a := fun y hy => h y (List.mem_append_left _ hy)
    rw [draw_append cap hfront _ hsum, draw, if_pos (sub_pos.mpr hsum)]
    exact ⟨_, rfl⟩

def drain : ℚ → List α → List (α × ℚ)
  | _, [] => []
  | r, a :: l => if r = 0 then [] else (a,min r (cap a)) :: drain (r-min r (cap a)) l

/-- The amount is not used up anywhere in the sources of `front`. -/
def Outlasts (r : ℚ) (front : List α) : Prop :=
  r ≠ 0 ∧ ∀ p : List α, p ≠ [] → p <+: front → (p.map cap).sum < r

theorem outlasts_nil {r : ℚ} : Outlasts cap r [] ↔ r ≠ 0 := by
  refine ⟨fun h => h.1, fun h => ⟨h, ?_⟩⟩
  intro p hne hp
  exact absurd (List.prefix_nil.mp hp) hne

theorem outlasts_cons {r : ℚ} {a : α} {front : List α} :
    Outlasts cap r (a :: front) ↔ r ≠ 0 ∧ cap a < r ∧ Outlasts cap (r-cap a) front := by
  constructor
  · rintro ⟨hr, hp⟩
    -- the prefixes of `a :: front` are `[a]` and those of `front` behind `a`
    have ha : cap a < r := by
      have h := hp [a] (List.cons_ne_nil _ _) (List.prefix_append [a] front)
      simpa using h
    refine ⟨hr, ha, sub_ne_zero.mpr ha.ne', ?_⟩
    intro p _ hpre
    have h := hp (a :: p) (List.cons_ne_nil _ _) (List.cons_prefix_cons.mpr ⟨rfl, hpre⟩)
    rw [List.map_cons, List.sum_cons] at h
    linarith
  · rintro ⟨hr, ha, -, hp⟩
    refine ⟨hr, ?_⟩
    intro p hne hpre
    cases p with
    | nil => exact absurd rfl hne
    | cons y p =>
      obtain ⟨rfl, hrest⟩ := List.cons_prefix_cons.mp hpre
      rw [List.map_cons, List.sum_cons]
      rcases eq_or_ne p [] with rfl | hp0
      · simpa using ha
      · linarith [hp p hp0 hrest]

/-- A source is drawn from exactly when the amount outlasts those ahead of it. -/
theorem drain_eq_append_iff {l : List α} {r x : ℚ} {a : α} {xs : List (α × ℚ)} :
    (∃ ys, drain cap r l = xs++(a,x) :: ys) ↔
      ∃ front back, l = front++a :: back ∧ Outlasts cap r front ∧
        xs = front.map (fun a => (a,cap a)) ∧ x = min (r-(front.map cap).sum) (cap a) := by
  constructor
  · intro hd
    induction l generalizing r xs with
    | nil => simp [drain] at hd
    | cons c l ih =>
      obtain ⟨ys, hd⟩ := hd
      by_cases hr : r = 0
      · rw [drain, if_pos hr] at hd
        simp at hd
      rw [drain, if_neg hr] at hd
      cases xs with
      | nil =>
        obtain ⟨hx, -⟩ := List.cons.inj hd
        obtain ⟨rfl, rfl⟩ := Prod.mk.inj hx
        exact ⟨[], l, rfl, (outlasts_nil cap).mpr hr, rfl, by simp⟩
      | cons y xs =>
        obtain ⟨hy, htail⟩ := List.cons.inj hd
        subst hy
        change drain cap (r-min r (cap c)) l = xs++(a,x) :: ys at htail
        obtain ⟨front, back, rfl, hout, rfl, rfl⟩ := ih ⟨ys, htail⟩
        -- something is drawn behind `c`, so `c` did not use up the amount
        have hlt : cap c < r := by
          by_contra hle
          rw [min_eq_left (not_lt.mp hle), sub_self] at hout
          exact hout.1 rfl
        rw [min_eq_right hlt.le] at hout ⊢
        refine ⟨c :: front, back, rfl, (outlasts_cons cap).mpr ⟨hr, hlt, hout⟩, rfl, ?_⟩
        rw [List.map_cons, List.sum_cons, sub_add_eq_sub_sub]
  · rintro ⟨front, back, rfl, hout, rfl, rfl⟩
    induction front generalizing r with
    | nil =>
      have hr := (outlasts_nil cap).mp hout
      refine ⟨drain cap (r-min r (cap a)) back, ?_⟩
      simp [drain, hr]
    | cons c front ih =>
      obtain ⟨hr, hlt, hrest⟩ := (outlasts_cons cap).mp hout
      obtain ⟨ys, hys⟩ := ih hrest
      refine ⟨ys, ?_⟩
      rw [List.cons_append, drain, if_neg hr, min_eq_right hlt.le, hys, List.map_cons,
        List.map_cons, List.sum_cons, List.cons_append, sub_add_eq_sub_sub]

/-- Something is left of the amount exactly when it outlasts all the sources. -/
theorem drain_left_ne_zero_iff {l : List α} {r : ℚ} :
    r-((drain cap r l).map Prod.snd).sum ≠ 0 ↔ Outlasts cap r l := by
  induction l generalizing r with
  | nil =>
    rw [outlasts_nil]
    simp [drain]
  | cons a l ih =>
    rw [outlasts_cons]
    by_cases hr : r = 0
    · simp [drain, hr]
    have hstep : r-((drain cap r (a :: l)).map Prod.snd).sum =
        r-min r (cap a)-((drain cap (r-min r (cap a)) l).map Prod.snd).sum := by
      rw [drain, if_neg hr, List.map_cons, List.sum_cons]
      ring
    rw [hstep, ih]
    by_cases hlt : cap a < r
    · rw [min_eq_right hlt.le]
      simp [hr, hlt]
    · -- the source covers the amount, and nothing is left for the others
      rw [min_eq_left (not_lt.mp hlt), sub_self]
      simp [Outlasts, hlt]

theorem not_outlasts_iff {l : List α} {r : ℚ} (hr : r ≠ 0) :
    ¬ Outlasts cap r l ↔ ∃ p : List α, p ≠ [] ∧ p <+: l ∧ r ≤ (p.map cap).sum := by
  simp only [Outlasts, ne_eq, hr, not_false_iff, true_and]
  push Not
  rfl

/-- What is drawn, the sources that are left and what is left of the amount. -/
structure Drawing (α : Type) where
  draws : List (α × ℚ)
  left : List α
  amount : ℚ

/-- One drawing and then another, from sources behind those of the first. -/
def Drawing.andThen {α : Type} (d d' : Drawing α) : Drawing α :=
  ⟨d.draws++d'.draws, d.left++d'.left, d'.amount⟩

section Down
variable (skip : α → Bool) (use : α → ℚ → α)

def drawDown : ℚ → List α → Drawing α
  | r, [] => ⟨[], [], r⟩
  | r, a :: l =>
    if 0 < r then
      if skip a then drawDown r l
      else
        let x := min r (cap a)
        let d := drawDown (r-x) l
        ⟨(a,x) :: d.draws, if x < cap a then use a x :: d.left else d.left, d.amount⟩
    else ⟨[], a :: l, r⟩

theorem drawDown_of_nonpos {r : ℚ} (h : r ≤ 0) (l : List α) :
    drawDown cap skip use r l = ⟨[], l, r⟩ := by
  cases l with
  | nil => rfl
  | cons a l => simp [drawDown, not_lt.mpr h]

theorem drawDown_skip {r : ℚ} (hr : 0 < r) {a : α} (ha : skip a = true) (l : List α) :
    drawDown cap skip use r (a :: l) = drawDown cap skip use r l := by
  rw [drawDown, if_pos hr, if_pos ha]

/-- A source that does not cover the amount is used up. -/
theorem drawDown_used_up {r : ℚ} (hr : 0 < r) {a : α} (ha : skip a = false)
    (hle : cap a ≤ r) (l : List α) : drawDown cap skip use r (a :: l) =
      ⟨(a,cap a) :: (drawDown cap skip use (r-cap a) l).draws,
        (drawDown cap skip use (r-cap a) l).left,
        (drawDown cap skip use (r-cap a) l).amount⟩ := by
  rw [drawDown, if_pos hr, ha, min_eq_right hle]
  simp

/-- One that has more than enough ends the loop. -/
theorem drawDown_enough {r : ℚ} (hr : 0 < r) {a : α} (ha : skip a = false)
    (hlt : r < cap a) (l : List α) :
    drawDown cap skip use r (a :: l) = ⟨[(a,r)], use a r :: l, 0⟩ := by
  have hrest := drawDown_of_nonpos cap skip use (le_refl (0:ℚ)) l
  rw [drawDown, if_pos hr, ha, min_eq_left hlt.le]
  simp [hlt, hrest]

/-- Drawing from the sources in front and then, with what is left, from those behind. -/
theorem drawDown_append (r : ℚ) (front back : List α) :
    drawDown cap skip use r (front++back) = (drawDown cap skip use r front).andThen
      (drawDown cap skip use (drawDown cap skip use r front).amount back) := by
  induction front generalizing r with
  | nil => rfl
  | cons a front ih =>
    rw [List.cons_append]
    rcases le_or_gt r 0 with hr | hr
    · simp [drawDown_of_nonpos cap skip use hr, Drawing.andThen]
    cases ha : skip a with
    | true =>
      rw [drawDown_skip _ _ _ hr ha, drawDown_skip _ _ _ hr ha]
      exact ih r
    | false =>
      rcases le_or_gt (cap a) r with hle | hlt
      · rw [drawDown_used_up _ _ _ hr ha hle, drawDown_used_up _ _ _ hr ha hle, ih]
        rfl
      · rw [drawDown_enough _ _ _ hr ha hlt, drawDown_enough _ _ _ hr ha hlt]
        simp [drawDown_of_nonpos cap skip use le_rfl, Drawing.andThen]

/-- The sources in front are gone, each drawn in full unless it is skipped; then comes at
most one that is drawn in part; those behind it are as they were. -/
theorem drawDown_cut (r : ℚ) (l : List α) :
    ∃ (gone : List α) (part : Option (α × ℚ)) (back : List α),
      l = gone++(part.map Prod.fst).toList++back ∧
      (drawDown cap skip use r l).left = (part.map fun t => use t.1 t.2).toList++back ∧
      (drawDown cap skip use r l).draws =
        (gone.filter fun a => !skip a).map (fun a => (a,cap a))++part.toList ∧
      ∀ t ∈ part, 0 < t.2 ∧ t.2 < cap t.1 := by
  induction l generalizing r with
  | nil => exact ⟨[], none, [], rfl, rfl, rfl, by simp⟩
  | cons a l ih =>
    rcases le_or_gt r 0 with hr | hr
    · rw [drawDown_of_nonpos cap skip use hr]
      exact ⟨[], none, a :: l, rfl, rfl, rfl, by simp⟩
    cases ha : skip a with
    | true =>
      obtain ⟨gone, part, back, hl, hleft, hdraws, hpart⟩ := ih r
      rw [drawDown_skip _ _ _ hr ha]
      refine ⟨a :: gone, part, back, by rw [hl]; rfl, hleft, ?_, hpart⟩
      rw [hdraws, List.filter_cons_of_neg (by simp [ha])]
    | false =>
      rcases le_or_gt (cap a) r with hle | hlt
      · obtain ⟨gone, part, back, hl, hleft, hdraws, hpart⟩ := ih (r-cap a)
        rw [drawDown_used_up _ _ _ hr ha hle]
        refine ⟨a :: gone, part, back, by rw [hl]; rfl, hleft, ?_, hpart⟩
        rw [hdraws, List.filter_cons_of_pos (by simp [ha])]
        rfl
      · rw [drawDown_enough _ _ _ hr ha hlt]
        refine ⟨[], some (a,r), l, rfl, rfl, rfl, ?_⟩
        intro t ht
        obtain rfl := Option.mem_some_iff.mp ht
        exact ⟨hr, hlt⟩

end Down

end Draw

/-- What stands in the first of two related lists has a partner in the second. -/
theorem exists_of_forall₂_mem {α β : Type} {R : α → β → Prop} {l : List α} {l' : List β}
    (h : List.Forall₂ R l l') {a : α} (ha : a ∈ l) : ∃ b ∈ l', R a b := by
  induction h with
  | nil => simp at ha
  | cons hab _ ih =>
    rcases List.mem_cons.mp ha with rfl | ha
    · exact ⟨_, List.mem_cons_self, hab⟩
    · obtain ⟨b, hb, hab⟩ := ih ha
      exact ⟨b, List.mem_cons_of_mem _ hb, hab⟩

section Paired
variable {α β γ : Type} {R : α → β → Prop} (g : β → γ)

/-- A place in a list paired with its partners is a place among the partners. -/
theorem split_of_zip_eq_append {l : List α} {l' : List β} (h : List.Forall₂ R l l')
    {ahead behind : List (α × γ)} {a : α} {c : γ}
    (hz : l.zip (l'.map g) = ahead++(a,c) :: behind) :
    ∃ (xs : List β) (x : β) (ys : List β), l' = xs++x :: ys ∧
      List.Forall₂ R (ahead.map Prod.fst) xs ∧ R a x ∧ c = g x := by
  induction h generalizing ahead with
  | nil => simp at hz
  | @cons a₀ b₀ l l' hab hrest ih =>
    rw [List.map_cons, List.zip_cons_cons] at hz
    cases ahead with
    | nil =>
      obtain ⟨hhead, -⟩ := List.cons.inj hz
      obtain ⟨rfl, rfl⟩ := Prod.mk.inj hhead
      exact ⟨[], b₀, l', rfl, .nil, hab, rfl⟩
    | cons y ahead =>
      obtain ⟨rfl, htail⟩ := List.cons.inj hz
      obtain ⟨xs, x, ys, rfl, hxs, hax, hc⟩ := ih htail
      exact ⟨b₀ :: xs, x, ys, rfl, .cons hab hxs, hax, hc⟩

theorem zip_eq_append_of_split {l : List α} {xs : List β} {x : β} {ys : List β}
    (h : List.Forall₂ R l (xs++x :: ys)) :
    ∃ (ahead : List (α × γ)) (a : α) (behind : List (α × γ)),
      l.zip ((xs++x :: ys).map g) = ahead++(a,g x) :: behind ∧
        List.Forall₂ R (ahead.map Prod.fst) xs ∧ R a x := by
  induction xs generalizing l with
  | nil =>
    obtain ⟨a, l, hax, -, rfl⟩ := List.forall₂_cons_right_iff.mp h
    exact ⟨[], a, l.zip (ys.map g), rfl, .nil, hax⟩
  | cons y xs ih =>
    obtain ⟨a, l, hay, hrest, rfl⟩ := List.forall₂_cons_right_iff.mp h
    obtain ⟨ahead, a', behind, hz, hxs, hax⟩ := ih hrest
    refine ⟨(a,g y) :: ahead, a', behind, ?_, .cons hay hxs, hax⟩
    rw [List.cons_append, List.map_cons, List.zip_cons_cons, hz, List.cons_append]

end Paired

end Perplex
