import Perplex.EdgeStep

/-! The pages of the trade tape and of the fill history. A request cuts the newest records off
first, and only then looks at the market and at the cursor; the page behind a cursor is looked
for among the records that the cursor has passed. -/
namespace Perplex.Edge

theorem append_lt_append {xs ys : List Char} (hlen : xs.length = ys.length) (h : xs < ys)
    (zs ws : List Char) : xs++zs < ys++ws := by
  induction xs generalizing ys with
  | nil =>
    obtain rfl := List.length_eq_zero_iff.mp hlen.symm
    exact absurd h (List.lt_irrefl _)
  | cons x xs ih =>
    cases ys with
    | nil => simp at hlen
    | cons y ys =>
      rw [List.cons_append, List.cons_append, List.cons_lt_cons_iff]
      rcases List.cons_lt_cons_iff.mp h with hlt | ⟨rfl, hrest⟩
      · exact Or.inl hlt
      · exact Or.inr ⟨rfl, ih (Nat.succ.inj hlen) hrest⟩

theorem digitChar_lt {a b : ℕ} (h : a < b) (hb : b < 10) : a.digitChar < b.digitChar := by
  have hall : ∀ b < 10, ∀ a < b, a.digitChar < b.digitChar := by decide
  exact hall b hb a h

/-- Digits of one width are ordered as the numbers are. -/
theorem toDigits_lt {a b : ℕ} (h : a < b)
    (hlen : (Nat.toDigits 10 a).length = (Nat.toDigits 10 b).length) :
    Nat.toDigits 10 a < Nat.toDigits 10 b := by
  induction a using Nat.strong_induction_on generalizing b with
  | _ a ih =>
    by_cases hb : b < 10
    · rw [Nat.toDigits_of_lt_base hb, Nat.toDigits_of_lt_base (h.trans hb)]
      exact List.cons_lt_cons_iff.mpr (Or.inl (digitChar_lt h hb))
    have hb := Nat.toDigits_of_base_le (b := 10) (by norm_num) (not_lt.mp hb)
    by_cases ha : a < 10
    · -- a single digit is shorter
      have hpos := Nat.length_toDigits_pos (b := 10) (n := b/10)
      rw [Nat.toDigits_of_lt_base ha, hb, List.length_append] at hlen
      simp only [List.length_cons, List.length_nil] at hlen
      omega
    have ha' := Nat.toDigits_of_base_le (b := 10) (by norm_num) (not_lt.mp ha)
    rw [ha', hb] at hlen ⊢
    simp only [List.length_append, List.length_cons, List.length_nil, Nat.add_right_cancel_iff]
      at hlen
    rcases lt_or_eq_of_le (Nat.div_le_div_right (c := 10) h.le) with hlt | heq
    · exact append_lt_append hlen (ih (a/10) (by omega) hlt hlen) _ _
    · have hmod : a%10 < b%10 := by omega
      rw [heq]
      exact List.append_left_lt (List.cons_lt_cons_iff.mpr
        (Or.inl (digitChar_lt hmod (Nat.mod_lt b (by norm_num)))))

theorem toString_lt {a b : ℕ} (h : a < b) (hlen : (toString a).length = (toString b).length) :
    toString a < toString b := by
  have hlist (n : ℕ) : (toString n).toList = Nat.toDigits 10 n := Nat.toList_repr
  change (toString a).toList < (toString b).toList
  rw [← String.length_toList, ← String.length_toList, hlist, hlist] at hlen
  rw [hlist, hlist]
  exact toDigits_lt h hlen

/-- A page of records, newest first, and the cursor for the next one. -/
structure Page (α : Type) where
  records : List α
  nextBefore : Option String

/-- The record is behind the cursor, by the text of its timestamp. -/
def older (before : Option String) (tsNs : ℕ) : Bool :=
  match before with
  | none => true
  | some before => toString tsNs < before

def MAX_TRADES : ℕ := 1000
def MAX_FILLS : ℕ := 1000

namespace AppState

/-- `public_trades`. -/
def publicTradesOf (s : AppState) (marketId : String) (limit : ℕ) : List PublicTrade :=
  (s.publicTrades marketId).reverse.take limit

/-- `fills_for`. -/
def fillsFor (s : AppState) (address : Address) (limit : ℕ) : List FillInfo :=
  (s.fills address).reverse.take limit

/-- `get_trades`; nothing for a market that is not listed. -/
def getTrades (s : AppState) (marketId : String) (limit : Option ℕ) (before : Option String) :
    Option (Page PublicTrade) :=
  if (s.market marketId).isNone then none
  else
    let limit := min (limit.getD 100) MAX_TRADES
    let trades := (s.publicTradesOf marketId limit).filter fun t => older before t.tsNs
    some ⟨trades, trades.getLast?.map fun t => toString t.tsNs⟩

/-- `list_fills`. -/
def listFills (s : AppState) (user : Address) (marketId : Option String) (limit : Option ℕ)
    (before : Option String) : Page FillInfo :=
  let limit := min (limit.getD 100) MAX_FILLS
  let fills := s.fillsFor user limit
  let fills := match marketId with
    | none => fills
    | some mid => fills.filter fun f => f.marketId = mid
  let fills := fills.filter fun f => older before f.tsNs
  ⟨fills, fills.getLast?.map fun f => toString f.tsNs⟩

end AppState

/-- A client asks for a page and goes on from its cursor, until a page is empty. -/
inductive Enumerates {α : Type} (request : Option String → Option (Page α)) :
    Option String → List α → Prop where
  | stop {before : Option String} {page : Page α} (h : request before = some page)
      (hempty : page.records = []) : Enumerates request before []
  | more {before : Option String} {page : Page α} {rest : List α}
      (h : request before = some page) (hne : page.records ≠ [])
      (hrest : Enumerates request page.nextBefore rest) :
      Enumerates request before (page.records++rest)

theorem Enumerates.first_page {α : Type} {request : Option String → Option (Page α)}
    {before : Option String} {l : List α} (h : Enumerates request before l) :
    ∃ page, request before = some page := by
  cases h with
  | stop h _ => exact ⟨_, h⟩
  | more h _ _ => exact ⟨_, h⟩

/-- Records with increasing timestamps of one width. -/
structure Stamped {α : Type} (tsNs : α → ℕ) (l : List α) : Prop where
  increasing : l.Pairwise fun a b => tsNs a < tsNs b
  width : ∀ a ∈ l, ∀ b ∈ l, (toString (tsNs a)).length = (toString (tsNs b)).length

section Pages
variable {α : Type} {tsNs : α → ℕ}

/-- The page behind a cursor, out of a window that is cut beforehand. -/
def pageOf (tsNs : α → ℕ) (window : List α) (before : Option String) : Page α :=
  let records := window.filter fun x => older before (tsNs x)
  ⟨records, records.getLast?.map fun x => toString (tsNs x)⟩

theorem pageOf_none (tsNs : α → ℕ) (window : List α) :
    pageOf tsNs window none = ⟨window, window.getLast?.map fun x => toString (tsNs x)⟩ := by
  simp [pageOf, older]

section Window
variable {window : List α} (hsorted : window.Pairwise fun a b => tsNs b < tsNs a)
  (hwidth : ∀ a ∈ window, ∀ b ∈ window,
    (toString (tsNs a)).length = (toString (tsNs b)).length)
include hsorted hwidth

/-- Nothing in a window is older than its last record. -/
theorem pageOf_last (hne : window ≠ []) :
    (pageOf tsNs window (pageOf tsNs window none).nextBefore).records = [] := by
  obtain ⟨front, x, rfl⟩ := List.eq_nil_or_concat' window |>.resolve_left hne
  have hlast : (pageOf tsNs (front++[x]) none).nextBefore = some (toString (tsNs x)) := by
    rw [pageOf_none, List.getLast?_concat]
    rfl
  rw [hlast]
  refine List.filter_eq_nil_iff.mpr ?_
  intro y hy
  have hle : tsNs x ≤ tsNs y := by
    rcases List.mem_append.mp hy with hy | hy
    · exact ((List.pairwise_append.mp hsorted).2.2 y hy x (by simp)).le
    · rw [List.mem_singleton.mp hy]
  rw [older, decide_eq_true_eq]
  intro hlt
  rcases hle.eq_or_lt with heq | hgt
  · rw [heq] at hlt
    exact String.lt_irrefl _ hlt
  · exact String.lt_asymm hlt (toString_lt hgt (hwidth x (by simp) y hy))

/-- The pages show the window and nothing else. -/
theorem enumerates_window_iff (l : List α) :
    Enumerates (fun before => some (pageOf tsNs window before)) none l ↔ l = window := by
  constructor
  · intro h
    cases h with
    | stop h hempty =>
      obtain rfl := Option.some.inj h
      rw [pageOf_none] at hempty
      exact hempty.symm
    | more h hne hrest =>
      obtain rfl := Option.some.inj h
      rw [pageOf_none] at hne
      -- the second page is empty, and the client stops
      have hlast := pageOf_last hsorted hwidth hne
      cases hrest with
      | stop _ _ => rw [pageOf_none, List.append_nil]
      | more h₂ hne₂ _ =>
        obtain rfl := Option.some.inj h₂
        exact absurd hlast hne₂
  · rintro rfl
    have hfirst := pageOf_none tsNs l
    have hstop {before : Option String} (h : (pageOf tsNs l before).records = []) :
        Enumerates (fun before => some (pageOf tsNs l before)) before [] := .stop rfl h
    by_cases hne : l = []
    · have hempty : (pageOf tsNs l none).records = [] := by
        rw [hfirst]
        exact hne
      subst hne
      exact hstop hempty
    · have hpage : (pageOf tsNs l none).records ≠ [] := by
        rw [hfirst]
        exact hne
      have h : Enumerates (fun before => some (pageOf tsNs l before)) none
          ((pageOf tsNs l none).records++[]) :=
        .more rfl hpage (hstop (pageOf_last hsorted hwidth hne))
      rwa [hfirst, List.append_nil] at h

end Window

/-- The cut loses nothing exactly when nothing that is asked for is behind it. -/
theorem filter_eq_filter_take_iff (p : α → Bool) (l : List α) (n : ℕ) :
    l.filter p = (l.take n).filter p ↔ ∀ x ∈ l.drop n, p x = false := by
  have hsplit : l.filter p = (l.take n).filter p++(l.drop n).filter p := by
    rw [← List.filter_append, List.take_append_drop]
  rw [hsplit, List.append_right_eq_self, List.filter_eq_nil_iff]
  simp

end Pages

namespace AppState
variable {s : AppState} {limit : ℕ}

/-- The window of a request, and what it leaves of all the records. -/
theorem enumerates_take_iff {α : Type} {tsNs : α → ℕ} {l : List α} (h : Stamped tsNs l)
    (p : α → Bool) (n : ℕ) :
    Enumerates (fun before => some (pageOf tsNs ((l.reverse.take n).filter p) before)) none
        (l.reverse.filter p) ↔ ∀ x ∈ l.reverse.drop n, p x = false := by
  have hmem : ∀ x ∈ (l.reverse.take n).filter p, x ∈ l := fun x hx =>
    List.mem_reverse.mp (List.mem_of_mem_take (List.mem_filter.mp hx).1)
  have hsorted : l.reverse.Pairwise fun a b => tsNs b < tsNs a :=
    List.pairwise_reverse.mpr h.increasing
  rw [enumerates_window_iff ((hsorted.take).filter _)
    fun a ha b hb => h.width a (hmem a ha) b (hmem b hb)]
  exact filter_eq_filter_take_iff p l.reverse n

theorem getTrades_eq {marketId : String} (hm : (s.market marketId).isSome = true)
    (h : limit ≤ MAX_TRADES) : s.getTrades marketId (some limit) = fun before =>
      some (pageOf PublicTrade.tsNs ((s.publicTrades marketId).reverse.take limit) before) := by
  funext before
  have hlisted : ¬ (s.market marketId).isNone = true := by
    rw [Option.isNone_iff_eq_none, ← ne_eq, Option.ne_none_iff_isSome]
    exact hm
  rw [getTrades, if_neg hlisted, Option.getD_some, min_eq_left h]
  rfl

theorem listFills_eq (user : Address) (marketId : Option String) (h : limit ≤ MAX_FILLS) :
    s.listFills user marketId (some limit) = pageOf FillInfo.tsNs
      (((s.fills user).reverse.take limit).filter fun f => marketId.all (f.marketId = ·)) := by
  funext before
  unfold listFills
  rw [Option.getD_some, min_eq_left h]
  cases marketId with
  | none =>
    simp only [Option.all_none, List.filter_true]
    rfl
  | some mid => rfl

/-- The pages show every trade if and only if the tape fits into one page, and every fill that
is asked for if and only if the newest ones, as many as a page holds, are all there are. -/
theorem pages_enumerate_iff (s : AppState) {limit : ℕ} (h : limit ≤ 1000) :
    (∀ marketId, Stamped PublicTrade.tsNs (s.publicTrades marketId) →
      (Enumerates (s.getTrades marketId (some limit)) none (s.publicTrades marketId).reverse ↔
        (s.market marketId).isSome = true ∧ (s.publicTrades marketId).length ≤ limit)) ∧
    ∀ user marketId, Stamped FillInfo.tsNs (s.fills user) →
      (Enumerates (fun before => some (s.listFills user marketId (some limit) before)) none
          ((s.fills user).reverse.filter fun f => marketId.all (f.marketId = ·)) ↔
        ∀ f ∈ (s.fills user).reverse.drop limit,
          (marketId.all fun mid => f.marketId = mid) = false) := by
  refine ⟨?_, ?_⟩
  · intro marketId hstamped
    by_cases hm : (s.market marketId).isSome = true
    · have hiff := enumerates_take_iff hstamped (fun _ => true) limit
      rw [getTrades_eq hm h]
      simp only [List.filter_true] at hiff
      rw [hiff, ← List.length_reverse, ← List.drop_eq_nil_iff]
      simp only [hm, true_and, Bool.true_eq_false, imp_false]
      exact List.eq_nil_iff_forall_not_mem.symm
    · -- a market that is not listed has no page at all
      refine iff_of_false ?_ fun hc => hm hc.1
      have hnone (before : Option String) : s.getTrades marketId (some limit) before = none := by
        rw [getTrades, if_pos (by simpa using hm)]
      intro henum
      obtain ⟨page, hpage⟩ := henum.first_page
      simp [hnone] at hpage
  · intro user marketId hstamped
    rw [← enumerates_take_iff hstamped, listFills_eq user marketId h]

end AppState

/-- Two trades of one market. -/
def twoTrades : AppState :=
  { AppState.new with
    publicTrades := fun _ => [⟨0, "btc-usd", 100, 1, .buy, 10⟩, ⟨1, "btc-usd", 101, 1, .buy, 11⟩] }

theorem twoTrades_stamped (marketId : String) :
    Stamped PublicTrade.tsNs (twoTrades.publicTrades marketId) where
  increasing := by simp [twoTrades]
  width := by
    intro a ha b hb
    simp only [twoTrades, List.mem_cons, List.not_mem_nil, or_false] at ha hb
    rcases ha with rfl | rfl <;> rcases hb with rfl | rfl <;> decide

theorem twoTrades_listed : (twoTrades.market "btc-usd").isSome = true := by decide +kernel

/-- One page holds both. -/
theorem pages_enumerate_iff_twoTrades :
    (twoTrades.publicTrades "btc-usd").length = 2 ∧
      Enumerates (twoTrades.getTrades "btc-usd" (some 2)) none
        (twoTrades.publicTrades "btc-usd").reverse :=
  ⟨rfl, ((twoTrades.pages_enumerate_iff (by norm_num)).1 "btc-usd"
    (twoTrades_stamped "btc-usd")).mpr ⟨twoTrades_listed, le_refl 2⟩⟩

/-- With a trade a page the older one is never shown. -/
theorem second_page_is_empty :
    Stamped PublicTrade.tsNs (twoTrades.publicTrades "btc-usd") ∧
      (twoTrades.getTrades "btc-usd" (some 1) none).map Page.nextBefore = some (some "11") ∧
      (twoTrades.getTrades "btc-usd" (some 1) (some "11")).map (fun page => page.records) =
        some [] ∧
      ¬ Enumerates (twoTrades.getTrades "btc-usd" (some 1)) none
        (twoTrades.publicTrades "btc-usd").reverse := by
  refine ⟨twoTrades_stamped "btc-usd", by decide +kernel, by decide +kernel, ?_⟩
  have hiff := AppState.enumerates_take_iff (twoTrades_stamped "btc-usd") (fun _ => true) 1
  simp only [List.filter_true] at hiff
  rw [AppState.getTrades_eq twoTrades_listed (by decide), hiff]
  intro hall
  have hbehind : (⟨0, "btc-usd", 100, 1, .buy, 10⟩ : PublicTrade) ∈
      (twoTrades.publicTrades "btc-usd").reverse.drop 1 := by simp [twoTrades]
  exact absurd (hall _ hbehind) (by decide)

end Perplex.Edge
