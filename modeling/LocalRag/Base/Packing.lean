-- SUMMARY: Greedy packing of a list of sized items into windows that may repeat the end of their predecessor.
import Mathlib.Data.List.Chain
import Mathlib.Data.List.Infix

/-!
# Packing into overlapping windows

Items are laid out one after the other with a gap between neighbours. A window
takes items while they fit a limit; the window after it starts with the longest
suffix of it that is not longer than the overlap. `pack` is the greedy packing
of a list, and the lemmas say what it guarantees: the fresh items of the windows
partition the list, every window starts with what its predecessor carries over,
a window was closed only because the next item did not fit, and an item was
added only where it did. What a window repeats is not part of that test:
`pack_within_iff` says when all windows are within the limit nevertheless.
-/

namespace Packing

/-- A window: the items repeated from the window before, then its own. -/
structure Window (α : Type) where
  kept : List α
  fresh : List α

def Window.items {α : Type} (w : Window α) : List α := w.kept ++ w.fresh

variable {α : Type} (size : α → ℤ) (gap limit overlap : ℤ)

/-- The length of a list of items laid out with gaps. -/
def span : List α → ℤ
  | [] => 0
  | a :: l => size a + if l = [] then 0 else gap + span l

/-- What is carried over into the next window. -/
def carry : List α → List α
  | [] => []
  | a :: l => if overlap < span size gap (a :: l) then carry l else a :: l

/-- Continue a window with a list of items. -/
def fill : Window α → List α → List (Window α)
  | w, [] => [w]
  | w, a :: l =>
    if limit < span size gap w.items + (gap + size a) then
      w :: fill ⟨carry size gap overlap w.items, [a]⟩ l
    else fill ⟨w.kept, w.fresh ++ [a]⟩ l

def pack : List α → List (Window α)
  | [] => []
  | a :: l => fill size gap limit overlap ⟨[], [a]⟩ l

/-! ## Spans -/

variable {size gap limit overlap}

@[simp] theorem span_nil : span size gap [] = 0 := rfl

@[simp] theorem span_singleton (a : α) : span size gap [a] = size a := by simp [span]

theorem span_cons_of_ne_nil (a : α) {l : List α} (h : l ≠ []) :
    span size gap (a :: l) = size a + (gap + span size gap l) := by
  simp [span, h]

theorem span_append (l m : List α) (hl : l ≠ []) (hm : m ≠ []) :
    span size gap (l ++ m) = span size gap l + (gap + span size gap m) := by
  induction l with
  | nil => exact absurd rfl hl
  | cons a l ih =>
    by_cases h : l = []
    · simp [h, span_cons_of_ne_nil a hm]
    · rw [List.cons_append, span_cons_of_ne_nil a (by simp [h]), ih h, span_cons_of_ne_nil a h]
      omega

theorem span_nonneg (hsize : ∀ a, 0 ≤ size a) (hgap : 0 ≤ gap) (l : List α) :
    0 ≤ span size gap l := by
  induction l with
  | nil => simp
  | cons a l ih =>
    have := hsize a
    unfold span
    split <;> omega

/-- A part of a layout is no longer than the whole. -/
theorem span_le_of_append (hsize : ∀ a, 0 ≤ size a) (hgap : 0 ≤ gap) (l m : List α) :
    span size gap l ≤ span size gap (l ++ m) ∧ span size gap m ≤ span size gap (l ++ m) := by
  have hl := span_nonneg hsize hgap l
  have hm := span_nonneg hsize hgap m
  by_cases h₁ : l = []
  · subst h₁; simpa using hm
  by_cases h₂ : m = []
  · subst h₂; simpa using hl
  rw [span_append l m h₁ h₂]
  omega

theorem size_le_span (hsize : ∀ a, 0 ≤ size a) (hgap : 0 ≤ gap) {a : α} {l : List α}
    (h : a ∈ l) : size a ≤ span size gap l := by
  obtain ⟨l₁, l₂, rfl⟩ := List.append_of_mem h
  have h₁ := (span_le_of_append hsize hgap l₁ (a :: l₂)).2
  have h₂ := (span_le_of_append hsize hgap [a] l₂).1
  rw [span_singleton] at h₂
  exact Int.le_trans h₂ h₁

/-! ## What is carried over -/

theorem carry_suffix (l : List α) : carry size gap overlap l <:+ l := by
  induction l with
  | nil => exact List.suffix_rfl
  | cons a l ih =>
    rw [carry]
    split
    · exact ih.trans (List.suffix_cons a l)
    · exact List.suffix_rfl

theorem span_carry_le (hover : 0 ≤ overlap) (l : List α) :
    span size gap (carry size gap overlap l) ≤ overlap := by
  induction l with
  | nil => simpa [carry]
  | cons a l ih =>
    rw [carry]
    split
    · exact ih
    · omega

/-- It is the longest end of the list that is within the overlap. -/
theorem suffix_carry {t l : List α} (h : t <:+ l)
    (hover : span size gap t ≤ overlap) : t <:+ carry size gap overlap l := by
  induction l with
  | nil => exact h
  | cons a l ih =>
    rw [carry]
    split
    · next hlong =>
      rcases List.suffix_cons_iff.mp h with rfl | h
      · omega
      · exact ih h
    · exact h

/-! ## The packing -/

/-- `w` comes after `v`: it starts with what `v` carries over, and its first
fresh item no longer fitted into `v`. -/
def Window.Follows (size : α → ℤ) (gap limit overlap : ℤ) (v w : Window α) : Prop :=
  w.kept = carry size gap overlap v.items ∧
  ∃ a l, w.fresh = a :: l ∧ limit < span size gap v.items + (gap + size a)

/-- Every fresh item but the first was added because it fitted. -/
def Window.Fits (size : α → ℤ) (gap limit : ℤ) (w : Window α) : Prop :=
  ∀ pre a post, w.fresh = pre ++ a :: post → pre ≠ [] →
    span size gap (w.kept ++ pre) + (gap + size a) ≤ limit

theorem fill_fresh (w : Window α) (l : List α) :
    (fill size gap limit overlap w l).flatMap Window.fresh = w.fresh ++ l := by
  induction l generalizing w with
  | nil => simp [fill]
  | cons a l ih =>
    rw [fill]
    split <;> simp [ih]

/-- The packing partitions the list. -/
theorem pack_fresh (l : List α) :
    (pack size gap limit overlap l).flatMap Window.fresh = l := by
  cases l with
  | nil => rfl
  | cons a l => simp [pack, fill_fresh]

/-- What is computed from each item comes out of the windows in order. -/
theorem pack_flatMap {β : Type} (f : α → List β) (l : List α) :
    ((pack size gap limit overlap l).flatMap fun w => w.fresh.flatMap f) = l.flatMap f := by
  rw [← List.flatMap_assoc, pack_fresh]

/-- The first window of a continued packing continues the given window. -/
theorem fill_head (w : Window α) (l : List α) :
    ∃ more ws, fill size gap limit overlap w l = ⟨w.kept, w.fresh ++ more⟩ :: ws := by
  induction l generalizing w with
  | nil => exact ⟨[], [], by simp [fill]⟩
  | cons a l ih =>
    rw [fill]
    split
    · exact ⟨[], _, by rw [List.append_nil]⟩
    · obtain ⟨more, ws, h⟩ := ih ⟨w.kept, w.fresh ++ [a]⟩
      exact ⟨a :: more, ws, by simpa using h⟩

theorem fill_isChain (w : Window α) (l : List α) :
    (fill size gap limit overlap w l).IsChain (Window.Follows size gap limit overlap) := by
  induction l generalizing w with
  | nil => simp [fill]
  | cons a l ih =>
    rw [fill]
    split
    · next hclose =>
      have hrest := ih ⟨carry size gap overlap w.items, [a]⟩
      obtain ⟨more, ws, h⟩ : ∃ more ws, fill size gap limit overlap
          ⟨carry size gap overlap w.items, [a]⟩ l = ⟨_, [a] ++ more⟩ :: ws := fill_head _ l
      rw [h] at hrest ⊢
      exact List.isChain_cons_cons.mpr ⟨⟨rfl, a, more, rfl, hclose⟩, hrest⟩
    · exact ih _

theorem pack_isChain (l : List α) :
    (pack size gap limit overlap l).IsChain (Window.Follows size gap limit overlap) := by
  cases l with
  | nil => exact List.isChain_nil
  | cons a l => exact fill_isChain _ _

theorem fill_fits (w : Window α) (hw : w.fresh ≠ []) (hfits : w.Fits size gap limit)
    (l : List α) : ∀ v ∈ fill size gap limit overlap w l, v.fresh ≠ [] ∧ v.Fits size gap limit := by
  induction l generalizing w with
  | nil => simpa [fill] using ⟨hw, hfits⟩
  | cons a l ih =>
    rw [fill]
    split
    · intro v hv
      rcases List.mem_cons.mp hv with rfl | hv
      · exact ⟨hw, hfits⟩
      · refine ih ⟨_, [a]⟩ (by simp) ?_ v hv
        intro pre b post h hpre
        obtain ⟨c, pre, rfl⟩ := List.exists_cons_of_ne_nil hpre
        simp at h
    · next hopen =>
      refine ih ⟨w.kept, w.fresh ++ [a]⟩ (by simp) ?_
      intro pre b post h hpre
      rcases List.eq_nil_or_concat post with rfl | ⟨post, c, rfl⟩
      · obtain ⟨rfl, hab⟩ := List.append_inj' h rfl
        obtain rfl : a = b := by simpa using hab
        exact Int.not_lt.mp hopen
      · rw [List.concat_eq_append, ← List.cons_append, ← List.append_assoc] at h
        exact hfits pre b post (List.append_inj' h rfl).1 hpre

theorem pack_fits (l : List α) :
    ∀ w ∈ pack size gap limit overlap l, w.fresh ≠ [] ∧ w.Fits size gap limit := by
  cases l with
  | nil => simp [pack]
  | cons a l =>
    refine fill_fits ⟨[], [a]⟩ (by simp) ?_ l
    intro pre b post h hpre
    obtain ⟨c, pre, rfl⟩ := List.exists_cons_of_ne_nil hpre
    simp at h

/-- The first window repeats nothing. -/
theorem pack_head_kept (l : List α) :
    ∀ w ∈ (pack size gap limit overlap l).head?, w.kept = [] := by
  cases l with
  | nil => simp [pack]
  | cons a l =>
    obtain ⟨more, ws, h⟩ : ∃ more ws, fill size gap limit overlap ⟨[], [a]⟩ l =
        ⟨[], [a] ++ more⟩ :: ws := fill_head _ l
    simp [pack, h]

/-- No window repeats more than the overlap. -/
theorem fill_kept_le (hover : 0 ≤ overlap) (w : Window α) (hw : span size gap w.kept ≤ overlap)
    (l : List α) : ∀ v ∈ fill size gap limit overlap w l, span size gap v.kept ≤ overlap := by
  induction l generalizing w with
  | nil => simpa [fill] using hw
  | cons a l ih =>
    rw [fill]
    split
    · intro v hv
      rcases List.mem_cons.mp hv with rfl | hv
      · exact hw
      · exact ih ⟨_, [a]⟩ (span_carry_le hover w.items) v hv
    · exact ih ⟨w.kept, w.fresh ++ [a]⟩ hw

theorem pack_kept_le (hover : 0 ≤ overlap) (l : List α) :
    ∀ w ∈ pack size gap limit overlap l, span size gap w.kept ≤ overlap := by
  cases l with
  | nil => simp [pack]
  | cons a l => exact fill_kept_le hover ⟨[], [a]⟩ (by simpa using hover) l

/-- A window is within the limit, or it has one item beside those it repeats. -/
theorem pack_span_le (l : List α) : ∀ w ∈ pack size gap limit overlap l,
    span size gap w.items ≤ limit ∨ ∃ a ∈ l, w.items = w.kept ++ [a] := by
  intro w hw
  obtain ⟨hne, hfits⟩ := pack_fits l w hw
  obtain ⟨pre, a, hfresh⟩ := List.eq_nil_or_concat w.fresh |>.resolve_left hne
  rw [List.concat_eq_append] at hfresh
  by_cases hpre : pre = []
  · have hall : (pack size gap limit overlap l).flatMap Window.fresh = l := pack_fresh l
    have ha : a ∈ (pack size gap limit overlap l).flatMap Window.fresh :=
      List.mem_flatMap.mpr ⟨w, hw, by simp [hfresh]⟩
    exact .inr ⟨a, hall ▸ ha, by rw [Window.items, hfresh, hpre, List.nil_append]⟩
  · left
    have hlast := hfits pre a [] hfresh hpre
    rwa [Window.items, hfresh, ← List.append_assoc, span_append _ [a] (by simp [hpre]) (by simp),
      span_singleton]

/-! ## When every window is within the limit -/

/-- What a window shows is a stretch of the list. -/
theorem fill_stretch (w : Window α) (l : List α) :
    ∀ v ∈ fill size gap limit overlap w l, v.items <:+: w.items ++ l := by
  induction l generalizing w with
  | nil => simp [fill]
  | cons a l ih =>
    rw [fill]
    split
    · intro v hv
      rcases List.mem_cons.mp hv with rfl | hv
      · exact (List.prefix_append _ _).isInfix
      · have hrest := ih ⟨carry size gap overlap w.items, [a]⟩ v hv
        obtain ⟨front, hfront⟩ : carry size gap overlap w.items <:+ w.items := carry_suffix _
        refine hrest.trans (List.IsSuffix.isInfix ⟨front, ?_⟩)
        nth_rewrite 2 [← hfront]
        simp [Window.items]
    · intro v hv
      simpa [Window.items] using ih ⟨w.kept, w.fresh ++ [a]⟩ v hv

theorem pack_stretch (l : List α) :
    ∀ w ∈ pack size gap limit overlap l, w.items <:+: l := by
  cases l with
  | nil => simp [pack]
  | cons a l => exact fill_stretch ⟨[], [a]⟩ l

/-- Without an overlap nothing is repeated. -/
theorem pack_kept_eq_nil (hsize : ∀ a, 0 ≤ size a) (hgap : 0 ≤ gap) {l : List α}
    (hl : ∀ a ∈ l, 0 < size a) : ∀ w ∈ pack size gap limit 0 l, w.kept = [] := by
  intro w hw
  by_contra hne
  obtain ⟨a, kept, hkept⟩ := List.exists_cons_of_ne_nil hne
  have hstretch : w.items <:+: l := pack_stretch l w hw
  have ha : a ∈ l := hstretch.subset (by simp [Window.items, hkept])
  have hle : span size gap w.kept ≤ 0 := pack_kept_le (Int.le_refl 0) l w hw
  have hsize_le : size a ≤ span size gap w.kept := size_le_span hsize hgap (by simp [hkept])
  have hpos := hl a ha
  omega

/-- The window shows every end of the items seen so far that is within the overlap. -/
def Window.Shows (size : α → ℤ) (gap overlap : ℤ) (w : Window α) (seen : List α) : Prop :=
  ∀ t, t <:+ seen → span size gap t ≤ overlap → t <:+ w.items

/-- An item that comes into a window keeps what the window shows, whether it was
closed before or not. -/
theorem Window.Shows.snoc (hsize : ∀ a, 0 ≤ size a) (hgap : 0 ≤ gap) {v w : Window α}
    {seen : List α} (h : v.Shows size gap overlap seen) (a : α)
    (hw : w.items = v.items ++ [a] ∨ w.items = carry size gap overlap v.items ++ [a]) :
    w.Shows size gap overlap (seen ++ [a]) := by
  intro t ht hover
  rcases List.suffix_concat_iff.mp ht with rfl | ⟨t, rfl, hfront⟩
  · exact List.nil_suffix
  have hfits : span size gap t ≤ overlap :=
    Int.le_trans (span_le_of_append hsize hgap t [a]).1 hover
  have hshown := h t hfront hfits
  rcases hw with hw | hw <;> rw [hw]
  · exact (List.suffix_append_inj_of_length_eq rfl).mpr ⟨hshown, rfl⟩
  · exact (List.suffix_append_inj_of_length_eq rfl).mpr
      ⟨suffix_carry hshown hfits, rfl⟩

/-- Where items within the overlap are followed by one that does not fit beside
them, the window that has the item repeats them nevertheless. -/
theorem fill_repeats (hsize : ∀ a, 0 ≤ size a) (hgap : 0 ≤ gap) {tail : List α} {a : α}
    (hne : tail ≠ []) (hover : span size gap tail ≤ overlap)
    (hlong : limit < span size gap (tail ++ [a])) {w : Window α} {seen : List α}
    (hw : w.Shows size gap overlap seen) (mid post : List α) (htail : tail <:+ seen ++ mid) :
    ∃ v ∈ fill size gap limit overlap w (mid ++ a :: post),
      span size gap (tail ++ [a]) ≤ span size gap v.items := by
  have hbeside {l : List α} (h : tail <:+ l) :
      span size gap (tail ++ [a]) ≤ span size gap (l ++ [a]) := by
    obtain ⟨front, rfl⟩ := h
    rw [List.append_assoc]
    exact (span_le_of_append hsize hgap front (tail ++ [a])).2
  induction mid generalizing w seen with
  | nil =>
    -- the window shows the tail, so it is closed before the item and repeats the tail
    have hshown : tail <:+ w.items := hw tail (by simpa using htail) hover
    have hitems : w.items ≠ [] := fun hnil => hne (List.suffix_nil.mp (hnil ▸ hshown))
    have hclose := hbeside hshown
    rw [span_append _ _ hitems (by simp), span_singleton] at hclose
    rw [List.nil_append, fill, if_pos (by omega)]
    obtain ⟨more, ws, hhead⟩ : ∃ more ws, fill size gap limit overlap
        ⟨carry size gap overlap w.items, [a]⟩ post =
          ⟨carry size gap overlap w.items, [a] ++ more⟩ :: ws := fill_head _ post
    refine ⟨_, hhead ▸ List.mem_cons_of_mem _ List.mem_cons_self, ?_⟩
    have hrepeats := hbeside (suffix_carry hshown hover)
    have hpart := (span_le_of_append hsize hgap
      (carry size gap overlap w.items ++ [a]) more).1
    change _ ≤ span size gap (carry size gap overlap w.items ++ ([a] ++ more))
    rw [← List.append_assoc]
    omega
  | cons b mid ih =>
    rw [List.append_cons] at htail
    rw [List.cons_append, fill]
    split
    · obtain ⟨v, hv, hspan⟩ := ih (hw.snoc hsize hgap b (w := ⟨_, [b]⟩) (.inr rfl)) htail
      exact ⟨v, List.mem_cons_of_mem _ hv, hspan⟩
    · exact ih (hw.snoc hsize hgap b (.inl (by simp [Window.items]))) htail

theorem pack_repeats (hsize : ∀ a, 0 ≤ size a) (hgap : 0 ≤ gap) {tail l : List α} {a : α}
    (h : tail ++ [a] <:+: l) (hne : tail ≠ []) (hover : span size gap tail ≤ overlap)
    (hlong : limit < span size gap (tail ++ [a])) :
    ∃ w ∈ pack size gap limit overlap l, span size gap (tail ++ [a]) ≤ span size gap w.items := by
  obtain ⟨pre, post, rfl⟩ := h
  obtain ⟨b, mid, hfront⟩ := List.exists_cons_of_ne_nil (l := pre ++ tail) (by simp [hne])
  have hshows : Window.Shows size gap overlap ⟨[], [b]⟩ [b] := fun t ht _ => ht
  have hend : tail <:+ [b] ++ mid := ⟨pre, hfront⟩
  have hlist : pre ++ (tail ++ [a]) ++ post = b :: (mid ++ a :: post) := by
    rw [← List.append_assoc, hfront]
    simp
  rw [hlist]
  exact fill_repeats hsize hgap hne hover hlong hshows mid post hend

/-- Items that fit the limit one by one are packed into windows within the limit
if and only if whatever is within the overlap fits beside the item after it. -/
theorem pack_within_iff (hsize : ∀ a, 0 ≤ size a) (hgap : 0 ≤ gap) (hover : 0 ≤ overlap)
    {l : List α} (hl : ∀ a ∈ l, size a ≤ limit) :
    (∀ w ∈ pack size gap limit overlap l, span size gap w.items ≤ limit) ↔
      ∀ tail a, tail ++ [a] <:+: l → tail ≠ [] → span size gap tail ≤ overlap →
        span size gap (tail ++ [a]) ≤ limit := by
  constructor
  · intro hall tail a hinside hne htail
    by_contra hlong
    obtain ⟨w, hw, hspan⟩ := pack_repeats hsize hgap hinside hne htail (Int.not_le.mp hlong)
    have := hall w hw
    omega
  · intro hbeside w hw
    rcases pack_span_le l w hw with hfits | ⟨a, ha, hitems⟩
    · exact hfits
    · rw [hitems]
      by_cases hkept : w.kept = []
      · rw [hkept, List.nil_append, span_singleton]
        exact hl a ha
      · apply hbeside w.kept a
        · rw [← hitems]
          exact pack_stretch l w hw
        · exact hkept
        · exact pack_kept_le hover l w hw

/-! ## Packing and maps -/

/-- Packing looks at the sizes only. -/
theorem fill_map {β : Type} (f : β → α) (w : Window β) (l : List β) :
    fill size gap limit overlap ⟨w.kept.map f, w.fresh.map f⟩ (l.map f) =
      (fill (size ∘ f) gap limit overlap w l).map fun v => ⟨v.kept.map f, v.fresh.map f⟩ := by
  have hspan : ∀ m : List β, span size gap (m.map f) = span (size ∘ f) gap m := by
    intro m
    induction m with
    | nil => rfl
    | cons b m ih => simp [span, ih]
  have hcarry : ∀ m : List β,
      carry size gap overlap (m.map f) = (carry (size ∘ f) gap overlap m).map f := by
    intro m
    induction m with
    | nil => rfl
    | cons b m ih =>
      have := hspan (b :: m)
      rw [List.map_cons] at this
      simp only [List.map_cons, carry, this]
      split
      · exact ih
      · simp
  induction l generalizing w with
  | nil => simp [fill]
  | cons b l ih =>
    have hitems : (⟨w.kept.map f, w.fresh.map f⟩ : Window α).items = w.items.map f := by
      simp [Window.items]
    simp only [List.map_cons, fill, hitems, hspan, Function.comp]
    split
    · have := ih ⟨carry (size ∘ f) gap overlap w.items, [b]⟩
      simp only [List.map_cons, List.map_nil] at this
      rw [hcarry, this]
      simp [Function.comp_def]
    · have := ih ⟨w.kept, w.fresh ++ [b]⟩
      simpa using this

theorem pack_map {β : Type} (f : β → α) (l : List β) :
    pack size gap limit overlap (l.map f) =
      (pack (size ∘ f) gap limit overlap l).map fun v => ⟨v.kept.map f, v.fresh.map f⟩ := by
  cases l with
  | nil => rfl
  | cons b l => simpa [pack] using fill_map f ⟨[], [b]⟩ l

end Packing
