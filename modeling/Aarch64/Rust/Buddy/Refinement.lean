import Aarch64.Lib.Buddy.FreeLists
import Aarch64.Rust.Buddy.Basic

/-!
# `BuddySystem` performs the moves of a buddy allocator

`view` reads the free lists and the page states of a `BuddySystem` as the data of
an abstract allocator over absolute indices. Each operation of the source is a
sequence of moves of `Buddy.Inv`, so it preserves the invariant. Since all block
starts that the invariant knows are in range, none of the slice accesses, level
assertions or list accesses on the way can fail.
-/

namespace Aarch64.Rust.BuddySystem

open Dyadic (Block)
open Buddy (Inv View)

def freeItems (s : BuddySystem) (level : Nat) : List Nat :=
  if h : level < LEVELS then s.free[level].items else []

/-- The state of an absolute index. Indices outside the slice read as untouched. -/
def tagOf (s : BuddySystem) (index : Nat) : Buddy.Tag :=
  if s.offset ≤ index then
    match s.pages.get (index - s.offset) with
    | some p => ⟨p.isFree, p.level⟩
    | none => ⟨false, 0⟩
  else ⟨false, 0⟩

def view (s : BuddySystem) : View where
  free level := (s.freeItems level).map (s.offset + ·)
  tag := s.tagOf

/-- The absolute indices of the zone, as the source compares them. -/
def indices (s : BuddySystem) : Set Nat := Set.Ico s.pageRange.start s.pageRange.stop

/-- The allocator still manages the same pages. -/
def SameZone (s t : BuddySystem) : Prop :=
  t.offset = s.offset ∧ t.pages.ptr = s.pages.ptr ∧ t.pages.len = s.pages.len

namespace SameZone

theorem refl (s : BuddySystem) : SameZone s s := ⟨rfl, rfl, rfl⟩

theorem trans {s t u : BuddySystem} (h : SameZone s t) (h' : SameZone t u) : SameZone s u :=
  ⟨h'.1.trans h.1, h'.2.1.trans h.2.1, h'.2.2.trans h.2.2⟩

theorem pageRange_eq {s t : BuddySystem} (h : SameZone s t) : t.pageRange = s.pageRange := by
  rw [pageRange, pageRange, h.1, h.2.2]

theorem indices_eq {s t : BuddySystem} (h : SameZone s t) : t.indices = s.indices := by
  rw [indices, indices, h.pageRange_eq]

end SameZone

/-! ## Indices and positions -/

theorem buddyIndex_eq (index order : Nat) : buddyIndex index order = index ^^^ 2 ^ order := by
  rw [buddyIndex, Nat.one_shiftLeft]

theorem pageOffset_of_mem {s : BuddySystem} {index : Nat} (h : index ∈ s.indices) :
    s.pageOffset index = index - s.offset ∧ index - s.offset < s.pages.len := by
  obtain ⟨hge, hlt⟩ := h
  change s.offset ≤ index at hge
  change index < Word64.add s.offset s.pages.len at hlt
  have hword := Word64.add_lt s.offset s.pages.len
  have hle := Word64.add_le s.offset s.pages.len
  exact ⟨Word64.sub_of_le hge (by omega), by omega⟩

/-- Positions in the slice and indices of the zone determine each other. -/
theorem offset_add_pageOffset {s : BuddySystem} {index : Nat} (h : index ∈ s.indices) :
    s.offset + s.pageOffset index = index := by
  rw [(pageOffset_of_mem h).1]
  exact Nat.add_sub_cancel' h.1

theorem pageIndex_pageOffset {s : BuddySystem} {index : Nat} (h : index ∈ s.indices) :
    s.pageIndex (s.pageOffset index) = index := by
  have hsum := offset_add_pageOffset h
  have hword := Word64.add_lt s.offset s.pages.len
  have hlt : index < Word64.add s.offset s.pages.len := h.2
  rw [pageIndex, Word64.add_of_lt (by omega), hsum]

theorem get_of_mem {s : BuddySystem} {index : Nat} (h : index ∈ s.indices) :
    ∃ p, s.pages.get (s.pageOffset index) = some p ∧ s.view.tag index = ⟨p.isFree, p.level⟩ := by
  obtain ⟨hoff, hlt⟩ := pageOffset_of_mem h
  obtain ⟨p, hp⟩ := Slice.get_of_lt hlt
  refine ⟨p, by rw [hoff, hp], ?_⟩
  change s.tagOf index = _
  rw [tagOf, if_pos (show s.offset ≤ index from h.1), hp]

/-! ## Single accesses -/

theorem mem_view_free {s : BuddySystem} {index level : Nat} (h : index ∈ s.indices) :
    index ∈ s.view.free level ↔ s.pageOffset index ∈ s.freeItems level := by
  have hsum := offset_add_pageOffset h
  constructor
  · intro hmem
    obtain ⟨page, hpage, heq⟩ := List.mem_map.mp hmem
    have hpage' : page = s.pageOffset index := by omega
    exact hpage' ▸ hpage
  · intro hmem
    exact List.mem_map.mpr ⟨_, hmem, hsum⟩

@[simp] theorem linked_iff {s : BuddySystem} {page : Nat} :
    s.linked page = true ↔ ∃ level, page ∈ s.freeItems level := by
  simp only [linked, List.any_eq_true, decide_eq_true_eq, freeItems]
  constructor
  · rintro ⟨l, hl, hp⟩
    obtain ⟨i, hi, rfl⟩ := Vector.mem_iff_getElem.mp (Vector.mem_toList_iff.mp hl)
    exact ⟨i, by rw [dif_pos hi]; exact hp⟩
  · rintro ⟨i, hi⟩
    by_cases h : i < LEVELS
    · rw [dif_pos h] at hi
      exact ⟨s.free[i], Vector.mem_toList_iff.mpr (Vector.getElem_mem h), hi⟩
    · rw [dif_neg h] at hi
      exact absurd hi List.not_mem_nil

/-- The free lists after one of them has been replaced. -/
theorem freeItems_set {s t : BuddySystem} {level : Nat} (h : level < LEVELS) (l : PageList)
    (hfree : t.free = s.free.set level l) (m : Nat) :
    t.freeItems m = if m = level then l.items else s.freeItems m := by
  by_cases hm : m < LEVELS
  · rw [freeItems, freeItems, dif_pos hm, dif_pos hm]
    simp only [hfree, Vector.getElem_set]
    by_cases hml : level = m
    · simp [hml]
    · simp [hml, Ne.symm hml]
  · rw [freeItems, freeItems, dif_neg hm, dif_neg hm, if_neg (by rintro rfl; exact hm h)]

theorem sameZone_setPage (s : BuddySystem) (page : Nat) (p : Page) :
    SameZone s (s.setPage page p) := ⟨rfl, rfl, Slice.len_set ..⟩

/-- Writing a page state changes one tag. -/
theorem view_setPage {s : BuddySystem} {index : Nat} (h : index ∈ s.indices) (p : Page) :
    (s.setPage (s.pageOffset index) p).view = s.view.retag index ⟨p.isFree, p.level⟩ := by
  obtain ⟨hpos, hbound⟩ := pageOffset_of_mem h
  refine View.ext rfl ?_
  funext q
  change (s.setPage (s.pageOffset index) p).tagOf q = Function.update s.tagOf index _ q
  have hread : (s.setPage (s.pageOffset index) p).tagOf q = if s.offset ≤ q then
      match (s.pages.set (index - s.offset) p).get (q - s.offset) with
      | some p => ⟨p.isFree, p.level⟩
      | none => ⟨false, 0⟩
      else ⟨false, 0⟩ := by
    rw [← hpos]
    rfl
  have hge : s.offset ≤ index := h.1
  rw [hread]
  by_cases hq : q = index
  · subst hq
    rw [Function.update_self, if_pos hge, Slice.get_set_self hbound]
  · rw [Function.update_of_ne hq, tagOf]
    by_cases hle : s.offset ≤ q
    · rw [if_pos hle, if_pos hle, Slice.get_set_ne (by omega)]
    · rw [if_neg hle, if_neg hle]

theorem pushFree_spec {s : BuddySystem} {index level : Nat} (h : index ∈ s.indices)
    (hlevel : level < LEVELS) (hunlinked : ∀ m, index ∉ s.view.free m) :
    ∃ t, s.pushFree level (s.pageOffset index) = some t ∧ SameZone s t ∧
      t.view.tag = s.view.tag ∧
      t.view.free = Function.update s.view.free level (index :: s.view.free level) := by
  have hnot : s.linked (s.pageOffset index) = false := by
    rw [Bool.eq_false_iff, Ne, linked_iff]
    rintro ⟨m, hm⟩
    exact hunlinked m ((mem_view_free h).mpr hm)
  let t : BuddySystem :=
    { s with free := s.free.set level (s.free[level].push (s.pageOffset index)) }
  refine ⟨t, by rw [pushFree, dif_pos hlevel, if_neg (by simp [hnot])], ⟨rfl, rfl, rfl⟩, rfl, ?_⟩
  funext m
  change (t.freeItems m).map (s.offset + ·) = _
  rw [freeItems_set hlevel _ rfl m]
  by_cases hm : m = level
  · subst hm
    simp [PageList.push, view, freeItems, hlevel, offset_add_pageOffset h]
  · simp [hm, view]

/-- Tagging a page as the start of a free block and pushing it. -/
theorem file_spec {s : BuddySystem} {index level : Nat} (h : index ∈ s.indices)
    (hlevel : level < LEVELS) (hunlinked : ∀ m, index ∉ s.view.free m) {p : Page}
    (hfree : p.isFree = true) (hp : p.level = level) :
    ∃ t, (s.setPage (s.pageOffset index) p).pushFree level (s.pageOffset index) = some t ∧
      SameZone s t ∧ t.view = s.view.insert ⟨index, level⟩ := by
  have hset := view_setPage h p
  have hzone := sameZone_setPage s (s.pageOffset index) p
  obtain ⟨t, ht, hsame, htag, hlists⟩ := pushFree_spec (s := s.setPage (s.pageOffset index) p)
    (by rw [hzone.indices_eq]; exact h) hlevel (by rw [hset]; exact hunlinked)
  refine ⟨t, ht, hzone.trans hsame, View.ext ?_ ?_⟩
  · rw [hlists, hset]
    rfl
  · rw [htag, hset, hfree, hp]
    rfl

theorem removeFree_spec {s : BuddySystem} {b : Block} (h : b.index ∈ s.indices)
    (hb : s.view.IsFree b) :
    ∃ t, s.removeFree b.level (s.pageOffset b.index) = some t ∧ SameZone s t ∧
      t.view = s.view.remove b := by
  have hmem := (mem_view_free h).mp hb
  have hlevel : b.level < LEVELS := by
    by_contra hge
    rw [freeItems, dif_neg hge] at hmem
    exact List.not_mem_nil hmem
  rw [freeItems, dif_pos hlevel] at hmem
  let t : BuddySystem :=
    { s with free := s.free.set b.level ⟨s.free[b.level].items.erase (s.pageOffset b.index)⟩ }
  refine ⟨t, ?_, ⟨rfl, rfl, rfl⟩, View.ext ?_ rfl⟩
  · rw [removeFree, dif_pos hlevel, PageList.remove, if_pos hmem]
    rfl
  funext m
  change (t.freeItems m).map (s.offset + ·) = _
  rw [freeItems_set hlevel _ rfl m]
  by_cases hm : m = b.level
  · subst hm
    have hinj : Function.Injective (s.offset + ·) := fun x y hxy => Nat.add_left_cancel hxy
    have herase := List.map_erase hinj s.free[b.level].items (a := s.pageOffset b.index)
    simp only [offset_add_pageOffset h] at herase
    simp [View.remove, view, freeItems, hlevel, herase]
  · simp [hm, View.remove, view]

theorem popFree_spec {s : BuddySystem} {level : Nat} (hlevel : level < LEVELS) :
    (s.view.free level = [] ∧ s.popFree level = some (none, s)) ∨
      ∃ page t, s.popFree level = some (some page, t) ∧ SameZone s t ∧
        s.view.IsFree ⟨s.offset + page, level⟩ ∧
        t.view = s.view.remove ⟨s.offset + page, level⟩ := by
  rw [popFree, dif_pos hlevel, PageList.pop]
  have hview : s.view.free level = s.free[level].items.map (s.offset + ·) := by
    simp [view, freeItems, hlevel]
  cases hitems : s.free[level].items with
  | nil =>
      left
      rw [hview, hitems]
      simp
  | cons page rest =>
      right
      let t : BuddySystem := { s with free := s.free.set level ⟨rest⟩ }
      refine ⟨page, t, rfl, ⟨rfl, rfl, rfl⟩, ?_, View.ext ?_ rfl⟩
      · change s.offset + page ∈ s.view.free level
        rw [hview, hitems]
        simp
      · funext m
        change (t.freeItems m).map (s.offset + ·) = _
        rw [freeItems_set hlevel _ rfl m]
        by_cases hm : m = level
        · subst hm
          simp [View.remove, hview, hitems]
        · simp [hm, View.remove, view]

/-! ## Operations -/

/-- The allocator invariant of a `BuddySystem`, over the levels and the page
range of the source. -/
def Holding (s : BuddySystem) (pending live : List Block) (released exempt : Set Nat) : Prop :=
  Inv (LEVELS - 1) s.indices s.view pending live released exempt

variable {s t : BuddySystem} {pending live : List Block} {released exempt : Set Nat}

theorem Holding.of_view {pending' live' : List Block} {released' exempt' : Set Nat} {v : View}
    (h : Inv (LEVELS - 1) s.indices v pending' live' released' exempt') (hzone : SameZone s t)
    (hview : t.view = v) : t.Holding pending' live' released' exempt' := by
  rw [Holding, hzone.indices_eq, hview]
  exact h

/-- The first page of a pending block is in range and on no list. -/
theorem Holding.head_spec {b : Block} {rest : List Block}
    (h : s.Holding (b :: rest) live released exempt) :
    b.index ∈ s.indices ∧ b.level < LEVELS ∧ ∀ m, b.index ∉ s.view.free m := by
  have hb : s.view.Holds (b :: rest) live b := .inr (.inl List.mem_cons_self)
  refine ⟨h.within hb b.index_mem, Nat.lt_succ_of_le (h.level_le hb), fun m hm => ?_⟩
  have hfree : s.view.IsFree ⟨b.index, m⟩ := hm
  have hne : (⟨b.index, m⟩ : Block) ≠ b := fun heq =>
    h.owned_not_free b (.inl List.mem_cons_self) (heq ▸ hfree)
  exact h.index_ne (.inl hfree) hb hne rfl

/-- One round of the merge loop. It goes on exactly when the buddy is free: a
free buddy passes the test by its tag, and no other page does. -/
theorem mergeLoop_step {index level : Nat} (hlevel : level < LEVELS - 1)
    (h : s.Holding [⟨index, level⟩] live released ∅) :
    (¬ s.view.IsFree (Block.buddy ⟨index, level⟩) ∧
        s.mergeLoop index level = some (s, index, level)) ∨
      (s.view.IsFree (Block.buddy ⟨index, level⟩) ∧ ∃ t, SameZone s t ∧
        t.view = s.view.remove (Block.buddy ⟨index, level⟩) ∧
        s.mergeLoop index level = t.mergeLoop (min index (buddyIndex index level)) (level + 1)) := by
  have hbuddy : (Block.buddy ⟨index, level⟩).index = buddyIndex index level :=
    (buddyIndex_eq index level).symm
  rw [mergeLoop, if_pos hlevel]
  by_cases hrange : buddyIndex index level ∈ s.indices
  · have hcontains : s.pageRange.contains (buddyIndex index level) = true :=
      Range.contains_iff.mpr hrange
    obtain ⟨p, hp, htag⟩ := get_of_mem hrange
    simp only [hcontains, hp, Bool.not_true, Bool.false_eq_true, if_false, Option.bind_eq_bind,
      Option.bind_some]
    by_cases hpass : p.isFree = true ∧ p.level = level
    · right
      have hfree : s.view.IsFree (Block.buddy ⟨index, level⟩) :=
        h.buddy_free_of_tag (.inl (List.mem_singleton.mpr rfl)) (Set.notMem_empty _)
          (by rw [hbuddy, htag]; exact hpass.1) (by rw [hbuddy, htag]; exact hpass.2)
      obtain ⟨t, ht, hzone, hview⟩ := removeFree_spec (hbuddy ▸ hrange) hfree
      refine ⟨hfree, t, hzone, hview, ?_⟩
      rw [hbuddy] at ht
      change s.removeFree level _ = _ at ht
      simp [hpass.1, hpass.2, ht]
    · left
      refine ⟨fun hfree => hpass ?_, ?_⟩
      · have htag' := h.freeTag _ hfree
        rw [hbuddy, htag] at htag'
        exact ⟨congrArg Buddy.Tag.isFree htag', congrArg Buddy.Tag.level htag'⟩
      · by_cases hf : p.isFree = true
        · have hl : p.level ≠ level := fun hl => hpass ⟨hf, hl⟩
          simp [hf, hl]
        · simp [hf]
  · left
    refine ⟨fun hfree => hrange ?_, ?_⟩
    · rw [← hbuddy]
      exact h.within (.inl hfree) (Block.index_mem _)
    · have hcontains : s.pageRange.contains (buddyIndex index level) = false := by
        rw [Bool.eq_false_iff, Ne, Range.contains_iff]
        exact hrange
      simp [hcontains]

/-- The merge loop stops at a block that cannot be merged any further. The
induction is on the levels left. -/
theorem mergeLoop_spec : ∀ n (s : BuddySystem) (index level : Nat), LEVELS - 1 - level = n →
    s.Holding [⟨index, level⟩] live released ∅ →
    ∃ t i l, s.mergeLoop index level = some (t, i, l) ∧ SameZone s t ∧
      t.Holding [⟨i, l⟩] live released ∅ ∧
      (l < LEVELS - 1 → ¬ t.view.IsFree (Block.buddy ⟨i, l⟩)) := by
  intro n
  induction n with
  | zero =>
      intro s index level hn h
      refine ⟨s, index, level, ?_, SameZone.refl s, h, fun hlt => by omega⟩
      rw [mergeLoop, if_neg (by omega)]
  | succ n ih =>
      intro s index level hn h
      have hlevel : level < LEVELS - 1 := by omega
      rcases mergeLoop_step hlevel h with ⟨hnot, heq⟩ | ⟨hfree, t, hzone, hview, heq⟩
      · exact ⟨s, index, level, heq, SameZone.refl s, h, fun _ => hnot⟩
      · have hparent : Block.parent ⟨index, level⟩ =
            ⟨min index (buddyIndex index level), level + 1⟩ := by
          rw [Block.parent, buddyIndex_eq]
        have hmerged : t.Holding [⟨min index (buddyIndex index level), level + 1⟩]
            live released ∅ := by
          rw [← hparent]
          exact Holding.of_view (h.merge hlevel hfree) hzone hview
        obtain ⟨u, i, l, hu, hzone', hholding, hlast⟩ := ih t _ _ (by omega) hmerged
        exact ⟨u, i, l, heq.trans hu, hzone.trans hzone', hholding, hlast⟩

/-- Freeing a pending block puts its pages into the free lists. -/
theorem freePagesAtLevel_spec {index level : Nat}
    (h : s.Holding [⟨index, level⟩] live released ∅) :
    ∃ t, s.freePagesAtLevel index level = some t ∧ SameZone s t ∧
      t.Holding [] live released ∅ := by
  obtain ⟨u, i, l, hu, hzone, hholding, hlast⟩ := mergeLoop_spec _ s index level rfl h
  obtain ⟨hmem, hlevel, hunlinked⟩ := hholding.head_spec
  obtain ⟨p, hp, _⟩ := get_of_mem hmem
  have hlevel' : l < 256 := Nat.lt_trans hlevel (by decide)
  obtain ⟨q, hq, hql, hqf⟩ := Page.setLevel_spec p.setFree hlevel'
  rw [Page.isFree_setFree] at hqf
  obtain ⟨t, ht, hzone', hview⟩ := file_spec hmem hlevel hunlinked hqf hql
  refine ⟨t, ?_, hzone.trans hzone', ?_⟩
  · simp [freePagesAtLevel, hu, hp, hq, ht]
  · have hinv := (hholding.mono_exempt (Set.empty_subset (insert i ∅))).insert hlast
    exact Holding.of_view hinv hzone' hview

/-- Splitting a pending block down to level `order`. The induction is on the
number of levels to split off, from the largest half to the smallest. -/
theorem splitLoop_spec {index order : Nat} : ∀ n (s : BuddySystem),
    s.Holding [⟨index, order + n⟩] live released {index} →
    ∃ t, s.splitLoop index (List.range' order n).reverse = some t ∧ SameZone s t ∧
      t.Holding [⟨index, order⟩] live released {index} := by
  intro n
  induction n with
  | zero =>
      intro s h
      exact ⟨s, rfl, SameZone.refl s, h⟩
  | succ n ih =>
      intro s h
      have hlist : (List.range' order (n + 1)).reverse =
          (order + n) :: (List.range' order n).reverse := by
        rw [List.range'_concat]
        simp
      have hhalves : s.Holding [⟨index ^^^ 2 ^ (order + n), order + n⟩, ⟨index, order + n⟩]
          live released {index ^^^ 2 ^ (order + n), index} := h.halve
      obtain ⟨hmem, hlevel, hunlinked⟩ := hhalves.head_spec
      obtain ⟨p, hp, _⟩ := get_of_mem hmem
      obtain ⟨q, hq, hql, _⟩ := Page.setLevel_spec p (Nat.lt_trans hlevel (by decide))
      obtain ⟨t, ht, hzone, hview⟩ := file_spec hmem hlevel hunlinked
        (Page.isFree_setFree q) ((Page.level_setFree q).trans hql)
      obtain ⟨u, hu, hzone', hholding⟩ := ih t (Holding.of_view h.split hzone hview)
      refine ⟨u, ?_, hzone.trans hzone', hholding⟩
      rw [hlist, splitLoop]
      simp only [buddyIndex_eq, Option.bind_eq_bind]
      rw [hp, Option.bind_some, hq, Option.bind_some, ht, Option.bind_some]
      exact hu

/-- What `allocate_pages` does when it reaches a level with a free block. -/
theorem allocate_found {index level order : Nat} (hle : order ≤ level)
    (h : s.Holding [] live released ∅) (hfree : s.view.IsFree ⟨index, level⟩)
    (hzone : SameZone s t) (hview : t.view = s.view.remove ⟨index, level⟩) :
    ∃ u p q, t.splitAndReturn (t.pageOffset index) index order = some u ∧
      u.pages.get (u.pageOffset index) = some p ∧ p.setBusy.setLevel order = some q ∧
      SameZone s (u.setPage (u.pageOffset index) q) ∧
      (u.setPage (u.pageOffset index) q).Holding [] (⟨index, order⟩ :: live) released ∅ := by
  have htaken : t.Holding [⟨index, level⟩] live released {index} :=
    Holding.of_view (h.take hfree) hzone hview
  obtain ⟨hmem, hlevel, _⟩ := htaken.head_spec
  obtain ⟨p₀, hp₀, htag₀⟩ := get_of_mem hmem
  have hlevel₀ : p₀.level = level := by
    have htag := h.freeTag _ hfree
    rw [hview, View.remove_tag, htag] at htag₀
    exact (congrArg Buddy.Tag.level htag₀).symm
  obtain ⟨n, rfl⟩ := Nat.exists_eq_add_of_le hle
  obtain ⟨u, hu, hzone', hsplit⟩ := splitLoop_spec n t htaken
  obtain ⟨hmem', hlevel', _⟩ := hsplit.head_spec
  obtain ⟨p, hp, _⟩ := get_of_mem hmem'
  obtain ⟨q, hq, hql, hqf⟩ := Page.setLevel_spec p.setBusy (Nat.lt_trans hlevel' (by decide))
  rw [Page.isFree_setBusy] at hqf
  have hretag := view_setPage hmem' q
  rw [hqf, hql] at hretag
  have hzone'' := sameZone_setPage u (u.pageOffset index) q
  refine ⟨u, p, q, ?_, hp, hq, (hzone.trans hzone').trans hzone'', ?_⟩
  · rw [splitAndReturn, hp₀]
    simp only [Option.bind_eq_bind, Option.bind_some, hlevel₀, Nat.add_sub_cancel_left]
    exact hu
  · have hinv := Inv.retag order
      (hsplit.mono_exempt (Set.singleton_subset_iff.mpr (Set.mem_insert index ∅)))
    exact Holding.of_view (hinv.handOut (by simp)) hzone'' hretag

/-- Allocation takes the first free block of the smallest sufficient level, or
changes nothing when every level it tries is empty. -/
theorem allocateLoop_spec {order : Nat} (h : s.Holding [] live released ∅) : ∀ n level,
    order ≤ level → level + n ≤ LEVELS →
    ((∀ m, level ≤ m → m < level + n → s.view.free m = []) ∧
        s.allocateLoop order (List.range' level n) = some (none, s)) ∨
      ∃ index m t, level ≤ m ∧ m < level + n ∧ s.view.IsFree ⟨index, m⟩ ∧
        (∀ k, level ≤ k → k < m → s.view.free k = []) ∧
        s.allocateLoop order (List.range' level n) = some (some index, t) ∧ SameZone s t ∧
        t.Holding [] (⟨index, order⟩ :: live) released ∅ := by
  intro n
  induction n with
  | zero =>
      intro level _ _
      exact .inl ⟨fun m hge hlt => by omega, rfl⟩
  | succ n ih =>
      intro level hle hbound
      rw [List.range'_succ, allocateLoop]
      rcases popFree_spec (s := s) (by omega : level < LEVELS) with
        ⟨hempty, hpop⟩ | ⟨page, t, hpop, hzone, hfree, hview⟩
      · simp only [hpop, Option.bind_eq_bind, Option.bind_some]
        rcases ih (level + 1) (by omega) (by omega) with
          ⟨hnone, heq⟩ | ⟨index, m, t, hge, hlt, hfree, hbelow, heq, hrest⟩
        · refine .inl ⟨fun m hge hlt => ?_, heq⟩
          rcases Nat.eq_or_lt_of_le hge with rfl | hgt
          · exact hempty
          · exact hnone m hgt (by omega)
        · refine .inr ⟨index, m, t, by omega, by omega, hfree, fun k hge' hlt' => ?_, heq, hrest⟩
          rcases Nat.eq_or_lt_of_le hge' with rfl | hgt
          · exact hempty
          · exact hbelow k hgt hlt'
      · right
        obtain ⟨u, p, q, hsplit, hp, hq, hzone', hholding⟩ :=
          allocate_found hle h hfree hzone hview
        have hmem : s.offset + page ∈ s.indices := h.within (.inl hfree) (Block.index_mem _)
        have hmemt : s.offset + page ∈ t.indices := by rw [hzone.indices_eq]; exact hmem
        have hpage : t.pageOffset (s.offset + page) = page := by
          have := offset_add_pageOffset hmemt
          rw [hzone.1] at this
          omega
        have hindex : t.pageIndex page = s.offset + page := by
          have hinverse := pageIndex_pageOffset hmemt
          rwa [hpage] at hinverse
        have hpageu : u.pageOffset (s.offset + page) = page := by
          have hoff : u.offset = t.offset := hzone'.1.trans hzone.1.symm
          rw [pageOffset, hoff]
          exact hpage
        refine ⟨s.offset + page, level, u.setPage page q, Nat.le_refl _, by omega, hfree,
          fun k hge hlt => by omega, ?_, ?_⟩
        · simp only [hpop, Option.bind_eq_bind, Option.bind_some, hindex]
          rw [hpage] at hsplit
          rw [hpageu] at hp
          simp [hsplit, hp, hq]
        · rw [hpageu] at hzone' hholding
          exact ⟨hzone', hholding⟩

end Aarch64.Rust.BuddySystem
