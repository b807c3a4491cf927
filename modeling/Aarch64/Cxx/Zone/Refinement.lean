import Aarch64.Cxx.Zone.Basic
import Aarch64.Lib.Buddy.FreeLists

/-!
# `Zone` performs the moves of a buddy allocator

`view` reads the free lists and the page records of a zone as the data of an
abstract allocator over page offsets. `Split` and `Unite` are sequences of moves
of `Buddy.Inv`, so they preserve the invariant, and no access to the array or to
a list on the way can fail.
-/

namespace Aarch64.Cxx.Zone

open Dyadic (Block)
open Buddy (Inv View)

def freeItems (z : Zone) (order : Nat) : List Nat :=
  if h : order < kMaxOrder + 1 then z.free[order] else []

/-- The record at a page offset. Offsets outside the zone read as untouched. -/
def tagOf (z : Zone) (index : Nat) : Buddy.Tag :=
  if z.offset ≤ index then
    match z.page[index - z.offset]? with
    | some p => ⟨p.isFree, p.order⟩
    | none => ⟨false, 0⟩
  else ⟨false, 0⟩

def view (z : Zone) : View where
  free order := (z.freeItems order).map (z.offset + ·)
  tag := z.tagOf

/-- The page offsets of the zone. -/
def offsets (z : Zone) : Set Nat := Set.Ico z.offset (z.offset + z.pages)

/-- The zone still manages the same pages. -/
structure SameZone (z w : Zone) : Prop where
  «from» : w.fromAddress = z.fromAddress
  pages : w.pages = z.pages

namespace SameZone

variable {z w u : Zone}

theorem refl (z : Zone) : SameZone z z := ⟨rfl, rfl⟩

theorem trans (h : SameZone z w) (h' : SameZone w u) : SameZone z u :=
  ⟨h'.from.trans h.from, h'.pages.trans h.pages⟩

theorem offset_eq (h : SameZone z w) : w.offset = z.offset := by
  rw [offset, offset, h.from]

theorem offsets_eq (h : SameZone z w) : w.offsets = z.offsets := by
  rw [offsets, offsets, h.offset_eq, h.pages]

theorem pageAt_eq (h : SameZone z w) (index : Nat) : w.pageAt index = z.pageAt index := by
  rw [pageAt, pageAt, h.offset_eq]

end SameZone

/-! ## Offsets and positions -/

theorem offset_add_pages_lt (z : Zone) : z.offset + z.pages < 2 ^ 64 := by
  have hfits := z.page_fits
  have hfrom := z.fromAddress_lt
  have hoffset : z.offset = z.fromAddress / 2 ^ 12 := Nat.shiftRight_eq_div_pow ..
  change z.offset + z.page.length < 2 ^ 64
  omega

theorem buddyOffset_eq {index order : Nat} (h : order < 64) :
    buddyOffset index order = index ^^^ 2 ^ order := by
  have hlt : 1 * 2 ^ order < 2 ^ 64 := by
    rw [Nat.one_mul]
    exact Nat.pow_lt_pow_right (by decide) h
  rw [buddyOffset, Word64.shl_of_lt hlt, Nat.one_mul]

theorem pageAt_of_mem {z : Zone} {index : Nat} (h : index ∈ z.offsets) :
    z.pageAt index = index - z.offset ∧ index - z.offset < z.pages := by
  have hword := z.offset_add_pages_lt
  obtain ⟨hge, hlt⟩ := h
  exact ⟨Word64.sub_of_le hge (by omega), by omega⟩

/-- Positions in the array and offsets of the zone determine each other. -/
theorem offset_add_pageAt {z : Zone} {index : Nat} (h : index ∈ z.offsets) :
    z.offset + z.pageAt index = index := by
  rw [(pageAt_of_mem h).1]
  exact Nat.add_sub_cancel' h.1

theorem pageOffset_pageAt {z : Zone} {index : Nat} (h : index ∈ z.offsets) :
    z.pageOffset (z.pageAt index) = index := by
  have hsum := offset_add_pageAt h
  have hword := z.offset_add_pages_lt
  have hlt : index < z.offset + z.pages := h.2
  rw [pageOffset, Word64.add_of_lt (by omega), hsum]

theorem pageAt_add {z : Zone} {page : Nat} (h : z.offset + page ∈ z.offsets) :
    z.pageAt (z.offset + page) = page :=
  Nat.add_left_cancel (offset_add_pageAt h)

theorem get_of_mem {z : Zone} {index : Nat} (h : index ∈ z.offsets) :
    ∃ p, z.page[z.pageAt index]? = some p ∧ z.view.tag index = ⟨p.isFree, p.order⟩ := by
  obtain ⟨hpos, hlt⟩ := pageAt_of_mem h
  have hp : z.page[index - z.offset]? = some (z.page.get ⟨index - z.offset, hlt⟩) :=
    List.getElem?_eq_getElem hlt
  refine ⟨_, by rw [hpos, hp], ?_⟩
  change z.tagOf index = _
  rw [tagOf, if_pos (show z.offset ≤ index from h.1), hp]

/-- The range test of `Unite` is membership in the zone. -/
theorem outside_iff {z : Zone} {index : Nat} (hword : index < 2 ^ 64) :
    index < z.offset ∨ Word64.sub index z.offset ≥ z.pages ↔ index ∉ z.offsets := by
  rw [offsets, Set.mem_Ico]
  by_cases h : index < z.offset
  · simp only [h, true_or, true_iff]
    omega
  · rw [Word64.sub_of_le (Nat.le_of_not_lt h) hword]
    omega

/-! ## Single accesses -/

theorem mem_view_free {z : Zone} {index order : Nat} (h : index ∈ z.offsets) :
    index ∈ z.view.free order ↔ z.pageAt index ∈ z.freeItems order := by
  have hsum := offset_add_pageAt h
  constructor
  · intro hmem
    obtain ⟨page, hpage, heq⟩ := List.mem_map.mp hmem
    have hpage' : page = z.pageAt index := Nat.add_left_cancel (heq.trans hsum.symm)
    exact hpage' ▸ hpage
  · intro hmem
    exact List.mem_map.mpr ⟨_, hmem, hsum⟩

@[simp] theorem linked_iff {z : Zone} {page : Nat} :
    z.linked page = true ↔ ∃ order, page ∈ z.freeItems order := by
  simp only [linked, List.any_eq_true, decide_eq_true_eq, freeItems]
  constructor
  · rintro ⟨l, hl, hp⟩
    obtain ⟨i, hi, rfl⟩ := Vector.mem_iff_getElem.mp (Vector.mem_toList_iff.mp hl)
    exact ⟨i, by rw [dif_pos hi]; exact hp⟩
  · rintro ⟨i, hi⟩
    by_cases h : i < kMaxOrder + 1
    · rw [dif_pos h] at hi
      exact ⟨z.free[i], Vector.mem_toList_iff.mpr (Vector.getElem_mem h), hi⟩
    · rw [dif_neg h] at hi
      exact absurd hi List.not_mem_nil

/-- The free lists after one of them has been replaced. -/
theorem view_free_set {z : Zone} {order : Nat} (h : order < kMaxOrder + 1) (l : List Nat) :
    ({ z with free := z.free.set order l } : Zone).view.free =
      Function.update z.view.free order (l.map (z.offset + ·)) := by
  funext m
  change (freeItems _ m).map (z.offset + ·) = _
  rw [freeItems]
  by_cases hm : m = order
  · subst hm
    rw [Function.update_self, dif_pos h, Vector.getElem_set_self]
  · rw [Function.update_of_ne hm]
    change _ = (z.freeItems m).map _
    rw [freeItems]
    by_cases hlt : m < kMaxOrder + 1
    · rw [dif_pos hlt, dif_pos hlt, Vector.getElem_set_ne h hlt (Ne.symm hm)]
    · rw [dif_neg hlt, dif_neg hlt]

theorem view_free_get {z : Zone} {order : Nat} (h : order < kMaxOrder + 1) :
    z.view.free order = z.free[order].map (z.offset + ·) := by
  change (z.freeItems order).map _ = _
  rw [freeItems, dif_pos h]

theorem sameZone_setPage (z : Zone) (page : Nat) (p : Page) : SameZone z (z.setPage page p) :=
  ⟨rfl, List.length_set⟩

/-- Writing a record changes one tag. -/
theorem view_setPage {z : Zone} {index : Nat} (h : index ∈ z.offsets) (p : Page) :
    (z.setPage (z.pageAt index) p).view = z.view.retag index ⟨p.isFree, p.order⟩ := by
  obtain ⟨hpos, hbound⟩ := pageAt_of_mem h
  have hge : z.offset ≤ index := h.1
  refine View.ext rfl ?_
  funext q
  change (z.setPage (z.pageAt index) p).tagOf q = Function.update z.tagOf index _ q
  have hread : (z.setPage (z.pageAt index) p).tagOf q = if z.offset ≤ q then
      match (z.page.set (index - z.offset) p)[q - z.offset]? with
      | some p => ⟨p.isFree, p.order⟩
      | none => ⟨false, 0⟩
      else ⟨false, 0⟩ := by
    rw [← hpos]
    rfl
  rw [hread]
  by_cases hq : q = index
  · subst hq
    rw [Function.update_self, if_pos hge, List.getElem?_set_self hbound]
  · rw [Function.update_of_ne hq, tagOf]
    by_cases hle : z.offset ≤ q
    · rw [if_pos hle, if_pos hle, List.getElem?_set_ne (by omega)]
    · rw [if_neg hle, if_neg hle]

theorem link_spec {z : Zone} {index order : Nat} (h : index ∈ z.offsets)
    (horder : order ≤ kMaxOrder) (hunlinked : ∀ m, index ∉ z.view.free m) :
    ∃ w, z.link order (z.pageAt index) = some w ∧ SameZone z w ∧ w.available = z.available ∧
      w.view.tag = z.view.tag ∧
      w.view.free = Function.update z.view.free order (index :: z.view.free order) := by
  have hlt : order < kMaxOrder + 1 := Nat.lt_succ_of_le horder
  have hnot : z.linked (z.pageAt index) = false := by
    rw [Bool.eq_false_iff, Ne, linked_iff]
    rintro ⟨m, hm⟩
    exact hunlinked m ((mem_view_free h).mpr hm)
  refine ⟨{ z with free := z.free.set order (z.pageAt index :: z.free[order]) }, ?_, ⟨rfl, rfl⟩,
    rfl, rfl, ?_⟩
  · rw [link, dif_pos hlt, if_neg (by rw [hnot]; decide)]
  · rw [view_free_set hlt, List.map_cons, offset_add_pageAt h, view_free_get hlt]

/-- Tagging a page as the start of a free block and linking it. -/
theorem file_spec {z : Zone} {index order : Nat} (h : index ∈ z.offsets)
    (horder : order ≤ kMaxOrder) (hunlinked : ∀ m, index ∉ z.view.free m) (p : Page) :
    ∃ w, (z.setPage (z.pageAt index) { p with order }.setFree).link order (z.pageAt index) =
        some w ∧
      SameZone z w ∧ w.available = z.available ∧ w.view = z.view.insert ⟨index, order⟩ := by
  have hset := view_setPage h { p with order }.setFree
  have hzone := sameZone_setPage z (z.pageAt index) { p with order }.setFree
  obtain ⟨w, hw, hsame, havailable, htag, hlists⟩ :=
    link_spec (z := z.setPage (z.pageAt index) { p with order }.setFree)
      (by rw [hzone.offsets_eq]; exact h) horder (by rw [hset]; exact hunlinked)
  refine ⟨w, hw, hzone.trans hsame, havailable, View.ext ?_ ?_⟩
  · rw [hlists, hset]
    rfl
  · rw [htag, hset, Page.isFree_setFree]
    rfl

theorem unlink_spec {z : Zone} {b : Block} (h : b.index ∈ z.offsets) (hb : z.view.IsFree b) :
    ∃ w, z.unlink b.level (z.pageAt b.index) = some w ∧ SameZone z w ∧
      w.available = z.available ∧ w.view = z.view.remove b := by
  have hmem := (mem_view_free h).mp hb
  have hlt : b.level < kMaxOrder + 1 := by
    by_contra hge
    rw [freeItems, dif_neg hge] at hmem
    exact List.not_mem_nil hmem
  rw [freeItems, dif_pos hlt] at hmem
  refine ⟨{ z with free := z.free.set b.level (z.free[b.level].erase (z.pageAt b.index)) }, ?_,
    ⟨rfl, rfl⟩, rfl, View.ext ?_ rfl⟩
  · rw [unlink, dif_pos hlt, if_pos hmem]
  · have hinj : Function.Injective (z.offset + ·) := fun x y hxy => Nat.add_left_cancel hxy
    rw [view_free_set hlt, List.map_erase hinj, offset_add_pageAt h, ← view_free_get hlt]
    rfl

theorem popFront_spec {z : Zone} {order : Nat} (horder : order ≤ kMaxOrder) :
    (z.view.free order = [] ∧ z.popFront order = some (none, z)) ∨
      ∃ page w, z.popFront order = some (some page, w) ∧ SameZone z w ∧
        w.available = z.available ∧ z.view.IsFree ⟨z.offset + page, order⟩ ∧
        w.view = z.view.remove ⟨z.offset + page, order⟩ := by
  have hlt : order < kMaxOrder + 1 := Nat.lt_succ_of_le horder
  have hview := view_free_get (z := z) hlt
  rw [popFront, dif_pos hlt]
  cases hitems : z.free[order] with
  | nil =>
      rw [hitems] at hview
      exact .inl ⟨hview, rfl⟩
  | cons page rest =>
      rw [hitems, List.map_cons] at hview
      refine .inr ⟨page, _, rfl, ⟨rfl, rfl⟩, rfl, ?_, View.ext ?_ rfl⟩
      · change z.offset + page ∈ z.view.free order
        rw [hview]
        exact List.mem_cons_self
      · rw [view_free_set hlt]
        change _ = Function.update z.view.free order ((z.view.free order).erase (z.offset + page))
        rw [hview, List.erase_cons_head]

/-! ## Operations -/

/-- The allocator invariant of a zone. -/
def Holding (z : Zone) (pending live : List Block) (released exempt : Set Nat) : Prop :=
  Inv kMaxOrder z.offsets z.view pending live released exempt

variable {z w : Zone} {pending live : List Block} {released exempt : Set Nat}

theorem Holding.of_view {v : View} (h : Inv kMaxOrder z.offsets v pending live released exempt)
    (hzone : SameZone z w) (hview : w.view = v) : w.Holding pending live released exempt := by
  rw [Holding, hzone.offsets_eq, hview]
  exact h

/-- The first page of a pending block is in the zone and on no list. -/
theorem Holding.head_spec {b : Block} {rest : List Block}
    (h : z.Holding (b :: rest) live released exempt) :
    b.index ∈ z.offsets ∧ b.level ≤ kMaxOrder ∧ ∀ m, b.index ∉ z.view.free m := by
  have hb : z.view.Holds (b :: rest) live b := .inr (.inl List.mem_cons_self)
  refine ⟨h.within hb b.index_mem, h.level_le hb, fun m hm => ?_⟩
  have hfree : z.view.IsFree ⟨b.index, m⟩ := hm
  have hne : (⟨b.index, m⟩ : Block) ≠ b := fun heq =>
    h.owned_not_free b (.inl List.mem_cons_self) (heq ▸ hfree)
  exact h.index_ne (.inl hfree) hb hne rfl

/-- One round of `Unite`. It goes on exactly when the buddy is free: a free buddy
passes the test by its record, and a stale record does not. -/
theorem uniteLoop_step {index order : Nat} (horder : order < kMaxOrder)
    (h : z.Holding [⟨index, order⟩] live released ∅) :
    (¬ z.view.IsFree (Block.buddy ⟨index, order⟩) ∧
        z.uniteLoop (z.pageAt index) index order = some (z, z.pageAt index, order)) ∨
      (z.view.IsFree (Block.buddy ⟨index, order⟩) ∧ ∃ w, SameZone z w ∧
        w.available = z.available ∧ w.view = z.view.remove (Block.buddy ⟨index, order⟩) ∧
        z.uniteLoop (z.pageAt index) index order =
          w.uniteLoop (w.pageAt (Block.parent ⟨index, order⟩).index)
            (Block.parent ⟨index, order⟩).index (order + 1)) := by
  have horder' : order < 64 := Nat.lt_trans horder (by decide)
  have hbuddy : (Block.buddy ⟨index, order⟩).index = buddyOffset index order :=
    (buddyOffset_eq horder').symm
  have hmem : index ∈ z.offsets := h.head_spec.1
  have hindex : index < 2 ^ 64 := Nat.lt_trans hmem.2 z.offset_add_pages_lt
  have hword : buddyOffset index order < 2 ^ 64 := by
    rw [buddyOffset_eq horder']
    exact Nat.xor_lt_two_pow hindex (Nat.pow_lt_pow_right (by decide) horder')
  rw [uniteLoop, if_pos horder]
  by_cases hrange : buddyOffset index order ∈ z.offsets
  · have hinside : ¬ (buddyOffset index order < z.offset ∨
        Word64.sub (buddyOffset index order) z.offset ≥ z.pages) := by
      rw [outside_iff hword]
      exact not_not_intro hrange
    obtain ⟨p, hp, htag⟩ := get_of_mem hrange
    simp only [if_neg hinside, hp, Option.bind_eq_bind, Option.bind_some]
    by_cases hpass : p.order = order ∧ p.isFree = true
    · right
      have hfree : z.view.IsFree (Block.buddy ⟨index, order⟩) :=
        h.buddy_free_of_tag (.inl (List.mem_singleton.mpr rfl)) (Set.notMem_empty _)
          (by rw [hbuddy, htag]; exact hpass.2) (by rw [hbuddy, htag]; exact hpass.1)
      obtain ⟨w, hw, hzone, havailable, hview⟩ := unlink_spec (hbuddy ▸ hrange) hfree
      rw [hbuddy] at hw
      change z.unlink order _ = _ at hw
      refine ⟨hfree, w, hzone, havailable, hview, ?_⟩
      have hparent : (Block.parent ⟨index, order⟩).index = min index (buddyOffset index order) := by
        rw [buddyOffset_eq horder']
        rfl
      -- the smaller pointer belongs to the smaller offset
      have hmin : min (z.pageAt index) (z.pageAt (buddyOffset index order)) =
          z.pageAt (min index (buddyOffset index order)) := by
        have hsum := offset_add_pageAt hmem
        have hsum' := offset_add_pageAt hrange
        rcases Nat.le_total index (buddyOffset index order) with hle | hle
        · rw [Nat.min_eq_left hle]
          exact Nat.min_eq_left (by omega)
        · rw [Nat.min_eq_right hle]
          exact Nat.min_eq_right (by omega)
      simp [hpass.1, hpass.2, hw, hparent, hzone.pageAt_eq, hmin]
    · left
      refine ⟨fun hfree => hpass ?_, ?_⟩
      · have htag' := h.freeTag _ hfree
        rw [hbuddy, htag] at htag'
        exact ⟨congrArg Buddy.Tag.level htag', congrArg Buddy.Tag.isFree htag'⟩
      · have hstop : p.order ≠ order ∨ p.isFree = false := by
          by_cases hl : p.order = order
          · exact .inr (Bool.eq_false_iff.mpr fun hf => hpass ⟨hl, hf⟩)
          · exact .inl hl
        rw [if_pos hstop]
        rfl
  · left
    refine ⟨fun hfree => hrange ?_, ?_⟩
    · rw [← hbuddy]
      exact h.within (.inl hfree) (Block.index_mem _)
    · simp only [if_pos ((outside_iff hword).mpr hrange)]

/-- `Unite` stops at a block that cannot be merged any further. The induction is
on the orders left. -/
theorem uniteLoop_spec : ∀ n (z : Zone) (index order : Nat), kMaxOrder - order = n →
    z.Holding [⟨index, order⟩] live released ∅ →
    ∃ w i l, z.uniteLoop (z.pageAt index) index order = some (w, w.pageAt i, l) ∧
      SameZone z w ∧ w.available = z.available ∧ w.Holding [⟨i, l⟩] live released ∅ ∧
      (l < kMaxOrder → ¬ w.view.IsFree (Block.buddy ⟨i, l⟩)) := by
  intro n
  induction n with
  | zero =>
      intro z index order hn h
      refine ⟨z, index, order, ?_, SameZone.refl z, rfl, h, fun hlt => by omega⟩
      rw [uniteLoop, if_neg (by omega)]
  | succ n ih =>
      intro z index order hn h
      have horder : order < kMaxOrder := by omega
      rcases uniteLoop_step horder h with ⟨hnot, heq⟩ | ⟨hfree, w, hzone, havailable, hview, heq⟩
      · exact ⟨z, index, order, heq, SameZone.refl z, rfl, h, fun _ => hnot⟩
      · have hmerged : w.Holding [Block.parent ⟨index, order⟩] live released ∅ :=
          Holding.of_view (h.merge horder hfree) hzone hview
        have hleft : kMaxOrder - (order + 1) = n := by omega
        obtain ⟨u, i, l, hu, hzone', havailable', hholding, hlast⟩ := ih w _ _ hleft hmerged
        exact ⟨u, i, l, heq.trans hu, hzone.trans hzone', havailable'.trans havailable,
          hholding, hlast⟩

/-- Freeing a pending block puts its pages into the free lists. -/
theorem unite_spec {index order : Nat} (h : z.Holding [⟨index, order⟩] live released ∅) :
    ∃ w, z.unite (z.pageAt index) order = some w ∧ SameZone z w ∧ w.available = z.available ∧
      w.Holding [] live released ∅ := by
  obtain ⟨u, i, l, hu, hzone, havailable, hholding, hlast⟩ := uniteLoop_spec _ z index order rfl h
  obtain ⟨hmem, hlevel, hunlinked⟩ := hholding.head_spec
  obtain ⟨p, hp, _⟩ := get_of_mem hmem
  obtain ⟨w, hw, hzone', havailable', hview⟩ := file_spec hmem hlevel hunlinked p
  refine ⟨w, ?_, hzone.trans hzone', havailable'.trans havailable, ?_⟩
  · change (z.uniteLoop _ (z.pageOffset (z.pageAt index)) order).bind _ = _
    rw [pageOffset_pageAt h.head_spec.1, hu, Option.bind_some]
    change (u.page[u.pageAt i]?).bind _ = _
    rw [hp, Option.bind_some]
    exact hw
  · have hinv := (hholding.mono_exempt (Set.empty_subset (insert i ∅))).insert hlast
    exact Holding.of_view hinv hzone' hview

/-- Splitting a pending block down to `order`. The induction is on the number of
orders to split off, from the largest half to the smallest. -/
theorem splitLoop_spec {index order : Nat} : ∀ n (z : Zone),
    z.Holding [⟨index, order + n⟩] live released {index} →
    ∃ w, z.splitLoop index (List.range' order n).reverse = some w ∧ SameZone z w ∧
      w.available = z.available ∧ w.Holding [⟨index, order⟩] live released {index} := by
  intro n
  induction n with
  | zero =>
      intro z h
      exact ⟨z, rfl, SameZone.refl z, rfl, h⟩
  | succ n ih =>
      intro z h
      have hlist : (List.range' order (n + 1)).reverse =
          (order + n) :: (List.range' order n).reverse := by
        rw [List.range'_concat]
        simp
      have hhalves : z.Holding [⟨index ^^^ 2 ^ (order + n), order + n⟩, ⟨index, order + n⟩]
          live released {index ^^^ 2 ^ (order + n), index} := h.halve
      obtain ⟨hmem, hlevel, hunlinked⟩ := hhalves.head_spec
      change order + n ≤ kMaxOrder at hlevel
      have hword : order + n < 64 := Nat.lt_of_le_of_lt hlevel (by decide)
      obtain ⟨p, hp, _⟩ := get_of_mem hmem
      obtain ⟨w, hw, hzone, havailable, hview⟩ := file_spec hmem hlevel hunlinked p
      obtain ⟨u, hu, hzone', havailable', hholding⟩ := ih w (Holding.of_view h.split hzone hview)
      refine ⟨u, ?_, hzone.trans hzone', havailable'.trans havailable, hholding⟩
      rw [hlist, splitLoop, buddyOffset_eq hword]
      simp only [Option.bind_eq_bind]
      rw [hp, Option.bind_some, hw, Option.bind_some]
      exact hu

/-- `Split` hands out the left end of a block that has been taken from its list. -/
theorem split_spec {index order level : Nat} (hle : order ≤ level)
    (h : z.Holding [⟨index, level⟩] live released {index}) :
    ∃ w, z.split (z.pageAt index) level order = some w ∧ SameZone z w ∧
      w.available = z.available ∧ w.Holding [] (⟨index, order⟩ :: live) released ∅ := by
  obtain ⟨n, rfl⟩ := Nat.exists_eq_add_of_le hle
  obtain ⟨u, hu, hzone, havailable, hholding⟩ := splitLoop_spec n z h
  obtain ⟨hmem, _, _⟩ := hholding.head_spec
  obtain ⟨p, hp, _⟩ := get_of_mem hmem
  have hretag := view_setPage hmem { p with order }.clearFree
  have hzone' := sameZone_setPage u (u.pageAt index) { p with order }.clearFree
  rw [Page.isFree_clearFree] at hretag
  have hinv := Inv.retag order
    (hholding.mono_exempt (Set.singleton_subset_iff.mpr (Set.mem_insert index ∅)))
  refine ⟨_, ?_, hzone.trans hzone', havailable,
    Holding.of_view (hinv.handOut (by simp)) hzone' hretag⟩
  rw [split, pageOffset_pageAt h.head_spec.1, Nat.add_sub_cancel_left, hu]
  simp only [Option.bind_eq_bind, Option.bind_some]
  rw [← hzone.pageAt_eq, hp]
  rfl

end Aarch64.Cxx.Zone
