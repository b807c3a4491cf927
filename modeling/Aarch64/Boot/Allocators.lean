import Aarch64.Cxx.Zone.Run
import Aarch64.Lib.Buddy.Counts
import Aarch64.Rust.Buddy.Run

/-!
# Two page allocators

The bootstrap's `Zone` and the kernel's `BuddySystem` are buddy systems, and the first has one
order more. Where the same pages are free, their free lists hold the same blocks, up to the
halves of blocks of that order, and sequences of allocations are granted alike, although they
need not return the same pages.
-/

namespace Aarch64

open Buddy Dyadic

namespace Rust.BuddySystem

theorem counted : Counted allocatePages (LEVELS - 1) (fun s => s.view.counts) fun s =>
    ∃ live released, s.Holding [] live released ∅ := by
  rintro s order ⟨live, released, h⟩
  obtain ⟨hempty, hcall⟩ | ⟨index, m, t, hle, hlt, hfree, hempty, hcall, -, hholding⟩ :=
    allocatePages_spec order h
  · refine Or.inl ⟨View.smallest_eq_none fun m hle hm => ?_, hcall⟩
    exact hempty m hle (Nat.lt_of_le_pred (by decide) hm)
  · exact Or.inr ⟨m, index, t, View.smallest_eq_some hle (Nat.le_pred_of_lt hlt) hfree hempty,
      hcall, ⟨_, released, hholding⟩, h.counts_allocated hfree hle hholding⟩

end Rust.BuddySystem

namespace Cxx.Zone

variable {z w : Zone} {page order : Nat}

/-- The loop takes a block of the first order that has one. -/
theorem allocateLoop_smallest (n first : Nat) (hbound : first + n ≤ kMaxOrder + 1)
    (h : z.allocateLoop order (List.range' first n) = some (some page, w)) :
    ∃ m, first ≤ m ∧ m < first + n ∧ z.view.IsFree ⟨z.offset + page, m⟩ ∧
      ∀ k, first ≤ k → k < m → z.view.free k = [] := by
  induction n generalizing first with
  | zero => cases h
  | succ n ih =>
      rw [List.range'_succ, allocateLoop] at h
      have hfrom : first ≤ kMaxOrder := by omega
      obtain ⟨hempty, hpop⟩ | ⟨head, u, hpop, hzone, -, hfree, -⟩ := popFront_spec (z := z) hfrom
      · rw [hpop, Option.bind_eq_bind, Option.bind_some] at h
        obtain ⟨m, hle, hlt, hfree, hbefore⟩ := ih (first + 1) (by omega) h
        refine ⟨m, by omega, by omega, hfree, fun k hk hkm => ?_⟩
        by_cases heq : k = first
        · rw [heq, hempty]
        · exact hbefore k (by omega) hkm
      · rw [hpop, Option.bind_eq_bind, Option.bind_some] at h
        obtain ⟨u', hu', heq⟩ := Option.bind_eq_some_iff.mp h
        obtain ⟨hhead, -⟩ := Prod.mk.inj (Option.some.inj heq)
        rw [Option.some.inj hhead] at hfree
        exact ⟨first, Nat.le_refl _, by omega, hfree, fun k hk hlt => by omega⟩

theorem allocatePages_smallest (h : z.allocatePages order = some (some page, w)) :
    ∃ m, order ≤ m ∧ m ≤ kMaxOrder ∧ z.view.IsFree ⟨z.offset + page, m⟩ ∧
      ∀ k, order ≤ k → k < m → z.view.free k = [] := by
  rw [allocatePages] at h
  by_cases horder : order ≤ kMaxOrder
  · have hsum : order + (kMaxOrder + 1 - order) = kMaxOrder + 1 := by omega
    obtain ⟨m, hle, hlt, hfree, hbefore⟩ := allocateLoop_smallest _ order hsum.le h
    exact ⟨m, hle, by omega, hfree, hbefore⟩
  · rw [Nat.sub_eq_zero_of_le (Nat.lt_of_not_le horder)] at h
    cases h

theorem counted : Counted allocatePages kMaxOrder (fun z => z.view.counts) fun z =>
    ∃ live released, z.Valid live released := by
  rintro z order ⟨live, released, h⟩
  obtain ⟨hempty, hcall⟩ | ⟨page, w, hcall, hpage, hzone, hvalid⟩ := allocatePages_spec order h
  · exact Or.inl ⟨View.smallest_eq_none hempty, hcall⟩
  · obtain ⟨m, hle, hm, hfree, hbefore⟩ := allocatePages_smallest hcall
    have hblock : w.pageBlock page order = ⟨z.offset + page, order⟩ := by
      have hword := z.offset_add_pages_lt
      rw [pageBlock, pageOffset, hzone.offset_eq, Word64.add_of_lt (by omega)]
    have hholding := hvalid.holding
    rw [hblock] at hholding
    exact Or.inr ⟨m, page, w, View.smallest_eq_some hle hm hfree hbefore, hcall,
      ⟨_, released, hvalid⟩, h.holding.counts_allocated hfree hle hholding⟩

end Cxx.Zone

namespace Boot

open Rust (BuddySystem LEVELS)
open Cxx (Zone kMaxOrder)

/-- The callers of both have released the same pages and hold the same of them. -/
def SamePages (c : BuddySystem.Config) (d : Zone.Config) : Prop :=
  c.released = d.released ∧ ∀ p, (∃ b ∈ c.live, p ∈ b.pages) ↔ ∃ b ∈ d.live, p ∈ b.pages

theorem SamePages.freeSet_eq {c : BuddySystem.Config} {d : Zone.Config} (h : SamePages c d)
    (hc : c.Valid) (hd : d.Valid) : c.system.view.freeSet = d.zone.view.freeSet := by
  have hlive (live : List Block) (p : Nat) :
      (∀ b ∈ live, p ∉ b.pages) ↔ ¬ ∃ b ∈ live, p ∈ b.pages := by
    rw [not_exists]
    exact forall_congr' fun b => not_and.symm
  ext p
  rw [hc.mem_freeSet_iff, hd.holding.mem_freeSet_iff, hlive, hlive, h.1, h.2 p]

/-- Only the bootstrap's allocator answers a request for its largest order. -/
theorem grants_kMaxOrder {z : Zone} {live : List Block} {released : Set Nat}
    (h : z.Valid live released) : grants Zone.allocatePages z [kMaxOrder] = some [true] ↔
      ∃ i, Block.Aligned ⟨i, kMaxOrder⟩ ∧ ∀ p ∈ Block.pages ⟨i, kMaxOrder⟩,
        p ∈ released ∧ ∀ b ∈ live, p ∉ b.pages := by
  have hexists : (∃ m, kMaxOrder ≤ m ∧ m ≤ kMaxOrder ∧ z.view.free m ≠ []) ↔ _ :=
    h.holding.exists_free_iff (Nat.le_refl kMaxOrder)
  have hpages (i : Nat) : Block.pages ⟨i, kMaxOrder⟩ ⊆ z.view.freeSet ↔
      ∀ p ∈ Block.pages ⟨i, kMaxOrder⟩, p ∈ released ∧ ∀ b ∈ live, p ∉ b.pages :=
    forall_congr' fun p => imp_congr_right fun _ => h.holding.mem_freeSet_iff
  rw [Zone.counted.grants_eq ⟨live, released, h⟩, Option.some_inj]
  simp only [← hpages]
  rw [← hexists]
  cases hsmallest : z.view.counts.smallest kMaxOrder kMaxOrder with
  | none =>
      rw [Counts.answers_of_none hsmallest]
      refine iff_of_false (fun h => Bool.false_ne_true (List.cons.inj h).1) ?_
      rintro ⟨m, hle, hm, hne⟩
      exact hne (List.eq_nil_of_length_eq_zero (Counts.smallest_eq_none_iff.mp hsmallest m hle hm))
  | some m =>
      rw [Counts.answers_of_some hsmallest]
      obtain ⟨⟨hle, hm⟩, hne, -⟩ := Counts.smallest_eq_some_iff.mp hsmallest
      exact iff_of_true rfl ⟨m, hle, hm, fun hnil => hne (congrArg List.length hnil)⟩

/-- Where the callers have released the same pages and hold the same pages, both have the same
free blocks, but that the kernel has the halves of those of the bootstrap's largest order. Of
every sequence of allocations that are not of this order both grant the same; one of this order
is granted by the bootstrap's allocator only, exactly if a block of it is free. -/
theorem allocators_agree {pages : Rust.Slice Rust.Page} {offset : Nat} {c : BuddySystem.Config}
    (hzero : ∀ p ∈ pages.items, p = Rust.Page.new) (hrun : BuddySystem.Reachable pages offset c)
    {page : List Cxx.Page} {fromAddress toAddress : Nat} (hfits : page.length * 32 ≤ 2 ^ 64)
    (hfrom : fromAddress < 2 ^ 64) (hzero' : ∀ p ∈ page, p = Cxx.Page.zero) {d : Zone.Config}
    (hrun' : Zone.Reachable (Zone.new page fromAddress toAddress hfits hfrom) d)
    (hsame : SamePages c d) :
    (∀ b, c.system.view.IsFree b ↔ (b.level < LEVELS ∧ d.zone.view.IsFree b) ∨
      (b.level + 1 = LEVELS ∧ b.Aligned ∧ d.zone.view.IsFree b.parent)) ∧
    (∀ orders, (∀ order ∈ orders, order ≠ kMaxOrder) → ∃ granted,
      grants BuddySystem.allocatePages c.system orders = some granted ∧
      grants Zone.allocatePages d.zone orders = some granted) ∧
    grants BuddySystem.allocatePages c.system [kMaxOrder] = some [false] ∧
    (grants Zone.allocatePages d.zone [kMaxOrder] = some [true] ↔
      ∃ i, Block.Aligned ⟨i, kMaxOrder⟩ ∧ ∀ p ∈ Block.pages ⟨i, kMaxOrder⟩,
        p ∈ d.released ∧ ∀ b ∈ d.live, p ∉ b.pages) := by
  obtain ⟨-, hc⟩ := hrun.valid hzero
  obtain ⟨-, hd⟩ := hrun'.valid (Zone.new_valid hfits hfrom hzero')
  have hfree := hsame.freeSet_eq hc hd
  have hhalved : Counts.Halved (LEVELS - 1) c.system.view.counts d.zone.view.counts :=
    Inv.halved hc hd.holding hfree
  refine ⟨fun b => ?_, fun orders horders => ?_, ?_, grants_kMaxOrder hd⟩
  · have hiff : c.system.view.IsFree b ↔ _ := Inv.isFree_succ_iff hc hd.holding hfree
    rw [hiff]
    refine or_congr (and_congr_left' ?_) (and_congr_left' ?_)
    · exact Nat.le_sub_one_iff_lt (by decide)
    · rw [LEVELS]
      omega
  · refine ⟨_, BuddySystem.counted.grants_eq ⟨_, _, hc⟩ orders, ?_⟩
    rw [Zone.counted.grants_eq ⟨_, _, hd⟩, hhalved.answers_eq orders horders]
    rfl
  · have hnone : c.system.view.counts.smallest (LEVELS - 1) kMaxOrder = none :=
      Counts.smallest_eq_none_iff.mpr fun m hle hm => absurd hle (by
        rw [kMaxOrder, Nat.not_le]
        exact Nat.lt_of_le_pred (by decide) hm)
    rw [BuddySystem.counted.grants_eq ⟨_, _, hc⟩, Counts.answers_of_none hnone]
    rfl

/-- Four pages that are released as one block to each. -/
theorem allocators_agree_four : ∃ (c : BuddySystem.Config) (d : Zone.Config),
    c.released = Block.pages ⟨4, 2⟩ ∧ d.released = Block.pages ⟨4, 2⟩ ∧
      ∃ granted, grants BuddySystem.allocatePages c.system [1, 0, 1] = some granted ∧
        grants Zone.allocatePages d.zone [1, 0, 1] = some granted := by
  have hseed : ((BuddySystem.new ⟨0x1000, List.replicate 4 Rust.Page.new⟩ 4).freePagesAtLevel
      4 2).isSome := by
    decide +kernel
  obtain ⟨s, hs⟩ := Option.isSome_iff_exists.mp hseed
  have hseed' : ((Zone.new (List.replicate 4 Cxx.Page.zero) 0x4000 0x8000 (by decide)
      (by decide)).freePagesOrder 0x4000 2).isSome := by
    decide +kernel
  obtain ⟨z, hz⟩ := Option.isSome_iff_exists.mp hseed'
  have hrun : BuddySystem.Reachable ⟨0x1000, List.replicate 4 Rust.Page.new⟩ 4
      ⟨s, [], ∅ ∪ Block.pages ⟨4, 2⟩⟩ := by
    refine Relation.ReflTransGen.single ⟨.seed 4 2, ⟨by decide, by decide, ?_, ?_⟩, ?_⟩
    · exact fun p hp => hp
    · exact Set.disjoint_empty _
    · rw [BuddySystem.Op.run, BuddySystem.initial, hs]
      rfl
  have hrun' : Zone.Reachable (Zone.new (List.replicate 4 Cxx.Page.zero) 0x4000 0x8000
      (by decide) (by decide)) ⟨z, [], ∅ ∪ Block.pages ⟨4, 2⟩⟩ := by
    refine Relation.ReflTransGen.single ⟨.seed 0x4000 2, ⟨by decide, by decide, ?_, ?_⟩, ?_⟩
    · exact fun p hp => hp
    · exact Set.disjoint_empty _
    · rw [Zone.Op.run, hz]
      rfl
  obtain ⟨-, hgrants, -, -⟩ := allocators_agree (fun p hp => List.eq_of_mem_replicate hp) hrun
    (by decide) (by decide) (fun p hp => List.eq_of_mem_replicate hp) hrun' ⟨rfl, fun p => Iff.rfl⟩
  exact ⟨_, _, Set.empty_union _, Set.empty_union _, hgrants [1, 0, 1] (by decide)⟩

end Boot

end Aarch64
