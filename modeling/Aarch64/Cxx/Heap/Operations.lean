import Aarch64.Cxx.Heap.Invariant

/-!
# Operations of the heap

What the headers say about the memory behind them, and one lemma for each of
`Allocate`, `Free` and `Reallocate`. A size of `2 ^ 64 - 32` or more wraps when the size
of the header is added, and `Reallocate` returns its argument for sizes that fit the
object or block only without the header. The lemmas exclude both.
-/

namespace Aarch64.Cxx.Heap

variable {σ : Type} {P : PhysicalMemory σ} {others raw raw' : List Contigous} {h : Heap σ}
variable {l : Fin 32 → Layout} {g g' : Fin 32 → SlabLists} {m m' : Metadata} {header n : Nat}

theorem metadataSize_eq : metadataSize = 32 := by decide

theorem metadataSize_add_pos (n : Nat) : 0 < metadataSize + n :=
  Nat.add_pos_left (by decide) n

/-! ## Headers -/

/-- What a header stands for: `n` bytes from `header` on, in an object that has been
taken from a cache or in a block of `raw`. -/
inductive Backs (l : Fin 32 → Layout) (g : Fin 32 → SlabLists) (raw : List Contigous) (header n : Nat) : Metadata → Prop
  | object {i : Fin 32} {slab : Nat}
      (hmem : (header, slab) ∈ (g i).taken (l i))
      (hsize : n ≤ (l i).objectSize) : Backs l g raw header n ⟨some i, Contigous.null⟩
  | block {b : Contigous} (hfrom : b.fromAddress = header) (hmem : b ∈ raw)
      (hsize : n ≤ b.size) : Backs l g raw header n ⟨none, b⟩

/-- An allocation of `n` bytes at `ptr`, with its header in front of it. -/
def Backed (l : Fin 32 → Layout) (h : Heap σ) (g : Fin 32 → SlabLists) (raw : List Contigous) (ptr n : Nat) : Prop :=
  ∃ header m, ptr = header + metadataSize ∧ h.metadata header = some m ∧
    Backs l g raw header (metadataSize + n) m

/-- The blocks that a cache or a large allocation holds. -/
def blocksOf (g : Fin 32 → SlabLists) (raw : List Contigous) : Option (Fin 32) → List Contigous
  | some i => (g i).blocks
  | none => raw

theorem Valid.taken_eq (hv : Valid P others l h g raw) (i : Fin 32) :
    (g i).taken (h.caches i).layout = (g i).taken (l i) := by
  rw [hv.layout i]

/-- The bytes lie in one block, of the cache that the header names. -/
theorem Backs.exists_block (hb : Backs l g raw header n m) (hv : Valid P others l h g raw) :
    ∃ b ∈ blocksOf g raw m.cache, Packing.cells (header, n) ⊆ b.bytes := by
  cases hb with
  | object hmem hsize =>
      rw [← hv.taken_eq] at hmem
      obtain ⟨b, hb, hsub⟩ := (hv.inv _).object_block hmem
      rw [hv.layout] at hsub
      exact ⟨b, hb, (Set.Ico_subset_Ico_right (Nat.add_le_add_left hsize header)).trans hsub⟩
  | block hfrom hmem hsize =>
      refine ⟨_, hmem, ?_⟩
      rw [Contigous.bytes, hfrom]
      exact Set.Ico_subset_Ico_right (Nat.add_le_add_left hsize header)

theorem mem_held {o : Option (Fin 32)} {b : Contigous} (hb : b ∈ blocksOf g raw o) :
    b ∈ slabBlocks g (List.finRange 32) ++ (raw ++ others) := by
  cases o with
  | some i => exact List.mem_append_left _ (List.mem_flatMap.mpr ⟨i, List.mem_finRange i, hb⟩)
  | none => exact List.mem_append_right _ (List.mem_append_left _ hb)

/-- Nobody's bytes reach the end of the address space. -/
theorem Backs.end_lt (hb : Backs l g raw header n m) (hv : Valid P others l h g raw) (hn : 0 < n) :
    header + n < 2 ^ 64 := by
  obtain ⟨b, hmem, hsub⟩ := hb.exists_block hv
  have hend := (P.proper hv.held b (mem_held hmem)).toAddress_lt
  have hlast : header + n - 1 ∈ Packing.cells (header, n) :=
    ⟨Nat.le_sub_one_of_lt (Nat.lt_add_of_pos_right hn),
      Nat.sub_one_lt (Nat.add_pos_right header hn).ne'⟩
  obtain ⟨_, hlt⟩ := hsub hlast
  change header + n - 1 < b.fromAddress + b.size at hlt
  omega

/-- The blocks of different caches are disjoint, and so are large allocations. -/
theorem Valid.disjoint_blocksOf (hv : Valid P others l h g raw) {o o' : Option (Fin 32)}
    {b b' : Contigous} (hb : b ∈ blocksOf g raw o) (hb' : b' ∈ blocksOf g raw o')
    (hne : o ≠ o') : Disjoint b.bytes b'.bytes := by
  have hcross : ∀ {i : Fin 32} {o : Option (Fin 32)} {b b' : Contigous}, b ∈ (g i).blocks →
      b' ∈ blocksOf g raw o → some i ≠ o → Disjoint b.bytes b'.bytes := by
    intro i o b b' hb hb' hne
    refine (List.pairwise_append.mp (P.disjoint (hv.held_cache i))).2.2 b hb b' ?_
    cases o with
    | some j =>
        have hji : j ≠ i := fun heq => hne (congrArg some heq.symm)
        exact List.mem_append_left _ (List.mem_flatMap.mpr ⟨j, mem_otherCaches.mpr hji, hb'⟩)
    | none => exact List.mem_append_right _ (List.mem_append_left _ hb')
  cases o with
  | some i => exact hcross hb hb' hne
  | none =>
      cases o' with
      | some j => exact (hcross hb' hb hne.symm).symm
      | none => exact absurd rfl hne

/-- The bytes of two allocations, with their headers, do not overlap. -/
theorem Backs.apart {header' n' : Nat} (hb : Backs l g raw header n m)
    (hb' : Backs l g raw header' n' m') (hv : Valid P others l h g raw) (hn : 0 < n) (hn' : 0 < n')
    (hne : header ≠ header') : header + n ≤ header' ∨ header' + n' ≤ header := by
  obtain ⟨b, hmem, hsub⟩ := hb.exists_block hv
  obtain ⟨b', hmem', hsub'⟩ := hb'.exists_block hv
  have hcells : ∀ {c c' : Contigous}, Packing.cells (header, n) ⊆ c.bytes →
      Packing.cells (header', n') ⊆ c'.bytes → Disjoint c.bytes c'.bytes →
      header + n ≤ header' ∨ header' + n' ≤ header := fun hc hc' hdisjoint =>
    Packing.apart_of_disjoint (i := (header, n)) (j := (header', n')) hn hn'
      (hdisjoint.mono hc hc')
  by_cases hcache : m.cache = m'.cache
  · cases hb with
    | @object i slab htaken hsize =>
        cases hb' with
        | @object j slab' htaken' hsize' =>
            obtain rfl : i = j := Option.some.inj hcache
            rw [← hv.taken_eq] at htaken htaken'
            have : Std.Symm fun x y : Nat × Nat =>
                x.1 + (h.caches i).layout.objectSize ≤ y.1 ∨
                  y.1 + (h.caches i).layout.objectSize ≤ x.1 := ⟨fun _ _ hxy => hxy.symm⟩
            have hapart := ((hv.inv i).taken_apart (hv.held_cache i)).forall htaken htaken'
              fun heq => hne (congrArg Prod.fst heq)
            rw [hv.layout i] at hapart
            exact hapart.imp (Nat.add_le_add_left hsize header).trans
              (Nat.add_le_add_left hsize' header').trans
        | block => cases hcache
    | @block c hfrom hraw hsize =>
        cases hb' with
        | object => cases hcache
        | @block c' hfrom' hraw' hsize' =>
            have hdisjoint := (List.pairwise_append.mp
              (List.pairwise_append.mp (P.disjoint hv.held)).2.1).1
            have : Std.Symm fun b b' : Contigous => Disjoint b.bytes b'.bytes :=
              ⟨fun _ _ hd => hd.symm⟩
            have hcc : c ≠ c' := by
              rintro rfl
              exact hne (hfrom.symm.trans hfrom')
            refine hcells ?_ ?_ (hdisjoint.forall hraw hraw' hcc)
            · rw [Contigous.bytes, hfrom]
              exact Set.Ico_subset_Ico_right (Nat.add_le_add_left hsize header)
            · rw [Contigous.bytes, hfrom']
              exact Set.Ico_subset_Ico_right (Nat.add_le_add_left hsize' header')
  · exact hcells hsub hsub' (hv.disjoint_blocksOf hmem hmem' hcache)

/-! ## Allocating -/

/-- A header is untouched by a call that keeps what is taken and does not write it. -/
theorem Backs.update {i : Fin 32} {lists : SlabLists} (hb : Backs l g raw header n m)
    (hkeep : ∀ slab, (header, slab) ∈ (g i).taken (l i) → (header, slab) ∈ lists.taken (l i)) :
    Backs l (Function.update g i lists) raw header n m := by
  cases hb with
  | @object j slab hmem hsize =>
      have hmem' : (header, slab) ∈ (Function.update g i lists j).taken (l j) := by
        by_cases hj : j = i
        · subst hj
          rw [Function.update_self]
          exact hkeep slab hmem
        · rw [Function.update_of_ne hj]
          exact hmem
      exact .object hmem' hsize
  | block hfrom hmem hsize => exact .block hfrom hmem hsize

/-- What a call of `Allocate` for `size` bytes leaves behind. -/
structure Allocated (P : PhysicalMemory σ) (others : List Contigous) (l : Fin 32 → Layout)
    (h : Heap σ) (g : Fin 32 → SlabLists) (raw : List Contigous) (size ptr : Nat) (h' : Heap σ)
    (g' : Fin 32 → SlabLists) (raw' : List Contigous) : Prop where
  valid : Valid P others l h' g' raw'
  kept : ∀ q n, Backed l h g raw q n → Backed l h' g' raw' q n
  backed : ptr ≠ 0 → Backed l h' g' raw' ptr size
  fresh : ptr ≠ 0 → ∀ q n, Backed l h g raw q n → q ≠ ptr
  bytes : h'.bytes = h.bytes

/-- An object that a cache has just taken is not behind any other header. -/
theorem fresh_object {i : Fin 32} {cache : Cache} {world : World σ} {lists : SlabLists}
    {p slab : Nat} (hv : Valid P others l h g raw)
    (htook : Cache.Took P i (h.caches i) h.world (g i)
      (slabBlocks g (otherCaches i) ++ (raw ++ others)) p slab cache world lists)
    (hp : p ≠ 0) (hn : 0 < n) : ¬ Backs l g raw p n m := by
  intro hb
  have htaken := htook.taken_of_ne hp
  rw [hv.layout i] at htaken
  have hlayout : cache.layout = l i := htook.layout.trans (hv.layout i)
  have hpos := htook.inv.layout.objectSize_pos
  have hapart := htook.inv.taken_apart htook.held
  rw [hlayout] at hpos hapart
  by_cases hcache : m.cache = some i
  · cases hb with
    | @object j slab' hmem hsize =>
        obtain rfl : j = i := Option.some.inj hcache
        have hnew := List.pairwise_cons.mp ((htaken.pairwise_iff fun hxy => hxy.symm).mp hapart)
        have hself := hnew.1 (p, slab') hmem
        change p + _ ≤ p ∨ p + _ ≤ p at hself
        omega
    | block => cases hcache
  · obtain ⟨b, hb, hsub⟩ := hb.exists_block hv
    have hobject : (p, slab) ∈ lists.taken cache.layout := by
      rw [hlayout]
      exact htaken.symm.subset List.mem_cons_self
    obtain ⟨b', hb', hsub'⟩ := htook.inv.object_block hobject
    rw [hlayout] at hsub'
    have hother : b ∈ slabBlocks g (otherCaches i) ++ (raw ++ others) := by
      cases hm : m.cache with
      | some j =>
          rw [hm] at hb hcache
          have hji : j ≠ i := fun heq => hcache (congrArg some heq)
          exact List.mem_append_left _ (List.mem_flatMap.mpr ⟨j, mem_otherCaches.mpr hji, hb⟩)
      | none =>
          rw [hm] at hb
          exact List.mem_append_right _ (List.mem_append_left _ hb)
    have hdisjoint := (List.pairwise_append.mp (P.disjoint htook.held)).2.2 b' hb' b hother
    exact Set.disjoint_left.mp hdisjoint (hsub' ⟨Nat.le_refl p, Nat.lt_add_of_pos_right hpos⟩)
      (hsub ⟨Nat.le_refl p, Nat.lt_add_of_pos_right hn⟩)

theorem allocate_cache {size : Nat} {i : Fin 32} (hv : Valid P others l h g raw)
    (hsize : size + metadataSize < 2 ^ 64)
    (hcache : cacheFor (Word64.add size metadataSize) = some i) :
    ∃ ptr h' g' raw', h.allocate P size = some (ptr, h') ∧
      Allocated P others l h g raw size ptr h' g' raw' := by
  rcases Cache.allocate_spec (hv.inv i) (hv.held_cache i) with
    ⟨t, _, hheld, _, hcall⟩ | ⟨p, slab, _, _, cache, world, lists, _, hcall, htook⟩
  · have hvalid : Valid P others l (h.setCache i (h.caches i) { h.world with phys := t })
        (Function.update g i (g i)) raw :=
      hv.setCache rfl (hv.inv i) hheld fun a ha => (if_neg ha).symm
    rw [Function.update_eq_self] at hvalid
    refine ⟨0, _, g, raw, ?_, hvalid, fun _ _ hb => hb, fun hne => absurd rfl hne,
      fun hne => absurd rfl hne, rfl⟩
    simp only [allocate, hcache, hcall, Option.bind_eq_bind, Option.bind_some, if_true]
    rfl
  · have hvalid := hv.setCache htook.layout htook.inv htook.held htook.frame
    have hsub := htook.subset
    rw [hv.layout i] at hsub
    have hkeep : ∀ q n m, Backs l g raw q n m → Backs l (Function.update g i lists) raw q n m :=
      fun q n m hb => hb.update fun _ hmem => hsub hmem
    by_cases hp : p = 0
    · refine ⟨0, h.setCache i cache world, _, raw, ?_, hvalid, ?_, fun hne => absurd rfl hne,
        fun hne => absurd rfl hne, rfl⟩
      · simp only [allocate, hcache, hcall, Option.bind_eq_bind, Option.bind_some, if_pos hp]
        rfl
      · rintro q n ⟨header, m, hq, hread, hb⟩
        exact ⟨header, m, hq, hread, hkeep _ _ _ hb⟩
    · have hlt := hv.classes.lt hcache
      rw [Word64.add_of_lt hsize] at hlt
      have hnew : Backs l (Function.update g i lists) raw p (metadataSize + size)
          ⟨some i, Contigous.null⟩ := by
        have hmem : (p, slab) ∈ (Function.update g i lists i).taken (l i) := by
          rw [Function.update_self]
          have htaken := htook.taken_of_ne hp
          rw [hv.layout i] at htaken
          exact htaken.symm.subset List.mem_cons_self
        exact .object hmem (by omega)
      have hend := hnew.end_lt hvalid (metadataSize_add_pos _)
      have hword : Word64.add p metadataSize = p + metadataSize := Word64.add_of_lt (by omega)
      have hne : ∀ {header n m}, 0 < n → Backs l g raw header n m → header ≠ p := by
        rintro header n m hn hb rfl
        exact fresh_object hv htook hp hn hb
      refine ⟨p + metadataSize, (h.setCache i cache world).setMetadata p
        (some ⟨some i, Contigous.null⟩), _, raw, ?_, ⟨hvalid.classes, hvalid.layout, hvalid.inv,
        hvalid.held⟩, ?_, fun _ => ⟨p, _, rfl, Function.update_self .., hnew⟩, ?_, rfl⟩
      · simp only [allocate, hcache, hcall, Option.bind_eq_bind, Option.bind_some, if_neg hp, hword]
        rfl
      · rintro q n ⟨header, m, hq, hread, hb⟩
        refine ⟨header, m, hq, ?_, hkeep _ _ _ hb⟩
        change Function.update h.metadata p _ header = _
        rw [Function.update_of_ne (hne (metadataSize_add_pos _) hb)]
        exact hread
      · rintro _ q n ⟨header, m, rfl, hread, hb⟩ heq
        exact hne (metadataSize_add_pos _) hb (Nat.add_right_cancel heq)

theorem allocate_block {size : Nat} (hv : Valid P others l h g raw)
    (hsize : size + metadataSize < 2 ^ 64)
    (hcache : cacheFor (Word64.add size metadataSize) = none) :
    ∃ ptr h' g' raw', h.allocate P size = some (ptr, h') ∧
      Allocated P others l h g raw size ptr h' g' raw' := by
  have hsum : Word64.add size metadataSize = size + metadataSize := Word64.add_of_lt hsize
  have hpos : 0 < Word64.add size metadataSize := by
    rw [hsum, Nat.add_comm]
    exact metadataSize_add_pos size
  rcases P.allocate_spec hv.held hpos (Word64.add_lt ..) with
    ⟨t, hphys, hheld⟩ | ⟨b, t, hphys, horder, hheld⟩
  · refine ⟨0, h.setPhys t, g, raw, ?_, ⟨hv.classes, hv.layout, hv.inv, hheld⟩, fun _ _ hb => hb,
      fun hne => absurd rfl hne, fun hne => absurd rfl hne, rfl⟩
    simp only [allocate, hcache, hphys, Option.bind_eq_bind, Option.bind_some]
    rfl
  · have hproper := P.proper hheld b List.mem_cons_self
    have hvalid : Valid P others l ((h.setPhys t).setMetadata b.fromAddress (some ⟨none, b⟩)) g
        (b :: raw) :=
      ⟨hv.classes, hv.layout, hv.inv, P.perm hheld List.perm_middle.symm⟩
    have hfits : metadataSize + size ≤ b.size := by
      rw [hproper.size_eq, horder, hsum, Nat.add_comm]
      exact le_orderFor (by rwa [hsum] at hpos) hsize
    have hnew : Backs l g (b :: raw) b.fromAddress (metadataSize + size) ⟨none, b⟩ :=
      .block rfl List.mem_cons_self hfits
    have hend := hnew.end_lt hvalid (metadataSize_add_pos size)
    have hword : Word64.add b.fromAddress metadataSize = b.fromAddress + metadataSize :=
      Word64.add_of_lt (by omega)
    -- the new block is apart from everything that is held
    have hne : ∀ {header n m}, 0 < n → Backs l g raw header n m → header ≠ b.fromAddress := by
      rintro header n m hn hb rfl
      obtain ⟨b', hmem, hsub⟩ := hb.exists_block hv
      have hdisjoint := (List.pairwise_cons.mp (P.disjoint hheld)).1 b' (mem_held hmem)
      exact Set.disjoint_left.mp hdisjoint
        ⟨Nat.le_refl _, Nat.lt_add_of_pos_right hproper.size_pos⟩
        (hsub ⟨Nat.le_refl _, Nat.lt_add_of_pos_right hn⟩)
    refine ⟨b.fromAddress + metadataSize, _, g, b :: raw, ?_, hvalid, ?_,
      fun _ => ⟨b.fromAddress, _, rfl, Function.update_self .., hnew⟩, ?_, rfl⟩
    · simp only [allocate, hcache, hphys, Option.bind_eq_bind, Option.bind_some, hword]
      rfl
    · rintro q n ⟨header, m, hq, hread, hb⟩
      refine ⟨header, m, hq, ?_, ?_⟩
      · change Function.update h.metadata b.fromAddress _ header = _
        rw [Function.update_of_ne (hne (metadataSize_add_pos _) hb)]
        exact hread
      · cases hb with
        | object hmem hsize => exact .object hmem hsize
        | block hfrom hmem hsize => exact .block hfrom (List.mem_cons_of_mem b hmem) hsize
    · rintro _ q n ⟨header, m, rfl, hread, hb⟩ heq
      exact hne (metadataSize_add_pos _) hb (Nat.add_right_cancel heq)

/-- `Allocate` returns, with memory behind the pointer unless it is null. -/
theorem allocate_spec {size : Nat} (hv : Valid P others l h g raw)
    (hsize : size + metadataSize < 2 ^ 64) :
    ∃ ptr h' g' raw', h.allocate P size = some (ptr, h') ∧
      Allocated P others l h g raw size ptr h' g' raw' := by
  cases hcache : cacheFor (Word64.add size metadataSize) with
  | some i => exact allocate_cache hv hsize hcache
  | none => exact allocate_block hv hsize hcache

/-! ## Freeing -/

theorem Backed.metadataFor_eq {ptr : Nat} (hb : Backed l h g raw ptr n)
    (hv : Valid P others l h g raw) : ∃ m, ptr = metadataFor ptr + metadataSize ∧
      h.metadata (metadataFor ptr) = some m ∧
      Backs l g raw (metadataFor ptr) (metadataSize + n) m := by
  obtain ⟨header, m, rfl, hread, hb⟩ := hb
  have hend := hb.end_lt hv (metadataSize_add_pos n)
  have heq : metadataFor (header + metadataSize) = header := by
    rw [metadataFor, Word64.sub_of_le (Nat.le_add_left ..) (by omega), Nat.add_sub_cancel]
  rw [heq]
  exact ⟨m, rfl, hread, hb⟩

/-- `Free` of an allocation returns, and leaves the other ones as they are. -/
theorem free_spec {ptr : Nat} (hv : Valid P others l h g raw) (hb : Backed l h g raw ptr n) :
    ∃ h' g' raw', h.free P ptr = some h' ∧ Valid P others l h' g' raw' ∧
      (∀ q k, Backed l h g raw q k → q ≠ ptr → Backed l h' g' raw' q k) ∧ h'.bytes = h.bytes := by
  obtain ⟨m, hptr, hread, hb⟩ := hb.metadataFor_eq hv
  obtain ⟨header, hheader⟩ : ∃ header, metadataFor ptr = header := ⟨_, rfl⟩
  rw [hheader] at hptr hread hb
  -- the header of another allocation is another header
  have hother : ∀ {header' m'}, header' + metadataSize ≠ ptr → h.metadata header' = some m' →
      header' ≠ header ∧ Function.update h.metadata header none header' = some m' := by
    intro header' m' hq hread'
    have hne : header' ≠ header := by
      rintro rfl
      exact hq hptr.symm
    rw [Function.update_of_ne hne]
    exact ⟨hne, hread'⟩
  cases hb with
  | @object i slab htaken hsize =>
      rw [← hv.taken_eq] at htaken
      obtain ⟨cache, world, lists, hcall, hfreed⟩ := Cache.free_spec (hv.inv i) htaken
      have hheld : P.Holds world.phys
          (lists.blocks ++ (slabBlocks g (otherCaches i) ++ (raw ++ others))) := by
        rw [hfreed.phys]
        exact P.perm (hv.held_cache i) (hfreed.blocks.symm.append_right _)
      have hvalid := hv.setCache hfreed.layout hfreed.inv hheld hfreed.frame
      have hleft := hfreed.taken
      rw [hv.layout i] at hleft
      refine ⟨(h.setCache i cache world).setMetadata header none, _, raw, ?_,
        ⟨hvalid.classes, hvalid.layout, hvalid.inv, hvalid.held⟩, ?_, rfl⟩
      · simp only [free, hheader, hread, hcall, Option.bind_eq_bind, Option.bind_some]
        rfl
      · rintro q k ⟨header', m', rfl, hread', hb'⟩ hq
        obtain ⟨hne, hsame⟩ := hother hq hread'
        refine ⟨header', m', rfl, hsame, hb'.update fun slab' hmem => ?_⟩
        rcases List.mem_cons.mp (hleft.subset hmem) with heq | hmem
        · exact absurd (congrArg Prod.fst heq) hne
        · exact hmem
  | @block b hfrom hmem hsize =>
      have hperm : (slabBlocks g (List.finRange 32) ++ (raw ++ others)).Perm
          (b :: (slabBlocks g (List.finRange 32) ++ (raw.erase b ++ others))) :=
        (((List.perm_cons_erase hmem).append_right others).append_left _).trans List.perm_middle
      obtain ⟨t, hfree, hheld⟩ := P.free_spec (P.perm hv.held hperm)
      refine ⟨(h.setPhys t).setMetadata header none, g, raw.erase b, ?_,
        ⟨hv.classes, hv.layout, hv.inv, hheld⟩, ?_, rfl⟩
      · simp only [free, hheader, hread, hfree, Option.bind_eq_bind, Option.bind_some]
        rfl
      · rintro q k ⟨header', m', rfl, hread', hb'⟩ hq
        obtain ⟨hne, hsame⟩ := hother hq hread'
        refine ⟨header', m', rfl, hsame, ?_⟩
        cases hb' with
        | object htaken hsize => exact .object htaken hsize
        | @block b' hfrom' hmem' hsize' =>
            have hbb : b' ≠ b := by
              rintro rfl
              exact hne (hfrom'.symm.trans hfrom)
            exact .block hfrom' ((List.mem_erase_of_ne hbb).mpr hmem') hsize'

/-! ## Reallocating -/

/-- The bytes of the object or block behind a header, the header included. -/
def capacity (h : Heap σ) (m : Metadata) : Nat :=
  match m.cache with
  | some i => (h.caches i).layout.objectSize
  | none => m.mem.size

/-- The two tests of `Reallocate` compare with the capacity, and `old_size` leaves
out the header. -/
theorem Backs.fitsInPlace_iff (hb : Backs l g raw header n m) (hv : Valid P others l h g raw)
    (newSize : Nat) :
    (h.fitsInPlace m newSize = true ↔ newSize ≤ h.capacity m) ∧
      h.oldSize m = h.capacity m - metadataSize ∧ n ≤ h.capacity m := by
  cases hb with
  | @object i slab hmem hsize =>
      rw [← hv.layout i] at hsize
      have hlt := (hv.inv i).layout.objectSize_lt
      have hclass := hv.classes i
      rw [← hv.layout i] at hclass
      have hle : metadataSize ≤ (h.caches i).layout.objectSize := by
        rw [metadataSize_eq]
        omega
      refine ⟨?_, ?_, hsize⟩
      · simp only [fitsInPlace, capacity, Contigous.null, Contigous.isNull, ge_iff_le,
          Option.isNone_none, Bool.not_true, Bool.false_and, Bool.or_false, decide_eq_true_eq]
      · have hnull : Contigous.null.isNull = true := rfl
        rw [oldSize]
        exact (if_pos hnull).trans (Word64.sub_of_le hle hlt)
  | @block b hfrom hmem hsize =>
      have hproper := P.proper hv.held b (mem_held (o := none) hmem)
      have hnull : ¬ b.isNull = true := by
        rw [hproper.nonnull]
        decide
      have hle : metadataSize ≤ b.size := by
        rw [hproper.size_eq, metadataSize_eq]
        exact (by decide : 32 ≤ 2 ^ kPageBits).trans
          (Nat.pow_le_pow_right (by decide) (Nat.le_add_left ..))
      refine ⟨?_, ?_, hsize⟩
      · simp only [fitsInPlace, capacity, hproper.nonnull, ge_iff_le, Bool.not_false,
          Bool.true_and, Bool.false_or, decide_eq_true_eq]
      · have hend := hproper.toAddress_lt
        rw [oldSize]
        exact (if_neg hnull).trans
          (Word64.sub_of_le hle (Nat.lt_of_le_of_lt (Nat.le_add_left ..) hend))

theorem Backs.resize {k : Nat} (hb : Backs l g raw header n m) (hv : Valid P others l h g raw)
    (hk : k ≤ h.capacity m) : Backs l g raw header k m := by
  cases hb with
  | @object i slab hmem hsize =>
      refine .object hmem ?_
      rw [← hv.layout i]
      exact hk
  | block hfrom hmem hsize => exact .block hfrom hmem hk

/-- What a call of `Reallocate` leaves behind. -/
structure Reallocated (P : PhysicalMemory σ) (others : List Contigous) (l : Fin 32 → Layout)
    (h : Heap σ) (g : Fin 32 → SlabLists) (raw : List Contigous) (ptr n newSize ptr' : Nat)
    (h' : Heap σ) (g' : Fin 32 → SlabLists) (raw' : List Contigous) : Prop where
  valid : Valid P others l h' g' raw'
  failed : ptr' = 0 → ∀ q k, Backed l h g raw q k → Backed l h' g' raw' q k
  backed : ptr' ≠ 0 → Backed l h' g' raw' ptr' newSize
  kept : ptr' ≠ 0 → ∀ q k, Backed l h g raw q k → q ≠ ptr → q ≠ ptr' ∧ Backed l h' g' raw' q k
  contents : ptr' ≠ 0 → ∀ k < n, h'.bytes (ptr' + k) = h.bytes (ptr + k)
  bytes : ∀ a, a < ptr' ∨ ptr' + newSize ≤ a → h'.bytes a = h.bytes a

/-- `Reallocate` to a size that fits in place with its header, or does not fit in
place at all. -/
theorem reallocate_spec {ptr newSize : Nat} (hv : Valid P others l h g raw)
    (hb : Backed l h g raw ptr n)
    (hfits : ∀ m, h.metadata (metadataFor ptr) = some m →
      newSize + metadataSize ≤ h.capacity m ∨
        h.capacity m < newSize ∧ newSize + metadataSize < 2 ^ 64) :
    ∃ ptr' h' g' raw', h.reallocate P ptr newSize = some (ptr', h') ∧
      Reallocated P others l h g raw ptr n newSize ptr' h' g' raw' := by
  obtain ⟨m, hptr, hread, hheader⟩ := hb.metadataFor_eq hv
  obtain ⟨hplace, holdSize, hcapacity⟩ := hheader.fitsInPlace_iff hv newSize
  rcases hfits m hread with hle | ⟨hgt, hsize⟩
  · have hplace' : h.fitsInPlace m newSize = true :=
      hplace.mpr ((Nat.le_add_right ..).trans hle)
    have hne : ptr ≠ 0 := by
      rw [hptr, Nat.add_comm]
      exact (metadataSize_add_pos _).ne'
    refine ⟨ptr, h, g, raw, ?_, hv, fun hzero => absurd hzero hne,
      fun _ => ⟨metadataFor ptr, m, hptr, hread, ?_⟩, fun _ q k hq hne => ⟨hne, hq⟩,
      fun _ _ _ => rfl, fun _ _ => rfl⟩
    · simp only [reallocate, hread, Option.bind_eq_bind, Option.bind_some, hplace', if_true]
      rfl
    · rw [Nat.add_comm] at hle
      exact hheader.resize hv hle
  · have hmove : ¬ h.fitsInPlace m newSize = true := fun hin =>
      absurd (hplace.mp hin) (Nat.not_le.mpr hgt)
    obtain ⟨ptr', h₁, g₁, raw₁, hcall, halloc⟩ := allocate_spec hv hsize
    by_cases hnull : ptr' = 0
    · refine ⟨0, h₁, g₁, raw₁, ?_, halloc.valid, fun _ => halloc.kept,
        fun hne => absurd rfl hne, fun hne => absurd rfl hne, fun hne => absurd rfl hne,
        fun a _ => congrFun halloc.bytes a⟩
      simp only [reallocate, hread, Option.bind_eq_bind, Option.bind_some, if_neg hmove, hcall,
        if_pos hnull]
      rfl
    · -- the bytes that are copied play no part in the headers
      let h₂ : Heap σ := { h₁ with bytes := memcpy h₁.bytes ptr' ptr (h.oldSize m) }
      have hvalid : Valid P others l h₂ g₁ raw₁ :=
        ⟨halloc.valid.classes, halloc.valid.layout, halloc.valid.inv, halloc.valid.held⟩
      have hold : Backed l h₂ g₁ raw₁ ptr n := halloc.kept ptr n hb
      obtain ⟨h₃, g₃, raw₃, hfree, hvalid', hkept, hbytes⟩ := free_spec hvalid hold
      have hcopied : h₃.bytes = memcpy h.bytes ptr' ptr (h.oldSize m) := by
        rw [hbytes, ← halloc.bytes]
      refine ⟨ptr', h₃, g₃, raw₃, ?_, hvalid', fun hzero => absurd hzero hnull, fun _ => ?_,
        fun _ q k hq hne => ⟨?_, ?_⟩, fun _ k hk => ?_, fun a ha => ?_⟩
      · have hfree' : free P { h₁ with bytes := memcpy h₁.bytes ptr' ptr (h.oldSize m) } ptr =
            some h₃ := hfree
        simp only [reallocate, hread, Option.bind_eq_bind, Option.bind_some, if_neg hmove, hcall,
          if_neg hnull, hfree']
        rfl
      · exact hkept ptr' newSize (halloc.backed hnull) (halloc.fresh hnull ptr n hb).symm
      · exact halloc.fresh hnull q k hq
      · exact hkept q k (halloc.kept q k hq) hne
      · have hin : ptr' ≤ ptr' + k ∧ ptr' + k < ptr' + h.oldSize m := by
          rw [holdSize]
          omega
        rw [hcopied, memcpy, if_pos hin, Nat.add_sub_cancel_left]
      · have hout : ¬ (ptr' ≤ a ∧ a < ptr' + h.oldSize m) := by
          rw [holdSize]
          omega
        rw [hcopied, memcpy, if_neg hout]

end Aarch64.Cxx.Heap
