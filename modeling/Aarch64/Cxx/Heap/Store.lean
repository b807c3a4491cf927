import Aarch64.C.String
import Aarch64.Cxx.Heap.Run

/-!
# The heap as a store of arrays

What the heap is for: arrays of bytes that are known by their pointers. Clients store bytes
in their own arrays. In every run whose calls leave room for the header the arrays are what
the clients stored: `Reallocate` keeps what fits, and no call and no store changes another
array. The copy of `Reallocate` never meets its source, so the loop of `memcpy` makes it.
-/

namespace Aarch64.Cxx.Heap

open StringView (bytesAt length_bytesAt take_bytesAt drop_bytesAt)

variable {σ : Type}

/-- A call of the heap, or a store of a client to an array. -/
inductive Access
  | call (op : Op)
  | store (ptr k : Nat) (b : UInt8)

def Access.Allowed (c : Config σ) : Access → Prop
  | .call op => op.Allowed c ∧ op.Fits c
  | .store ptr k _ => ∃ n, (ptr, n) ∈ c.live ∧ k < n

def Access.run (P : PhysicalMemory σ) (c : Config σ) : Access → Option (Config σ)
  | .call op => op.run P c
  | .store ptr k b =>
      some { c with heap := { c.heap with bytes := Function.update c.heap.bytes (ptr + k) b } }

def Runs (P : PhysicalMemory σ) : Config σ → List Access → Config σ → Prop
  | c, [], d => c = d
  | c, a :: as, d => ∃ c', a.Allowed c ∧ a.run P c = some c' ∧ Runs P c' as d

/-! ## Arrays -/

abbrev Arrays := List (Nat × List UInt8)

namespace Arrays

def others (l : Arrays) (ptr : Nat) : Arrays := l.filter fun x => decide (x.1 ≠ ptr)

/-- No array is at the pointer. -/
def Fresh (l : Arrays) (ptr : Nat) : Prop := ∀ x ∈ l, x.1 ≠ ptr

/-- A new array is filled with anything, and an array that grows keeps its contents in front. -/
def Step : Access → Arrays → Arrays → Prop
  | .call (.allocate size), l, l' => l' = l ∨ ∃ ptr fill,
      fill.length = size ∧ l.Fresh ptr ∧ l' = (ptr, fill) :: l
  | .call (.reallocate ptr newSize), l, l' => l' = l ∨ ∃ newPtr contents fill,
      (ptr, contents) ∈ l ∧ (contents.take newSize ++ fill).length = newSize ∧
        (l.others ptr).Fresh newPtr ∧
        l' = (newPtr, contents.take newSize ++ fill) :: l.others ptr
  | .call (.free ptr), l, l' => l' = l.others ptr
  | .store ptr k b, l, l' => l' = l.map fun x => if x.1 = ptr then (x.1, x.2.set k b) else x

def Runs : Arrays → List Access → Arrays → Prop
  | l, [], l' => l = l'
  | l, a :: as, l' => ∃ l'', Step a l l'' ∧ Runs l'' as l'

end Arrays

/-- What the live allocations hold. -/
def Config.arrays (c : Config σ) : Arrays :=
  c.live.map fun x => (x.1, bytesAt c.heap.bytes x.1 x.2)

variable {P : PhysicalMemory σ} {others raw : List Contigous} {c d : Config σ}
variable {l : Fin 32 → Layout} {g : Fin 32 → SlabLists} {bytes bytes' : Nat → UInt8}

/-! ## Bytes of arrays -/

theorem bytesAt_congr {p q n : Nat} (h : ∀ i < n, bytes' (q + i) = bytes (p + i)) :
    bytesAt bytes' q n = bytesAt bytes p n := by
  induction n generalizing p q with
  | zero => rfl
  | succ n ih =>
      have hfirst : bytes' q = bytes p := h 0 (Nat.succ_pos n)
      have hrest : bytesAt bytes' (q + 1) n = bytesAt bytes (p + 1) n := ih fun i hi => by
        rw [Nat.add_assoc, Nat.add_assoc, Nat.add_comm 1 i]
        exact h (i + 1) (Nat.succ_lt_succ hi)
      rw [bytesAt, bytesAt, hfirst, hrest]

theorem bytesAt_update {p k n : Nat} {b : UInt8} (hk : k < n) :
    bytesAt (Function.update bytes (p + k) b) p n = (bytesAt bytes p n).set k b := by
  induction n generalizing p k with
  | zero => cases hk
  | succ n ih =>
      cases k with
      | zero =>
          have hrest : bytesAt (Function.update bytes (p + 0) b) (p + 1) n =
              bytesAt bytes (p + 1) n :=
            bytesAt_congr fun i _ => Function.update_of_ne (by omega) b bytes
          rw [bytesAt, bytesAt, hrest, List.set_cons_zero, Nat.add_zero, Function.update_self]
      | succ k =>
          have hadd : p + (k + 1) = p + 1 + k := by omega
          have hne : p ≠ p + 1 + k := by omega
          rw [bytesAt, bytesAt, hadd, ih (Nat.lt_of_succ_lt_succ hk), Function.update_of_ne hne,
            List.set_cons_succ]

/-- An array whose first bytes were copied from another. -/
theorem bytesAt_copied {p q n : Nat} (size : Nat) (h : ∀ i < n, bytes' (q + i) = bytes (p + i)) :
    ∃ fill, bytesAt bytes' q size = (bytesAt bytes p n).take size ++ fill := by
  have hle : min n size ≤ size := Nat.min_le_right n size
  have hfirst : (bytesAt bytes' q size).take (min n size) = (bytesAt bytes p n).take size := by
    rw [take_bytesAt hle, bytesAt_congr fun i hi => h i (by omega)]
    cases Nat.le_total n size with
    | inl hn => rw [Nat.min_eq_left hn, List.take_of_length_le (by rw [length_bytesAt]; exact hn)]
    | inr hn => rw [Nat.min_eq_right hn, take_bytesAt hn]
  exact ⟨(bytesAt bytes' q size).drop (min n size), by rw [← hfirst, List.take_append_drop]⟩

@[simp] theorem mem_arrays {p : Nat} {contents : List UInt8} : (p, contents) ∈ c.arrays ↔
    ∃ n, (p, n) ∈ c.live ∧ contents = bytesAt c.heap.bytes p n := by
  rw [Config.arrays, List.mem_map]
  constructor
  · rintro ⟨⟨q, n⟩, hmem, heq⟩
    obtain ⟨rfl, rfl⟩ := Prod.mk.inj heq
    exact ⟨n, hmem, rfl⟩
  · rintro ⟨n, hmem, rfl⟩
    exact ⟨(p, n), hmem, rfl⟩

theorem arrays_others (heap : Heap σ) (ptr : Nat)
    (h : ∀ x ∈ c.others ptr, bytesAt heap.bytes x.1 x.2 = bytesAt c.heap.bytes x.1 x.2) :
    Config.arrays ⟨heap, c.others ptr⟩ = c.arrays.others ptr := by
  have hmap : Config.arrays ⟨heap, c.others ptr⟩ = Config.arrays ⟨c.heap, c.others ptr⟩ :=
    List.map_congr_left fun x hx => congrArg (Prod.mk x.1) (h x hx)
  rw [hmap, Config.arrays, Config.others, Arrays.others, Config.arrays, List.filter_map]
  rfl

theorem fresh_arrays {p : Nat} (h : ∀ x ∈ c.live, x.1 ≠ p) : c.arrays.Fresh p := by
  intro x hx
  obtain ⟨q, contents⟩ := x
  obtain ⟨n, hmem, -⟩ := mem_arrays.mp hx
  exact h (q, n) hmem

/-! ## One access -/

theorem run_allocate_refines {size : Nat} (hc : c.Valid P others l g raw)
    (hsize : size + metadataSize < 2 ^ 64) (hrun : Op.run P c (.allocate size) = some d) :
    Arrays.Step (.call (.allocate size)) c.arrays d.arrays := by
  obtain ⟨ptr, h', g', raw', hcall, halloc⟩ := allocate_spec hc.heap hsize
  have hd : d = ⟨h', if ptr = 0 then c.live else (ptr, size) :: c.live⟩ := by
    simp only [Op.run, hcall, Option.bind_eq_bind, Option.bind_some] at hrun
    exact (Option.some.inj hrun).symm
  subst hd
  by_cases hnull : ptr = 0
  · left
    rw [if_pos hnull, Config.arrays, halloc.bytes]
    rfl
  · right
    refine ⟨ptr, bytesAt h'.bytes ptr size, length_bytesAt .., fresh_arrays fun x hx =>
      halloc.fresh hnull _ _ (hc.backed x hx), ?_⟩
    rw [if_neg hnull, Config.arrays, List.map_cons, halloc.bytes]
    rfl

theorem run_free_refines {ptr : Nat} (hc : c.Valid P others l g raw)
    (hlive : ∃ n, (ptr, n) ∈ c.live) (hrun : Op.run P c (.free ptr) = some d) :
    Arrays.Step (.call (.free ptr)) c.arrays d.arrays := by
  obtain ⟨n, hn⟩ := hlive
  obtain ⟨h', g', raw', hcall, -, -, hbytes⟩ := free_spec hc.heap (hc.backed _ hn)
  have hd : d = ⟨h', c.others ptr⟩ := by
    simp only [Op.run, hcall, Option.bind_eq_bind, Option.bind_some] at hrun
    exact (Option.some.inj hrun).symm
  subst hd
  exact arrays_others _ ptr fun x _ => by rw [hbytes]

/-- A call that fails leaves all bytes. -/
theorem reallocate_failed_bytes {h h' : Heap σ} {ptr n newSize : Nat}
    (hv : Valid P others l h g raw) (hb : Backed l h g raw ptr n)
    (hsize : ∀ m, h.metadata (metadataFor ptr) = some m →
      newSize + metadataSize ≤ h.capacity m ∨
        h.capacity m < newSize ∧ newSize + metadataSize < 2 ^ 64)
    (hcall : h.reallocate P ptr newSize = some (0, h')) : h'.bytes = h.bytes := by
  obtain ⟨m, hptr, hread, hheader⟩ := hb.metadataFor_eq hv
  obtain ⟨hplace, -, -⟩ := hheader.fitsInPlace_iff hv newSize
  have hne : ptr ≠ 0 := by
    rw [hptr, Nat.add_comm]
    exact (metadataSize_add_pos _).ne'
  simp only [reallocate, hread, Option.bind_eq_bind, Option.bind_some] at hcall
  split at hcall
  next =>
    have hzero := congrArg Prod.fst (Option.some.inj hcall)
    exact absurd hzero hne
  next hmove =>
    have hfit : newSize + metadataSize < 2 ^ 64 := by
      refine (hsize m hread).elim (fun hle => ?_) And.right
      exact absurd (hplace.mpr ((Nat.le_add_right ..).trans hle)) hmove
    obtain ⟨newPtr, h₁, g₁, raw₁, halloc, hspec⟩ := allocate_spec hv hfit
    simp only [halloc, Option.bind_some] at hcall
    split at hcall
    next =>
      have hh := congrArg Prod.snd (Option.some.inj hcall)
      exact (congrArg Heap.bytes hh).symm.trans hspec.bytes
    next hnew =>
      obtain ⟨h₂, -, hcall⟩ := Option.bind_eq_some_iff.mp hcall
      have hzero := congrArg Prod.fst (Option.some.inj hcall)
      exact absurd hzero hnew

theorem run_reallocate_refines {ptr newSize : Nat} (hc : c.Valid P others l g raw)
    (hop : (Op.reallocate ptr newSize).Allowed c) (hfits : (Op.reallocate ptr newSize).Fits c)
    (hrun : Op.run P c (.reallocate ptr newSize) = some d) :
    Arrays.Step (.call (.reallocate ptr newSize)) c.arrays d.arrays := by
  obtain ⟨d', _, _, hd', hvalid⟩ := Op.run_spec hc (.reallocate ptr newSize) hop hfits
  obtain ⟨-, n, hn⟩ := hop
  obtain ⟨newPtr, h', g', raw', hcall, hmoved⟩ := reallocate_spec hc.heap (hc.backed _ hn) hfits
  have hd : d = ⟨h', if newPtr = 0 then c.live else (newPtr, newSize) :: c.others ptr⟩ := by
    simp only [Op.run, hcall, Option.bind_eq_bind, Option.bind_some] at hrun
    exact (Option.some.inj hrun).symm
  obtain rfl := Option.some.inj (hd'.symm.trans hrun)
  by_cases hnull : newPtr = 0
  · left
    subst hnull
    rw [hd, if_pos rfl, Config.arrays,
      reallocate_failed_bytes hc.heap (hc.backed _ hn) hfits hcall]
    rfl
  · right
    rw [if_neg hnull] at hd
    have hapart := hvalid.sound.apart
    rw [hd, List.pairwise_cons] at hapart
    have hkept (x : Nat × Nat) (hx : x ∈ c.others ptr) :
        bytesAt h'.bytes x.1 x.2 = bytesAt c.heap.bytes x.1 x.2 := by
      refine bytesAt_congr fun i hi => hmoved.bytes _ ?_
      have hx' := hapart.1 x hx
      omega
    have hfresh : (c.arrays.others ptr).Fresh newPtr := by
      rw [← arrays_others c.heap ptr fun _ _ => rfl]
      refine fresh_arrays fun x hx => ?_
      obtain ⟨hlive, hne⟩ := List.mem_filter.mp hx
      exact (hmoved.kept hnull _ _ (hc.backed x hlive) (of_decide_eq_true hne)).1
    obtain ⟨fill, hfill⟩ := bytesAt_copied newSize (hmoved.contents hnull)
    refine ⟨newPtr, bytesAt c.heap.bytes ptr n, fill, mem_arrays.mpr ⟨n, hn, rfl⟩, ?_, hfresh, ?_⟩
    · rw [← hfill, length_bytesAt]
    · rw [hd, ← hfill, ← arrays_others _ ptr hkept]
      rfl

theorem Config.Sound.apart_of_ne (h : c.Sound) {x y : Nat × Nat} (hx : x ∈ c.live)
    (hy : y ∈ c.live) (hne : x ≠ y) :
    x.1 + x.2 + metadataSize ≤ y.1 ∨ y.1 + y.2 + metadataSize ≤ x.1 := by
  have hsymm : Std.Symm fun x y : Nat × Nat =>
      x.1 + x.2 + metadataSize ≤ y.1 ∨ y.1 + y.2 + metadataSize ≤ x.1 := ⟨fun _ _ => Or.symm⟩
  exact h.apart.forall hx hy hne

theorem store_refines {ptr k : Nat} {b : UInt8} (hc : c.Valid P others l g raw)
    (hlive : ∃ n, (ptr, n) ∈ c.live ∧ k < n) (hrun : Access.run P c (.store ptr k b) = some d) :
    d.Valid P others l g raw ∧ Arrays.Step (.store ptr k b) c.arrays d.arrays := by
  obtain ⟨n, hn, hk⟩ := hlive
  obtain rfl := Option.some.inj hrun
  refine ⟨⟨⟨hc.heap.classes, hc.heap.layout, hc.heap.inv, hc.heap.held⟩, hc.backed, hc.distinct⟩,
    ?_⟩
  show _ = (c.live.map _).map _
  rw [List.map_map]
  refine List.map_congr_left fun x hx => ?_
  show (x.1, bytesAt _ x.1 x.2) = if x.1 = ptr then _ else _
  by_cases hptr : x.1 = ptr
  · have hx' : x = (ptr, n) :=
      List.inj_on_of_nodup_map (List.pairwise_map.mpr hc.distinct) hx hn hptr
    subst hx'
    rw [if_pos rfl, bytesAt_update hk]
  · have hapart := hc.sound.apart_of_ne hx hn fun heq => hptr (congrArg Prod.fst heq)
    rw [if_neg hptr, bytesAt_congr fun i hi => Function.update_of_ne (by omega) b c.heap.bytes]

theorem Access.run_refines (hc : c.Valid P others l g raw) {a : Access} (ha : a.Allowed c)
    (hrun : a.run P c = some d) :
    (∃ g' raw', d.Valid P others l g' raw') ∧ Arrays.Step a c.arrays d.arrays := by
  cases a with
  | store ptr k b =>
      obtain ⟨hvalid, hstep⟩ := store_refines hc ha hrun
      exact ⟨⟨g, raw, hvalid⟩, hstep⟩
  | call op =>
      obtain ⟨hop, hfits⟩ := ha
      obtain ⟨d', g', raw', hd', hvalid⟩ := op.run_spec hc hop hfits
      obtain rfl := Option.some.inj (hd'.symm.trans hrun)
      refine ⟨⟨g', raw', hvalid⟩, ?_⟩
      cases op with
      | allocate size => exact run_allocate_refines hc hfits hrun
      | reallocate ptr newSize => exact run_reallocate_refines hc hop hfits hrun
      | free ptr => exact run_free_refines hc hop hrun

/-! ## Runs -/

theorem Runs.refines {as : List Access} (hc : c.Valid P others l g raw) (h : Runs P c as d) :
    (∃ g' raw', d.Valid P others l g' raw') ∧ Arrays.Runs c.arrays as d.arrays := by
  induction as generalizing c g raw with
  | nil =>
      obtain rfl := h
      exact ⟨⟨g, raw, hc⟩, rfl⟩
  | cons a as ih =>
      obtain ⟨c', ha, hrun, hrest⟩ := h
      obtain ⟨⟨g', raw', hc'⟩, hstep⟩ := a.run_refines hc ha hrun
      obtain ⟨hd, hruns⟩ := ih hc' hrest
      exact ⟨hd, c'.arrays, hstep, hruns⟩

/-- What `Reallocate` copies lies apart from where it is copied to. -/
theorem copied_eq_memcpy {h h₁ : Heap σ} {ptr n newPtr newSize : Nat} {m : Metadata}
    (hv : Valid P others l h g raw) (hb : Backed l h g raw ptr n)
    (hread : h.metadata (metadataFor ptr) = some m) (hsize : newSize + metadataSize < 2 ^ 64)
    (hcall : h.allocate P newSize = some (newPtr, h₁)) (hnull : newPtr ≠ 0) :
    C.copied h₁.bytes newPtr ptr (h.oldSize m) = memcpy h₁.bytes newPtr ptr (h.oldSize m) := by
  obtain ⟨m', hptr, hread', hheader⟩ := hb.metadataFor_eq hv
  obtain rfl := Option.some.inj (hread.symm.trans hread')
  obtain ⟨-, holdSize, hcapacity⟩ := hheader.fitsInPlace_iff hv newSize
  have hold : Backed l h g raw ptr (h.oldSize m) :=
    ⟨_, m, hptr, hread, hheader.resize hv (by omega)⟩
  obtain ⟨newPtr', h', g', raw', hcall', halloc⟩ := allocate_spec hv hsize
  obtain ⟨rfl, rfl⟩ := Prod.mk.inj (Option.some.inj (hcall.symm.trans hcall'))
  obtain ⟨p, m₁, hp, -, hbacks⟩ := halloc.kept _ _ hold
  obtain ⟨q, m₂, hq, -, hbacks'⟩ := halloc.backed hnull
  have hne : p ≠ q := by
    rintro rfl
    exact halloc.fresh hnull _ _ hb (hp.trans hq.symm)
  have hapart := hbacks.apart hbacks' halloc.valid (metadataSize_add_pos _)
    (metadataSize_add_pos _) hne
  exact (C.copied_eq_memcpy_iff ..).mpr fun hlt i hi hsrc => by omega

/-- The heap is a store of separate arrays: in every run of accesses that leave room for the header,
the live allocations hold what such a store holds after the same accesses, so no call and no store
of a byte reaches another allocation, and `Reallocate` keeps the bytes in front. Where it moves an
allocation, the loop of `memcpy` copies it as the model does. -/
theorem heap_refines_arrays {phys : σ} {as : List Access} (hheld : P.Holds phys others)
    (hrun : Runs P ⟨new phys, []⟩ as c) :
    Arrays.Runs [] as c.arrays ∧
    ∀ ptr newSize m newPtr h₁ fuel, (∃ n, (ptr, n) ∈ c.live) →
      c.heap.metadata (metadataFor ptr) = some m → newSize + metadataSize < 2 ^ 64 →
      c.heap.allocate P newSize = some (newPtr, h₁) → newPtr ≠ 0 → c.heap.oldSize m < fuel →
      C.memcpy fuel h₁.bytes newPtr ptr (c.heap.oldSize m) =
        some (memcpy h₁.bytes newPtr ptr (c.heap.oldSize m)) := by
  have hstart : Config.Valid P others classLayout ⟨new phys, []⟩ (fun _ => ⟨[], [], []⟩) [] :=
    ⟨new_valid hheld, fun x hx => absurd hx List.not_mem_nil, List.Pairwise.nil⟩
  obtain ⟨⟨g, raw, hvalid⟩, hruns⟩ := hrun.refines hstart
  refine ⟨hruns, ?_⟩
  rintro ptr newSize m newPtr h₁ fuel ⟨n, hn⟩ hread hsize hcall hnull hfuel
  rw [C.memcpy_eq h₁.bytes newPtr ptr hfuel,
    copied_eq_memcpy hvalid.heap (hvalid.backed _ hn) hread hsize hcall hnull]

/-- Two arrays of 96 bytes on a board with four free pages, with a byte stored in each. -/
theorem heap_refines_arrays_board : ∃ c : Config Zones, c.live = [(0x8120, 96), (0x8020, 96)] ∧
    Arrays.Runs [] [.call (.allocate 96), .call (.allocate 96), .store 0x8020 95 7,
      .store 0x8120 0 9] c.arrays := by
  obtain ⟨zones, c, d, hheld, hfirst, hsecond, _, hlive⟩ := allocate_board
  have hallocate : ∀ e : Config Zones, (Access.call (.allocate 96)).Allowed e := fun e =>
    ⟨(by decide : 96 < 2 ^ 64), (by decide : 96 + metadataSize < 2 ^ 64)⟩
  have hstore : ∀ e : Config Zones, e.live = [(0x8120, 96), (0x8020, 96)] →
      (Access.store 0x8020 95 7).Allowed e ∧ (Access.store 0x8120 0 9).Allowed e := by
    intro e he
    exact ⟨⟨96, by rw [he]; decide, by decide⟩, 96, by rw [he]; decide, by decide⟩
  have hruns : Runs Zones.memory ⟨new zones, []⟩ [.call (.allocate 96), .call (.allocate 96),
      .store 0x8020 95 7, .store 0x8120 0 9] _ :=
    ⟨c, hallocate _, hfirst, d, hallocate _, hsecond, _, (hstore d hlive).1, rfl, _,
      (hstore _ hlive).2, rfl, rfl⟩
  refine ⟨_, ?_, (heap_refines_arrays (P := Zones.memory) hheld hruns).1⟩
  exact hlive

end Aarch64.Cxx.Heap
