import Aarch64.Cxx.Heap.Operations
import Aarch64.Cxx.Physical.Zones
import Mathlib.Logic.Relation

/-!
# Runs of the heap

Clients free and reallocate live pointers only, and may ask for any number of bytes.
The contract of the heap holds as long as adding the header to a size does not wrap
and `Reallocate` is not asked for a size that fits its argument only without the
header.
-/

namespace Aarch64.Cxx.Heap

variable {σ : Type}

/-- The heap, and the live pointers with the sizes last asked for. -/
structure Config (σ : Type) where
  heap : Heap σ
  live : List (Nat × Nat)

inductive Op
  | allocate (size : Nat)
  | reallocate (ptr newSize : Nat)
  | free (ptr : Nat)

def Op.Allowed (c : Config σ) : Op → Prop
  | .allocate size => size < 2 ^ 64
  | .reallocate ptr newSize => newSize < 2 ^ 64 ∧ ∃ n, (ptr, n) ∈ c.live
  | .free ptr => ∃ n, (ptr, n) ∈ c.live

/-- The allocations other than `ptr`. -/
def Config.others (c : Config σ) (ptr : Nat) : List (Nat × Nat) :=
  c.live.filter fun x => decide (x.1 ≠ ptr)

def Op.run (P : PhysicalMemory σ) (c : Config σ) : Op → Option (Config σ)
  | .allocate size => do
      let (ptr, heap) ← c.heap.allocate P size
      return ⟨heap, if ptr = 0 then c.live else (ptr, size) :: c.live⟩
  | .reallocate ptr newSize => do
      let (newPtr, heap) ← c.heap.reallocate P ptr newSize
      return ⟨heap, if newPtr = 0 then c.live else (newPtr, newSize) :: c.others ptr⟩
  | .free ptr => do
      let heap ← c.heap.free P ptr
      return ⟨heap, c.others ptr⟩

def Step (P : PhysicalMemory σ) (c d : Config σ) : Prop :=
  ∃ op : Op, op.Allowed c ∧ op.run P c = some d

def Reachable (P : PhysicalMemory σ) (phys : σ) (c : Config σ) : Prop :=
  Relation.ReflTransGen (Step P) ⟨new phys, []⟩ c

/-- The size leaves room for the header. -/
def Op.Fits (c : Config σ) : Op → Prop
  | .allocate size => size + metadataSize < 2 ^ 64
  | .reallocate ptr newSize => ∀ m, c.heap.metadata (metadataFor ptr) = some m →
      newSize + metadataSize ≤ c.heap.capacity m ∨
        c.heap.capacity m < newSize ∧ newSize + metadataSize < 2 ^ 64
  | .free _ => True

def FittingStep (P : PhysicalMemory σ) (c d : Config σ) : Prop :=
  ∃ op : Op, op.Allowed c ∧ op.Fits c ∧ op.run P c = some d

def FittingReachable (P : PhysicalMemory σ) (phys : σ) (c : Config σ) : Prop :=
  Relation.ReflTransGen (FittingStep P) ⟨new phys, []⟩ c

/-! ## The contract -/

/-- The bytes from `header` to `last` lie in the object or block that `m` names. An
object is one of those that its slab is divided into. -/
def Inside (h : Heap σ) (header last : Nat) (m : Metadata) : Prop :=
  match m.cache with
  | some i => ∃ a s k, h.world.slabs a = some s ∧ s.cache = i ∧
      k < (h.caches i).layout.objects ∧
      header = s.memory.fromAddress + k * (h.caches i).layout.objectSize ∧
      last ≤ header + (h.caches i).layout.objectSize
  | none => header = m.mem.fromAddress ∧ last ≤ m.mem.fromAddress + m.mem.size

/-- Every allocation lies behind its header in the memory that backs it, and does not
meet the bytes or the header of another one. -/
structure Config.Sound (c : Config σ) : Prop where
  inside : ∀ x ∈ c.live, ∃ m, metadataFor x.1 + metadataSize = x.1 ∧
    c.heap.metadata (metadataFor x.1) = some m ∧
    c.heap.Inside (metadataFor x.1) (x.1 + x.2) m
  apart : c.live.Pairwise fun x y =>
    x.1 + x.2 + metadataSize ≤ y.1 ∨ y.1 + y.2 + metadataSize ≤ x.1

variable {P : PhysicalMemory σ} {others raw : List Contigous} {c d : Config σ}
variable {l : Fin 32 → Layout} {g : Fin 32 → SlabLists}

structure Config.Valid (P : PhysicalMemory σ) (others : List Contigous) (l : Fin 32 → Layout)
    (c : Config σ) (g : Fin 32 → SlabLists) (raw : List Contigous) : Prop where
  heap : Heap.Valid P others l c.heap g raw
  backed : ∀ x ∈ c.live, Backed l c.heap g raw x.1 x.2
  distinct : c.live.Pairwise fun x y => x.1 ≠ y.1

/-- Every allowed call that fits returns and keeps the invariant. -/
theorem Op.run_spec (hc : c.Valid P others l g raw) (op : Op) (hop : op.Allowed c)
    (hfits : op.Fits c) :
    ∃ d g' raw', op.run P c = some d ∧ d.Valid P others l g' raw' := by
  have hrest : ∀ {ptr : Nat} {x : Nat × Nat}, x ∈ c.others ptr → x ∈ c.live ∧ x.1 ≠ ptr :=
    fun hx => (List.mem_filter.mp hx).imp_right of_decide_eq_true
  cases op with
  | allocate size =>
      obtain ⟨ptr, h', g', raw', hcall, halloc⟩ := allocate_spec hc.heap hfits
      refine ⟨⟨h', if ptr = 0 then c.live else (ptr, size) :: c.live⟩, g', raw', ?_,
        halloc.valid, ?_, ?_⟩
      · simp only [Op.run, hcall, Option.bind_eq_bind, Option.bind_some]
        rfl
      · intro x hx
        by_cases hnull : ptr = 0
        · simp only [if_pos hnull] at hx
          exact halloc.kept _ _ (hc.backed x hx)
        · simp only [if_neg hnull] at hx
          rcases List.mem_cons.mp hx with rfl | hx
          · exact halloc.backed hnull
          · exact halloc.kept _ _ (hc.backed x hx)
      · by_cases hnull : ptr = 0
        · simp only [if_pos hnull]
          exact hc.distinct
        · simp only [if_neg hnull]
          exact List.pairwise_cons.mpr ⟨fun x hx =>
            (halloc.fresh hnull _ _ (hc.backed x hx)).symm, hc.distinct⟩
  | reallocate ptr newSize =>
      obtain ⟨_, n, hn⟩ := hop
      obtain ⟨newPtr, h', g', raw', hcall, hmoved⟩ :=
        reallocate_spec hc.heap (hc.backed _ hn) hfits
      refine ⟨⟨h', if newPtr = 0 then c.live else (newPtr, newSize) :: c.others ptr⟩, g', raw', ?_,
        hmoved.valid, ?_, ?_⟩
      · simp only [Op.run, hcall, Option.bind_eq_bind, Option.bind_some]
        rfl
      · intro x hx
        by_cases hnull : newPtr = 0
        · simp only [if_pos hnull] at hx
          exact hmoved.failed hnull _ _ (hc.backed x hx)
        · simp only [if_neg hnull] at hx
          rcases List.mem_cons.mp hx with rfl | hx
          · exact hmoved.backed hnull
          · obtain ⟨hlive, hne⟩ := hrest hx
            exact (hmoved.kept hnull _ _ (hc.backed x hlive) hne).2
      · by_cases hnull : newPtr = 0
        · simp only [if_pos hnull]
          exact hc.distinct
        · simp only [if_neg hnull]
          refine List.pairwise_cons.mpr ⟨fun x hx => ?_, hc.distinct.filter _⟩
          obtain ⟨hlive, hne⟩ := hrest hx
          exact (hmoved.kept hnull _ _ (hc.backed x hlive) hne).1.symm
  | free ptr =>
      obtain ⟨n, hn⟩ := hop
      obtain ⟨h', g', raw', hcall, hvalid, hkept, _⟩ := free_spec hc.heap (hc.backed _ hn)
      refine ⟨⟨h', c.others ptr⟩, g', raw', ?_, hvalid, ?_, hc.distinct.filter _⟩
      · simp only [Op.run, hcall, Option.bind_eq_bind, Option.bind_some]
        rfl
      · intro x hx
        obtain ⟨hlive, hne⟩ := hrest hx
        exact hkept _ _ (hc.backed x hlive) hne

theorem FittingReachable.valid {phys : σ} (hstart : Heap.Valid P others l (new phys)
      (fun _ => ⟨[], [], []⟩) []) (hrun : FittingReachable P phys c) :
    ∃ g raw, c.Valid P others l g raw := by
  induction hrun with
  | refl => exact ⟨_, _, hstart, fun x hx => absurd hx List.not_mem_nil, List.Pairwise.nil⟩
  | tail _ hstep ih =>
      obtain ⟨g, raw, hvalid⟩ := ih
      obtain ⟨op, hop, hfits, heq⟩ := hstep
      obtain ⟨d, g', raw', hd, hvalid'⟩ := op.run_spec hvalid hop hfits
      rw [heq] at hd
      obtain rfl := Option.some.inj hd
      exact ⟨g', raw', hvalid'⟩

theorem Backs.inside {h : Heap σ} {m : Metadata} {header n : Nat}
    (hb : Backs l g raw header n m) (hv : Heap.Valid P others l h g raw) :
    h.Inside header (header + n) m := by
  cases hb with
  | @object i slab hmem hsize =>
      obtain ⟨k, hk, htaken, _⟩ := SlabLists.mem_taken.mp hmem
      have hinv := hv.inv i
      have hvalid := hinv.stored.valid k hk
      obtain ⟨j, hj, heq⟩ := Layout.WellFormed.mem_objectsAt.mp (hvalid.mem_objectsAt htaken)
      rw [← hv.layout i] at hsize
      exact ⟨k.addr (h.caches i).layout, k.slab, j, hinv.stored.read k hk, hvalid.owner, hj, heq,
        Nat.add_le_add_left hsize header⟩
  | block hfrom hmem hsize =>
      exact ⟨hfrom.symm, by rw [hfrom]; exact Nat.add_le_add_left hsize header⟩

theorem Config.Valid.sound (hc : c.Valid P others l g raw) : c.Sound := by
  refine ⟨fun x hx => ?_, ?_⟩
  · obtain ⟨m, hptr, hread, hb⟩ := (hc.backed x hx).metadataFor_eq hc.heap
    refine ⟨m, hptr.symm, hread, ?_⟩
    have hin := hb.inside hc.heap
    rwa [← Nat.add_assoc, ← hptr] at hin
  · refine hc.distinct.imp_of_mem ?_
    intro x y hx hy hne
    obtain ⟨p, m, hp, _, hb⟩ := hc.backed x hx
    obtain ⟨q, m', hq, _, hb'⟩ := hc.backed y hy
    have hpq : p ≠ q := by
      rintro rfl
      exact hne (hp.trans hq.symm)
    have hapart := hb.apart hb' hc.heap (metadataSize_add_pos _) (metadataSize_add_pos _) hpq
    rw [hp, hq]
    omega

/-- In every run whose calls leave room for the header, every allocation lies behind its header in
the object or block that backs it, and the bytes and headers of two allocations never meet. The
allocator may be any that keeps its contract. No call that is allowed and fits fails. -/
theorem reachable_sound {phys : σ} (hheld : P.Holds phys others)
    (hrun : FittingReachable P phys c) :
    c.Sound ∧ ∀ op : Op, op.Allowed c → op.Fits c → ∃ d, op.run P c = some d := by
  obtain ⟨g, raw, hvalid⟩ := hrun.valid (new_valid hheld)
  refine ⟨hvalid.sound, fun op hop hfits => ?_⟩
  obtain ⟨d, _, _, hd, _⟩ := op.run_spec hvalid hop hfits
  exact ⟨d, hd⟩

/-- Two allocations in objects of one slab. -/
theorem allocate_board : ∃ (zones : Zones) (c d : Config Zones), Zones.Holds zones [] ∧
    Op.run Zones.memory ⟨new zones, []⟩ (.allocate 96) = some c ∧
    Op.run Zones.memory c (.allocate 96) = some d ∧ c.live = [(0x8020, 96)] ∧
    d.live = [(0x8120, 96), (0x8020, 96)] := by
  obtain ⟨zones, hzones, hheld⟩ := Zones.board_spec 8 4 2
    (by decide) (by decide) (by decide) (by decide) (by decide)
  have hrun : ((Zones.board 8 4 2 (by decide) (by decide)).bind fun zones =>
      (Op.run Zones.memory ⟨new zones, []⟩ (.allocate 96)).bind fun c =>
        (Op.run Zones.memory c (.allocate 96)).map fun d => (c.live, d.live)) =
        some ([(0x8020, 96)], [(0x8120, 96), (0x8020, 96)]) := by
    decide +kernel
  rw [hzones, Option.bind_some] at hrun
  obtain ⟨c, hfirst, hrun⟩ := Option.bind_eq_some_iff.mp hrun
  obtain ⟨d, hsecond, heq⟩ := Option.map_eq_some_iff.mp hrun
  obtain ⟨hlive, hlive'⟩ := Prod.mk.inj heq
  exact ⟨zones, c, d, hheld, hfirst, hsecond, hlive, hlive'⟩

theorem reachable_sound_board :
    ∃ c : Config Zones, c.live = [(0x8120, 96), (0x8020, 96)] ∧ c.Sound := by
  obtain ⟨zones, c, d, hheld, hfirst, hsecond, _, hlive⟩ := allocate_board
  have hallowed : ∀ e : Config Zones, Op.Allowed e (.allocate 96) ∧ Op.Fits e (.allocate 96) :=
    fun e => ⟨(by decide : 96 < 2 ^ 64), (by decide : 96 + metadataSize < 2 ^ 64)⟩
  have hrun : FittingReachable Zones.memory zones d :=
    (Relation.ReflTransGen.single
      ⟨.allocate 96, (hallowed _).1, (hallowed _).2, hfirst⟩).tail
        ⟨.allocate 96, (hallowed _).1, (hallowed _).2, hsecond⟩
  exact ⟨d, hlive, (reachable_sound (P := Zones.memory) hheld hrun).1⟩

/-- Two objects of 256 bytes. `Reallocate` of the first to 256 bytes returns it, since
256 bytes fit the object, but behind the header they reach into the second one. -/
theorem reachable_sound_fails :
    ¬ ∀ (zones : Zones) (c : Config Zones), Zones.Holds zones [] →
      Reachable Zones.memory zones c → c.Sound := by
  intro hclaim
  obtain ⟨zones, hzones, hheld⟩ := Zones.board_spec 8 4 2
    (by decide) (by decide) (by decide) (by decide) (by decide)
  have hrun : ((Zones.board 8 4 2 (by decide) (by decide)).bind fun zones =>
      (Op.run Zones.memory ⟨new zones, []⟩ (.allocate 96)).bind fun c₁ =>
        (Op.run Zones.memory c₁ (.allocate 96)).bind fun c₂ =>
          (Op.run Zones.memory c₂ (.reallocate 0x8020 256)).map fun c₃ =>
            (c₁.live, c₂.live, c₃.live)) =
        some ([(0x8020, 96)], [(0x8120, 96), (0x8020, 96)], [(0x8020, 256), (0x8120, 96)]) := by
    decide +kernel
  rw [hzones, Option.bind_some] at hrun
  obtain ⟨c₁, hstep₁, hrun⟩ := Option.bind_eq_some_iff.mp hrun
  obtain ⟨c₂, hstep₂, hrun⟩ := Option.bind_eq_some_iff.mp hrun
  obtain ⟨c₃, hstep₃, heq⟩ := Option.map_eq_some_iff.mp hrun
  simp only [Prod.mk.injEq] at heq
  obtain ⟨hlive₁, hlive₂, hlive₃⟩ := heq
  have hallowed₁ : Op.Allowed (⟨new zones, []⟩ : Config Zones) (.allocate 96) := by
    change 96 < 2 ^ 64
    decide
  have hallowed₂ : Op.Allowed c₁ (.allocate 96) := by
    change 96 < 2 ^ 64
    decide
  have hallowed₃ : Op.Allowed c₂ (.reallocate 0x8020 256) := by
    refine ⟨by decide, 96, ?_⟩
    rw [hlive₂]
    decide
  have hreach : Reachable Zones.memory zones c₃ :=
    ((Relation.ReflTransGen.single ⟨_, hallowed₁, hstep₁⟩).tail ⟨_, hallowed₂, hstep₂⟩).tail
      ⟨_, hallowed₃, hstep₃⟩
  have hapart := (hclaim zones c₃ hheld hreach).apart
  rw [hlive₃] at hapart
  revert hapart
  decide

end Aarch64.Cxx.Heap
