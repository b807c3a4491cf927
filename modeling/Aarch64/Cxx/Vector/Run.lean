import Aarch64.Cxx.Vector.Operations
import Aarch64.Cxx.Physical.Zones

/-!
# Runs of a vector

A list goes through the same operations as the vector, and through those only that
return true. Items are values, so they are not elements of the vector itself.
-/

namespace Aarch64.Cxx.Common

variable {σ α : Type}

structure Config (σ α : Type) where
  vector : Vector
  store : Store σ α

inductive Op (α : Type)
  | pushBack (item : α)
  | popBack
  | assign (count : Nat) (item : α)
  | resize (size : Nat) (item : α)
  | clear

namespace Op

/-- Counts are of type `size_t`. -/
def Allowed : Op α → Prop
  | assign count _ => count < 2 ^ 64
  | resize size _ => size < 2 ^ 64
  | _ => True

/-- `Clear` returns nothing, which is true here. -/
def run (P : PhysicalMemory σ) (T : ElementType) (c : Config σ α) :
    Op α → Option (Bool × Config σ α)
  | pushBack item => do
      let (ok, v, s) ← c.vector.pushBack P T c.store item
      return (ok, ⟨v, s⟩)
  | popBack => do
      let (ok, v, s) ← c.vector.popBack T c.store
      return (ok, ⟨v, s⟩)
  | assign count item => do
      let (ok, v, s) ← c.vector.assign P T c.store count item
      return (ok, ⟨v, s⟩)
  | resize size item => do
      let (ok, v, s) ← c.vector.resize P T c.store size item
      return (ok, ⟨v, s⟩)
  | clear => do
      let (v, s) ← c.vector.clear T c.store
      return (true, ⟨v, s⟩)

/-- The operation on a list. -/
def list (xs : List α) : Op α → List α
  | pushBack item => xs ++ [item]
  | popBack => xs.dropLast
  | assign count item => List.replicate count item
  | resize size item => xs.take size ++ List.replicate (size - xs.length) item
  | clear => []

/-- How many elements `Grow` is asked for. -/
def target (v : Vector) : Op α → Nat
  | pushBack _ => Word64.add v.size 1
  | assign count _ => count
  | resize size _ => size
  | _ => 0

/-- The operation does not grow the vector to a number of elements whose bytes wrap, and
does not move it out of the block at address 0, unless it is refused. -/
def Fits (P : PhysicalMemory σ) (T : ElementType) (c : Config σ α) (op : Op α) : Prop :=
  c.vector.Grows P T c.store (op.target c.vector)

end Op

/-- Runs whose operations satisfy `Q`, with what they make of a list. -/
inductive Reaches (P : PhysicalMemory σ) (T : ElementType) (phys : σ)
    (Q : Config σ α → Op α → Prop) : Config σ α → List α → Prop
  | start : Reaches P T phys Q ⟨Vector.new, ⟨phys, fun _ => none, fun _ => none⟩⟩ []
  | step {c d : Config σ α} {xs : List α} {op : Op α} {ok : Bool} :
      Reaches P T phys Q c xs → op.Allowed → Q c op → op.run P T c = some (ok, d) →
      Reaches P T phys Q d (if ok then op.list xs else xs)

/-- The objects at the addresses `p i`, `p (i + 1)`, ..., `k` of them. -/
def elements (p : Nat → Nat) (objects : Nat → Option α) : Nat → Nat → Option (List α)
  | _, 0 => some []
  | i, k + 1 => do
      let item ← objects (p i)
      let rest ← elements p objects (i + 1) k
      return item :: rest

theorem elements_eq {p : Nat → Nat} {objects : Nat → Option α} {xs : List α} {i : Nat}
    (h : ∀ j < xs.length, objects (p (i + j)) = xs[j]?) :
    elements p objects i xs.length = some xs := by
  induction xs generalizing i with
  | nil => rfl
  | cons x xs ih =>
      have hfirst : objects (p i) = some x := h 0 (Nat.zero_lt_succ _)
      have hrest : elements p objects (i + 1) xs.length = some xs := by
        refine ih fun j hj => ?_
        have hnext := h (j + 1) (Nat.succ_lt_succ hj)
        rwa [List.getElem?_cons_succ, ← Nat.add_assoc, Nat.add_right_comm] at hnext
      rw [List.length_cons, elements, hfirst, Option.bind_eq_bind, Option.bind_some, hrest]
      rfl

def Config.contents (T : ElementType) (c : Config σ α) : Option (List α) :=
  elements (c.vector.address T) c.store.objects 0 c.vector.size

/-- The vector holds `xs`, and owns the one block that its elements lie in. -/
structure Config.Sound (P : PhysicalMemory σ) (T : ElementType) (others : List Contigous)
    (c : Config σ α) (xs : List α) : Prop where
  contents : c.contents T = some xs
  fits : c.vector.size ≤ c.vector.capacity
  none : c.vector.capacity = 0 → P.Holds c.store.phys others
  block : c.vector.capacity ≠ 0 → ∃ b, P.Holds c.store.phys (b :: others) ∧
    Backed T c.vector c.store b ∧ ∀ i < c.vector.capacity,
      b.fromAddress ≤ c.vector.address T i ∧
        c.vector.address T i + T.size ≤ b.fromAddress + b.size

/-- One operation returns, changes nothing when it returns false, and `PopBack` does so
on an empty vector only. -/
structure Op.Does (P : PhysicalMemory σ) (T : ElementType) (c : Config σ α) (xs : List α)
    (op : Op α) (ok : Bool) (d : Config σ α) : Prop where
  run : op.run P T c = some (ok, d)
  same : ok = false → d.contents T = c.contents T ∧ d.vector.capacity = c.vector.capacity
  popBack : op = .popBack → (ok = true ↔ xs ≠ [])
  clear : op = .clear → ok = true

variable {P : PhysicalMemory σ} {T : ElementType} {others owned : List Contigous}
variable {c d : Config σ α} {xs : List α}

theorem Valid.contents (hv : Valid P T others c.vector c.store owned xs) :
    c.contents T = some xs := by
  rw [Config.contents, hv.size]
  refine elements_eq fun j hj => ?_
  rw [Nat.zero_add]
  exact hv.stored j hj

theorem Valid.sound (hv : Valid P T others c.vector c.store owned xs) :
    c.Sound P T others xs := by
  refine ⟨hv.contents, hv.size.le.trans hv.fits, fun hzero => ?_, fun hne => ?_⟩
  · cases hv.owns with
    | none _ _ => exact hv.held
    | block capacity _ => exact absurd hzero (Nat.ne_of_gt capacity)
  · cases hv.owns with
    | none _ capacity => exact absurd capacity hne
    | @block b _ backed =>
        have hproper := P.proper hv.held b List.mem_cons_self
        refine ⟨b, hv.held, backed, fun i hi => ?_⟩
        rw [Vector.address, backed.items]
        exact ElementType.itemAt_inside backed.room hproper hi

theorem Vector.Becomes.does {ys : List α} {op : Op α} {ok : Bool}
    (hbecomes : Becomes P T others c.vector xs ys ok d.vector d.store)
    (hv : Valid P T others c.vector c.store owned xs) (hrun : op.run P T c = some (ok, d))
    (hpop : op = .popBack → (ok = true ↔ xs ≠ [])) (hclear : op = .clear → ok = true) :
    op.Does P T c xs ok d := by
  refine ⟨hrun, fun hok => ?_, hpop, hclear⟩
  obtain ⟨⟨owned', hvalid⟩, hsame⟩ := hbecomes
  subst hok
  exact ⟨hvalid.contents.trans hv.contents.symm, congrArg Vector.capacity (hsame rfl)⟩

/-- Every allowed operation that fits does what it does to a list. -/
theorem Op.run_spec (hv : Valid P T others c.vector c.store owned xs) (op : Op α)
    (hop : op.Allowed) (hfits : op.Fits P T c) :
    ∃ ok d, op.Does P T c xs ok d ∧
      ∃ owned', Valid P T others d.vector d.store owned' (if ok then op.list xs else xs) := by
  cases op with
  | pushBack item =>
      obtain ⟨ok, w, t, hcall, hbecomes⟩ := Vector.pushBack_spec hv item hfits
      refine ⟨ok, ⟨w, t⟩, hbecomes.does hv ?_ (fun h => by cases h) (fun h => by cases h),
        hbecomes.valid⟩
      rw [run, hcall]
      rfl
  | popBack =>
      obtain ⟨ok, w, t, hcall, hbecomes, hok⟩ := Vector.popBack_spec hv
      refine ⟨ok, ⟨w, t⟩, hbecomes.does hv ?_ (fun _ => hok) (fun h => by cases h),
        hbecomes.valid⟩
      rw [run, hcall]
      rfl
  | assign count item =>
      obtain ⟨ok, w, t, hcall, hbecomes⟩ := Vector.assign_spec hv item hop hfits
      refine ⟨ok, ⟨w, t⟩, hbecomes.does hv ?_ (fun h => by cases h) (fun h => by cases h),
        hbecomes.valid⟩
      rw [run, hcall]
      rfl
  | resize size item =>
      obtain ⟨ok, w, t, hcall, hbecomes⟩ := Vector.resize_spec hv item hop hfits
      refine ⟨ok, ⟨w, t⟩, hbecomes.does hv ?_ (fun h => by cases h) (fun h => by cases h),
        hbecomes.valid⟩
      rw [run, hcall]
      rfl
  | clear =>
      obtain ⟨objects, hcall, hvalid⟩ := Vector.clear_spec hv
      refine ⟨true, ⟨_, _⟩, ⟨?_, fun h => absurd h (by decide), (fun h => by cases h),
        fun _ => rfl⟩, _, hvalid⟩
      rw [run, hcall]
      rfl

theorem Reaches.valid {phys : σ} (hheld : P.Holds phys others)
    (hrun : Reaches P T phys (fun c op => op.Fits P T c) c xs) :
    ∃ owned, Valid P T others c.vector c.store owned xs := by
  induction hrun with
  | start => exact ⟨[], new_valid hheld⟩
  | step _ hop hfits hrun ih =>
      obtain ⟨owned, hvalid⟩ := ih
      obtain ⟨ok, d, hdoes, hd⟩ := Op.run_spec hvalid _ hop hfits
      rw [hdoes.run] at hrun
      cases hrun
      exact hd

/-- In every run whose operations fit, the vector holds what the operations make of a list and owns
the one block that its elements lie in, with room for its capacity. The next operation returns, and
one that returns false has changed neither contents nor capacity. The elements may be of any size
and the allocator may fail at any point. -/
theorem reaches_sound {phys : σ} (hheld : P.Holds phys others)
    (hrun : Reaches P T phys (fun c op => op.Fits P T c) c xs) :
    c.Sound P T others xs ∧ ∀ op : Op α, op.Allowed → op.Fits P T c →
      ∃ ok d, op.Does P T c xs ok d := by
  obtain ⟨owned, hvalid⟩ := hrun.valid hheld
  refine ⟨hvalid.sound, fun op hop hfits => ?_⟩
  obtain ⟨ok, d, hdoes, -⟩ := Op.run_spec hvalid op hop hfits
  exact ⟨ok, d, hdoes⟩

/-- `uint64_t`. -/
def uint64 : ElementType := ⟨8, 8, ⟨3, rfl⟩, by decide, by decide, by decide⟩

/-- Elements of which a page holds one. -/
private def halfPage : ElementType := ⟨2048, 8, ⟨3, rfl⟩, by decide, by decide, by decide⟩

/-- The second element does not fit into the block of the first, which moves to another one. -/
theorem reaches_sound_moves : ∃ (zones : Zones) (c d : Config Zones Nat),
    Zones.memory.Holds zones [] ∧
      (Op.pushBack 9).run Zones.memory halfPage c = some (true, d) ∧
      c.vector = ⟨0x8018, 1, 1⟩ ∧ d.vector = ⟨0xA018, 2, 2⟩ ∧
      c.Sound Zones.memory halfPage [] [7] ∧ d.Sound Zones.memory halfPage [] [7, 9] := by
  obtain ⟨zones, hzones, hheld⟩ := Zones.board_spec 8 4 2
    (by decide) (by decide) (by decide) (by decide) (by decide)
  have hrun : ((Zones.board 8 4 2 (by decide) (by decide)).bind fun zones => do
      let (ok, c) ← (Op.pushBack 7).run Zones.memory halfPage
        ⟨Vector.new, ⟨zones, fun _ => none, fun _ => none⟩⟩
      let (ok', d) ← (Op.pushBack 9).run Zones.memory halfPage c
      return (ok, c.vector, ok', d.vector)) =
        some (true, ⟨0x8018, 1, 1⟩, true, ⟨0xA018, 2, 2⟩) := by
    decide +kernel
  rw [hzones, Option.bind_some] at hrun
  obtain ⟨⟨ok, c⟩, hstep, hrest⟩ := Option.bind_eq_some_iff.mp hrun
  obtain ⟨⟨ok', d⟩, hstep', heq⟩ := Option.bind_eq_some_iff.mp hrest
  simp only [Option.pure_def, Option.some.injEq, Prod.mk.injEq] at heq
  obtain ⟨rfl, hvector, rfl, hvector'⟩ := heq
  have hfits : (Op.pushBack 7).Fits Zones.memory halfPage
      ⟨Vector.new, ⟨zones, fun _ => none, fun _ => none⟩⟩ :=
    .inr (.inl ⟨(by decide : halfPage.bytes 1 < 2 ^ 64), (by decide : 0 ≠ halfPage.offset)⟩)
  have hfits' : (Op.pushBack 9).Fits Zones.memory halfPage c := by
    rw [Op.Fits, Op.target, hvector]
    exact .inr (.inl ⟨(by decide : halfPage.bytes 2 < 2 ^ 64), by decide⟩)
  have hreaches : Reaches Zones.memory halfPage zones _ c [7] :=
    .step .start (show Op.Allowed (.pushBack 7) from trivial) hfits hstep
  have hreaches' : Reaches Zones.memory halfPage zones _ d [7, 9] :=
    .step hreaches (show Op.Allowed (.pushBack 9) from trivial) hfits' hstep'
  exact ⟨zones, c, d, hheld, hstep', hvector, hvector', (reaches_sound hheld hreaches).1,
    (reaches_sound hheld hreaches').1⟩

/-- A vector without a block takes what `AllocatePhysical` hands out. -/
theorem run_resize_new {phys t : σ} {b : Contigous} {n : Nat} (hn : 0 < n)
    (hphys : P.allocate phys (T.allocationSize n) = some (some b, t))
    (hitems : Word64.add b.fromAddress T.offset ≠ 0) (item : α) :
    ∃ d, Op.run P T ⟨Vector.new, ⟨phys, fun _ => none, fun _ => none⟩⟩ (.resize n item) =
      some (true, d) ∧ d.vector.capacity = n := by
  have hgrow : Vector.new.grow P T (⟨phys, fun _ => none, fun _ => none⟩ : Store σ α) n =
      some (true, ⟨Word64.add b.fromAddress T.offset, 0, n⟩, ⟨t,
        Function.update (fun _ => none) b.fromAddress (some b), fun _ => none⟩) := by
    have hmax := Vector.max_capacity (v := Vector.new) hn
    have hlt : ¬ Vector.new.capacity ≥ n := Nat.not_le.mpr hn
    rw [Vector.grow, if_neg hlt]
    simp only [hmax, PhysicalAllocator.grow_none (rfl : Vector.new.items = 0),
      Option.bind_eq_bind, Option.bind_some, Bool.false_eq_true, if_false, Vector.reallocate,
      PhysicalAllocator.allocate, hphys, Option.pure_def, if_neg hitems]
    rfl
  refine ⟨⟨⟨Word64.add b.fromAddress T.offset, n, n⟩, ⟨t,
    Function.update (fun _ => none) b.fromAddress (some b),
    placeLoop (T.itemAt (Word64.add b.fromAddress T.offset)) item 0 n fun _ => none⟩⟩, ?_, rfl⟩
  rw [Op.run, Vector.resize, hgrow]
  simp only [Option.bind_eq_bind, Option.bind_some, Bool.not_true, Bool.false_eq_true, if_false,
    gt_iff_lt, if_pos hn, Option.pure_def]
  rfl

/-- `Resize` to `2 ^ 61 + 1` elements of eight bytes is granted the bytes of one. -/
theorem reaches_sound_fails :
    ¬ ∀ (zones : Zones) (c : Config Zones Nat) (xs : List Nat), Zones.memory.Holds zones [] →
      Reaches Zones.memory uint64 zones (fun _ _ => True) c xs →
      c.Sound Zones.memory uint64 [] xs := by
  intro hclaim
  obtain ⟨zones, hzones, hheld⟩ := Zones.board_spec 8 4 2
    (by decide) (by decide) (by decide) (by decide) (by decide)
  have hgrant : ((Zones.board 8 4 2 (by decide) (by decide)).bind fun zones =>
      (Zones.memory.allocate zones 32).map fun r => r.1.map Contigous.fromAddress) =
        some (some 0x8000) := by
    decide +kernel
  rw [hzones, Option.bind_some] at hgrant
  obtain ⟨⟨m, t⟩, hphys, haddr⟩ := Option.map_eq_some_iff.mp hgrant
  obtain ⟨b, rfl, hb⟩ := Option.map_eq_some_iff.mp haddr
  have hsize : uint64.allocationSize (2 ^ 61 + 1) = 32 := by decide
  rw [← hsize] at hphys
  have hitems : Word64.add b.fromAddress uint64.offset ≠ 0 := by
    rw [hb]
    decide
  obtain ⟨d, hrun, hcapacity⟩ := run_resize_new (by decide) hphys hitems 0
  have hallowed : (Op.resize (2 ^ 61 + 1) 0).Allowed := by
    show 2 ^ 61 + 1 < 2 ^ 64
    decide
  have hsound := hclaim zones d _ hheld (.step .start hallowed trivial hrun)
  obtain ⟨b', hheld', hbacked, -⟩ := hsound.block (by rw [hcapacity]; decide)
  have hend := (Zones.memory.proper hheld' b' List.mem_cons_self).toAddress_lt
  have hroom := hbacked.room
  rw [hcapacity] at hroom
  have hbytes : 2 ^ 64 ≤ (2 ^ 61 + 1) * uint64.size := by decide
  omega

end Aarch64.Cxx.Common
