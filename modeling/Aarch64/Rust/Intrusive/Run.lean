import Aarch64.Rust.Intrusive.List

/-!
# Lists over shared memory

Any number of lists whose links lie in one memory. Whatever items are pushed, popped and
removed, every list holds what a list of items would hold, and an operation on one list
leaves the others alone.
-/

namespace Aarch64.Rust

/-! ## The shape of a list -/

namespace IntrusiveList

variable {l : IntrusiveList} {m m' : LinkMemory} {p : UInt64} {xs : List UInt64}

/-- `l` is a doubly linked list of the links `xs`. -/
structure WellFormed (l : IntrusiveList) (m : LinkMemory) (xs : List UInt64) : Prop where
  nodup : xs.Nodup
  head : l.head = xs.headD 0
  tail : l.tail = xs.getLastD 0
  follow : ∀ n, Links.follow (fun p => (m p).next) 0 (xs.length + n) l.head = xs
  inverse : xs.IsChain fun p q => (m p).next = q ∧ (m q).prev = p
  head_prev : l.head ≠ 0 → (m l.head).prev = 0
  tail_next : l.tail ≠ 0 → (m l.tail).next = 0
  head_eq_zero : l.head = 0 ↔ l.tail = 0

theorem wellFormed_of_isRing (h : (l.links m).IsRing 0 xs) : l.WellFormed m xs := by
  have hzero : 0 ∉ xs := (List.nodup_cons.mp h.nodup).1
  have hfirst := h.adjacent_first
  have hlast := h.adjacent_last
  have hhead : l.head = xs.headD 0 := next_links_zero.symm.trans hfirst.1
  have htail : l.tail = xs.getLastD 0 := prev_links_zero.symm.trans hlast.2
  rw [← hhead] at hfirst
  rw [← htail] at hlast
  refine ⟨(List.nodup_cons.mp h.nodup).2, hhead, htail, fun n => ?_, ?_, fun hne => ?_,
    fun hne => ?_, ?_⟩
  · rw [Links.follow_congr fun p hp => (next_links_of_ne hp).symm]
    exact next_links_zero (m := m) ▸ h.follow n
  · refine h.path_nodes.imp_of_mem_imp fun p q hp hq hpq => ⟨?_, ?_⟩
    · exact (next_links_of_ne (ne_of_mem_of_not_mem hp hzero)).symm.trans hpq.1
    · exact (prev_links_of_ne (ne_of_mem_of_not_mem hq hzero)).symm.trans hpq.2
  · exact (prev_links_of_ne hne).symm.trans hfirst.2
  · exact (next_links_of_ne hne).symm.trans hlast.1
  · constructor
    · intro h
      rw [h] at hfirst
      exact prev_links_zero.symm.trans hfirst.2
    · intro h
      rw [h] at hlast
      exact next_links_zero.symm.trans hlast.1

theorem isRing_new (offset : StructFieldOffset) (m : LinkMemory) :
    ((new offset).links m).IsRing 0 [] :=
  ⟨List.nodup_singleton 0, List.isChain_pair.mpr ⟨next_links_zero, prev_links_zero⟩⟩

theorem isRing_congr (h : (l.links m).IsRing 0 xs) (hm : ∀ p ∈ xs, m' p = m p) :
    (l.links m').IsRing 0 xs := by
  have hzero : 0 ∉ xs := (List.nodup_cons.mp h.nodup).1
  refine h.congr (fun p hp => ?_) (fun p hp => ?_)
  · rcases List.mem_cons.mp hp with rfl | hp
    · rw [next_links_zero, next_links_zero]
    · have hne := ne_of_mem_of_not_mem hp hzero
      rw [next_links_of_ne hne, next_links_of_ne hne, hm p hp]
  · rcases List.mem_cons.mp hp with rfl | hp
    · rw [prev_links_zero, prev_links_zero]
    · have hne := ne_of_mem_of_not_mem hp hzero
      rw [prev_links_of_ne hne, prev_links_of_ne hne, hm p hp]

end IntrusiveList

/-! ## Operations on many lists -/

structure IntrusiveLists (ι : Type) where
  memory : LinkMemory
  lists : ι → IntrusiveList

inductive ListOp (ι : Type) where
  | push (i : ι) (item : UInt64)
  | pop (i : ι)
  | remove (i : ι) (item : UInt64)
  deriving DecidableEq, Repr

variable {ι : Type}

/-- The links inside of the items of list `i`. -/
def linksOf (offset : ι → StructFieldOffset) (c : ι → List UInt64) (i : ι) : List UInt64 :=
  (c i).map (offset i).field

namespace ListOp

def list : ListOp ι → ι
  | push i _ | pop i | remove i _ => i

/-- An item is pushed when it is in no list, and removed from the list that it is in. -/
def Allowed (offset : ι → StructFieldOffset) (c : ι → List UInt64) : ListOp ι → Prop
  | push i item => (offset i).field item ≠ 0 ∧
      ∀ j, (offset i).field item ∉ linksOf offset c j
  | pop _ => True
  | remove i item => item ∈ c i

def result (c : ι → List UInt64) : ListOp ι → Option UInt64
  | push _ _ | remove _ _ => none
  | pop i => (c i).head?

/-- The item that is in no list any more. -/
def detached (c : ι → List UInt64) : ListOp ι → Option UInt64
  | push _ _ => none
  | pop i => (c i).head?
  | remove _ item => some item

def apply [DecidableEq ι] (c : ι → List UInt64) : ListOp ι → ι → List UInt64
  | push i item => Function.update c i (item :: c i)
  | pop i => Function.update c i (c i).tail
  | remove i item => Function.update c i ((c i).erase item)

end ListOp

namespace IntrusiveLists

variable [DecidableEq ι] {offset : ι → StructFieldOffset} {s s' : IntrusiveLists ι}
variable {c : ι → List UInt64} {op : ListOp ι}

def step (s : IntrusiveLists ι) : ListOp ι → Option (Option UInt64 × IntrusiveLists ι)
  | .push i item => do
      let (l, memory) ← (s.lists i).push s.memory item
      return (none, ⟨memory, Function.update s.lists i l⟩)
  | .pop i => do
      let (item, l, memory) ← (s.lists i).pop s.memory
      return (item, ⟨memory, Function.update s.lists i l⟩)
  | .remove i item => do
      let (l, memory) ← (s.lists i).remove s.memory item
      return (none, ⟨memory, Function.update s.lists i l⟩)

/-- What is reached from new lists when lists of items undergo the same operations. -/
inductive Reaches (offset : ι → StructFieldOffset) : IntrusiveLists ι → (ι → List UInt64) → Prop
  | new (memory : LinkMemory) : Reaches offset ⟨memory, fun i => .new (offset i)⟩ fun _ => []
  | step {s s' : IntrusiveLists ι} {c : ι → List UInt64} {op : ListOp ι} {r : Option UInt64}
      (h : Reaches offset s c) (hop : op.Allowed offset c) (hstep : s.step op = some (r, s')) :
      Reaches offset s' (op.apply c)

/-- Every list holds its items, and no link is in two lists. -/
structure Inv (offset : ι → StructFieldOffset) (s : IntrusiveLists ι) (c : ι → List UInt64) :
    Prop where
  offset_eq : ∀ i, (s.lists i).offset = offset i
  ring : ∀ i, ((s.lists i).links s.memory).IsRing 0 (linksOf offset c i)
  disjoint : ∀ i j, i ≠ j → (linksOf offset c i).Disjoint (linksOf offset c j)

omit [DecidableEq ι] in
theorem Inv.new (offset : ι → StructFieldOffset) (memory : LinkMemory) :
    Inv offset ⟨memory, fun i => .new (offset i)⟩ fun _ => [] :=
  ⟨fun _ => rfl, fun i => IntrusiveList.isRing_new (offset i) memory,
    fun _ _ _ => List.disjoint_nil_left _⟩

/-- Another list in place of list `i`. -/
theorem Inv.update (h : Inv offset s c) {i : ι} {l : IntrusiveList} {m : LinkMemory}
    {items : List UInt64} (hoffset : l.offset = offset i)
    (hring : (l.links m).IsRing 0 (items.map (offset i).field))
    (hframe : ∀ j ≠ i, ∀ p ∈ linksOf offset c j, m p = s.memory p)
    (hnew : ∀ j ≠ i, (items.map (offset i).field).Disjoint (linksOf offset c j)) :
    Inv offset ⟨m, Function.update s.lists i l⟩ (Function.update c i items) := by
  have hself : linksOf offset (Function.update c i items) i = items.map (offset i).field := by
    rw [linksOf, Function.update_self]
  have hother : ∀ j ≠ i, linksOf offset (Function.update c i items) j = linksOf offset c j := by
    intro j hj
    rw [linksOf, Function.update_of_ne hj, linksOf]
  constructor
  · intro j
    change (Function.update s.lists i l j).offset = offset j
    by_cases hj : j = i
    · subst hj
      rwa [Function.update_self]
    · rw [Function.update_of_ne hj]
      exact h.offset_eq j
  · intro j
    change ((Function.update s.lists i l j).links m).IsRing 0 _
    by_cases hj : j = i
    · subst hj
      rwa [hself, Function.update_self]
    · rw [hother j hj, Function.update_of_ne hj]
      exact IntrusiveList.isRing_congr (h.ring j) (hframe j hj)
  · intro j k hjk
    by_cases hj : j = i
    · subst hj
      rw [hself, hother k (Ne.symm hjk)]
      exact hnew k (Ne.symm hjk)
    · by_cases hk : k = i
      · subst hk
        rw [hself, hother j hj]
        exact fun p hp hpj => hnew j hj hpj hp
      · rw [hother j hj, hother k hk]
        exact h.disjoint j k hjk

/-- What an operation on list `i` leaves alone. -/
structure Frame (offset : ι → StructFieldOffset) (c : ι → List UInt64) (i : ι)
    (s s' : IntrusiveLists ι) : Prop where
  lists : ∀ j ≠ i, s'.lists j = s.lists j
  memory : ∀ j ≠ i, ∀ p ∈ linksOf offset c j, s'.memory p = s.memory p

theorem step_push (h : Inv offset s c) {i : ι} {item : UInt64}
    (hop : (ListOp.push i item).Allowed offset c) :
    ∃ s', s.step (.push i item) = some (none, s') ∧
      Inv offset s' ((ListOp.push i item).apply c) ∧ Frame offset c i s s' := by
  obtain ⟨hne, hfresh⟩ := hop
  have hptr : (offset i).field item ∉ 0 :: linksOf offset c i :=
    List.mem_cons.not.mpr (not_or.mpr ⟨hne, hfresh i⟩)
  obtain ⟨l', m', hcall, hoffset, hring, hmem⟩ := IntrusiveList.pushLink_spec (h.ring i) hptr
  have hframe : ∀ j ≠ i, ∀ p ∈ linksOf offset c j, m' p = s.memory p := by
    intro j hj p hp
    refine hmem p (List.mem_cons.not.mpr (not_or.mpr ⟨?_, ?_⟩))
    · rintro rfl
      exact hfresh j hp
    · exact fun hi => h.disjoint j i hj hp hi
  refine ⟨⟨m', Function.update s.lists i l'⟩, ?_, ?_, fun j hj => Function.update_of_ne hj _ _, hframe⟩
  · rw [step, IntrusiveList.push, h.offset_eq, hcall]
    rfl
  · refine h.update (hoffset.trans (h.offset_eq i)) hring hframe fun j hj => ?_
    exact List.disjoint_cons_left.mpr ⟨hfresh j, h.disjoint i j (Ne.symm hj)⟩

theorem step_pop (h : Inv offset s c) (i : ι) :
    ∃ s', s.step (.pop i) = some ((c i).head?, s') ∧ Inv offset s' ((ListOp.pop i).apply c) ∧
      Frame offset c i s s' ∧ ∀ item ∈ (c i).head?, s'.memory ((offset i).field item) = ⟨0, 0⟩ := by
  have hring := h.ring i
  cases hc : c i with
  | nil =>
      rw [linksOf, hc] at hring
      have hhead : (s.lists i).head = 0 :=
        IntrusiveList.next_links_zero.symm.trans hring.adjacent_first.1
      refine ⟨s, ?_, ?_, ⟨fun _ _ => rfl, fun _ _ _ _ => rfl⟩, fun item hitem => by cases hitem⟩
      · rw [step, IntrusiveList.pop, IntrusiveList.popLink, if_pos hhead]
        simp
      · rw [ListOp.apply, hc, List.tail_nil, ← hc, Function.update_eq_self]
        exact h
  | cons item items =>
      rw [linksOf, hc, List.map_cons] at hring
      obtain ⟨l', m', hcall, hoffset, hring', hnull, hmem⟩ := IntrusiveList.popLink_spec hring
      have hframe : ∀ j ≠ i, ∀ p ∈ linksOf offset c j, m' p = s.memory p := by
        intro j hj p hp
        refine hmem p fun hi => h.disjoint j i hj hp ?_
        rwa [linksOf, hc, List.map_cons]
      refine ⟨⟨m', Function.update s.lists i l'⟩, ?_, ?_,
        ⟨fun j hj => Function.update_of_ne hj _ _, hframe⟩, ?_⟩
      · rw [step, IntrusiveList.pop, hcall]
        simp only [Option.bind_eq_bind, Option.bind_some, Option.map_some, hoffset, h.offset_eq,
          StructFieldOffset.containerOf_field]
        rfl
      · rw [ListOp.apply, hc]
        refine h.update (hoffset.trans (h.offset_eq i)) hring' hframe fun j hj p hp hpj => ?_
        refine h.disjoint i j (Ne.symm hj) ?_ hpj
        rw [linksOf, hc, List.map_cons]
        exact List.mem_cons_of_mem _ hp
      · intro item' hitem
        cases hitem
        exact hnull

theorem step_remove (h : Inv offset s c) {i : ι} {item : UInt64} (hop : item ∈ c i) :
    ∃ s', s.step (.remove i item) = some (none, s') ∧
      Inv offset s' ((ListOp.remove i item).apply c) ∧ Frame offset c i s s' ∧
      s'.memory ((offset i).field item) = ⟨0, 0⟩ := by
  obtain ⟨as, bs, -, hc, herase⟩ := List.exists_erase_eq hop
  have hlinks : linksOf offset c i = as.map (offset i).field ++
      (offset i).field item :: bs.map (offset i).field := by
    rw [linksOf, hc, List.map_append, List.map_cons]
  have hring := h.ring i
  rw [hlinks] at hring
  obtain ⟨l', m', hcall, hoffset, hring', hnull, hmem⟩ := IntrusiveList.removeLink_spec hring
  have hframe : ∀ j ≠ i, ∀ p ∈ linksOf offset c j, m' p = s.memory p := by
    intro j hj p hp
    exact hmem p fun hi => h.disjoint j i hj hp (hlinks ▸ hi)
  refine ⟨⟨m', Function.update s.lists i l'⟩, ?_, ?_,
    ⟨fun j hj => Function.update_of_ne hj _ _, hframe⟩, hnull⟩
  · rw [step, IntrusiveList.remove, h.offset_eq, hcall]
    rfl
  · rw [ListOp.apply, herase]
    rw [← List.map_append] at hring'
    refine h.update (hoffset.trans (h.offset_eq i)) hring' hframe fun j hj p hp hpj => ?_
    refine h.disjoint i j (Ne.symm hj) ?_ hpj
    rw [List.map_append] at hp
    rw [hlinks]
    rcases List.mem_append.mp hp with hp | hp
    · exact List.mem_append_left _ hp
    · exact List.mem_append_right _ (List.mem_cons_of_mem _ hp)

/-- Every operation that is allowed succeeds, with the result that it has on lists of items. -/
theorem step_spec (h : Inv offset s c) (hop : op.Allowed offset c) :
    ∃ s', s.step op = some (op.result c, s') ∧ Inv offset s' (op.apply c) ∧
      Frame offset c op.list s s' ∧
      ∀ item ∈ op.detached c, s'.memory ((offset op.list).field item) = ⟨0, 0⟩ := by
  cases op with
  | push i item =>
      obtain ⟨s', hstep, hinv, hframe⟩ := step_push h hop
      exact ⟨s', hstep, hinv, hframe, fun _ hitem => by cases hitem⟩
  | pop i => exact step_pop h i
  | remove i item =>
      obtain ⟨s', hstep, hinv, hframe, hnull⟩ := step_remove h hop
      refine ⟨s', hstep, hinv, hframe, fun item' hitem => ?_⟩
      cases hitem
      exact hnull

theorem inv_of_reaches (h : Reaches offset s c) : Inv offset s c := by
  induction h with
  | new memory => exact Inv.new offset memory
  | step h hop hstep ih =>
      obtain ⟨s', hstep', hinv, -⟩ := step_spec ih hop
      cases hstep.symm.trans hstep'
      exact hinv

/-- In every state that is reached, each list is a doubly linked list of its items. An operation
that is allowed succeeds and does what it does to lists of items, so runs of lists in memory are
runs of lists of items. What an operation takes out of a list has null links, and the other lists
stay as they are, to the last link. -/
theorem reaches_refines (h : Reaches offset s c) :
    (∀ i, (s.lists i).WellFormed s.memory (linksOf offset c i)) ∧
      ∀ op : ListOp ι, op.Allowed offset c → ∃ s', s.step op = some (op.result c, s') ∧
        Reaches offset s' (op.apply c) ∧
        (∀ item ∈ op.detached c, s'.memory ((offset op.list).field item) = ⟨0, 0⟩) ∧
        ∀ j ≠ op.list, s'.lists j = s.lists j ∧
          ∀ p ∈ linksOf offset c j, s'.memory p = s.memory p := by
  have hinv := inv_of_reaches h
  refine ⟨fun i => IntrusiveList.wellFormed_of_isRing (hinv.ring i), fun op hop => ?_⟩
  obtain ⟨s', hstep, -, hframe, hnull⟩ := step_spec hinv hop
  exact ⟨s', hstep, h.step hop hstep, hnull, fun j hj => ⟨hframe.lists j hj, hframe.memory j hj⟩⟩

/-- Two lists over one memory, whose items have their links 8 and 24 bytes in. The first gets
three items, the second one, and then the middle one of the three is removed. -/
theorem reaches_refines_middle : ∃ s s' : IntrusiveLists Bool,
    s.step (.remove false 0x200) = some (none, s') ∧
      (s.lists false).WellFormed s.memory [0x308, 0x208, 0x108] ∧
      (s'.lists false).WellFormed s'.memory [0x308, 0x108] ∧
      s'.memory 0x208 = ⟨0, 0⟩ ∧ s'.lists true = s.lists true ∧
      (s'.lists true).WellFormed s'.memory [0x418] := by
  let offset : Bool → StructFieldOffset := fun i => if i then ⟨24⟩ else ⟨8⟩
  have h₀ : Reaches offset ⟨fun _ => ⟨0, 0⟩, fun i => .new (offset i)⟩ fun _ => [] := .new _
  obtain ⟨s₁, -, h₁, -⟩ := (reaches_refines h₀).2 (.push false 0x100) ⟨by decide, by decide⟩
  obtain ⟨s₂, -, h₂, -⟩ := (reaches_refines h₁).2 (.push false 0x200) ⟨by decide, by decide⟩
  obtain ⟨s₃, -, h₃, -⟩ := (reaches_refines h₂).2 (.push true 0x400) ⟨by decide, by decide⟩
  obtain ⟨s₄, -, h₄, -⟩ := (reaches_refines h₃).2 (.push false 0x300) ⟨by decide, by decide⟩
  obtain ⟨hwf, hops⟩ := reaches_refines h₄
  have hmem : (0x200 : UInt64) ∈ [(0x300 : UInt64), 0x200, 0x100] := by decide
  obtain ⟨s', hstep, h₅, hnull, hframe⟩ := hops (.remove false 0x200) hmem
  have hwf' := (reaches_refines h₅).1
  exact ⟨s₄, s', hstep, hwf false, hwf' false, hnull 0x200 rfl, (hframe true (by decide)).1,
    hwf' true⟩

end IntrusiveLists

end Aarch64.Rust
