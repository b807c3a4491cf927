import Aarch64.Lib.Links

/-!
# Intrusive lists of the Rust kernel

`kernel/intrusive`. Pointers are addresses and 0 is the null pointer: to read or to write
through it is `none`. A list finds its items through links that lie inside of the items,
at an offset that is the same for all of them.
-/

namespace Aarch64.Rust

structure StructFieldOffset where
  offset : UInt64
  deriving DecidableEq, Repr

namespace StructFieldOffset

def new (s f : UInt64) : StructFieldOffset := ⟨f - s⟩

def field (o : StructFieldOffset) (s : UInt64) : UInt64 := s + o.offset

def containerOf (o : StructFieldOffset) (f : UInt64) : UInt64 := f - o.offset

@[simp] theorem containerOf_field (o : StructFieldOffset) (s : UInt64) :
    o.containerOf (o.field s) = s := UInt64.add_sub_cancel s o.offset

end StructFieldOffset

structure IntrusiveListNode where
  next : UInt64
  prev : UInt64
  deriving DecidableEq, Repr

/-- The `IntrusiveListLink` at each address. -/
abbrev LinkMemory := UInt64 → IntrusiveListNode

namespace LinkMemory

def get (m : LinkMemory) (p : UInt64) : Option IntrusiveListNode :=
  if p = 0 then none else some (m p)

def set (m : LinkMemory) (p : UInt64) (node : IntrusiveListNode) : Option LinkMemory :=
  if p = 0 then none else some (Function.update m p node)

def setNext (m : LinkMemory) (p next : UInt64) : Option LinkMemory := do
  let link ← m.get p
  m.set p { link with next }

def setPrev (m : LinkMemory) (p prev : UInt64) : Option LinkMemory := do
  let link ← m.get p
  m.set p { link with prev }

variable {m : LinkMemory} {p q : UInt64}

theorem get_of_ne (hp : p ≠ 0) : m.get p = some (m p) := if_neg hp

theorem set_of_ne (hp : p ≠ 0) (node : IntrusiveListNode) :
    m.set p node = some (Function.update m p node) := if_neg hp

theorem setNext_of_ne (hp : p ≠ 0) (next : UInt64) :
    m.setNext p next = some (Function.update m p { m p with next }) := by
  rw [setNext, get_of_ne hp]
  exact set_of_ne hp _

theorem setPrev_of_ne (hp : p ≠ 0) (prev : UInt64) :
    m.setPrev p prev = some (Function.update m p { m p with prev }) := by
  rw [setPrev, get_of_ne hp]
  exact set_of_ne hp _

end LinkMemory

structure IntrusiveList where
  head : UInt64
  tail : UInt64
  offset : StructFieldOffset
  deriving DecidableEq, Repr

namespace IntrusiveList

def new (offset : StructFieldOffset) : IntrusiveList := ⟨0, 0, offset⟩

def isEmpty (l : IntrusiveList) : Bool := l.head = 0

def pushLink (l : IntrusiveList) (m : LinkMemory) (ptr : UInt64) :
    Option (IntrusiveList × LinkMemory) := do
  let m ← m.set ptr ⟨l.head, 0⟩
  if l.head = 0 then
    return ({ l with head := ptr, tail := ptr }, m)
  else
    let m ← m.setPrev l.head ptr
    return ({ l with head := ptr }, m)

def popLink (l : IntrusiveList) (m : LinkMemory) :
    Option (Option UInt64 × IntrusiveList × LinkMemory) := do
  if l.head = 0 then return (none, l, m)
  else
    let ptr := l.head
    let node ← m.get ptr
    if l.head = l.tail then
      let m ← m.set ptr ⟨0, 0⟩
      return (some ptr, { l with head := 0, tail := 0 }, m)
    else
      let m ← m.setPrev node.next 0
      let m ← m.set ptr ⟨0, 0⟩
      return (some ptr, { l with head := node.next }, m)

def removeLink (l : IntrusiveList) (m : LinkMemory) (ptr : UInt64) :
    Option (IntrusiveList × LinkMemory) := do
  let node ← m.get ptr
  let m ← m.set ptr ⟨0, 0⟩
  let m ← if node.prev ≠ 0 then m.setNext node.prev node.next else pure m
  let m ← if node.next ≠ 0 then m.setPrev node.next node.prev else pure m
  let head := if l.head = ptr then node.next else l.head
  let tail := if l.tail = ptr then node.prev else l.tail
  return ({ l with head, tail }, m)

def push (l : IntrusiveList) (m : LinkMemory) (item : UInt64) :
    Option (IntrusiveList × LinkMemory) := l.pushLink m (l.offset.field item)

def pop (l : IntrusiveList) (m : LinkMemory) :
    Option (Option UInt64 × IntrusiveList × LinkMemory) := do
  let (link, l, m) ← l.popLink m
  return (link.map l.offset.containerOf, l, m)

def remove (l : IntrusiveList) (m : LinkMemory) (item : UInt64) :
    Option (IntrusiveList × LinkMemory) := l.removeLink m (l.offset.field item)

/-! ## A list as a ring -/

/-- The null pointer leads forward to the head and back to the tail. -/
def links (l : IntrusiveList) (m : LinkMemory) : Links UInt64 :=
  ⟨Function.update (fun p => (m p).next) 0 l.head, Function.update (fun p => (m p).prev) 0 l.tail⟩

variable {l l' : IntrusiveList} {m m' : LinkMemory} {ptr p : UInt64} {xs ys : List UInt64}

@[simp] theorem next_links_zero : (l.links m).next 0 = l.head := by
  simp only [links, Function.update_self]

@[simp] theorem prev_links_zero : (l.links m).prev 0 = l.tail := by
  simp only [links, Function.update_self]

theorem next_links_of_ne (hp : p ≠ 0) : (l.links m).next p = (m p).next := by
  simp only [links, Function.update_of_ne hp]

theorem prev_links_of_ne (hp : p ≠ 0) : (l.links m).prev p = (m p).prev := by
  simp only [links, Function.update_of_ne hp]

theorem links_head (l : IntrusiveList) (m : LinkMemory) (a : UInt64) :
    ({ l with head := a } : IntrusiveList).links m =
      ⟨Function.update (l.links m).next 0 a, (l.links m).prev⟩ := by
  simp only [links, Function.update_idem]

theorem links_tail (l : IntrusiveList) (m : LinkMemory) (a : UInt64) :
    ({ l with tail := a } : IntrusiveList).links m =
      ⟨(l.links m).next, Function.update (l.links m).prev 0 a⟩ := by
  simp only [links, Function.update_idem]

theorem links_update (hp : p ≠ 0) (node : IntrusiveListNode) :
    l.links (Function.update m p node) = ⟨Function.update (l.links m).next p node.next,
      Function.update (l.links m).prev p node.prev⟩ := by
  have hnext : (fun q => (Function.update m p node q).next) =
      Function.update (fun q => (m q).next) p node.next :=
    Function.comp_update IntrusiveListNode.next m p node
  have hprev : (fun q => (Function.update m p node q).prev) =
      Function.update (fun q => (m q).prev) p node.prev :=
    Function.comp_update IntrusiveListNode.prev m p node
  simp only [links]
  rw [hnext, hprev, Function.update_comm hp, Function.update_comm hp]

/-- A link that is not in the list is not read. -/
theorem isRing_update (h : (l.links m).IsRing 0 xs) (hptr : ptr ∉ 0 :: xs)
    (node : IntrusiveListNode) : (l.links (Function.update m ptr node)).IsRing 0 xs := by
  rw [links_update (List.ne_of_not_mem_cons hptr)]
  exact h.congr (fun p hp => Function.update_of_ne (ne_of_mem_of_not_mem hp hptr) _ _)
    (fun p hp => Function.update_of_ne (ne_of_mem_of_not_mem hp hptr) _ _)

/-! ## Joining two links -/

/-- The list when `b` is right behind `a`. Null is in front of the head and behind the tail. -/
def joined (l : IntrusiveList) (a b : UInt64) : IntrusiveList :=
  { l with head := if a = 0 then b else l.head, tail := if b = 0 then a else l.tail }

def joinNext (m : LinkMemory) (a b : UInt64) : LinkMemory :=
  if a = 0 then m else Function.update m a { m a with next := b }

def joinPrev (m : LinkMemory) (a b : UInt64) : LinkMemory :=
  if b = 0 then m else Function.update m b { m b with prev := a }

theorem links_joinNext (l : IntrusiveList) (m : LinkMemory) (a b : UInt64) :
    ({ l with head := if a = 0 then b else l.head } : IntrusiveList).links (joinNext m a b) =
      ⟨Function.update (l.links m).next a b, (l.links m).prev⟩ := by
  by_cases ha : a = 0
  · rw [joinNext, if_pos ha, if_pos ha, links_head, ha]
  · have hprev : (m a).prev = (l.links m).prev a := (prev_links_of_ne ha).symm
    rw [joinNext, if_neg ha, if_neg ha, links_update ha]
    simp only [hprev, Function.update_eq_self]

theorem links_joinPrev (l : IntrusiveList) (m : LinkMemory) (a b : UInt64) :
    ({ l with tail := if b = 0 then a else l.tail } : IntrusiveList).links (joinPrev m a b) =
      ⟨(l.links m).next, Function.update (l.links m).prev b a⟩ := by
  by_cases hb : b = 0
  · rw [joinPrev, if_pos hb, if_pos hb, links_tail, hb]
  · have hnext : (m b).next = (l.links m).next b := (next_links_of_ne hb).symm
    rw [joinPrev, if_neg hb, if_neg hb, links_update hb]
    simp only [hnext, Function.update_eq_self]

theorem links_joined (l : IntrusiveList) (m : LinkMemory) (a b : UInt64) :
    (l.joined a b).links (joinPrev (joinNext m a b) a b) = (l.links m).join a b := by
  have hprev := links_joinPrev { l with head := if a = 0 then b else l.head } (joinNext m a b) a b
  rw [links_joinNext] at hprev
  exact hprev

theorem joinNext_update {a : UInt64} (hp : p ≠ a) (b : UInt64) (node : IntrusiveListNode) :
    joinNext (Function.update m p node) a b = Function.update (joinNext m a b) p node := by
  rw [joinNext, joinNext]
  split
  · rfl
  · rw [Function.update_of_ne hp.symm, Function.update_comm hp]

theorem joinPrev_update {b : UInt64} (hp : p ≠ b) (a : UInt64) (node : IntrusiveListNode) :
    joinPrev (Function.update m p node) a b = Function.update (joinPrev m a b) p node := by
  rw [joinPrev, joinPrev]
  split
  · rfl
  · rw [Function.update_of_ne hp.symm, Function.update_comm hp]

/-- Null is not written to. -/
theorem joinNext_of_notMem {a b : UInt64} {zs : List UInt64} (ha : a ∈ 0 :: zs) (hp : p ∉ zs) :
    joinNext m a b p = m p := by
  rw [joinNext]
  split
  · rfl
  next hzero =>
    refine Function.update_of_ne ?_ _ _
    rintro rfl
    exact hp ((List.mem_cons.mp ha).resolve_left hzero)

theorem joinPrev_of_notMem {a b : UInt64} {zs : List UInt64} (hb : b ∈ 0 :: zs) (hp : p ∉ zs) :
    joinPrev m a b p = m p := by
  rw [joinPrev]
  split
  · rfl
  next hzero =>
    refine Function.update_of_ne ?_ _ _
    rintro rfl
    exact hp ((List.mem_cons.mp hb).resolve_left hzero)

/-! ## What the operations do to the ring -/

/-- A fresh link comes in front of the others. -/
theorem pushLink_spec (h : (l.links m).IsRing 0 xs) (hptr : ptr ∉ 0 :: xs) :
    ∃ l' m', l.pushLink m ptr = some (l', m') ∧ l'.offset = l.offset ∧
      (l'.links m').IsRing 0 (ptr :: xs) ∧ ∀ p ∉ ptr :: xs, m' p = m p := by
  obtain ⟨hne, hxs⟩ := not_or.mp (List.mem_cons.not.mp hptr)
  have hlink := h.nil_append.link hptr
  have hfirst : xs.headD 0 = l.head := h.adjacent_first.1.symm.trans next_links_zero
  have hmem := Links.headD_mem_cons 0 xs
  rw [List.getLastD_nil, hfirst] at hlink
  rw [hfirst] at hmem
  -- in memory only the link and the old head are written
  have hmemory : joinNext (joinPrev (joinNext m 0 ptr) 0 ptr) ptr l.head =
      Function.update m ptr ⟨l.head, 0⟩ := by
    rw [joinNext, joinPrev, joinNext, if_pos rfl, if_neg hne, if_neg hne, Function.update_self,
      Function.update_idem]
  have hjoined : ((l.joined 0 ptr).joined ptr l.head).links
      (joinPrev (Function.update m ptr ⟨l.head, 0⟩) ptr l.head) =
        ((l.links m).join 0 ptr).join ptr l.head := by
    rw [← hmemory, links_joined, links_joined]
  refine ⟨(l.joined 0 ptr).joined ptr l.head,
    joinPrev (Function.update m ptr ⟨l.head, 0⟩) ptr l.head, ?_, rfl, ?_, fun p hp => ?_⟩
  · rw [pushLink, LinkMemory.set_of_ne hne, joined, joined, joinPrev]
    simp only [Option.bind_eq_bind, Option.bind_some, if_neg hne]
    by_cases hhead : l.head = 0
    · rw [if_pos hhead, if_pos hhead, if_pos hhead]
      rfl
    · rw [if_neg hhead, if_neg hhead, if_neg hhead, LinkMemory.setPrev_of_ne hhead]
      rfl
  · rw [hjoined]
    exact hlink
  · obtain ⟨hp, hpxs⟩ := not_or.mp (List.mem_cons.not.mp hp)
    rw [joinPrev_of_notMem hmem hpxs, Function.update_of_ne hp]

/-- The first link leaves the list. -/
theorem popLink_spec (h : (l.links m).IsRing 0 (ptr :: xs)) :
    ∃ l' m', l.popLink m = some (some ptr, l', m') ∧ l'.offset = l.offset ∧
      (l'.links m').IsRing 0 xs ∧ m' ptr = ⟨0, 0⟩ ∧ ∀ p ∉ ptr :: xs, m' p = m p := by
  have hsplit : (l.links m).IsRing 0 ([] ++ ([ptr] ++ xs)) := h
  have hremove := hsplit.remove
  have hhead : l.head = ptr := next_links_zero.symm.trans h.adjacent_first.1
  have hring : (l.links m).IsRing 0 ([ptr] ++ xs) := h
  have hadj := hring.path_append.2.1
  have hmem := Links.headD_mem_cons 0 xs
  obtain ⟨hzero, hnodup⟩ := List.nodup_cons.mp h.nodup
  obtain ⟨hne, hxs⟩ := not_or.mp (List.mem_cons.not.mp hzero)
  have hptr : ptr ∉ 0 :: xs :=
    List.not_mem_cons_of_ne_of_not_mem (Ne.symm hne) (List.nodup_cons.mp hnodup).1
  rw [List.getLastD_nil] at hremove
  rw [List.getLastD_cons, List.getLastD_nil] at hadj
  generalize xs.headD 0 = next at hremove hadj hmem
  have hne : ptr ≠ 0 := Ne.symm hne
  have hnext : (m ptr).next = next := (next_links_of_ne hne).symm.trans hadj.1
  -- the list is empty behind the first link iff that is the last
  have htail : ptr = l.tail ↔ next = 0 := by
    have hlast := h.next_prev
    rw [prev_links_zero] at hlast
    constructor
    · rintro rfl
      exact hadj.1.symm.trans hlast
    · rintro rfl
      exact hadj.2.symm.trans prev_links_zero
  rw [← links_joined] at hremove
  refine ⟨l.joined 0 next, Function.update (joinPrev (joinNext m 0 next) 0 next) ptr ⟨0, 0⟩, ?_,
    rfl, isRing_update hremove hptr _, Function.update_self _ _ _, fun p hp => ?_⟩
  · rw [joined, joinNext, if_pos rfl, joinPrev, if_pos rfl]
    by_cases hzero : next = 0
    · simp only [popLink, hhead, if_neg hne, LinkMemory.get_of_ne hne, LinkMemory.set_of_ne hne,
        if_pos (htail.mpr hzero), if_pos hzero]
      rw [hzero]
      rfl
    · simp only [popLink, hhead, if_neg hne, LinkMemory.get_of_ne hne, LinkMemory.set_of_ne hne,
        if_neg (htail.not.mpr hzero), if_neg hzero, Option.bind_eq_bind, Option.bind_some, hnext,
        LinkMemory.setPrev_of_ne hzero]
      rfl
  · obtain ⟨hp, hpxs⟩ := not_or.mp (List.mem_cons.not.mp hp)
    rw [Function.update_of_ne hp, joinPrev_of_notMem hmem hpxs, joinNext, if_pos rfl]

/-- A link leaves the list, wherever it is. -/
theorem removeLink_spec (h : (l.links m).IsRing 0 (xs ++ ptr :: ys)) :
    ∃ l' m', l.removeLink m ptr = some (l', m') ∧ l'.offset = l.offset ∧
      (l'.links m').IsRing 0 (xs ++ ys) ∧ m' ptr = ⟨0, 0⟩ ∧
      ∀ p ∉ xs ++ ptr :: ys, m' p = m p := by
  have hsplit : (l.links m).IsRing 0 (xs ++ [ptr] ++ ys) := by rwa [List.append_assoc]
  have hmiddle : (l.links m).IsRing 0 (xs ++ ([ptr] ++ ys)) := h
  have hremove := hmiddle.remove
  have hbefore := h.path_append.2.1
  have hafter := hsplit.path_append.2.1
  have hfirst := h.prev_next
  have hlast := h.next_prev
  have hprev_mem : xs.getLastD 0 ∈ 0 :: xs := List.getLastD_mem_cons
  have hnext_mem := Links.headD_mem_cons 0 ys
  have hnodup : (ptr :: (0 :: xs ++ ys)).Nodup := List.nodup_middle.mp h.nodup
  have hptr : ptr ∉ 0 :: (xs ++ ys) := (List.nodup_cons.mp hnodup).1
  rw [List.headD_cons] at hbefore
  rw [List.getLastD_concat] at hafter
  rw [next_links_zero] at hfirst
  rw [prev_links_zero] at hlast
  generalize xs.getLastD 0 = prev at hremove hbefore hprev_mem
  generalize ys.headD 0 = next at hremove hafter hnext_mem
  have hne : ptr ≠ 0 := List.ne_of_not_mem_cons hptr
  have hprev_ne : ptr ≠ prev := by
    rintro rfl
    exact hptr (List.mem_append_left ys hprev_mem)
  have hnext_ne : ptr ≠ next := by
    rintro rfl
    exact hptr (List.cons_subset_cons 0 (List.subset_append_right xs ys) hnext_mem)
  have hprev : (m ptr).prev = prev := (prev_links_of_ne hne).symm.trans hbefore.2
  have hnext : (m ptr).next = next := (next_links_of_ne hne).symm.trans hafter.1
  have hhead : l.head = ptr ↔ prev = 0 := by
    constructor
    · rintro rfl
      exact hbefore.2.symm.trans hfirst
    · rintro rfl
      exact next_links_zero.symm.trans hbefore.1
  have htail : l.tail = ptr ↔ next = 0 := by
    constructor
    · rintro rfl
      exact hafter.1.symm.trans hlast
    · rintro rfl
      exact prev_links_zero.symm.trans hafter.2
  rw [← links_joined] at hremove
  refine ⟨l.joined prev next, joinPrev (joinNext (Function.update m ptr ⟨0, 0⟩) prev next) prev next,
    ?_, rfl, ?_, ?_, fun p hp => ?_⟩
  · rw [removeLink, LinkMemory.get_of_ne hne, LinkMemory.set_of_ne hne]
    simp only [Option.bind_eq_bind, Option.bind_some, hnext, hprev, hhead, htail]
    by_cases hp : prev = 0
    · by_cases hn : next = 0
      · simp [joined, joinNext, joinPrev, hp, hn]
      · simp [joined, joinNext, joinPrev, hp, hn, LinkMemory.setPrev_of_ne hn]
    · by_cases hn : next = 0
      · simp [joined, joinNext, joinPrev, hp, hn, LinkMemory.setNext_of_ne hp]
      · simp [joined, joinNext, joinPrev, hp, hn, LinkMemory.setNext_of_ne hp,
          LinkMemory.setPrev_of_ne hn]
  · rw [joinNext_update hprev_ne, joinPrev_update hnext_ne]
    exact isRing_update hremove hptr _
  · rw [joinNext_update hprev_ne, joinPrev_update hnext_ne, Function.update_self]
  · obtain ⟨hpxs, hp⟩ := not_or.mp (List.mem_append.not.mp hp)
    obtain ⟨hp, hpys⟩ := not_or.mp (List.mem_cons.not.mp hp)
    rw [joinPrev_of_notMem hnext_mem hpys, joinNext_of_notMem hprev_mem hpxs,
      Function.update_of_ne hp]

end IntrusiveList

end Aarch64.Rust
