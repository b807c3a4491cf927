import Aarch64.Cxx.Bootstrap.Walk

/-!
# NOPs

The loops at the root and over skipped nodes consume NOPs. The loop over a memory node
has no case for them and gives up, so NOPs change nothing exactly if none of them stands
in a memory node before its `reg` property.
-/

namespace Aarch64.Cxx.Bootstrap

open Aarch64.Fdt (Tok Lexes EndsAt Header)
open Aarch64.Cxx.Fdt (Blob)

/-- The second list is the first with any number of NOPs at any places. -/
inductive InsertNops : List Tok → List Tok → Prop
  | nil : InsertNops [] []
  | nop {toks toks' : List Tok} (h : InsertNops toks toks') : InsertNops toks (.nop :: toks')
  | cons {toks toks' : List Tok} (tok : Tok) (h : InsertNops toks toks') :
      InsertNops (tok :: toks) (tok :: toks')

/-- No NOP stands before the `reg` property or the end of the node. -/
def Clear : List Tok → Prop
  | .nop :: _ => False
  | .prop name _ :: toks => name = Bytes.ofString "reg" ∨ Clear toks
  | _ => True

/-- No NOP stands in the way in a memory node. The depth counts the nodes below the root
that the tokens are in. -/
def Transparent : (depth : Nat) → List Tok → Prop
  | _, [] => True
  | 0, .beginNode name :: toks => (StartsMemory name → Clear toks) ∧ Transparent 1 toks
  | 0, .endNode :: toks => Transparent 0 toks
  | depth + 1, .beginNode _ :: toks => Transparent (depth + 2) toks
  | depth + 1, .endNode :: toks => Transparent depth toks
  | depth, .prop _ _ :: toks => Transparent depth toks
  | depth, .nop :: toks => Transparent depth toks

variable {toks toks' : List Tok} {depth address size : Nat} {mmap mmap' : MemoryMap}

/-! ## Nodes and walks -/

theorem clear_of_memoryNode (h : memoryNode address size toks mmap = .ok mmap') : Clear toks := by
  induction toks with
  | nil => trivial
  | cons tok toks ih =>
      cases tok with
      | beginNode name => trivial
      | endNode => trivial
      | prop name value =>
          rw [memoryNode] at h
          split at h
          next hreg => exact Or.inl hreg
          next => exact Or.inr (ih h)
      | nop => cases h

theorem memoryNode_insertNops (h : InsertNops toks toks') (hclear : Clear toks')
    (mmap : MemoryMap) :
    memoryNode address size toks' mmap = memoryNode address size toks mmap := by
  induction h with
  | nil => rfl
  | nop h ih => exact hclear.elim
  | cons tok h ih =>
      cases tok with
      | beginNode name => rfl
      | endNode => rfl
      | prop name value =>
          rw [memoryNode, memoryNode]
          split
          next => rfl
          next hreg => exact ih (hclear.resolve_left hreg)
      | nop => exact hclear.elim

theorem transparent_of_walk (h : walk depth address size toks mmap = .ok mmap') :
    Transparent depth toks := by
  induction toks generalizing depth address size mmap with
  | nil =>
      rw [Transparent]
      trivial
  | cons tok toks ih =>
      cases depth with
      | zero =>
          cases tok with
          | beginNode name =>
              obtain ⟨mmap'', hchild, hrest⟩ := Outcome.bind_eq_ok_iff.mp h
              refine ⟨fun hname => ?_, ih hrest⟩
              rw [child, if_pos hname] at hchild
              exact clear_of_memoryNode hchild
          | endNode => exact ih h
          | prop name value =>
              rw [walk] at h
              split at h
              next => cases h
              next => exact ih h
          | nop => exact ih h
      | succ depth =>
          cases tok with
          | beginNode name => exact ih h
          | endNode => exact ih h
          | prop name value => exact ih h
          | nop => exact ih h

theorem walk_insertNops (h : InsertNops toks toks') (htransparent : Transparent depth toks')
    (mmap : MemoryMap) :
    walk depth address size toks' mmap = walk depth address size toks mmap := by
  induction h generalizing depth address size mmap with
  | nil => rfl
  | nop h ih =>
      cases depth with
      | zero => exact ih htransparent mmap
      | succ depth => exact ih htransparent mmap
  | cons tok h ih =>
      cases depth with
      | zero =>
          cases tok with
          | beginNode name =>
              rename_i toks toks'
              have hchild : child address size name toks' mmap = child address size name toks mmap := by
                by_cases hname : StartsMemory name
                · rw [child, child, if_pos hname, if_pos hname]
                  exact memoryNode_insertNops h (htransparent.1 hname) mmap
                · rw [child, child, if_neg hname, if_neg hname]
              rw [walk, walk, hchild]
              cases child address size name toks mmap with
              | ok mmap' => exact ih htransparent.2 mmap'
              | err mmap' => rfl
              | fault => rfl
          | endNode => exact ih htransparent mmap
          | prop name value =>
              rw [walk, walk]
              split
              next => rfl
              next => exact ih htransparent mmap
          | nop => exact ih htransparent mmap
      | succ depth =>
          cases tok with
          | beginNode name => exact ih htransparent mmap
          | endNode => exact ih htransparent mmap
          | prop name value => exact ih htransparent mmap
          | nop => exact ih htransparent mmap

/-! ## Blobs -/

/-- With NOPs after its first token a device tree is parsed and the same ranges are registered,
exactly if none of the NOPs stands before the `reg` property of a node that the bootstrap looks
into. The second blob may have another layout, other strings and other reservations: only its tokens
without the NOPs are those of the first. -/
theorem registerMemory_insertNops_iff {fdt fdt' structs structs' strings strings' : List UInt8}
    {h h' : Header} {entries entries' : List (Nat × Nat)} {name : List UInt8} {stop stop' : Nat}
    {blob : Blob} (hblob : Aarch64.Fdt.Blob fdt h entries structs strings)
    (hlexes : Lexes structs strings 0 (.beginNode name :: toks) stop) (hend : EndsAt structs stop)
    (hparse : Blob.parse fdt = .ok blob) (hregister : registerMemory fdt blob mmap = .ok mmap')
    (hblob' : Aarch64.Fdt.Blob fdt' h' entries' structs' strings')
    (hversion : h'.lastCompVersion = h.lastCompVersion)
    (hlexes' : Lexes structs' strings' 0 (.beginNode name :: toks') stop')
    (hend' : EndsAt structs' stop') (hinsert : InsertNops toks toks') :
    (∃ blob', Blob.parse fdt' = .ok blob' ∧ registerMemory fdt' blob' mmap = .ok mmap') ↔
      Transparent 0 toks' := by
  have hsupported := Blob.lastCompVersion_le_of_parse hblob hparse
  obtain ⟨blob₁, hparse₁, hroot, hstr, hrest⟩ := Blob.parse_of_lexes hblob hsupported hlexes
  obtain rfl : blob₁ = blob := Outcome.ok.inj (hparse₁.symm.trans hparse)
  obtain ⟨blob', hparse', hroot', hstr', hrest'⟩ :=
    Blob.parse_of_lexes hblob' (hversion ▸ hsupported) hlexes'
  rw [registerMemory_of_lexes hrest hend hroot hstr] at hregister
  have hwalk := registerMemory_of_lexes hrest' hend' hroot' hstr' mmap
  constructor
  · rintro ⟨blob'', hparse'', hregister'⟩
    obtain rfl : blob' = blob'' := Outcome.ok.inj (hparse'.symm.trans hparse'')
    exact transparent_of_walk (hwalk.symm.trans hregister')
  · intro htransparent
    refine ⟨blob', hparse', ?_⟩
    rw [hwalk, walk_insertNops hinsert htransparent, hregister]

/-- A root with one memory node, with NOPs in front of its property, and behind the
property and the node. -/
private def nopToks (front behind : List (Tok × Nat)) : List (Tok × Nat) :=
  (.beginNode (Bytes.ofString "memory"), 0) :: front ++
    (.prop (Bytes.ofString "reg") (Aarch64.Fdt.dword 0 ++ Aarch64.Fdt.dword 4096), 0) :: behind ++
      (.endNode, 0) :: behind ++ [(.endNode, 0)]

private def nopStructs (front behind : List (Tok × Nat)) : List UInt8 :=
  Aarch64.Fdt.structBlock ((.beginNode [], 0) :: nopToks front behind)

private def nopFdt (front behind : List (Tok × Nat)) : List UInt8 :=
  Aarch64.Fdt.assemble [] (nopStructs front behind) (Bytes.ofString "reg" ++ [0])

private theorem nop_lexes (front behind : List (Tok × Nat))
    (hfits : ∀ t ∈ ((.beginNode [], 0) :: nopToks front behind : List (Tok × Nat)),
      t.1.Fits (Bytes.ofString "reg" ++ [0]) t.2) :
    ∃ stop, Lexes (nopStructs front behind) (Bytes.ofString "reg" ++ [0]) 0
      (.beginNode [] :: (nopToks front behind).map Prod.fst) stop ∧
        EndsAt (nopStructs front behind) stop :=
  Aarch64.Fdt.lexes_structBlock hfits 0 rfl (List.prefix_refl _)

private theorem nop_blob (front behind : List (Tok × Nat))
    (hsize : (nopFdt front behind).length < 2 ^ 32) : Aarch64.Fdt.Blob (nopFdt front behind)
      (Aarch64.Fdt.layout [] (nopStructs front behind) (Bytes.ofString "reg" ++ [0])) []
      (nopStructs front behind) (Bytes.ofString "reg" ++ [0]) :=
  Aarch64.Fdt.blob_assemble hsize

/-- NOPs behind the property and behind the node. -/
theorem registerMemory_insertNops_iff_behind :
    ∃ blob, Blob.parse (nopFdt [] [(.nop, 0)]) = .ok blob ∧
      registerMemory (nopFdt [] [(.nop, 0)]) blob .new = .ok (.single 0 4096) := by
  have hplain : ((Blob.parse (nopFdt [] [])).replaceErr .new >>= fun blob =>
      registerMemory (nopFdt [] []) blob .new) = .ok (.single 0 4096) := by
    decide +kernel
  obtain ⟨blob, hparse, hregister⟩ := Outcome.bind_eq_ok_iff.mp hplain
  obtain ⟨stop, hlexes, hend⟩ := nop_lexes [] [] (by decide +kernel)
  obtain ⟨stop', hlexes', hend'⟩ := nop_lexes [] [(.nop, 0)] (by decide +kernel)
  refine (registerMemory_insertNops_iff (nop_blob [] [] (by decide +kernel)) hlexes hend
    (Outcome.replaceErr_eq_ok_iff.mp hparse) hregister
    (nop_blob [] [(.nop, 0)] (by decide +kernel)) rfl hlexes' hend' ?_).mpr ?_
  · exact .cons _ (.cons _ (.nop (.cons _ (.nop (.cons _ .nil)))))
  · exact ⟨fun _ => Or.inl rfl, trivial⟩

/-- A NOP in front of the property of the memory node: the tree is the same and is still
parsed, but no range is registered. -/
theorem registerMemory_nop_fails :
    Aarch64.Fdt.Flattened (nopFdt [] []) (Aarch64.Fdt.layout [] (nopStructs [] [])
      (Bytes.ofString "reg" ++ [0])) [] (.node (Bytes.ofString "memory") (.prop
        (Bytes.ofString "reg") (Aarch64.Fdt.dword 0 ++ Aarch64.Fdt.dword 4096) .nil) .nil) ∧
      Aarch64.Fdt.Flattened (nopFdt [(.nop, 0)] []) (Aarch64.Fdt.layout []
        (nopStructs [(.nop, 0)] []) (Bytes.ofString "reg" ++ [0])) []
        (.node (Bytes.ofString "memory") (.prop (Bytes.ofString "reg")
          (Aarch64.Fdt.dword 0 ++ Aarch64.Fdt.dword 4096) .nil) .nil) ∧
      InsertNops ((nopToks [] []).map Prod.fst) ((nopToks [(.nop, 0)] []).map Prod.fst) ∧
      (∃ blob, Blob.parse (nopFdt [] []) = .ok blob ∧
        registerMemory (nopFdt [] []) blob .new = .ok (.single 0 4096)) ∧
      ∃ blob, Blob.parse (nopFdt [(.nop, 0)] []) = .ok blob ∧
        registerMemory (nopFdt [(.nop, 0)] []) blob .new = .err .new := by
  have hplain : ((Blob.parse (nopFdt [] [])).replaceErr .new >>= fun blob =>
      registerMemory (nopFdt [] []) blob .new) = .ok (.single 0 4096) := by
    decide +kernel
  have hparse : ((Blob.parse (nopFdt [(.nop, 0)] [])).replaceErr MemoryMap.new >>= fun blob =>
      if registerMemory (nopFdt [(.nop, 0)] []) blob .new = .err .new then .ok () else .fault) =
        .ok () := by
    decide +kernel
  refine ⟨?_, ?_, ?_, ?_, ?_⟩
  · exact Aarch64.Fdt.flattened_assemble (.node (.node (.prop .nil) .nil) .nil)
      (by decide +kernel) (by decide +kernel)
  · exact Aarch64.Fdt.flattened_assemble (.node (.node (.nop (.prop .nil)) .nil) .nil)
      (by decide +kernel) (by decide +kernel)
  · exact .cons _ (.nop (.cons _ (.cons _ (.cons _ .nil))))
  · obtain ⟨blob, hblob, hregister⟩ := Outcome.bind_eq_ok_iff.mp hplain
    exact ⟨blob, Outcome.replaceErr_eq_ok_iff.mp hblob, hregister⟩
  · obtain ⟨blob, hblob, hregister⟩ := Outcome.bind_eq_ok_iff.mp hparse
    split at hregister
    next herr => exact ⟨blob, Outcome.replaceErr_eq_ok_iff.mp hblob, herr⟩
    next => cases hregister

end Aarch64.Cxx.Bootstrap
