import Aarch64.Lib.SortedMap
import Aarch64.Rust.Core
import Aarch64.Rust.DeviceTree.Scanner

/-!
# Device trees of the Rust kernel

`kernel/devicetree/src/lib.rs`. A `BTreeMap` is its list of entries in the order of
iteration, which is ascending by key.
-/

namespace Aarch64.Rust

structure DeviceTreeNode where
  children : List (List UInt8 × DeviceTreeNode)
  properties : List (List UInt8 × List UInt8)
  addressSpace : AddressSpace

namespace DeviceTreeNode

def child (node : DeviceTreeNode) (name : List UInt8) : Option DeviceTreeNode :=
  node.children.lookup name

def property (node : DeviceTreeNode) (name : List UInt8) : Option Scanner :=
  (node.properties.lookup name).map Scanner.new

def new : DeviceTreeNode := ⟨[], [], ⟨1, 1⟩⟩

def newChild (parent : DeviceTreeNode) : DeviceTreeNode := ⟨[], [], parent.addressSpace⟩

def addChild (node : DeviceTreeNode) (name : List UInt8) (child : DeviceTreeNode) :
    DeviceTreeNode :=
  { node with children := SortedMap.insert name child node.children }

/-- What `remove_child` returns. The node that it leaves behind is not used again. -/
def removeChild (node : DeviceTreeNode) (name : List UInt8) : Option DeviceTreeNode :=
  node.children.lookup name

/-- `consume_be32` of a value, unwrapped. -/
def cells (value : List UInt8) : Outcome String Nat :=
  match (Scanner.new value).consumeBe32 with
  | .ok (n, _) => .ok n
  | .err _ | .fault => .fault

def addProperty (node : DeviceTreeNode) (name value : List UInt8) :
    Outcome String DeviceTreeNode := do
  let space := node.addressSpace
  let space ← if name = Bytes.ofString "#size-cells" then do
      let sizeCells ← cells value
      pure { space with sizeCells }
    else pure space
  let space ← if name = Bytes.ofString "#address-cells" then do
      let addressCells ← cells value
      pure { space with addressCells }
    else pure space
  return ⟨node.children, SortedMap.insert name value node.properties, space⟩

end DeviceTreeNode

structure DeviceTree where
  reserved : List Range
  root : DeviceTreeNode
  lastCompVersion : Nat
  bootCpuidPhys : Nat

def DEVICE_TREE_SPEC_VERSION : Nat := 17

end Aarch64.Rust
