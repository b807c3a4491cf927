import Aarch64.Boot.Agreement
import Aarch64.Boot.Allocators
import Aarch64.Boot.Interrupts
import Aarch64.Boot.Load
import Aarch64.Boot.Orders
import Aarch64.Boot.Scanners
import Aarch64.Boot.Serial
import Aarch64.Cxx.Bootstrap.Nops
import Aarch64.Cxx.Bootstrap.SelfTests
import Aarch64.Cxx.Cache.Accounting
import Aarch64.Cxx.Cache.Safety
import Aarch64.Cxx.Endian
import Aarch64.Cxx.Fdt.Cursors
import Aarch64.Cxx.FixedVector.Run
import Aarch64.Cxx.Heap.Store
import Aarch64.Cxx.Intrusive.Run
import Aarch64.Cxx.MemoryMap.Atomic
import Aarch64.Cxx.MemoryMap.FindIn
import Aarch64.Cxx.Optional.Run
import Aarch64.Cxx.Physical.Seeding
import Aarch64.Cxx.Stream
import Aarch64.Cxx.StringView.Views
import Aarch64.Cxx.Vector.Run
import Aarch64.Rust.DeviceTree.Follow
import Aarch64.Rust.DeviceTree.Grammar
import Aarch64.Rust.DeviceTree.Panics
import Aarch64.Rust.Intrusive.Run
import Aarch64.Rust.Memory.Run
import Aarch64.Rust.Memory.Sizing
import Aarch64.Rust.MemoryMap.FirstFit
import Aarch64.Rust.Setup.Boot
import Aarch64.Rust.Setup.Reservations
