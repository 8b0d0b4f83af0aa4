import TFProtocol.Server

/-!
# The watched directories

`ntfy.c` keeps a list of directories, each with a symbol of up to seven characters.
`cmd_addntfy` adds one; `findntfy` reports a name in such a directory that starts with the
symbol.

## Main definitions

* `Watch` — an entry of the list, with a symbol that passed `chksym`.
* `addntfySym`, `addntfyPath` — what a request asks for.
* `symMatches` — the names that are reported.
-/

namespace TFProtocol

open Bytes CStr

/-- `NTFY_SYMLEN`. -/
def ntfySymlen : ℕ := 8

/-- `chksym(sym)` returns `0`. -/
def chksym (sym : List Byte) : Bool :=
  sym ≠ [dot] && sym ≠ dotdot && sym ≠ [slash] && (strstr [slash] sym).isNone

/-- An entry of the list, `struct data`. -/
structure Watch where
  path : List Byte
  sym : List Byte
  chk : chksym sym = true
  fits : sym.length < ntfySymlen
  deriving DecidableEq

/-- What `cmd_addntfy` takes for the symbol: up to seven characters before a separator. -/
def addntfySym (mem : List Byte) : List Byte := (mem.take (ntfySymlen - 1)).takeWhile (· ≠ blank)

theorem length_addntfySym (mem : List Byte) :
    (cstr (addntfySym mem)).length < ntfySymlen := by
  have hcstr : (cstr (addntfySym mem)).length ≤ (addntfySym mem).length :=
    (List.takeWhile_sublist _).length_le
  have htake : (addntfySym mem).length ≤ (mem.take (ntfySymlen - 1)).length :=
    (List.takeWhile_sublist _).length_le
  have hlen : (mem.take (ntfySymlen - 1)).length ≤ ntfySymlen - 1 := List.length_take_le ..
  simp only [ntfySymlen] at htake hlen ⊢
  omega

/-- The path behind it, with one character in between. -/
def addntfyPath (mem : List Byte) : List Byte := cstr (mem.drop ((addntfySym mem).length + 1))

/-- `NAME_MAX`. -/
def nameMax : ℕ := 255

/-- The condition under which `findntfy` takes an entry.  `stat` is called on the directory, so
neither of its two tests fails. -/
def symMatches (sym name : List Byte) : Bool :=
  name ≠ [dot] && name ≠ dotdot && (strstr sym name).any fun r => r.1 = []

/-- `strcpy_sec(to, from, sz)`. -/
def strcpySec (from_ : List Byte) (sz : ℕ) : List Byte := from_.take (sz - 1)

end TFProtocol
