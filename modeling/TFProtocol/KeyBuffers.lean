import TFProtocol.Lib.CMacro
import TFProtocol.Lib.CArray
import TFProtocol.FaiKeys
import TFProtocol.IntFile
import TFProtocol.Reseed

/-!
# The buffers for session keys

`KEYMAX` is defined as a difference, without parentheses.  By itself it is the 214 bytes an
RSA key of 2048 bits leaves for the session key, and so are the blocks of `initcrypto` and
`dup_crypt`.  In `xs_ace_run` it is the first factor of a larger expression, and the array
for the hexadecimal digits of the key has 173 bytes in place of 429.

## Main definitions

* `KeyMacro`, `keyDefs`, `constant` — the macros of the source, and the expressions they are
  used in.
* `derankeyArr`, `dupCryptArr`, `bytetohexArr` — the functions, with their stores.
* `KeyPath.Admits`, `keyBlocks`, `keyStores` — the keys of the two handshakes, and what is
  stored for one.

## Main results

* `bytetohexArr_eq` — `bytetohex` stores its digits and a terminator.
* `key_buffers_iff` — the keys for which all stores are inside.
-/

namespace TFProtocol

open Bytes CStr CMacro

/-! ### The macros -/

/-- The macros for the lengths of keys, and the one for the digits of a byte. -/
inductive KeyMacro
  | keymax
  | keymin
  | rsaKeylen
  | faimaxKeylen
  | faiminKeylen
  | hexdigLen
  deriving DecidableEq, Repr

/-- Their definitions in `crypto.h` and `util.h`. -/
def keyDefs : Defs KeyMacro
  | .keymax => some [.num 2048, .over, .num 8, .minus, .num 42]
  | .keymin => some [.num 16]
  | .rsaKeylen => some [.num 2048, .over, .num 8]
  | .faimaxKeylen => some [.name .keymax]
  | .faiminKeylen => some [.num 128]
  | .hexdigLen => some [.num 2]

/-- The value of an expression of the source; no macro is more than two definitions deep. -/
def constant (ts : List (Tok KeyMacro)) : ℕ := ((value (expand keyDefs 2 ts)).getD 0).toNat

/-- `malloc(KEYMAX)`. -/
def rndkeySize : ℕ := constant [.name .keymax]

/-- `char key[KEYMAX * HEXDIG_LEN + 1]`. -/
def aceKeySize : ℕ := constant [.name .keymax, .times, .name .hexdigLen, .plus, .num 1]

/-- The constants of the model are the values of the macros. -/
theorem constant_name : rndkeySize = keymax ∧ constant [.name .faimaxKeylen] = keymax ∧
    constant [.name .keymin] = keymin ∧ constant [.name .rsaKeylen] = rsaKeylen ∧
      constant [.name .faiminKeylen] = faiminKeylen := by
  decide

/-- **The array of `xs_ace_run` is smaller than the product it is written as.** -/
theorem aceKeySize_lt : aceKeySize = 173 ∧ aceKeySize < rndkeySize * 2 + 1 := by
  have hparts : parts (expand keyDefs 2 [.name .keymax]) = some (256, -42) := rfl
  have hexpand : expand keyDefs 2 [.name .keymax, .times, .name .hexdigLen, .plus, .num 1] =
      expand keyDefs 2 [.name .keymax] ++ [.times, .num 2, .plus, .num 1] := rfl
  have hsize : aceKeySize = 173 := by
    rw [aceKeySize, constant, hexpand, value_times_plus hparts]
    rfl
  refine ⟨hsize, ?_⟩
  rw [hsize, constant_name.1]
  decide

/-! ### Stores -/

/-- A block of `malloc(KEYMAX)`, with what memory holds from its first byte on. -/
def rndkeyArr (mem : List Byte) : CArray := ⟨rndkeySize, mem, true⟩

/-- The array `key` of `xs_ace_run`. -/
def aceKeyArr (mem : List Byte) : CArray := ⟨aceKeySize, mem, true⟩

/-- `derankey` stores the key it decrypted. -/
def derankeyArr (key : List Byte) (rndkey : CArray) : CArray := rndkey.puts 0 key

/-- `dup_crypt` copies the key in use. -/
def dupCryptArr (src : Crypto) (rndkey : CArray) : CArray :=
  rndkey.puts 0 (src.rndkey.take src.rndlen)

/-- The loop of `bytetohex`; `sprintf` stores two digits and a terminator. -/
def bytetohexLoop : ℕ → List Byte → CArray → CArray
  | _, [], hex => hex
  | i, b :: bs, hex =>
    bytetohexLoop (i + 1) bs
      (hex.puts (i * 2) [hexDigit (b.toNat / 16), hexDigit (b.toNat % 16), 0])

/-- `bytetohex(bytes, sz, hex)`, on the `sz` bytes. -/
def bytetohexArr (bytes : List Byte) (hex : CArray) : CArray :=
  (bytetohexLoop 0 bytes hex).put (bytes.length * 2) 0

/-- The hexadecimal digits that `xs_ace_run` makes of `cryp_org`. -/
def xsAceRunKey (org : Crypto) (hex : CArray) : CArray :=
  bytetohexArr (org.rndkey.take org.rndlen) hex

/-! ### Handshakes -/

/-- How a session came to its key. -/
inductive KeyPath
  | rsa
  | fai
  deriving DecidableEq, Repr

/-- The lengths of the keys: `KEYMIN` and what OAEP leaves of 2048 bits, or the two bounds of the
FAI keys. -/
def KeyPath.Admits : KeyPath → ℕ → Prop
  | .rsa, n => constant [.name .keymin] ≤ n ∧ n ≤ constant [.name .rsaKeylen] - 42
  | .fai, n => constant [.name .faiminKeylen] ≤ n ∧ n ≤ constant [.name .faimaxKeylen]

/-- What memory holds where the blocks and the array are. -/
structure KeyMem where
  rndkey : List Byte
  tx : List Byte
  org : List Byte
  hex : List Byte

/-- The blocks, once the key is stored in them.  The key of a token has a block of its own. -/
def keyBlocks (p : KeyPath) (key : List Byte) (rx : Crypto) (m : KeyMem) : List CArray :=
  (match p with
    | .rsa => [derankeyArr key (rndkeyArr m.rndkey)]
    | .fai => []) ++
    [dupCryptArr rx (rndkeyArr m.tx), dupCryptArr rx (rndkeyArr m.org)]

/-- The blocks, and the array of `xs_ace_run`. -/
def keyStores (p : KeyPath) (key : List Byte) (rx : Crypto) (m : KeyMem) : List CArray :=
  keyBlocks p key rx m ++ [xsAceRunKey (dupCrypt true rx) (aceKeyArr m.hex)]

/-! ### What is stored -/

/-- `derankey` leaves the block of the model. -/
theorem mem_derankeyArr {key mem : List Byte} (h : key.length ≤ mem.length) :
    (derankeyArr key (rndkeyArr mem)).mem = overlay mem key := by
  have hroom : 0 + key.length ≤ (rndkeyArr mem).mem.length := by
    rw [Nat.zero_add]
    exact h
  rw [derankeyArr, CArray.mem_puts _ _ _ hroom, overlay]
  simp [rndkeyArr]

/-- `dup_crypt` leaves the key of the model at the start of the block. -/
theorem mem_dupCryptArr {c : Crypto} {mem : List Byte} (hc : c.rndlen ≤ c.rndkey.length)
    (h : c.rndlen ≤ mem.length) :
    (dupCryptArr c (rndkeyArr mem)).mem.take c.rndlen = (dupCrypt true c).rndkey := by
  have hlen : (c.rndkey.take c.rndlen).length = c.rndlen := List.length_take_of_le hc
  have hroom : 0 + (c.rndkey.take c.rndlen).length ≤ (rndkeyArr mem).mem.length := by
    rw [hlen, Nat.zero_add]
    exact h
  rw [dupCryptArr, CArray.mem_puts _ _ _ hroom]
  simp [dupCrypt, hlen]

theorem length_bytetohex (bs : List Byte) : (bytetohex bs).length = bs.length * 2 := by
  induction bs with
  | nil => rfl
  | cons b bs ih =>
    rw [bytetohex, List.flatMap_cons, List.length_append, ← bytetohex, ih, List.length_cons]
    simp only [List.length_cons, List.length_nil]
    omega

theorem bytetohexLoop_eq : ∀ (bs : List Byte) (i : ℕ) (hex : CArray), bs ≠ [] →
    bytetohexLoop i bs hex = hex.puts (i * 2) (bytetohex bs ++ [0]) := by
  intro bs
  induction bs with
  | nil => intro i hex h; exact absurd rfl h
  | cons b bs ih =>
    intro i hex _
    have hdigits : bytetohex (b :: bs) =
        [hexDigit (b.toNat / 16), hexDigit (b.toNat % 16)] ++ bytetohex bs := rfl
    rw [bytetohexLoop, hdigits]
    cases bs with
    | nil => rfl
    | cons c cs =>
      -- the terminator of one byte is where the digits of the next begin
      rw [ih _ _ (List.cons_ne_nil c cs), Nat.add_mul]
      exact CArray.puts_puts hex (i * 2) [_, _] _ 0 _

/-- **`bytetohex` stores its digits and a terminator.** -/
theorem bytetohexArr_eq (bytes : List Byte) (hex : CArray) :
    bytetohexArr bytes hex = hex.strcpy (bytetohex bytes) := by
  cases bytes with
  | nil => rfl
  | cons b bs =>
    have hlen := length_bytetohex (b :: bs)
    rw [bytetohexArr, bytetohexLoop_eq _ _ _ (List.cons_ne_nil b bs), CArray.strcpy, ← hlen,
      Nat.zero_mul]
    have hlast := CArray.puts_puts hex 0 (bytetohex (b :: bs)) [] 0 0
    rwa [Nat.zero_add] at hlast

/-- The array holds the digits if memory has room for them. -/
theorem str_xsAceRunKey {org : Crypto} {mem : List Byte} (h : org.rndlen * 2 < mem.length) :
    (xsAceRunKey org (aceKeyArr mem)).str = bytetohex (org.rndkey.take org.rndlen) := by
  have hfree : ∀ bs : List Byte, 0 ∉ bytetohex bs := by
    have hdigit : ∀ n < 16, hexDigit n ≠ 0 := by decide
    intro bs hmem
    obtain ⟨b, -, hb⟩ := List.mem_flatMap.mp hmem
    have hlt := b.isLt
    rcases List.mem_pair.mp hb with hb | hb
    · exact hdigit _ (by omega) hb.symm
    · exact hdigit _ (by omega) hb.symm
  have hlen : (org.rndkey.take org.rndlen).length ≤ org.rndlen := List.length_take_le _ _
  rw [xsAceRunKey, bytetohexArr_eq]
  refine CArray.str_strcpy (hfree _) ?_
  rw [length_bytetohex]
  exact lt_of_le_of_lt (Nat.mul_le_mul_right 2 hlen) h

/-! ### Where it is stored -/

section

variable {o : Endian} {key : List Byte} {rx : Crypto}

theorem inside_derankeyArr (key mem : List Byte) :
    (derankeyArr key (rndkeyArr mem)).inside = true ↔ key.length ≤ keymax := by
  rw [derankeyArr, CArray.inside_puts, ← constant_name.1]
  constructor
  · rintro ⟨-, h⟩
    rcases key with _ | ⟨b, bs⟩
    · exact Nat.zero_le _
    · simpa [rndkeyArr] using h (List.cons_ne_nil b bs)
  · exact fun h => ⟨rfl, fun _ => by simpa [rndkeyArr] using h⟩

/-- The block of the copy has the size of the original, so the same keys fit. -/
theorem inside_dupCryptArr (h : Loaded o key rx) (mem : List Byte) :
    (dupCryptArr rx (rndkeyArr mem)).inside = true ↔ key.length ≤ keymax := by
  have htake : rx.rndkey.take rx.rndlen = key := by
    rw [h.rndlen]
    exact (List.prefix_iff_eq_take.mp h.rndkey).symm
  rw [dupCryptArr, htake]
  exact inside_derankeyArr key mem

/-- The digits of a key of more than 86 bytes do not fit. -/
theorem inside_xsAceRunKey (h : Loaded o key rx) (mem : List Byte) :
    (xsAceRunKey (dupCrypt true rx) (aceKeyArr mem)).inside = true ↔ key.length ≤ 86 := by
  have htake : (dupCrypt true rx).rndkey.take (dupCrypt true rx).rndlen = key := by
    show (rx.rndkey.take rx.rndlen).take rx.rndlen = key
    rw [List.take_take, min_self, h.rndlen]
    exact (List.prefix_iff_eq_take.mp h.rndkey).symm
  have hsize : (aceKeyArr mem).size = 173 := aceKeySize_lt.1
  rw [xsAceRunKey, htake, bytetohexArr_eq, CArray.inside_strcpy, length_bytetohex, hsize]
  constructor
  · rintro ⟨-, hlt⟩
    omega
  · exact fun hle => ⟨rfl, by omega⟩

/-- The blocks are as large as the longest key. -/
theorem inside_keyBlocks (h : Loaded o key rx) (p : KeyPath) (m : KeyMem)
    (hle : key.length ≤ keymax) : ∀ a ∈ keyBlocks p key rx m, a.inside = true := by
  intro a ha
  rcases List.mem_append.mp ha with ha | ha
  · cases p with
    | rsa =>
      obtain rfl := List.mem_singleton.mp ha
      exact (inside_derankeyArr key _).mpr hle
    | fai => cases ha
  · rcases List.mem_pair.mp ha with rfl | rfl
    · exact (inside_dupCryptArr h _).mpr hle
    · exact (inside_dupCryptArr h _).mpr hle

end

theorem KeyPath.Admits.le_keymax {p : KeyPath} {n : ℕ} (h : p.Admits n) : n ≤ keymax := by
  obtain ⟨-, hfai, -, hrsa, -⟩ := constant_name
  cases p with
  | rsa => exact h.2.trans (by rw [hrsa]; decide)
  | fai => exact h.2.trans hfai.le

/-- **The keys whose buffers are large enough.**  Whatever key a handshake admits, the blocks of
`derankey` and `dup_crypt` hold it; all stores, those of `bytetohex` among them, are inside if
and only if the key has at most 86 bytes. -/
theorem key_buffers_iff (o : Endian) (p : KeyPath) {key : List Byte} (hkey : p.Admits key.length)
    {rx : Crypto} (hload : Loaded o key rx) (m : KeyMem) :
    (∀ a ∈ keyBlocks p key rx m, a.inside = true) ∧
      ((∀ a ∈ keyStores p key rx m, a.inside = true) ↔ key.length ≤ 86) := by
  have hblocks := inside_keyBlocks hload p m hkey.le_keymax
  have hhex := inside_xsAceRunKey hload m.hex
  refine ⟨hblocks, ?_⟩
  simp only [keyStores, List.forall_mem_append, List.forall_mem_singleton, hhex]
  exact ⟨And.right, fun hle => ⟨hblocks, hle⟩⟩

/-- The state behind the handshake with a key of so many bytes. -/
def loadedCipher (n : ℕ) : Crypto :=
  ⟨true, List.replicate n 255, n, .on, keySeed .little (List.replicate n 255), .unpack⟩

theorem loadedCipher_loaded (n : ℕ) :
    Loaded .little (List.replicate n 255) (loadedCipher n) :=
  ⟨by rw [List.length_replicate]; rfl, List.prefix_rfl, rfl⟩

/-- A key of 86 bytes. -/
theorem key_buffers_86 : ((keyStores .rsa (List.replicate 86 255) (loadedCipher 86)
    ⟨[], [], [], []⟩).all fun a => a.inside) = true :=
  List.all_eq_true.mpr <| (key_buffers_iff .little .rsa
    (by rw [List.length_replicate]; unfold KeyPath.Admits; decide) (loadedCipher_loaded 86)
    _).2.mpr (by rw [List.length_replicate])

/-- The shortest key of a token. -/
theorem key_buffers_overrun : ¬ ∀ (p : KeyPath) (key : List Byte) (rx : Crypto) (m : KeyMem),
    p.Admits key.length → Loaded .little key rx →
      ∀ a ∈ keyStores p key rx m, a.inside = true := by
  intro h
  have hadmits : KeyPath.fai.Admits (List.replicate 128 (255 : Byte)).length := by
    rw [List.length_replicate]
    unfold KeyPath.Admits
    decide
  have hall := h .fai _ _ ⟨[], [], [], []⟩ hadmits (loadedCipher_loaded 128)
  have hhex := hall _ (List.mem_append_right _ List.mem_cons_self)
  rw [inside_xsAceRunKey (loadedCipher_loaded 128), List.length_replicate] at hhex
  omega

end TFProtocol
