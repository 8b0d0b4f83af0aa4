import TFProtocol.Session

/-!
# Chunks and control codes

The high-performance commands move a file as a sequence of chunks, each behind a 64-bit
length, with control codes of the same size in between and in the other direction.  Both
ends convert a length or code to big-endian order before they send it.  A channel is the
list of bytes sent and not yet received; `readbuf_ex` waits until all it asked for is
there.

## Main definitions

* `hpffin`, `hpfend`, `hpfstop`, `hpfcancel`, `hpfcont` — the codes.
* `wire64`, `unwire64` — a 64-bit value on the wire.
* `recv` — a blocking read of a channel.
* `fileChunk`, `storedAt` — what one `read` of a file delivers; a file after a write.
* `Chunk`, `encChunk` — a chunk, and a chunk on the wire.

## Main results

* `unwire64_wire64` — a value survives, whatever the byte orders of the two hosts.
* `Chunk.not_code` — no length of a chunk is a code.
-/

namespace TFProtocol

open Bytes

/-! ### Codes -/

/-- `HPFFIN`. -/
def hpffin : ℤ := -127

/-- `HPFEND`. -/
def hpfend : ℤ := 0

/-- `HPFSTOP`. -/
def hpfstop : ℤ := -1

/-- `HPFCANCEL`. -/
def hpfcancel : ℤ := -2

/-- `HPFCONT`. -/
def hpfcont : ℤ := -3

/-- `swapbo64`. -/
def swapbo64 (v : BitVec 64) : BitVec 64 :=
  (v.sshiftRight 56 &&& 0xFF) ||| (v.sshiftRight 48 &&& 0xFF) <<< 8 |||
    (v.sshiftRight 40 &&& 0xFF) <<< 16 ||| (v.sshiftRight 32 &&& 0xFF) <<< 24 |||
    (v.sshiftRight 24 &&& 0xFF) <<< 32 ||| (v.sshiftRight 16 &&& 0xFF) <<< 40 |||
    (v.sshiftRight 8 &&& 0xFF) <<< 48 ||| (v &&& 0xFF) <<< 56

/-- The bytes of an `int64_t` that is sent by a host with byte order `o`. -/
def wire64 (o : Endian) (v : ℤ) : List Byte :=
  let b := BitVec.ofInt 64 v
  memBytes o 8 (if isbigendian o then b else swapbo64 b).toNat

/-- The `int64_t` a host with byte order `o` makes of eight bytes. -/
def unwire64 (o : Endian) (bs : List Byte) : ℤ :=
  let b := BitVec.ofNat 64 (ofMem o bs)
  (if isbigendian o then b else swapbo64 b).toInt

theorem getLsbD_swapbo64 (v : BitVec 64) {i : ℕ} (hi : i < 64) :
    (swapbo64 v).getLsbD i = v.getLsbD (8 * (7 - i / 8) + i % 8) := by
  rw [BitVec.getLsbD_eq_getElem hi]
  unfold swapbo64
  interval_cases i <;> simp [BitVec.getElem_sshiftRight]

theorem swapbo64_swapbo64 (v : BitVec 64) : swapbo64 (swapbo64 v) = v := by
  apply BitVec.eq_of_getLsbD_eq
  intro i hi
  rw [getLsbD_swapbo64 _ hi, getLsbD_swapbo64 _ (by omega)]
  congr 1
  omega

/-- Swapping turns the bytes around. -/
theorem extractLsb'_swapbo64 (v : BitVec 64) {i : ℕ} (hi : i < 8) :
    (swapbo64 v).extractLsb' (8 * i) 8 = v.extractLsb' (8 * (7 - i)) 8 := by
  apply BitVec.eq_of_getLsbD_eq
  intro j hj
  rw [BitVec.getLsbD_extractLsb', BitVec.getLsbD_extractLsb', getLsbD_swapbo64 _ (by omega)]
  congr 2
  omega

/-- **Lengths and codes travel in big-endian order**, whatever the host. -/
theorem wire64_eq (o : Endian) (v : ℤ) :
    wire64 o v = memBytes .big 8 (BitVec.ofInt 64 v).toNat := by
  cases o with
  | big => rfl
  | little =>
    show leBytes 8 (swapbo64 (BitVec.ofInt 64 v)).toNat
      = (leBytes 8 (BitVec.ofInt 64 v).toNat).reverse
    rw [leBytes_eq_map, leBytes_eq_map]
    simp only [List.range, List.range.loop, List.map, List.reverse_cons, List.reverse_nil,
      List.nil_append, List.cons_append]
    simp only [extractLsb'_swapbo64 _ (show 0 < 8 by decide),
      extractLsb'_swapbo64 _ (show 1 < 8 by decide), extractLsb'_swapbo64 _ (show 2 < 8 by decide),
      extractLsb'_swapbo64 _ (show 3 < 8 by decide), extractLsb'_swapbo64 _ (show 4 < 8 by decide),
      extractLsb'_swapbo64 _ (show 5 < 8 by decide), extractLsb'_swapbo64 _ (show 6 < 8 by decide),
      extractLsb'_swapbo64 _ (show 7 < 8 by decide)]

@[simp] theorem length_wire64 (o : Endian) (v : ℤ) : (wire64 o v).length = 8 := by
  simp [wire64]

/-- **A length or code survives**, whatever the byte orders of the two hosts. -/
theorem unwire64_wire64 (o o' : Endian) {v : ℤ} (hmin : -2 ^ 63 ≤ v) (hmax : v < 2 ^ 63) :
    unwire64 o' (wire64 o v) = v := by
  have hback : ∀ b : BitVec 64, BitVec.ofNat 64 (ofMem o' (memBytes o' 8 b.toNat)) = b := by
    intro b
    rw [ofMem_memBytes o' (by have := b.isLt; omega), BitVec.ofNat_toNat, BitVec.setWidth_eq]
  have hint : (BitVec.ofInt 64 v).toInt = v := by
    rw [BitVec.toInt_ofInt, Int.bmod_def]
    norm_num at hmin hmax ⊢
    omega
  rw [wire64_eq, ← wire64_eq o']
  unfold unwire64 wire64
  simp only [hback]
  cases isbigendian o' with
  | true => simpa using hint
  | false => simpa [swapbo64_swapbo64] using hint

/-- The eight bytes of a length or code are determined by its value. -/
theorem wire64_unwire64 (o : Endian) {bs : List Byte} (hlen : bs.length = 8) :
    wire64 o (unwire64 o bs) = bs := by
  have hlt : ofMem o bs < 2 ^ 64 := by
    have := ofMem_lt o bs
    rwa [hlen] at this
  have hback : memBytes o 8 (BitVec.ofNat 64 (ofMem o bs)).toNat = bs := by
    rw [BitVec.toNat_ofNat, Nat.mod_eq_of_lt hlt, ← hlen, memBytes_ofMem]
  unfold wire64 unwire64
  simp only [BitVec.ofInt_toInt]
  cases isbigendian o with
  | true => exact hback
  | false =>
    simp only [Bool.false_eq_true, if_false, swapbo64_swapbo64]
    exact hback

theorem unwire64_lt (o : Endian) (bs : List Byte) : unwire64 o bs < 2 ^ 63 := by
  unfold unwire64
  exact BitVec.toInt_lt

/-! ### Channels and files -/

/-- A read of `n` bytes from a channel; it waits while there are fewer.  A negative length that is
no code reads nothing; the write behind it, which gets it as a `size_t`, is one of nothing here. -/
def recv (n : ℕ) (ch : List Byte) : Option (List Byte × List Byte) :=
  if n ≤ ch.length then some (ch.take n, ch.drop n) else none

theorem recv_append (a b : List Byte) : recv a.length (a ++ b) = some (a, b) := by
  simp [recv]

theorem recv_wire64 (o : Endian) (v : ℤ) (b : List Byte) :
    recv 8 (wire64 o v ++ b) = some (wire64 o v, b) := by
  rw [← recv_append, length_wire64]

/-- The most bytes one `read` or `write` call transfers on Linux. -/
def maxRwCount : ℕ := 0x7ffff000

/-- `readchunk(fd, buf, bufsz)` on what is left of a file: nothing at its end, at most
`n + 1` bytes before, or an error. -/
def fileChunk (bufsz : ℕ) (rest : List Byte) : Option ℕ → Option (List Byte)
  | some n => some (rest.take (min (n + 1) (min bufsz maxRwCount)))
  | none => none

/-- A file in which bytes were stored from an offset on. -/
def storedAt (old : List Byte) (offst : ℕ) (bs : List Byte) : List Byte :=
  if bs = [] then old
  else old.take offst ++ List.replicate (offst - old.length) 0 ++ bs ++ old.drop (offst + bs.length)

/-- The file from the offset on: the bytes stored, and what was behind them. -/
theorem drop_storedAt (old : List Byte) (offst : ℕ) (bs : List Byte) :
    (storedAt old offst bs).drop offst = bs ++ old.drop (offst + bs.length) := by
  unfold storedAt
  split
  · next hbs => simp [hbs]
  · have hlen : (old.take offst ++ List.replicate (offst - old.length) (0 : Byte)).length = offst := by
      simp only [List.length_append, List.length_take, List.length_replicate]
      omega
    rw [List.append_assoc (_ ++ _), List.drop_append_of_le_length (by omega),
      List.drop_eq_nil_of_le (by omega), List.nil_append]

/-- A chunk: some bytes, as many as one `read` can deliver. -/
def Chunk (c : List Byte) : Prop := c ≠ [] ∧ c.length ≤ maxRwCount

/-- A chunk on the wire. -/
def encChunk (o : Endian) (c : List Byte) : List Byte := wire64 o c.length ++ c

/-- Chunks on the wire. -/
def encChunks (o : Endian) (cs : List (List Byte)) : List Byte := cs.flatMap (encChunk o)

@[simp] theorem encChunks_nil (o : Endian) : encChunks o [] = [] := rfl

@[simp] theorem encChunks_cons (o : Endian) (c : List Byte) (cs : List (List Byte)) :
    encChunks o (c :: cs) = wire64 o c.length ++ (c ++ encChunks o cs) := by
  simp [encChunks, encChunk]

theorem encChunks_append (o : Endian) (cs ds : List (List Byte)) :
    encChunks o (cs ++ ds) = encChunks o cs ++ encChunks o ds := by
  simp [encChunks]

/-- What a file delivers is a chunk, or its end was reached. -/
theorem fileChunk_some {bufsz : ℕ} (hbuf : 0 < bufsz) {rest c : List Byte} {r : Option ℕ}
    (h : fileChunk bufsz rest r = some c) :
    ∃ rest', rest = c ++ rest' ∧ rest' = rest.drop c.length ∧ (c = [] → rest = []) ∧
      c.length ≤ maxRwCount := by
  cases r with
  | none => cases h
  | some n =>
    obtain rfl := Option.some.inj h
    have hpos : 0 < min (n + 1) (min bufsz maxRwCount) := by
      have : 0 < maxRwCount := by decide
      omega
    refine ⟨rest.drop _, (List.take_append_drop _ _).symm, ?_, fun hc => ?_, ?_⟩
    · rw [List.length_take, List.drop_eq_drop_iff]
      omega
    · rcases List.take_eq_nil_iff.mp hc with h0 | h0
      · omega
      · exact h0
    · rw [List.length_take]
      omega

theorem Chunk.range {c : List Byte} (h : Chunk c) :
    0 < (c.length : ℤ) ∧ (c.length : ℤ) < 2 ^ 31 := by
  have hlen := h.2
  have hpos : 0 < c.length := List.length_pos_iff.mpr h.1
  have : maxRwCount = 2147479552 := rfl
  omega

/-- **No length of a chunk is a code.** -/
theorem Chunk.not_code {c : List Byte} (h : Chunk c) :
    (c.length : ℤ) ≠ hpfend ∧ (c.length : ℤ) ≠ hpfstop ∧ (c.length : ℤ) ≠ hpfcancel ∧
      (c.length : ℤ) ≠ hpfcont ∧ (c.length : ℤ) ≠ hpffin := by
  have := h.range
  simp only [hpfend, hpfstop, hpfcancel, hpfcont, hpffin]
  omega

/-- The length in front of a chunk arrives as it was sent. -/
theorem Chunk.unwire {c : List Byte} (h : Chunk c) (o o' : Endian) :
    unwire64 o' (wire64 o c.length) = c.length := by
  have := h.range
  exact unwire64_wire64 o o' (by omega) (by omega)

end TFProtocol
