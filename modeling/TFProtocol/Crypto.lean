import TFProtocol.Lib.Bytes
import TFProtocol.Lib.Mealy

/-!
# The stream cipher

`encrypt` of `crypto.c` walks a buffer with two indices: `c` over the data and
`keyc` cyclically over the key.  Every byte step mixes one byte of data with the
seed and one byte of the key, advances the seed, reloads it from the key when it
becomes zero, and overwrites the key byte it just used.  The key index starts at
zero in every call, so where a message is cut into calls matters; nothing of the
state ever depends on the data.

The seed is an `int64_t`: its arithmetic is modulo `2 ^ 64` and its right shifts
are arithmetic.  `rndkey` is the memory block the pointer refers to, which may be
longer than the `rndlen` bytes in use.

## Main definitions

* `Crypto` — `struct crypto`, less the RSA buffer `enkey`.
* `encryptByte`, `encrypt` — one byte step and the whole call.
* `swapkey` — replacing the key.
* `SameKey` — two states with the same seed and the same key bytes in use.

## Main results

* `encrypt_undo` — a receiver in `CRYPT_UNPACK` mode recovers what a sender in
  `CRYPT_PACK` mode encrypted, and the two states agree again.
-/

namespace TFProtocol

open Bytes

/-- The states of the encryption system, `enum cryptst`. -/
inductive CryptSt
  | off
  | on
  deriving DecidableEq, Repr, Inhabited

/-- The packing modes, `enum pack`. -/
inductive Pack
  | pack
  | unpack
  | nopack
  deriving DecidableEq, Repr, Inhabited

/-- The cipher state, `struct crypto`. -/
structure Crypto where
  /-- Whether the function pointer `encrypt` is set. -/
  hasEncrypt : Bool
  /-- The key block. -/
  rndkey : List Byte
  /-- The number of key bytes in use. -/
  rndlen : ℕ
  st : CryptSt
  seed : BitVec 64
  pack : Pack
  deriving DecidableEq, Repr, Inhabited

/-! ### One byte -/

/-- `cryp->seed >> 56 & 0xFF`, as the byte it is added as. -/
def seedTop (seed : BitVec 64) : Byte := (seed.sshiftRight 56 &&& 0xFF).setWidth 8

/-- `*(int64_t *) cryp->rndkey`: eight key bytes read in the host's byte order. -/
def keySeed (o : Endian) (key : List Byte) : BitVec 64 :=
  BitVec.ofNat 64 (ofMem o (key.take 8))

/-- The seed after one byte, reloaded from the key when it would be zero. -/
def nextSeed (o : Endian) (key : List Byte) (seed : BitVec 64) : BitVec 64 :=
  let s := seed * (seed.sshiftRight 8 &&& 0xFFFFFFFF) + (seed.sshiftRight 40 &&& 0xFFFF)
  if s = 0 then keySeed o key else s

/-- What one byte of data becomes in each packing mode. -/
def mixByte (mode : Pack) (seed : BitVec 64) (k d : Byte) : Byte :=
  match mode with
  | .unpack => (d - seedTop seed) ^^^ k
  | .pack => seedTop seed + (d ^^^ k)
  | .nopack => d

/-- One iteration of the loop of `encrypt`, on the cipher state and the key
index `keyc` it enters with. -/
def encryptByte (o : Endian) (s : Crypto × ℕ) (d : Byte) : (Crypto × ℕ) × Byte :=
  let cryp := s.1
  let keyc := if s.2 = cryp.rndlen then 0 else s.2
  let d' := mixByte cryp.pack cryp.seed (cryp.rndkey.getD keyc 0) d
  let seed' := nextSeed o cryp.rndkey cryp.seed
  -- `seed % MOD_VALUE` keeps the sign of the seed; stored in a `char` it is its low byte
  let key' := cryp.rndkey.set keyc ((seed'.srem 256).setWidth 8)
  (({ cryp with seed := seed', rndkey := key' }, keyc + 1), d')

/-- `encrypt(cryp, data, len)`: the first `len` bytes of the buffer are
rewritten in place.  The length goes through an `int` parameter. -/
def encrypt (o : Endian) (cryp : Crypto) (data : List Byte) (len : ℤ) : Crypto × List Byte :=
  match cryp.st with
  | .on =>
    let n := (cint len).toNat
    let r := Mealy.run (encryptByte o) (cryp, 0) (data.take n)
    (r.1.1, r.2 ++ data.drop n)
  | .off => (cryp, data)

/-- `swapkey`: the new key replaces the old one, the seed stays. -/
def swapkey (cryp : Crypto) (newkey : List Byte) (keylen : ℕ) : Crypto :=
  { cryp with rndkey := newkey, rndlen := keylen }

/-! ### Agreement of two states -/

/-- Two cipher states hold the same seed, key length and key bytes in use. -/
structure SameKey (a b : Crypto) : Prop where
  seed : a.seed = b.seed
  rndlen : a.rndlen = b.rndlen
  key : a.rndkey.take a.rndlen = b.rndkey.take b.rndlen

/-- A key the cipher can run on: at least the eight bytes the seed is reloaded
from, all inside the block. -/
structure Crypto.Keyed (c : Crypto) : Prop where
  min : 8 ≤ c.rndlen
  block : c.rndlen ≤ c.rndkey.length

theorem SameKey.symm {a b : Crypto} (h : SameKey a b) : SameKey b a :=
  ⟨h.seed.symm, h.rndlen.symm, h.key.symm⟩

/-- Swapping in the same key keeps two states in agreement. -/
theorem SameKey.swapkey {a b : Crypto} (h : SameKey a b) (key : List Byte) (n : ℕ) :
    SameKey (swapkey a key n) (swapkey b key n) :=
  ⟨h.seed, rfl, rfl⟩

/-- The seed is reloaded from bytes that are in use. -/
theorem keySeed_eq_of_take {o : Endian} {key key' : List Byte} {n : ℕ} (hn : 8 ≤ n)
    (h : key.take n = key'.take n) : keySeed o key = keySeed o key' := by
  have htake : ∀ l : List Byte, l.take 8 = (l.take n).take 8 := by
    intro l
    rw [List.take_take, Nat.min_eq_left hn]
  unfold keySeed
  rw [htake key, htake key', h]

theorem nextSeed_eq_of_take {o : Endian} {key key' : List Byte} {n : ℕ} (hn : 8 ≤ n)
    (h : key.take n = key'.take n) (seed : BitVec 64) :
    nextSeed o key seed = nextSeed o key' seed := by
  unfold nextSeed
  rw [keySeed_eq_of_take hn h]

/-! ### The byte step -/

/-- The two packing modes are inverse to each other under the same key byte. -/
theorem mixByte_unpack_pack (seed : BitVec 64) (k d : Byte) :
    mixByte .unpack seed k (mixByte .pack seed k d) = d := by
  simp only [mixByte]
  rw [BitVec.add_comm, BitVec.add_sub_cancel, BitVec.xor_assoc, BitVec.xor_self, BitVec.xor_zero]

/-- What a byte step leaves alone. -/
theorem encryptByte_frame (o : Endian) (s : Crypto × ℕ) (d : Byte) :
    (encryptByte o s d).1.1.rndlen = s.1.rndlen ∧ (encryptByte o s d).1.1.st = s.1.st ∧
      (encryptByte o s d).1.1.pack = s.1.pack ∧
      (encryptByte o s d).1.1.hasEncrypt = s.1.hasEncrypt ∧
      (encryptByte o s d).1.1.rndkey.length = s.1.rndkey.length :=
  ⟨rfl, rfl, rfl, rfl, List.length_set ..⟩

/-- The invariant of a pair of runs: the same key and seed, the same key index
inside the key, and opposite packing modes. -/
structure InStep (s t : Crypto × ℕ) : Prop where
  same : SameKey s.1 t.1
  left : s.1.Keyed
  right : t.1.Keyed
  index : s.2 = t.2
  bound : s.2 ≤ s.1.rndlen
  pack : s.1.pack = .pack
  unpack : t.1.pack = .unpack

theorem getD_eq_of_take {key key' : List Byte} {n i : ℕ} (hi : i < n)
    (h : key.take n = key'.take n) : key.getD i 0 = key'.getD i 0 := by
  have hget : ∀ l : List Byte, l.getD i 0 = (l.take n).getD i 0 := by
    intro l
    simp [List.getD_eq_getElem?_getD, hi]
  rw [hget key, hget key', h]

/-- **One byte step keeps sender and receiver in step**, whatever byte each of
them reads. -/
theorem InStep.next {o : Endian} {s t : Crypto × ℕ} (h : InStep s t) (a b : Byte) :
    InStep (encryptByte o s a).1 (encryptByte o t b).1 := by
  obtain ⟨⟨hseed, hlen, hkey⟩, hs, ht, hidx, hbd, hp, hu⟩ := h
  have hpos : 0 < s.1.rndlen := by have := hs.min; omega
  have hkey' : s.1.rndkey.take s.1.rndlen = t.1.rndkey.take s.1.rndlen := by rw [hkey, hlen]
  have hnext : nextSeed o s.1.rndkey s.1.seed = nextSeed o t.1.rndkey t.1.seed := by
    rw [nextSeed_eq_of_take hs.min hkey', hseed]
  refine ⟨⟨hnext, hlen, ?_⟩, ⟨hs.min, ?_⟩, ⟨ht.min, ?_⟩, ?_, ?_, hp, hu⟩
  · simp only [encryptByte, hidx, ← hlen, hnext, List.take_set, hkey']
  · simpa [encryptByte] using hs.block
  · simpa [encryptByte] using ht.block
  · simp only [encryptByte, hidx, hlen]
  · simp only [encryptByte]
    split <;> omega

/-- In step, the receiver's byte is the sender's. -/
theorem InStep.output {o : Endian} {s t : Crypto × ℕ} (h : InStep s t) (a : Byte) :
    (encryptByte o t (encryptByte o s a).2).2 = a := by
  obtain ⟨⟨hseed, hlen, hkey⟩, hs, -, hidx, hbd, hp, hu⟩ := h
  have hpos : 0 < s.1.rndlen := by have := hs.min; omega
  have hkey' : s.1.rndkey.take s.1.rndlen = t.1.rndkey.take s.1.rndlen := by rw [hkey, hlen]
  have hbyte : ∀ i, i < s.1.rndlen → s.1.rndkey.getD i 0 = t.1.rndkey.getD i 0 :=
    fun i hi => getD_eq_of_take hi hkey'
  have hi : (if s.2 = s.1.rndlen then 0 else s.2) < s.1.rndlen := by split <;> omega
  simp only [encryptByte, hp, hu, ← hidx, ← hlen, ← hseed]
  rw [← hbyte _ hi]
  exact mixByte_unpack_pack _ _ _

theorem undoes_encryptByte (o : Endian) :
    Mealy.Undoes InStep (encryptByte o) (encryptByte o) where
  next := fun _ _ a b h => h.next a b
  output := fun _ _ a h => h.output a

/-! ### A whole call -/

/-- What a call of `encrypt` leaves alone. -/
theorem encrypt_frame (o : Endian) (cryp : Crypto) (data : List Byte) (len : ℤ) :
    (encrypt o cryp data len).1.rndlen = cryp.rndlen ∧
      (encrypt o cryp data len).1.st = cryp.st ∧
      (encrypt o cryp data len).1.pack = cryp.pack ∧
      (encrypt o cryp data len).1.hasEncrypt = cryp.hasEncrypt ∧
      (encrypt o cryp data len).1.rndkey.length = cryp.rndkey.length := by
  unfold encrypt
  split
  · exact Mealy.run_invariant
      (P := fun s => s.1.rndlen = cryp.rndlen ∧ s.1.st = cryp.st ∧ s.1.pack = cryp.pack ∧
        s.1.hasEncrypt = cryp.hasEncrypt ∧ s.1.rndkey.length = cryp.rndkey.length)
      (fun s a hs => by
        obtain ⟨h1, h2, h3, h4, h5⟩ := encryptByte_frame o s a
        rw [h1, h2, h3, h4, h5]
        exact hs)
      (data.take (cint len).toNat) (cryp, 0) ⟨rfl, rfl, rfl, rfl, rfl⟩
  · exact ⟨rfl, rfl, rfl, rfl, rfl⟩

@[simp] theorem length_encrypt (o : Endian) (cryp : Crypto) (data : List Byte) (len : ℤ) :
    (encrypt o cryp data len).2.length = data.length := by
  unfold encrypt
  split
  · simp only [List.length_append, Mealy.length_run, List.length_take, List.length_drop]
    omega
  · rfl

/-- A sender and a receiver ready to exchange data: the same key, opposite
packing modes, encryption on. -/
structure Paired (tx rx : Crypto) : Prop where
  same : SameKey tx rx
  txKeyed : tx.Keyed
  rxKeyed : rx.Keyed
  txPack : tx.pack = .pack
  rxPack : rx.pack = .unpack
  txOn : tx.st = .on
  rxOn : rx.st = .on
  txSet : tx.hasEncrypt = true
  rxSet : rx.hasEncrypt = true

/-- **A call of `encrypt` on the receiving side undoes the call of the same
length on the sending side**, and the two states agree again.  Only the length
has to be the same: the boundaries of the calls are what restarts the key
index. -/
theorem encrypt_undo {o : Endian} {tx rx : Crypto} (h : Paired tx rx) {data : List Byte}
    (hlen : data.length < 2 ^ 31) :
    (encrypt o rx (encrypt o tx data data.length).2 data.length).2 = data ∧
      Paired (encrypt o tx data data.length).1
        (encrypt o rx (encrypt o tx data data.length).2 data.length).1 := by
  -- both calls start at key index 0, which is all the shared boundary is needed for
  have hstep : InStep (tx, 0) (rx, 0) :=
    ⟨h.same, h.txKeyed, h.rxKeyed, rfl, Nat.zero_le _, h.txPack, h.rxPack⟩
  obtain ⟨hdata, hrel⟩ := Mealy.run_undo (undoes_encryptByte o) data (tx, 0) (rx, 0) hstep
  have htx : encrypt o tx data data.length
      = ((Mealy.run (encryptByte o) (tx, 0) data).1.1,
          (Mealy.run (encryptByte o) (tx, 0) data).2) := by
    simp [encrypt, h.txOn, cint_of_lt hlen]
  have hrx : encrypt o rx (Mealy.run (encryptByte o) (tx, 0) data).2 data.length
      = ((Mealy.run (encryptByte o) (rx, 0) (Mealy.run (encryptByte o) (tx, 0) data).2).1.1,
          (Mealy.run (encryptByte o) (rx, 0) (Mealy.run (encryptByte o) (tx, 0) data).2).2) := by
    -- the ciphertext has the length of the data, so the receiving call covers all of it
    have htake : (Mealy.run (encryptByte o) (tx, 0) data).2.take data.length
        = (Mealy.run (encryptByte o) (tx, 0) data).2 :=
      List.take_of_length_le (by rw [Mealy.length_run])
    have hdrop : (Mealy.run (encryptByte o) (tx, 0) data).2.drop data.length = [] :=
      List.drop_of_length_le (by rw [Mealy.length_run])
    simp only [encrypt, h.rxOn, cint_of_lt hlen, Int.toNat_natCast, htake, hdrop, List.append_nil]
  obtain ⟨-, htst, -, htset, -⟩ := encrypt_frame o tx data data.length
  obtain ⟨-, hrst, -, hrset, -⟩ :=
    encrypt_frame o rx (encrypt o tx data data.length).2 data.length
  refine ⟨by rw [htx, hrx, hdata], ⟨?_, ?_, ?_, ?_, ?_, by rw [htst, h.txOn],
    by rw [hrst, h.rxOn], by rw [htset, h.txSet], by rw [hrset, h.rxSet]⟩⟩
  all_goals rw [htx]
  · rw [hrx]; exact hrel.same
  · exact hrel.left
  · rw [hrx]; exact hrel.right
  · exact hrel.pack
  · rw [hrx]; exact hrel.unpack

end TFProtocol
