import Mathlib.Logic.Equiv.Basic
import TFProtocol.Crypto

/-!
# The block cipher layer

The second half of `crypto.c` drives OpenSSL's AES-256-CBC through `EVP` contexts.
The cipher itself is a parameter: `Aes` is any pair of functions with the length
of PKCS#7 padding and with decryption inverting encryption.  A context captures
the key and the vector it is initialised with; initialising it again without a key
keeps both and starts a new message.

Allocating and initialising a context can fail.  `Ossl.fates` lists the outcomes
of the calls to come, and calls past the end of the list succeed.

## Main definitions

* `Aes` — the cipher, with the laws the program relies on; `Aes.sample` is one.
* `Ossl` — the contexts created so far, and the fates of the calls to come.
* `BlkCipher` — `struct blkcipher`, less its two unused block buffers.
* `blkinitEn`, `blkinitDe`, `blkfin`, `blkencrypt`, `blkdecrypt` — the functions
  of `crypto.c`.

## Main results

* `blkinit_bound` — a context that was initialised holds the all-zero key and
  vector, whatever the structure held before.
-/

namespace TFProtocol

open Bytes

/-- Block cipher key length, `BLK_KEYSZ`. -/
def blkKeysz : ℕ := 32

/-- Block cipher vector length, `BLK_IVSZ`. -/
def blkIvsz : ℕ := 16

/-- Block length, `BLK_SIZE`. -/
def blkSize : ℕ := 16

/-- The length of the ciphertext of `n` bytes: `(len / BLK_SIZE + 1) * BLK_SIZE`. -/
def aesLen (n : ℕ) : ℕ := (n / blkSize + 1) * blkSize

/-- AES-256-CBC with PKCS#7 padding, under a key and a vector.  Decryption
stores plaintext as it goes and finds out about the padding at the end. -/
structure Aes where
  enc : List Byte → List Byte → List Byte → List Byte
  /-- The bytes stored, and whether the padding was right. -/
  dec : List Byte → List Byte → List Byte → List Byte × Bool
  /-- Padding fills the last block, with a whole block when there is nothing to fill. -/
  length_enc : ∀ k v m, (enc k v m).length = aesLen m.length
  /-- Decryption under the same key and vector inverts encryption. -/
  dec_enc : ∀ k v m, dec k v (enc k v m) = (m, true)

/-- PKCS#7 padding. -/
def pkcs7 (m : List Byte) : List Byte :=
  m ++ List.replicate (blkSize - m.length % blkSize) (BitVec.ofNat 8 (blkSize - m.length % blkSize))

/-- Removal of PKCS#7 padding: the last byte says how much to drop. -/
def unpkcs7 (c : List Byte) : List Byte × Bool :=
  (c.take (c.length - (c.getLastD 0).toNat), decide (c.length % blkSize = 0))

theorem length_pkcs7 (m : List Byte) : (pkcs7 m).length = aesLen m.length := by
  simp only [pkcs7, aesLen, blkSize, List.length_append, List.length_replicate]
  omega

theorem getLastD_pkcs7 (m : List Byte) :
    (pkcs7 m).getLastD 0 = BitVec.ofNat 8 (blkSize - m.length % blkSize) := by
  obtain ⟨j, hj⟩ : ∃ j, blkSize - m.length % blkSize = j + 1 :=
    ⟨blkSize - m.length % blkSize - 1, by simp only [blkSize]; omega⟩
  rw [pkcs7, hj, List.replicate_succ', ← List.append_assoc, List.getLastD_concat]

/-- The last byte says how many bytes were added. -/
theorem toNat_getLastD_pkcs7 (m : List Byte) :
    ((pkcs7 m).getLastD 0).toNat = blkSize - m.length % blkSize := by
  rw [getLastD_pkcs7]
  simp only [BitVec.toNat_ofNat, blkSize]
  omega

theorem length_pkcs7_mod (m : List Byte) : (pkcs7 m).length % blkSize = 0 := by
  rw [length_pkcs7, aesLen]
  exact Nat.mul_mod_left ..

/-- The message stands before the bytes that were added. -/
theorem length_pkcs7_sub (m : List Byte) :
    (pkcs7 m).length - (blkSize - m.length % blkSize) = m.length := by
  simp only [pkcs7, List.length_append, List.length_replicate, Nat.add_sub_cancel]

theorem unpkcs7_pkcs7 (m : List Byte) : unpkcs7 (pkcs7 m) = (m, true) := by
  have htake : (pkcs7 m).take m.length = m := by simp [pkcs7]
  simp only [unpkcs7, toNat_getLastD_pkcs7, length_pkcs7_mod, decide_true, length_pkcs7_sub, htake]

/-- The ciphertext of the one-byte message `2a` under a zero vector: the values
of AES-256-CBC for the zero key and for the key `01 00 … 00`. -/
def sampleBlock (k : List Byte) : List Byte :=
  if k = List.replicate blkKeysz 0 then
    [0x6a, 0xd5, 0x0c, 0xa2, 0x66, 0xa3, 0xe3, 0x20, 0x24, 0x81, 0x8f, 0x11, 0x83, 0x9a, 0xfb, 0x2f]
  else
    [0xb9, 0xfa, 0xa4, 0x7c, 0x67, 0x93, 0x1e, 0x55, 0xae, 0xe2, 0xc9, 0x48, 0xa6, 0xc6, 0x6f, 0xb2]

/-- A cipher to run the model on: padding alone, except that the block of `2a`
and its AES ciphertext change places. -/
def Aes.sample : Aes where
  enc := fun k _ m => Equiv.swap (pkcs7 [0x2a]) (sampleBlock k) (pkcs7 m)
  dec := fun k _ c => unpkcs7 (Equiv.swap (pkcs7 [0x2a]) (sampleBlock k) c)
  length_enc := fun k _ m => by
    have hblock : (sampleBlock k).length = (pkcs7 [0x2a]).length := by
      unfold sampleBlock
      split <;> rfl
    rw [← length_pkcs7, Equiv.swap_apply_def]
    split
    · next h => rw [h, hblock]
    · split
      · next h => rw [h, hblock]
      · rfl
  dec_enc := fun k _ m => by rw [Equiv.swap_apply_self]; exact unpkcs7_pkcs7 m

/-! ### Contexts -/

/-- What a context was initialised for. -/
inductive EvpDir
  | encrypt
  | decrypt
  deriving DecidableEq, Repr, Inhabited

/-- An `EVP_CIPHER_CTX`: the direction, key and vector it captured, and whether
it was freed. -/
structure EvpCtx where
  bound : Option (EvpDir × List Byte × List Byte)
  freed : Bool
  deriving DecidableEq, Repr, Inhabited

/-- The library's state: a context pointer is an index into `ctxs`. -/
structure Ossl where
  ctxs : List EvpCtx
  /-- The outcomes of the calls that can fail, in order; success past the end. -/
  fates : List Bool
  /-- A null or freed context was used, or one was freed twice. -/
  misuse : Bool
  deriving DecidableEq, Repr, Inhabited

namespace Ossl

/-- The outcome of the next call that can fail. -/
def fate (l : Ossl) : Bool := l.fates.headD true

/-- The state after that call's outcome was taken. -/
def step (l : Ossl) : Ossl := { l with fates := l.fates.tail }

/-- `EVP_CIPHER_CTX_new`. -/
def ctxNew (l : Ossl) : Option ℕ × Ossl :=
  if l.fate then (some l.ctxs.length, { l.step with ctxs := l.ctxs ++ [⟨none, false⟩] })
  else (none, l.step)

/-- The context a pointer refers to, if it is live. -/
def live (l : Ossl) (ctx : Option ℕ) : Option EvpCtx :=
  (ctx.bind fun i => l.ctxs[i]?).filter fun c => !c.freed

/-- `EVP_EncryptInit_ex` or `EVP_DecryptInit_ex` with a cipher, key and vector. -/
def init (l : Ossl) (ctx : Option ℕ) (d : EvpDir) (key iv : List Byte) : Bool × Ossl :=
  match ctx, l.live ctx with
  | some i, some _ =>
    if l.fate then (true, { l.step with ctxs := l.ctxs.set i ⟨some (d, key, iv), false⟩ })
    else (false, l.step)
  | _, _ => (false, { l with misuse := true })

/-- The same call with null arguments: the captured key and vector are used
again from the start.  A context without a cipher is refused. -/
def reinit (l : Ossl) (ctx : Option ℕ) : Option (List Byte × List Byte) × Ossl :=
  match l.live ctx with
  | some c => if l.fate then (c.bound.map Prod.snd, l.step) else (none, l.step)
  | none => (none, { l with misuse := true })

/-- `EVP_CIPHER_CTX_free`: a null pointer is ignored. -/
def ctxFree (l : Ossl) (ctx : Option ℕ) : Ossl :=
  match ctx, l.live ctx with
  | none, _ => l
  | some i, some c => { l with ctxs := l.ctxs.set i { c with freed := true } }
  | some _, none => { l with misuse := true }

end Ossl

/-! ### The functions of `crypto.c` -/

/-- `struct blkcipher`. -/
structure BlkCipher where
  key : List Byte
  iv : List Byte
  ctx : Option ℕ
  deriving DecidableEq, Repr, Inhabited

/-- A cleared `struct blkcipher`, as `memset` leaves it. -/
def BlkCipher.zero : BlkCipher :=
  ⟨List.replicate blkKeysz 0, List.replicate blkIvsz 0, none⟩

/-- The body shared by `blkinit_en` and `blkinit_de`: the whole structure is
cleared, key and vector included, before the context is created and
initialised from it. -/
def blkinit (d : EvpDir) (l : Ossl) (_cipher : BlkCipher) : Bool × Ossl × BlkCipher :=
  let cipher := BlkCipher.zero
  let new := l.ctxNew
  match new.1 with
  | none => (false, new.2, cipher)
  | some i =>
    let cipher := { cipher with ctx := some i }
    let r := new.2.init cipher.ctx d cipher.key cipher.iv
    (r.1, r.2, cipher)

/-- `blkinit_en`. -/
def blkinitEn (l : Ossl) (cipher : BlkCipher) : Bool × Ossl × BlkCipher :=
  blkinit .encrypt l cipher

/-- `blkinit_de`. -/
def blkinitDe (l : Ossl) (cipher : BlkCipher) : Bool × Ossl × BlkCipher :=
  blkinit .decrypt l cipher

/-- `blkfin`. -/
def blkfin (l : Ossl) (cipher : BlkCipher) : Ossl := l.ctxFree cipher.ctx

/-- `blkencrypt(cipher, cidata, pldata, pllen)`: the ciphertext it writes, or
`none` for `-1`.  OpenSSL refuses a negative length. -/
def blkencrypt (aes : Aes) (l : Ossl) (cipher : BlkCipher) (pldata : List Byte) (pllen : ℤ) :
    Option (List Byte) × Ossl :=
  let r := l.reinit cipher.ctx
  match r.1 with
  | none => (none, r.2)
  | some kv =>
    if pllen < 0 then (none, r.2)
    else (some (aes.enc kv.1 kv.2 (pldata.take pllen.toNat)), r.2)

/-- `blkdecrypt(cipher, pldata, cidata, cilen)`: the bytes it stores, and
whether it succeeds. -/
def blkdecrypt (aes : Aes) (l : Ossl) (cipher : BlkCipher) (cidata : List Byte) (cilen : ℤ) :
    (List Byte × Bool) × Ossl :=
  let r := l.reinit cipher.ctx
  match r.1 with
  | none => (([], false), r.2)
  | some kv =>
    if cilen < 0 then (([], false), r.2)
    else (aes.dec kv.1 kv.2 (cidata.take cilen.toNat), r.2)

/-! ### What an initialised context holds -/

/-- The key and vector a context pointer stands for. -/
def Ossl.boundTo (l : Ossl) (ctx : Option ℕ) : Option (List Byte × List Byte) :=
  (l.live ctx).bind fun c => c.bound.map Prod.snd

/-- Only the contexts themselves decide what a pointer stands for. -/
theorem Ossl.boundTo_congr {l l' : Ossl} (h : l.ctxs = l'.ctxs) (ctx : Option ℕ) :
    l.boundTo ctx = l'.boundTo ctx := by
  simp only [boundTo, live, h]

theorem Ossl.ctxs_reinit (l : Ossl) (ctx : Option ℕ) : (l.reinit ctx).2.ctxs = l.ctxs := by
  unfold reinit
  split
  · split <;> rfl
  · rfl

theorem Ossl.boundTo_append (l : Ossl) (c : EvpCtx) {i : ℕ} (hi : i < l.ctxs.length)
    (fates : List Bool) (b : Bool) :
    Ossl.boundTo ⟨l.ctxs ++ [c], fates, b⟩ (some i) = l.boundTo (some i) := by
  simp only [boundTo, live, Option.bind_some, List.getElem?_append_left hi]

/-- A successful `EVP_CIPHER_CTX_new` appends a live context without a cipher. -/
theorem Ossl.ctxNew_of_fate {l : Ossl} (h : l.fate = true) :
    l.ctxNew = (some l.ctxs.length, { l.step with ctxs := l.ctxs ++ [⟨none, false⟩] }) := by
  rw [ctxNew, h, if_pos rfl]

/-- Initialising the context that was created last. -/
theorem Ossl.init_last (cs : List EvpCtx) (fates : List Bool) (b : Bool) (d : EvpDir)
    (key iv : List Byte) :
    Ossl.init ⟨cs ++ [⟨none, false⟩], fates, b⟩ (some cs.length) d key iv
      = (fates.headD true,
          ⟨if fates.headD true then cs ++ [⟨some (d, key, iv), false⟩] else cs ++ [⟨none, false⟩],
            fates.tail, b⟩) := by
  have hlive : Ossl.live ⟨cs ++ [⟨none, false⟩], fates, b⟩ (some cs.length)
      = some ⟨none, false⟩ := by
    simp [live, Option.filter_some]
  cases h : fates.headD true with
  | false => simp only [init, hlive, fate, step, h, Bool.false_eq_true, if_false]
  | true => simp [init, hlive, fate, step, -List.headD_eq_head?_getD, h]

/-- No context: the structure is cleared, and that is all. -/
theorem blkinit_of_no_ctx {l : Ossl} (h : l.fate = false) (d : EvpDir) (cipher : BlkCipher) :
    blkinit d l cipher = (false, l.step, BlkCipher.zero) := by
  simp [blkinit, Ossl.ctxNew, h]

/-- A new context, with the cleared structure's key and vector if it can be initialised. -/
theorem blkinit_of_ctx {l : Ossl} (h : l.fate = true) (d : EvpDir) (cipher : BlkCipher) :
    blkinit d l cipher = (l.fates.tail.headD true,
      ⟨if l.fates.tail.headD true then
          l.ctxs ++ [⟨some (d, List.replicate blkKeysz 0, List.replicate blkIvsz 0), false⟩]
        else l.ctxs ++ [⟨none, false⟩], l.fates.tail.tail, l.misuse⟩,
      { BlkCipher.zero with ctx := some l.ctxs.length }) := by
  have hinit := Ossl.init_last l.ctxs l.fates.tail l.misuse d (List.replicate blkKeysz 0)
    (List.replicate blkIvsz 0)
  simp only [blkinit, Ossl.ctxNew_of_fate h, Ossl.step, BlkCipher.zero, hinit]

/-- A successful initialisation: the context is the new one, under the cleared
structure's key and vector. -/
theorem blkinit_of_ok {d : EvpDir} {l : Ossl} {cipher : BlkCipher}
    (h : (blkinit d l cipher).1 = true) :
    blkinit d l cipher = (true,
      ⟨l.ctxs ++ [⟨some (d, List.replicate blkKeysz 0, List.replicate blkIvsz 0), false⟩],
        l.fates.tail.tail, l.misuse⟩,
      { BlkCipher.zero with ctx := some l.ctxs.length }) := by
  -- without a context there is nothing to initialise, and the call fails
  cases hnew : l.fate with
  | false =>
    rw [blkinit_of_no_ctx hnew] at h
    cases h
  | true =>
    rw [blkinit_of_ctx hnew] at h ⊢
    dsimp only at h
    rw [h, if_pos rfl]

/-- The two calls that make a context. -/
theorem blkinit_ok_iff (d : EvpDir) (l : Ossl) (cipher : BlkCipher) :
    (blkinit d l cipher).1 = true ↔ false ∉ l.fates.take 2 := by
  rcases hf : l.fates with _ | ⟨b, _ | ⟨b', bs⟩⟩
  · rw [blkinit_of_ctx (by simp [Ossl.fate, hf])]
    simp [hf]
  · cases b with
    | false =>
      rw [blkinit_of_no_ctx (by simp [Ossl.fate, hf])]
      simp
    | true =>
      rw [blkinit_of_ctx (by simp [Ossl.fate, hf])]
      simp [hf]
  · cases b with
    | false =>
      rw [blkinit_of_no_ctx (by simp [Ossl.fate, hf])]
      simp
    | true =>
      rw [blkinit_of_ctx (by simp [Ossl.fate, hf])]
      simp [hf, eq_comm]

/-- **An initialised cipher runs under the all-zero key and vector**: the
structure is cleared before the context is created from it, so nothing the caller
stored in `key` and `iv` reaches OpenSSL.  Contexts created before are not
touched. -/
theorem blkinit_bound {d : EvpDir} {l : Ossl} {cipher : BlkCipher}
    (h : (blkinit d l cipher).1 = true) :
    (blkinit d l cipher).2.1.boundTo (blkinit d l cipher).2.2.ctx
        = some (List.replicate blkKeysz 0, List.replicate blkIvsz 0) ∧
      (∀ i, i < l.ctxs.length →
        (blkinit d l cipher).2.1.boundTo (some i) = l.boundTo (some i)) ∧
      ∃ i, (blkinit d l cipher).2.2.ctx = some i ∧ i < (blkinit d l cipher).2.1.ctxs.length := by
  rw [blkinit_of_ok h]
  refine ⟨?_, ?_, ?_⟩
  · simp [Ossl.boundTo, Ossl.live, Option.filter_some]
  · intro i hi
    exact l.boundTo_append _ hi _ _
  · simp

end TFProtocol
