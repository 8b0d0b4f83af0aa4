import TFProtocol.BlkBounds

/-!
# Lengths through the layers

`cmd_put` and `cmd_get` agree on a buffer size that is an `int64_t` and that only a tenth of
the free memory bounds.  A chunk of that size then passes `sndbuf`, `rcvbuf`, `wrfd`, `rdfd`,
`encrypt`, `blk_sndbuf`, `blk_rcvbuf`, `writechunk` and the local `wb` of `putstream`, and
most of them hold its length in an `int`.

## Main definitions

* `getputbuf`, `negotiated` — the size of the buffer.
* `encryptAll` — what `encrypt` is to do to a buffer.
* `LengthsSurvive` — a length comes back from every layer, with all its bytes processed.

## Main results

* `lengths_survive_iff` — **a length survives exactly when it is below `2 ^ 31`**, in block
  mode when the length of its ciphertext is.
-/

namespace TFProtocol

open Bytes CStr

/-! ### The size of the buffer -/

/-- `HPFBUFP`, the percentage of the free memory. -/
def hpfbufp : ℤ := 10

/-- `getputbuf`, with the answers of `sysconf`. -/
def getputbuf (apages pagesz : ℤ) : ℤ := (apages * pagesz * hpfbufp).tdiv 100

/-- The size that `cmd_put` and `cmd_get` reply with. -/
def negotiated (apages pagesz want : ℤ) : ℤ :=
  if want > getputbuf apages pagesz then getputbuf apages pagesz else want

/-! ### What the layers are to do -/

/-- Every byte of the buffer goes through the stream cipher, if there is one and it is on. -/
def encryptAll (o : Endian) (c : Crypto) (data : List Byte) : Crypto × List Byte :=
  if c.hasEncrypt = true ∧ c.st = .on then
    let r := Mealy.run (encryptByte o) (c, 0) data
    (r.1.1, r.2)
  else (c, data)

/-- The bytes in front of a payload that are the token. -/
def tokenLen (s : Sess) : ℕ := if s.ciaSt then 36 else 0

/-- The token in front of a payload is the right one. -/
def TokenRight (o : Endian) (s : Sess) (inp : List Byte) : Prop :=
  s.ciaSt = true → s.cia = cstr (encryptAll o s.crypRx (inp.take 36)).2

/-- The cipher of the receiver behind the token. -/
def behindToken (o : Endian) (s : Sess) (inp : List Byte) : Crypto :=
  if s.ciaSt then (encryptAll o s.crypRx (inp.take 36)).1 else s.crypRx

/-- The bytes a send puts on the descriptor. -/
def sentBytes (o : Endian) (aes : Aes) (s : Sess) (data : List Byte) : List Byte :=
  if s.blkstatus then
    match s.ossl.boundTo s.cipherTx.ctx with
    | some (k, v) => if data = [] then [] else aes.enc k v data
    | none => []
  else (encryptAll o s.crypTx data).2

/-- A length comes back from every layer, and all bytes were processed. -/
structure LengthsSurvive (o : Endian) (aes : Aes) (s : Sess) (n : ℕ) : Prop where
  sent : ∀ data : List Byte, data.length = n → (sndbuf o aes s data true).ret = n ∧
    (sndbuf o aes s data true).sess.out = s.out ++ sentBytes o aes s data
  /-- In stream mode any bytes may arrive. -/
  received : s.blkstatus = false → ∀ inp, TokenRight o s inp → tokenLen s + n ≤ inp.length →
    (rcvbuf o aes { s with inp := inp } n true).ret = n ∧
      (rcvbuf o aes { s with inp := inp } n true).got =
        (encryptAll o (behindToken o s inp) ((inp.drop (tokenLen s)).take n)).2
  /-- In block mode, the ciphertext of `n` bytes. -/
  deciphered : s.blkstatus = true → ∀ k v data rest, data.length = n →
    s.ossl.boundTo s.cipherRx.ctx = some (k, v) →
    (rcvbuf o aes (arriving aes s k v data rest) n true).ret = n ∧
      (rcvbuf o aes (arriving aes s k v data rest) n true).got = data
  /-- The comparison of `putstream`, when one call of `write` stores everything. -/
  stored : ∀ buf : List Byte, buf.length = n → cint (writechunk [] buf).1 = n

/-- Reads and writes transfer everything, and in block mode there are contexts. -/
structure Transferring (s : Sess) : Prop where
  reads : Quiet s.rsched
  writes : Quiet s.wsched
  block : s.blkstatus = true → Undisturbed s ∧ (s.ossl.boundTo s.cipherTx.ctx).isSome ∧
    (s.ossl.boundTo s.cipherRx.ctx).isSome

/-! ### Stream mode -/

section

variable {o : Endian} {aes : Aes} {s : Sess}

/-- `encrypt` covers a buffer whose length is an `int`. -/
theorem encrypt_all {c : Crypto} (hset : c.hasEncrypt = true) {data : List Byte}
    (hlen : data.length < 2 ^ 31) : encrypt o c data data.length = encryptAll o c data := by
  unfold encrypt encryptAll
  cases hst : c.st with
  | on =>
    rw [if_pos ⟨hset, rfl⟩]
    simp only [cint_of_lt hlen, Int.toNat_natCast, List.take_length, List.drop_length,
      List.append_nil]
  | off => rw [if_neg (by simp)]

/-- Without an `encrypt` a buffer stays as it is. -/
theorem encryptAll_unset {c : Crypto} (h : ¬ c.hasEncrypt = true) (data : List Byte) :
    encryptAll o c data = (c, data) := if_neg fun hand => h hand.1

theorem length_encryptAll (c : Crypto) (data : List Byte) :
    (encryptAll o c data).2.length = data.length := by
  unfold encryptAll
  split
  · exact Mealy.length_run ..
  · rfl

/-- Sending in stream mode. -/
theorem sndbuf_all (hmode : s.blkstatus = false) (hq : Quiet s.wsched) {data : List Byte}
    (hlen : data.length < 2 ^ 31) :
    (sndbuf o aes s data true).ret = data.length ∧
      (sndbuf o aes s data true).sess.out = s.out ++ (encryptAll o s.crypTx data).2 := by
  have hwr : ∀ (t : Sess) (bs : List Byte), Quiet t.wsched → bs.length = data.length →
      (wrfd t bs).1 = data.length ∧ (wrfd t bs).2.out = t.out ++ bs := by
    intro t bs ht hbs
    obtain ⟨hok, hbytes, -⟩ := wrLoop_all t.wsched bs ht
    unfold wrfd
    dsimp only
    rw [if_pos hok, hbytes, hbs]
    exact ⟨cint_of_lt hlen, rfl⟩
  unfold sndbuf
  rw [hmode, if_neg Bool.false_ne_true]
  split
  next henc =>
    have hset : s.crypTx.hasEncrypt = true := by simpa using henc
    dsimp only
    rw [encrypt_all hset hlen]
    exact hwr _ _ hq (length_encryptAll ..)
  next henc =>
    rw [encryptAll_unset (by simpa using henc)]
    exact hwr s data hq rfl

/-- Receiving in stream mode, without the check of the token. -/
theorem streamRead_all (hq : Quiet s.rsched) {n : ℕ} (hn : n < 2 ^ 31) (hinp : n ≤ s.inp.length) :
    ∃ t, streamRead o s n true = ⟨n, (encryptAll o s.crypRx (s.inp.take n)).2, t⟩ ∧
      t.inp = s.inp.drop n ∧ t.crypRx = (encryptAll o s.crypRx (s.inp.take n)).1 ∧
      Quiet t.rsched := by
  obtain ⟨hok, hbytes, hrest, hsched⟩ := rdLoop_all s.rsched n s.inp hq hinp
  have hlen : (s.inp.take n).length = n := List.length_take_of_le hinp
  have hrd : rdfd s n = ⟨n, s.inp.take n, (rdfd s n).sess⟩ := by
    unfold rdfd
    dsimp only
    rw [Int.toNat_natCast, if_pos hok, hbytes, cint_of_lt hn]
  have hne : ¬ (n : ℤ) = -1 := by omega
  have hcryp : (rdfd s n).sess.crypRx = s.crypRx := rfl
  unfold streamRead
  rw [hrd]
  dsimp only
  rw [if_neg hne, hcryp]
  split
  next henc =>
    have hset : s.crypRx.hasEncrypt = true := by simpa using henc
    have hall : encrypt o s.crypRx (s.inp.take n) n = encryptAll o s.crypRx (s.inp.take n) := by
      have hcov := @encrypt_all o s.crypRx hset (s.inp.take n) (by rw [hlen]; exact hn)
      rwa [hlen] at hcov
    rw [hall]
    exact ⟨{ (rdfd s n).sess with crypRx := _ }, rfl, hrest, rfl, hsched⟩
  next henc =>
    rw [encryptAll_unset (by simpa using henc)]
    exact ⟨(rdfd s n).sess, rfl, hrest, rfl, hsched⟩

/-- Receiving in stream mode, behind the token if one is asked for. -/
theorem rcvbuf_all (hmode : s.blkstatus = false) (hq : Quiet s.rsched) {n : ℕ} (hn : n < 2 ^ 31)
    {inp : List Byte} (htok : TokenRight o s inp) (hinp : tokenLen s + n ≤ inp.length) :
    (rcvbuf o aes { s with inp := inp } n true).ret = n ∧
      (rcvbuf o aes { s with inp := inp } n true).got =
        (encryptAll o (behindToken o s inp) ((inp.drop (tokenLen s)).take n)).2 := by
  unfold rcvbuf
  rw [if_neg (by simp [hmode])]
  by_cases hcia : s.ciaSt = true
  · have hlen : tokenLen s = 36 := if_pos hcia
    have hcipher : behindToken o s inp = (encryptAll o s.crypRx (inp.take 36)).1 := if_pos hcia
    rw [hlen] at hinp ⊢
    obtain ⟨t, htok36, hrest, hcryp, hquiet⟩ :=
      @streamRead_all o { s with inp := inp } hq 36 (by decide) (by show 36 ≤ inp.length; omega)
    dsimp only at htok36 hrest hcryp
    obtain ⟨u, hread, -⟩ := @streamRead_all o t hquiet n hn
      (by rw [hrest, List.length_drop]; omega)
    have hne : ¬ ((36 : ℕ) : ℤ) = -1 := by omega
    rw [if_pos hcia, show (36 : ℤ) = ((36 : ℕ) : ℤ) from rfl, htok36]
    dsimp only
    rw [if_neg hne, if_pos (htok hcia), hread, hrest, hcryp, hcipher]
    exact ⟨rfl, rfl⟩
  · have hlen : tokenLen s = 0 := if_neg hcia
    have hcipher : behindToken o s inp = s.crypRx := if_neg hcia
    rw [hlen] at hinp ⊢
    obtain ⟨u, hread, -⟩ := @streamRead_all o { s with inp := inp } hq n hn
      (by show n ≤ inp.length; omega)
    rw [if_neg hcia, hread, List.drop_zero, hcipher]
    exact ⟨rfl, rfl⟩

/-! ### Both modes -/

/-- A count that `write` returns at once. -/
theorem writechunk_nil (buf : List Byte) : (writechunk [] buf).1 = buf.length := rfl

/-- Sending in block mode. -/
theorem blkSndbuf_all {k v : List Byte} (hb : s.ossl.boundTo s.cipherTx.ctx = some (k, v))
    (hs : Undisturbed s) {data : List Byte} (hlen : aesLen data.length < 2 ^ 31) :
    (blkSndbuf aes s data).ret = data.length ∧
      (blkSndbuf aes s data).sess.out = s.out ++ (if data = [] then [] else aes.enc k v data) := by
  by_cases hne : data = []
  · rw [if_pos hne, blkSndbuf, if_pos hne, hne]
    exact ⟨rfl, (List.append_nil _).symm⟩
  · rw [if_neg hne]
    exact blkSndbuf_under aes hb hs hne hlen

/-- **When lengths survive.**  With reads and writes that transfer everything, a length comes
back from `sndbuf`, `rcvbuf` and the comparison of `putstream`, with every byte encrypted or
decrypted, exactly when it is below `2 ^ 31`; in block mode, when that holds of the length of
its ciphertext. -/
theorem lengths_survive_iff (o : Endian) (aes : Aes) {s : Sess} (hs : Transferring s) (n : ℕ) :
    LengthsSurvive o aes s n ↔ (if s.blkstatus then aesLen n else n) < 2 ^ 31 := by
  cases hmode : s.blkstatus with
  | false =>
    rw [if_neg Bool.false_ne_true]
    constructor
    · intro h
      have hstored := h.stored (List.replicate n 0) List.length_replicate
      rw [writechunk_nil, List.length_replicate] at hstored
      exact cint_eq_self_iff.mp hstored
    · intro hn
      refine ⟨?_, fun _ inp htok hinp => rcvbuf_all hmode hs.reads hn htok hinp, ?_, ?_⟩
      · rintro data rfl
        rw [sentBytes, hmode, if_neg Bool.false_ne_true]
        exact sndbuf_all hmode hs.writes hn
      · exact fun h => nomatch hmode.symm.trans h
      · rintro buf rfl
        exact cint_of_lt hn
  | true =>
    obtain ⟨hund, htx, hrx⟩ := hs.block hmode
    obtain ⟨⟨kt, vt⟩, htx⟩ := Option.isSome_iff_exists.mp htx
    obtain ⟨⟨kr, vr⟩, hrx⟩ := Option.isSome_iff_exists.mp hrx
    have hsnd : ∀ data, sndbuf o aes s data true = blkSndbuf aes s data := fun data => if_pos hmode
    have hrcv : ∀ k v data rest, rcvbuf o aes (arriving aes s k v data rest) n true =
        blkRcvbuf aes (arriving aes s k v data rest) n := fun k v data rest => if_pos hmode
    rw [if_pos rfl]
    constructor
    · intro h
      obtain ⟨hret, -⟩ := h.deciphered hmode kr vr (List.replicate n 0) [] List.length_replicate hrx
      rw [hrcv] at hret
      rcases Nat.eq_zero_or_pos n with rfl | hpos
      · decide
      · rcases blkRcvbuf_ret aes (arriving aes s kr vr (List.replicate n 0) []) hpos.ne'
          with hneg | ⟨hcint, hnn⟩
        · rw [hneg] at hret
          omega
        · exact aesLen_lt_of_cint (hcint.symm.trans hret) hnn
    · intro hn
      have hlt := length_le_aesLen n
      refine ⟨?_, fun h => (nomatch hmode.symm.trans h), ?_, ?_⟩
      · rintro data rfl
        rw [hsnd, sentBytes, hmode, if_pos rfl, htx]
        exact blkSndbuf_all htx hund hn
      · rintro - k v data rest rfl hkv
        rw [hrcv]
        by_cases hne : data = []
        · rw [hne]
          exact ⟨rfl, rfl⟩
        · exact blkRcvbuf_under hkv hund hne hn rest
      · rintro buf rfl
        exact cint_of_lt (by omega)

/-- The initial session: stream mode, and no interruptions. -/
theorem transferring_default : Transferring default :=
  ⟨by unfold Quiet; decide, by unfold Quiet; decide, fun h => absurd h (by decide)⟩

/-- A chunk of one kilobyte. -/
theorem lengths_survive_kilobyte : LengthsSurvive .little Aes.sample default 1024 :=
  (lengths_survive_iff .little Aes.sample transferring_default 1024).mpr (by decide)

/-- The free memory of a machine with 24 GiB lets a client have a buffer of `2 ^ 31` bytes, and
that length comes back negative. -/
theorem negotiated_length_lost :
    ¬ ∀ (o : Endian) (aes : Aes) (s : Sess) (apages pagesz want : ℤ) (n : ℕ), Transferring s →
      n ≤ negotiated apages pagesz want → LengthsSurvive o aes s n := by
  intro h
  have hstored := (h .little Aes.sample default 6291456 4096 2147483648 (2 ^ 31)
    transferring_default (by decide)).stored (List.replicate (2 ^ 31) 0) List.length_replicate
  rw [writechunk_nil, List.length_replicate] at hstored
  exact absurd (cint_eq_self_iff.mp hstored) (by decide)

end

end TFProtocol
