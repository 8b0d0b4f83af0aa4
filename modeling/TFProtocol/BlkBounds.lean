import TFProtocol.Goaes

/-!
# What a receive in block mode stores

`blk_rcvbuf` computes the length of the ciphertext from the length it is asked for, but how
long the plaintext is the padding says, and that is the peer's.  The call decrypts straight
into the caller's buffer and returns the length it was asked for.

Of the cipher this module uses how much it stores: a plaintext that is accepted is shorter
than its ciphertext by one to sixteen bytes, and a decryption that fails at the padding has
stored all blocks but the last.

## Main definitions

* `DecBounds` — how much a decryption stores.
* `AsAsked` — a call failed or stored the bytes it was asked for, and no more.
* `Deciphers` — the next frame on the descriptor is the ciphertext of a plaintext.
* `BlkReceives` — the property of a call: the bytes it stores, those of the call it makes for
  the token, and what an honest peer's payload becomes.

## Main results

* `asAsked_blkRead_iff` — one frame.
* `blkReceives_iff` — **a call stores what it was asked for exactly when every ciphertext it
  decrypts has a plaintext of that length.**
-/

namespace TFProtocol

open Bytes CStr

/-- What AES-256-CBC with padding stores.  A plaintext is shorter than its ciphertext, by at
most one block; when the padding is wrong the last block has not been stored. -/
structure DecBounds (aes : Aes) : Prop where
  accepted : ∀ k v c, (aes.dec k v c).2 = true →
    (aes.dec k v c).1.length < c.length ∧ c.length ≤ (aes.dec k v c).1.length + blkSize
  refused : ∀ k v c, (aes.dec k v c).2 = false → (aes.dec k v c).1.length ≤ c.length - blkSize

/-- A receive of `n` bytes failed, or stored `n` bytes and returned `n`; in both cases it
stored nothing behind the buffer. -/
def AsAsked (n : ℕ) (r : Rcv) : Prop :=
  (r.ret = -1 ∨ (r.ret = n ∧ r.got.length = n)) ∧ r.got.length ≤ n

instance (n : ℕ) (r : Rcv) : Decidable (AsAsked n r) :=
  inferInstanceAs (Decidable ((_ ∨ (_ ∧ _)) ∧ _))

/-- The next frame is read without an error and is a ciphertext of `m`, for a receive of `n`
bytes.  OpenSSL is told the length of the ciphertext as an `int`. -/
def Deciphers (aes : Aes) (s : Sess) (n : ℕ) (m : List Byte) : Prop :=
  (rdLoop s.rsched (aesLen n) s.inp).ok = true ∧ 0 ≤ cint (aesLen n) ∧
    ∃ k v, (s.ossl.reinit s.cipherRx.ctx).1 = some (k, v) ∧
      aes.dec k v ((s.inp.take (aesLen n)).take (cint (aesLen n)).toNat) = (m, true)

/-! ### The lengths as `int` -/

theorem cint_aesLen_ne (n : ℕ) : cint (aesLen n) ≠ -1 := by
  simp only [cint, aesLen, blkSize, BitVec.toInt_ofInt, Int.bmod_def]
  norm_num
  omega

/-- A length that becomes `-1` needs a ciphertext whose length becomes `0`. -/
theorem cint_aesLen_of_cint {n : ℕ} (h : cint n = -1) : cint (aesLen n) = 0 := by
  simp only [cint, aesLen, blkSize, BitVec.toInt_ofInt, Int.bmod_def] at h ⊢
  norm_num at h ⊢
  omega

theorem toNat_cint_lt (n : ℤ) : (cint n).toNat < 2 ^ 31 := by
  simp only [cint, BitVec.toInt_ofInt, Int.bmod_def]
  norm_num
  omega

theorem aesLen_sub (n : ℕ) : aesLen n - blkSize ≤ n := by
  simp only [aesLen, blkSize]
  omega

/-! ### One frame -/

section

variable {aes : Aes} {s : Sess} {n : ℕ}

/-- A decryption that OpenSSL refuses before it looks at the ciphertext. -/
theorem blkdecrypt_refused {l : Ossl} {c : BlkCipher} {ct : List Byte} {len : ℤ}
    (h : ¬ (0 ≤ len ∧ (l.reinit c.ctx).1.isSome)) : (blkdecrypt aes l c ct len).1 = ([], false) := by
  unfold blkdecrypt
  dsimp only
  split
  · rfl
  next kv hkv =>
    split
    · rfl
    next hlen => exact absurd ⟨not_lt.mp hlen, by rw [hkv]; rfl⟩ h

theorem blkdecrypt_eq {l : Ossl} {c : BlkCipher} {ct k v : List Byte} {len : ℤ} (hlen : 0 ≤ len)
    (hkv : (l.reinit c.ctx).1 = some (k, v)) :
    (blkdecrypt aes l c ct len).1 = aes.dec k v (ct.take len.toNat) := by
  unfold blkdecrypt
  dsimp only
  rw [hkv]
  dsimp only
  rw [if_neg (not_lt.mpr hlen)]

/-- A frame that does not arrive. -/
theorem blkRead_of_lost (hok : (rdLoop s.rsched (aesLen n) s.inp).ok = false) :
    (blkRead aes s n).ret = -1 ∧ (blkRead aes s n).got = [] := by
  simp [blkRead, rdfd, hok]

/-- A frame that arrives is decrypted into the buffer, and the length asked for is returned. -/
theorem blkRead_of_frame (hok : (rdLoop s.rsched (aesLen n) s.inp).ok = true) :
    (blkRead aes s n).ret =
        (if (blkdecrypt aes s.ossl s.cipherRx (s.inp.take (aesLen n)) (cint (aesLen n))).1.2
          then cint n else -1) ∧
      (blkRead aes s n).got =
        (blkdecrypt aes s.ossl s.cipherRx (s.inp.take (aesLen n)) (cint (aesLen n))).1.1 := by
  obtain ⟨-, hbytes, -⟩ := rdLoop_of_ok s.rsched (aesLen n) s.inp hok
  unfold blkRead rdfd
  dsimp only
  rw [Int.toNat_natCast, if_pos hok, if_neg (cint_aesLen_ne n), hbytes]
  exact ⟨rfl, rfl⟩

/-- A frame that is accepted: the plaintext is stored. -/
theorem blkRead_of_deciphers {m : List Byte} (h : Deciphers aes s n m) :
    (blkRead aes s n).ret = cint n ∧ (blkRead aes s n).got = m := by
  obtain ⟨hok, hnn, k, v, hkv, hm⟩ := h
  obtain ⟨hret, hgot⟩ := @blkRead_of_frame aes s n hok
  rw [blkdecrypt_eq hnn hkv, hm] at hret hgot
  exact ⟨hret, hgot⟩

/-- A read that does not fail has accepted a frame. -/
theorem deciphers_of_ret (h : (blkRead aes s n).ret ≠ -1) :
    Deciphers aes s n (blkRead aes s n).got := by
  cases hok : (rdLoop s.rsched (aesLen n) s.inp).ok with
  | false => exact absurd (blkRead_of_lost hok).1 h
  | true =>
    obtain ⟨hret, hgot⟩ := @blkRead_of_frame aes s n hok
    by_cases hstart : 0 ≤ cint (aesLen n) ∧ (s.ossl.reinit s.cipherRx.ctx).1.isSome
    · obtain ⟨hnn, hsome⟩ := hstart
      obtain ⟨⟨k, v⟩, hkv⟩ := Option.isSome_iff_exists.mp hsome
      rw [blkdecrypt_eq hnn hkv] at hret hgot
      refine ⟨hok, hnn, k, v, hkv, Prod.ext hgot.symm ?_⟩
      by_contra hbad
      rw [if_neg hbad] at hret
      exact h hret
    · rw [blkdecrypt_refused hstart] at hret
      exact absurd hret h

/-- A plaintext is shorter than its ciphertext. -/
theorem Deciphers.length_lt (hdec : DecBounds aes) {m : List Byte} (h : Deciphers aes s n m) :
    m.length < (cint (aesLen n)).toNat := by
  obtain ⟨-, -, k, v, -, hm⟩ := h
  have hlt := (hdec.accepted k v _ (by rw [hm])).1
  rw [hm, List.length_take] at hlt
  exact lt_of_lt_of_le hlt (min_le_left _ _)

/-- A read stores the plaintext of the next frame; or there is none, and it fails and stores
no more than it was asked for. -/
theorem blkRead_cases (hdec : DecBounds aes) :
    Deciphers aes s n (blkRead aes s n).got ∨
      (blkRead aes s n).ret = -1 ∧ (blkRead aes s n).got.length ≤ n ∧
        ∀ m, ¬ Deciphers aes s n m := by
  cases hok : (rdLoop s.rsched (aesLen n) s.inp).ok with
  | false =>
    obtain ⟨hret, hgot⟩ := @blkRead_of_lost aes s n hok
    exact .inr ⟨hret, by rw [hgot]; exact Nat.zero_le n, fun m hm => nomatch hok.symm.trans hm.1⟩
  | true =>
    obtain ⟨hret, hgot⟩ := @blkRead_of_frame aes s n hok
    by_cases hstart : 0 ≤ cint (aesLen n) ∧ (s.ossl.reinit s.cipherRx.ctx).1.isSome
    · obtain ⟨hnn, hsome⟩ := hstart
      obtain ⟨⟨k, v⟩, hkv⟩ := Option.isSome_iff_exists.mp hsome
      rw [blkdecrypt_eq hnn hkv] at hret hgot
      set c := (s.inp.take (aesLen n)).take (cint (aesLen n)).toNat with hc
      cases hd : (aes.dec k v c).2 with
      | true => exact .inl ⟨hok, hnn, k, v, hkv, Prod.ext hgot.symm hd⟩
      | false =>
        -- the padding is wrong: the blocks before the last one fit
        have hclen : c.length ≤ aesLen n := by
          rw [hc, List.length_take, List.length_take]
          omega
        have hfit := hdec.refused k v c hd
        have hsub := aesLen_sub n
        refine .inr ⟨by rw [hret, if_neg (by simp [hd])], by rw [hgot]; omega, ?_⟩
        rintro m ⟨-, -, k', v', hkv', hm⟩
        obtain ⟨rfl, rfl⟩ : k = k' ∧ v = v' := by simpa [hkv] using hkv'
        rw [← hc] at hm
        rw [hm] at hd
        cases hd
    · rw [blkdecrypt_refused hstart] at hret hgot
      refine .inr ⟨hret, by rw [hgot]; exact Nat.zero_le n, ?_⟩
      rintro m ⟨-, hnn, k, v, hkv, -⟩
      exact absurd ⟨hnn, by rw [hkv]; rfl⟩ hstart

/-- **One frame is stored as asked exactly when its plaintext has the length asked for.** -/
theorem asAsked_blkRead_iff (hdec : DecBounds aes) :
    AsAsked n (blkRead aes s n) ↔ ∀ m, Deciphers aes s n m → m.length = n := by
  rcases @blkRead_cases aes s n hdec with hd | ⟨hret, hle, hno⟩
  · have hlt := hd.length_lt hdec
    rw [AsAsked, (blkRead_of_deciphers hd).1]
    constructor
    · rintro ⟨hneg | ⟨-, hlen⟩, -⟩ m hm
      · -- an empty ciphertext has no padding, so it is not accepted
        rw [cint_aesLen_of_cint hneg, Int.toNat_zero] at hlt
        omega
      · rw [← hlen, (blkRead_of_deciphers hm).2]
    · intro hall
      have hlen := hall _ hd
      have hn : n < 2 ^ 31 := by
        have := toNat_cint_lt (aesLen n)
        omega
      exact ⟨.inr ⟨cint_of_lt hn, hlen⟩, hlen.le⟩
  · exact iff_of_true ⟨.inl hret, hle⟩ fun m hm => absurd hm (hno m)

end

/-! ### The whole call -/

/-- The session behind a frame of `n` bytes: its ciphertext is off the descriptor, and the
context was initialised once. -/
def Sess.afterFrame (s : Sess) (n : ℕ) : Sess :=
  { s with
    inp := s.inp.drop (aesLen n)
    rsched := (rdLoop s.rsched (aesLen n) s.inp).sched
    ossl := (s.ossl.reinit s.cipherRx.ctx).2 }

/-- Every ciphertext that a receive of `n` bytes decrypts is one of a plaintext of the length
asked for: the token, where it is due, and behind the right token the payload. -/
def LengthsAsked (aes : Aes) (s : Sess) (n : ℕ) : Prop :=
  if s.ciaSt = true ∧ s.ciaSend = false then
    ∀ tok, Deciphers aes s 36 tok → tok.length = 36 ∧
      (s.cia = cstr tok → ∀ m, Deciphers aes (s.afterFrame 36) n m → m.length = n)
  else ∀ m, Deciphers aes s n m → m.length = n

/-- What `blk_rcvbuf` promises for a receive of `n` bytes. -/
structure BlkReceives (aes : Aes) (s : Sess) (n : ℕ) : Prop where
  stored : AsAsked n (blkRcvbuf aes s n)
  /-- The call it makes for the token, with the toggle up. -/
  token : s.ciaSt = true → s.ciaSend = false →
    AsAsked 36 (blkRcvbuf aes { s with ciaSend := true } 36)
  /-- What `blk_sndbuf` wrote for a peer with the same key and vector is received as it was,
  behind the token if one is due. -/
  honest : ∀ (p : Sess) (k v m x rest : List Byte), p.ossl.boundTo p.cipherTx.ctx = some (k, v) →
    s.ossl.boundTo s.cipherRx.ctx = some (k, v) → Undisturbed p → Undisturbed s →
    m.length = n → (blkSndbuf aes p m).sess.out = p.out ++ x →
    (blkRcvbuf aes { s with inp := (if s.ciaSt then aes.enc k v s.cia else []) ++ (x ++ rest) } n).ret
        = n ∧
      (blkRcvbuf aes { s with inp := (if s.ciaSt then aes.enc k v s.cia else []) ++ (x ++ rest) } n).got
        = m

section

variable {aes : Aes} {s : Sess} {n : ℕ}

theorem blkRcvbuf_direct (hn : 0 < n) (h : ¬ (s.ciaSt = true ∧ s.ciaSend = false)) :
    ∃ b, blkRcvbuf aes s n = blkRead aes { s with ciaSend := b } n := by
  have hpos : ¬ (n : ℤ) ≤ 0 := by omega
  by_cases hcia : s.ciaSt = true
  · have hsend : s.ciaSend = true := by
      by_contra hs
      exact h ⟨hcia, Bool.eq_false_of_not_eq_true hs⟩
    refine ⟨false, ?_⟩
    rw [blkRcvbuf, if_neg hpos, if_pos hcia, if_pos hsend, Int.toNat_natCast]
  · refine ⟨s.ciaSend, ?_⟩
    rw [blkRcvbuf, if_neg hpos, if_neg hcia, Int.toNat_natCast]

/-- Behind a frame that arrived, the next one is found. -/
theorem deciphers_blkRead (hok : (rdLoop s.rsched (aesLen 36) s.inp).ok = true) (m : List Byte) :
    Deciphers aes (blkRead aes s 36).sess n m ↔ Deciphers aes (s.afterFrame 36) n m := by
  obtain ⟨-, -, hrest⟩ := rdLoop_of_ok s.rsched (aesLen 36) s.inp hok
  have hossl : (blkdecrypt aes s.ossl s.cipherRx (rdLoop s.rsched (aesLen 36) s.inp).bytes
      (cint (aesLen 36))).2 = (s.ossl.reinit s.cipherRx.ctx).2 := by
    unfold blkdecrypt
    dsimp only
    split
    · rfl
    · split <;> rfl
  have hsess : (blkRead aes s 36).sess = { s.afterFrame 36 with
      act := s.act + BitVec.ofNat 8 (rdLoop s.rsched (aesLen 36) s.inp).calls } := by
    unfold blkRead rdfd
    dsimp only
    rw [Int.toNat_natCast, if_pos hok, if_neg (cint_aesLen_ne 36)]
    dsimp only
    rw [hossl, hrest]
    rfl
  rw [hsess]
  exact Iff.rfl

/-- The token as it is compared: the terminator stands behind its 36 bytes. -/
theorem cstr_token {tok : List Byte} (h : tok.length = 36) :
    cstr (overlay (List.replicate 37 0) tok) = cstr tok := by
  have hover : overlay (List.replicate 37 0) tok = tok ++ [0] := by
    rw [overlay, h]
    rfl
  rw [hover, cstr, cstr, List.takeWhile_append]
  split
  next hall =>
    rw [List.takeWhile_cons_of_neg (by simp), List.append_nil]
    exact ((List.takeWhile_prefix _).eq_of_length hall).symm
  · rfl

/-- The bytes that are stored, the call for the token included. -/
theorem stored_iff (hdec : DecBounds aes) (hn : 0 < n) :
    (AsAsked n (blkRcvbuf aes s n) ∧ (s.ciaSt = true → s.ciaSend = false →
      AsAsked 36 (blkRcvbuf aes { s with ciaSend := true } 36))) ↔ LengthsAsked aes s n := by
  unfold LengthsAsked
  split
  next h =>
    obtain ⟨hcia, hsend⟩ := h
    have hinner : blkRcvbuf aes { s with ciaSend := true } 36 =
        blkRead aes { s with ciaSend := false } 36 := by
      rw [blkRcvbuf, if_neg (by decide), if_pos hcia, if_pos rfl]
      rfl
    have hlow : { s with ciaSend := false } = s := by rw [← hsend]
    rw [hinner, hlow, asAsked_blkRead_iff hdec, blkRcvbuf_token aes hcia hsend hn]
    constructor
    · rintro ⟨hout, htok⟩ tok hd
      have hlen := htok hcia hsend tok hd
      refine ⟨hlen, fun hright => ?_⟩
      obtain ⟨hret, hgot⟩ := blkRead_of_deciphers hd
      rw [hret, if_neg (by decide), hgot, cstr_token hlen, if_pos hright,
        asAsked_blkRead_iff hdec] at hout
      exact fun m hm => hout m ((deciphers_blkRead hd.1 m).mpr hm)
    · intro hall
      refine ⟨?_, fun _ _ tok hd => (hall tok hd).1⟩
      split
      · exact ⟨.inl rfl, Nat.zero_le n⟩
      next hret =>
        have hd := deciphers_of_ret hret
        obtain ⟨hlen, hpay⟩ := hall _ hd
        rw [cstr_token hlen]
        split
        next hright =>
          rw [asAsked_blkRead_iff hdec]
          exact fun m hm => hpay hright m ((deciphers_blkRead hd.1 m).mp hm)
        · exact ⟨.inl rfl, Nat.zero_le n⟩
  next h =>
    obtain ⟨b, hb⟩ := @blkRcvbuf_direct aes s n hn h
    rw [hb, asAsked_blkRead_iff hdec]
    exact ⟨fun hx => hx.1, fun hx => ⟨hx, fun hcia hsend => absurd ⟨hcia, hsend⟩ h⟩⟩

/-- What `blk_sndbuf` writes goes behind what was written before. -/
theorem blkSndbuf_out (p : Sess) (m : List Byte) :
    ∃ x, (blkSndbuf aes p m).sess.out = p.out ++ x := by
  unfold blkSndbuf
  dsimp only
  split
  · exact ⟨[], (List.append_nil _).symm⟩
  · split
    · exact ⟨[], (List.append_nil _).symm⟩
    · split <;> exact ⟨_, rfl⟩

/-- The payload of an honest peer. -/
theorem honest_iff (hn : 0 < n) :
    (∀ (p : Sess) (k v m x rest : List Byte), p.ossl.boundTo p.cipherTx.ctx = some (k, v) →
      s.ossl.boundTo s.cipherRx.ctx = some (k, v) → Undisturbed p → Undisturbed s →
      m.length = n → (blkSndbuf aes p m).sess.out = p.out ++ x →
      (blkRcvbuf aes { s with inp := (if s.ciaSt then aes.enc k v s.cia else []) ++ (x ++ rest) }
          n).ret = n ∧
        (blkRcvbuf aes { s with inp := (if s.ciaSt then aes.enc k v s.cia else []) ++ (x ++ rest) }
          n).got = m) ↔
      ((s.ossl.boundTo s.cipherRx.ctx).isSome → Undisturbed s → aesLen n < 2 ^ 31) := by
  constructor
  · intro h hsome hs
    obtain ⟨⟨k, v⟩, hkv⟩ := Option.isSome_iff_exists.mp hsome
    -- a peer that sends with the context the session receives with
    obtain ⟨x, hx⟩ := @blkSndbuf_out aes { s with cipherTx := s.cipherRx } (List.replicate n 0)
    have hret := (h { s with cipherTx := s.cipherRx } k v (List.replicate n 0) x [] hkv hkv
      ⟨hs.ossl, hs.writes, hs.reads, hs.token, hs.toggle⟩ hs List.length_replicate hx).1
    rcases blkRcvbuf_ret aes { s with inp := (if s.ciaSt then aes.enc k v s.cia else []) ++ (x ++ []) }
      hn.ne' with hneg | ⟨hcint, hnn⟩
    · rw [hneg] at hret
      omega
    · exact aesLen_lt_of_cint (hcint.symm.trans hret) hnn
  · intro h p k v m x rest hp hs hpu hsu hm hx
    have hlen : aesLen m.length < 2 ^ 31 := by
      rw [hm]
      exact h (by rw [hs]; rfl) hsu
    have hne : m ≠ [] := by
      rintro rfl
      exact hn.ne hm
    obtain ⟨-, hout⟩ := blkSndbuf_under aes hp hpu hne hlen
    obtain rfl : aes.enc k v m = x := List.append_cancel_left (hout.symm.trans hx)
    rw [← hm]
    exact blkRcvbuf_under hs hsu hne hlen rest

/-- **When `blk_rcvbuf` stores what it was asked for.**  A receive of `n` bytes fails or stores
`n` bytes, never more, and so does the call for the token, exactly when every ciphertext that
is decrypted has a plaintext of the length asked for; and an honest peer's payload arrives
exactly when its ciphertext has an `int` length. -/
theorem blkReceives_iff {aes : Aes} (hdec : DecBounds aes) {s : Sess} {n : ℕ} (hn : 0 < n) :
    BlkReceives aes s n ↔ LengthsAsked aes s n ∧
      ((s.ossl.boundTo s.cipherRx.ctx).isSome → Undisturbed s → aesLen n < 2 ^ 31) := by
  rw [← stored_iff hdec hn, ← @honest_iff aes s n hn]
  constructor
  · rintro ⟨hstored, htoken, hhonest⟩
    exact ⟨⟨hstored, htoken⟩, hhonest⟩
  · rintro ⟨⟨hstored, htoken⟩, hhonest⟩
    exact ⟨hstored, htoken, hhonest⟩

end

/-! ### A cipher that checks its padding -/

/-- Removal of PKCS#7 padding, with the check: whole blocks, and a last byte that says how
often it stands at the end.  Where the check fails the last block has not been stored. -/
def unpad (c : List Byte) : List Byte × Bool :=
  let p := (c.getLastD 0).toNat
  if c ≠ [] ∧ c.length % blkSize = 0 ∧ 1 ≤ p ∧ p ≤ blkSize ∧
      c.drop (c.length - p) = List.replicate p (c.getLastD 0) then (c.take (c.length - p), true)
  else (c.take (c.length - blkSize), false)

theorem unpad_pkcs7 (m : List Byte) : unpad (pkcs7 m) = (m, true) := by
  have htake : (pkcs7 m).take m.length = m := by simp [pkcs7]
  have hdrop : (pkcs7 m).drop m.length =
      List.replicate (blkSize - m.length % blkSize) ((pkcs7 m).getLastD 0) := by
    rw [getLastD_pkcs7]
    simp [pkcs7]
  have hne : pkcs7 m ≠ [] := by
    intro h
    have hlen := congrArg List.length h
    rw [length_pkcs7, List.length_nil] at hlen
    have := length_le_aesLen m.length
    omega
  have hpad : 1 ≤ blkSize - m.length % blkSize ∧ blkSize - m.length % blkSize ≤ blkSize := by
    simp only [blkSize]
    omega
  unfold unpad
  dsimp only
  rw [toNat_getLastD_pkcs7, length_pkcs7_sub,
    if_pos ⟨hne, length_pkcs7_mod m, hpad.1, hpad.2, hdrop⟩, htake]

theorem length_unpad (c : List Byte) :
    ((unpad c).2 = true →
      (unpad c).1.length < c.length ∧ c.length ≤ (unpad c).1.length + blkSize) ∧
    ((unpad c).2 = false → (unpad c).1.length ≤ c.length - blkSize) := by
  unfold unpad
  dsimp only
  split
  next h =>
    obtain ⟨hne, hmod, hlow, hhigh, -⟩ := h
    have hpos := List.length_pos_of_ne_nil hne
    rw [List.length_take]
    simp only [blkSize] at hhigh ⊢
    refine ⟨fun _ => by omega, fun h => ?_⟩
    cases h
  · rw [List.length_take]
    refine ⟨fun h => ?_, fun _ => by omega⟩
    cases h

/-- Padding alone, except that the block of `2a` and its AES ciphertext change places. -/
def Aes.checked : Aes where
  enc := Aes.sample.enc
  dec := fun k _ c => unpad (Equiv.swap (pkcs7 [0x2a]) (sampleBlock k) c)
  length_enc := Aes.sample.length_enc
  dec_enc := fun k v m => by
    show unpad (Equiv.swap _ _ (Equiv.swap _ _ (pkcs7 m))) = _
    rw [Equiv.swap_apply_self, unpad_pkcs7]

/-- The swap of two blocks of one length keeps lengths. -/
theorem length_swap {a b : List Byte} (h : a.length = b.length) (c : List Byte) :
    (Equiv.swap a b c).length = c.length := by
  rw [Equiv.swap_apply_def]
  split
  next hc => rw [hc, h]
  · split
    next hc => rw [hc, h]
    · rfl

theorem decBounds_checked : DecBounds Aes.checked := by
  have hlen : ∀ k c, (Equiv.swap (pkcs7 [0x2a]) (sampleBlock k) c).length = c.length := by
    intro k c
    apply length_swap
    unfold sampleBlock
    split <;> rfl
  constructor
  · intro k v c h
    rw [← hlen k c]
    exact (length_unpad _).1 h
  · intro k v c h
    rw [← hlen k c]
    exact (length_unpad _).2 h

/-- A session that receives under the zero key; the ciphertext of one byte arrives. -/
def exampleBlkRx : Sess :=
  { (default : Sess) with
    blkstatus := true
    cipherRx := ⟨zeroKey, zeroIv, some 0⟩
    ossl := ⟨[⟨some (.decrypt, zeroKey, zeroIv), false⟩], [], false⟩
    inp := sampleBlock zeroKey }

/-- One byte was asked for, and one byte arrives. -/
theorem blkReceives_one : BlkReceives Aes.checked exampleBlkRx 1 := by
  refine (blkReceives_iff decBounds_checked (by decide)).mpr ⟨?_, fun _ _ => by decide⟩
  rw [LengthsAsked, if_neg (by decide)]
  rintro m ⟨-, -, k, v, hkv, hm⟩
  obtain ⟨rfl, rfl⟩ : zeroKey = k ∧ zeroIv = v := by
    simpa using (show some (zeroKey, zeroIv) = some (k, v) from hkv)
  have hdec : Aes.checked.dec zeroKey zeroIv
      ((exampleBlkRx.inp.take (aesLen 1)).take (cint (aesLen 1)).toNat) = ([0x2a], true) := by
    decide +kernel
  obtain rfl : [0x2a] = m := (Prod.mk.inj (hdec.symm.trans hm)).1
  rfl

/-- The four bytes of a header are asked for and one byte arrives: the call returns `4` and
has stored one byte. -/
theorem header_of_one_byte :
    ¬ ∀ (aes : Aes) (s : Sess) (n : ℕ), DecBounds aes → 0 < n → BlkReceives aes s n := by
  intro h
  have hread := (h Aes.checked exampleBlkRx 4 decBounds_checked (by decide)).stored
  exact absurd hread (by decide +kernel)

end TFProtocol
