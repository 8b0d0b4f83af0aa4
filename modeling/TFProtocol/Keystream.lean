import TFProtocol.Crypto

/-!
# The keystream

A byte step of `encrypt` moves the seed and the key without a look at the data, so a call is
its keystream, a pair of bytes for every byte of data, and the state it ends in; both follow
from the length of the call.  A call starts over with the first byte of the key, and a call
behind a whole number of passes over the key goes on there by itself.

## Main definitions

* `keyNext`, `keyPair` — what a byte step does to the state, and what it mixes into the data.
* `keystream`, `afterCall` — a call without its data.
* `encryptCalls`, `keystreams` — several calls, with their data and without.

## Main results

* `encrypt_eq` — a call of `encrypt` is its keystream.
* `encrypt_rechunk` — where calls can be cut, and what their data decides.
-/

namespace TFProtocol

open Bytes

/-! ### One byte -/

/-- The state behind a byte step, whatever the byte is. -/
def keyNext (o : Endian) (s : Crypto × ℕ) : Crypto × ℕ := (encryptByte o s 0).1

/-- The place in the key that a byte step uses. -/
def keyIdx (s : Crypto × ℕ) : ℕ := if s.2 = s.1.rndlen then 0 else s.2

/-- What a byte step mixes into the data: the top byte of the seed and a byte of the key. -/
def keyPair (s : Crypto × ℕ) : Byte × Byte := (seedTop s.1.seed, s.1.rndkey.getD (keyIdx s) 0)

@[simp] theorem keyIdx_start (c : Crypto) : keyIdx (c, 0) = 0 := by
  rw [keyIdx]
  split <;> rfl

/-- A byte of data, mixed with a pair of the keystream. -/
def mixPair (mode : Pack) (k : Byte × Byte) (d : Byte) : Byte :=
  match mode with
  | .unpack => (d - k.1) ^^^ k.2
  | .pack => k.1 + (d ^^^ k.2)
  | .nopack => d

theorem encryptByte_snd (o : Endian) (s : Crypto × ℕ) (d : Byte) :
    (encryptByte o s d).2 = mixPair s.1.pack (keyPair s) d := by
  cases hmode : s.1.pack <;> simp [encryptByte, mixByte, mixPair, keyPair, keyIdx, hmode]

/-- What a byte step leaves alone. -/
theorem keyNext_frame (o : Endian) (s : Crypto × ℕ) :
    (keyNext o s).1.rndlen = s.1.rndlen ∧ (keyNext o s).1.st = s.1.st ∧
      (keyNext o s).1.pack = s.1.pack ∧ (keyNext o s).1.rndkey.length = s.1.rndkey.length := by
  obtain ⟨hlen, hst, hpack, -, hblock⟩ := encryptByte_frame o s 0
  exact ⟨hlen, hst, hpack, hblock⟩

theorem iterate_keyNext_frame (o : Endian) (n : ℕ) (s : Crypto × ℕ) :
    ((keyNext o)^[n] s).1.rndlen = s.1.rndlen ∧ ((keyNext o)^[n] s).1.st = s.1.st ∧
      ((keyNext o)^[n] s).1.pack = s.1.pack ∧
      ((keyNext o)^[n] s).1.rndkey.length = s.1.rndkey.length := by
  induction n with
  | zero => exact ⟨rfl, rfl, rfl, rfl⟩
  | succ n ih =>
    obtain ⟨hlen, hst, hpack, hblock⟩ := keyNext_frame o ((keyNext o)^[n] s)
    rw [Function.iterate_succ_apply', hlen, hst, hpack, hblock]
    exact ih

/-- The loop of `encrypt` does not look at the data. -/
theorem oblivious_encryptByte (o : Endian) :
    Mealy.Oblivious (encryptByte o) (keyNext o) fun s => mixPair s.1.pack (keyPair s) where
  next := fun _ _ => rfl
  output := encryptByte_snd o

/-! ### One call -/

/-- The keystream of a call of `n` bytes. -/
def keystream (o : Endian) (c : Crypto) (n : ℕ) : List (Byte × Byte) :=
  (List.iterate (keyNext o) (c, 0) n).map keyPair

/-- The state behind a call of `n` bytes. -/
def afterCall (o : Endian) (c : Crypto) (n : ℕ) : Crypto := ((keyNext o)^[n] (c, 0)).1

/-- Data that meets a keystream; what is behind its end stays. -/
def mixAll (mode : Pack) (ks : List (Byte × Byte)) (data : List Byte) : List Byte :=
  List.zipWith (mixPair mode) ks (data.take ks.length) ++ data.drop ks.length

@[simp] theorem length_keystream (o : Endian) (c : Crypto) (n : ℕ) :
    (keystream o c n).length = n := by
  rw [keystream, List.length_map, List.length_iterate]

theorem afterCall_frame (o : Endian) (c : Crypto) (n : ℕ) :
    (afterCall o c n).rndlen = c.rndlen ∧ (afterCall o c n).st = c.st ∧
      (afterCall o c n).pack = c.pack ∧ (afterCall o c n).rndkey.length = c.rndkey.length :=
  iterate_keyNext_frame o n (c, 0)

/-- The packing mode does not change inside a call. -/
theorem zipWith_iterate (o : Endian) (data : List Byte) : ∀ s : Crypto × ℕ,
    List.zipWith (fun s d => mixPair s.1.pack (keyPair s) d)
        (List.iterate (keyNext o) s data.length) data
      = List.zipWith (mixPair s.1.pack) ((List.iterate (keyNext o) s data.length).map keyPair)
          data := by
  induction data with
  | nil => intro s; rfl
  | cons d data ih =>
    intro s
    have hpack : (keyNext o s).1.pack = s.1.pack := (keyNext_frame o s).2.2.1
    have h := ih (keyNext o s)
    rw [hpack] at h
    simp only [List.length_cons, List.iterate, List.zipWith_cons_cons, List.map_cons, h]

/-- **A call of `encrypt` is its keystream**: `n` bytes of the data are mixed with it, and the
state moves by `n` steps. -/
theorem encrypt_eq (o : Endian) {c : Crypto} (hon : c.st = .on) (data : List Byte) {len : ℤ} {n : ℕ}
    (hlen : (cint len).toNat = n) (hn : n ≤ data.length) :
    encrypt o c data len = (afterCall o c n, mixAll c.pack (keystream o c n) data) := by
  have htake : (data.take n).length = n := List.length_take_of_le hn
  have hzip := zipWith_iterate o (data.take n) (c, 0)
  rw [htake] at hzip
  simp only [encrypt, hon, hlen, (oblivious_encryptByte o).run, htake, hzip]
  simp only [mixAll, length_keystream]
  rfl

/-! ### Several calls -/

/-- Calls of `encrypt`, each on the whole of its data. -/
def encryptCalls (o : Endian) : Crypto → List (List Byte) → Crypto × List (List Byte) :=
  Mealy.run fun c data => encrypt o c data data.length

/-- The number of bytes a call on `n` bytes goes through; the length is an `int`. -/
def callLen (n : ℕ) : ℕ := (cint n).toNat

/-- The keystreams of calls, from their lengths. -/
def keystreams (o : Endian) : Crypto → List ℕ → Crypto × List (List (Byte × Byte)) :=
  Mealy.run fun c n => (afterCall o c (callLen n), keystream o c (callLen n))

theorem callLen_of_lt {n : ℕ} (h : n < 2 ^ 31) : callLen n = n := by
  rw [callLen, cint_of_lt h, Int.toNat_natCast]

theorem callLen_le (n : ℕ) : callLen n ≤ n := by
  have h : cint n ≤ n := by
    rw [cint, BitVec.toInt_ofInt]
    norm_num [Int.bmod_def]
    omega
  rw [callLen]
  omega

/-- A call on the whole of some data. -/
theorem encrypt_length (o : Endian) {c : Crypto} (hon : c.st = .on) (data : List Byte) :
    encrypt o c data data.length = (afterCall o c (callLen data.length),
      mixAll c.pack (keystream o c (callLen data.length)) data) :=
  encrypt_eq o hon data rfl (callLen_le _)

/-- **The data of calls decides nothing but their own outputs.** -/
theorem encryptCalls_eq (o : Endian) : ∀ (datas : List (List Byte)) {c : Crypto}, c.st = .on →
    encryptCalls o c datas = ((keystreams o c (datas.map List.length)).1,
      List.zipWith (mixAll c.pack) (keystreams o c (datas.map List.length)).2 datas) := by
  intro datas
  induction datas with
  | nil => intro c _; rfl
  | cons data datas ih =>
    intro c hon
    obtain ⟨-, hst, hpack, -⟩ := afterCall_frame o c (callLen data.length)
    have h := ih (hst.trans hon)
    rw [hpack] at h
    simp only [encryptCalls, keystreams] at h ⊢
    rw [List.map_cons, Mealy.run_cons, Mealy.run_cons, encrypt_length o hon]
    simp only [h, List.zipWith_cons_cons]

/-! ### Cutting a call in two -/

/-- The index runs over the key, and starts over behind its last byte. -/
theorem iterate_keyNext_idx (o : Endian) {c : Crypto} (hpos : 0 < c.rndlen) (n : ℕ) :
    ((keyNext o)^[n] (c, 0)).2 ≤ c.rndlen ∧
      ((keyNext o)^[n] (c, 0)).2 % c.rndlen = n % c.rndlen := by
  induction n with
  | zero => exact ⟨Nat.zero_le _, rfl⟩
  | succ n ih =>
    obtain ⟨hle, hmod⟩ := ih
    have hlen : ((keyNext o)^[n] (c, 0)).1.rndlen = c.rndlen := (iterate_keyNext_frame o n (c, 0)).1
    have hidx : ((keyNext o)^[n + 1] (c, 0)).2 = keyIdx ((keyNext o)^[n] (c, 0)) + 1 := by
      rw [Function.iterate_succ_apply']
      rfl
    rw [hidx, keyIdx, hlen, Nat.add_mod n, ← hmod]
    split
    · next heq => rw [heq, Nat.mod_self]; exact ⟨hpos, by simp⟩
    · next hne => exact ⟨by omega, Nat.add_mod _ _ _⟩

/-- **Whole passes over the key lead back to its first byte.** -/
theorem keyIdx_of_dvd (o : Endian) {c : Crypto} (hpos : 0 < c.rndlen) {n : ℕ}
    (hdvd : c.rndlen ∣ n) : keyIdx ((keyNext o)^[n] (c, 0)) = 0 := by
  obtain ⟨hle, hmod⟩ := iterate_keyNext_idx o hpos n
  have hlen : ((keyNext o)^[n] (c, 0)).1.rndlen = c.rndlen := (iterate_keyNext_frame o n (c, 0)).1
  rw [Nat.mod_eq_zero_of_dvd hdvd] at hmod
  rw [keyIdx, hlen]
  split
  · rfl
  · exact Nat.eq_zero_of_dvd_of_lt (Nat.dvd_of_mod_eq_zero hmod) (by omega)

/-- The index counts only as the place in the key it stands for. -/
theorem keyNext_congr (o : Endian) {s t : Crypto × ℕ} (h : s.1 = t.1) (hidx : keyIdx s = keyIdx t) :
    keyNext o s = keyNext o t := by
  obtain ⟨c, i⟩ := s
  obtain ⟨c', j⟩ := t
  obtain rfl : c = c' := h
  simp only [keyIdx] at hidx
  simp only [keyNext, encryptByte, hidx]

theorem iterate_congr (o : Endian) {s t : Crypto × ℕ} (h : s.1 = t.1) (hidx : keyIdx s = keyIdx t)
    (n : ℕ) : ((keyNext o)^[n] s).1 = ((keyNext o)^[n] t).1 ∧
      (List.iterate (keyNext o) s n).map keyPair = (List.iterate (keyNext o) t n).map keyPair := by
  cases n with
  | zero => exact ⟨h, rfl⟩
  | succ n =>
    have hpair : keyPair s = keyPair t := by rw [keyPair, keyPair, h, hidx]
    simp only [Function.iterate_succ_apply, List.iterate, List.map_cons, hpair,
      keyNext_congr o h hidx, and_self]

/-- **A call that is cut behind whole passes over the key.** -/
theorem afterCall_add (o : Endian) {c : Crypto} (hpos : 0 < c.rndlen) {m : ℕ}
    (hdvd : c.rndlen ∣ m) (n : ℕ) :
    afterCall o c (m + n) = afterCall o (afterCall o c m) n ∧
      keystream o c (m + n) = keystream o c m ++ keystream o (afterCall o c m) n := by
  have hidx : keyIdx ((keyNext o)^[m] (c, 0)) = keyIdx (afterCall o c m, 0) := by
    rw [keyIdx_of_dvd o hpos hdvd, keyIdx_start]
  obtain ⟨hstate, hpairs⟩ :=
    iterate_congr o (s := (keyNext o)^[m] (c, 0)) (t := (afterCall o c m, 0)) rfl hidx n
  refine ⟨?_, ?_⟩
  · rw [afterCall, Nat.add_comm, Function.iterate_add_apply, hstate]
    rfl
  · rw [keystream, List.iterate_add, List.map_append, hpairs]
    rfl

theorem mixAll_append (mode : Pack) {ks : List (Byte × Byte)} {a : List Byte}
    (h : ks.length = a.length) (ks' : List (Byte × Byte)) (b : List Byte) :
    mixAll mode (ks ++ ks') (a ++ b) = mixAll mode ks a ++ mixAll mode ks' b := by
  have htake : (a ++ b).take (ks ++ ks').length = a ++ b.take ks'.length := by
    rw [List.length_append, h, List.take_length_add_append]
  have hdrop : (a ++ b).drop (ks ++ ks').length = b.drop ks'.length := by
    rw [List.length_append, h, List.drop_length_add_append]
  have hall : mixAll mode ks a = List.zipWith (mixPair mode) ks a := by
    rw [mixAll, h, List.take_length, List.drop_length, List.append_nil]
  rw [mixAll, htake, hdrop, List.zipWith_append h, List.append_assoc, hall, mixAll]

/-- **Where calls can be cut, and what their data decides.**  A call on `a ++ b` does what a call
on `a` and one on `b` do, outputs and state, if `a` is a whole number of passes over the key;
the length of a call is an `int`.  And whatever the calls are, their keystreams and the state
they end in follow from their lengths. -/
theorem encrypt_rechunk (o : Endian) {c : Crypto} (hlen : 8 ≤ c.rndlen) (hon : c.st = .on) :
    (∀ a b : List Byte, c.rndlen ∣ a.length → (a ++ b).length < 2 ^ 31 →
      encrypt o c (a ++ b) (a ++ b).length =
        ((encryptCalls o c [a, b]).1, (encryptCalls o c [a, b]).2.flatten)) ∧
    ∀ datas : List (List Byte), encryptCalls o c datas =
      ((keystreams o c (datas.map List.length)).1,
        List.zipWith (mixAll c.pack) (keystreams o c (datas.map List.length)).2 datas) := by
  refine ⟨fun a b hdvd hint => ?_, fun datas => encryptCalls_eq o datas hon⟩
  rw [List.length_append] at hint
  obtain ⟨hstate, hks⟩ := afterCall_add o (by omega : 0 < c.rndlen) hdvd b.length
  have hmix := mixAll_append c.pack (length_keystream o c a.length)
    (keystream o (afterCall o c a.length) b.length) b
  have hsplit : keystreams o c [a.length, b.length] =
      (afterCall o (afterCall o c a.length) b.length,
        [keystream o c a.length, keystream o (afterCall o c a.length) b.length]) := by
    simp only [keystreams, Mealy.run_cons, Mealy.run_nil, callLen_of_lt (n := a.length) (by omega),
      callLen_of_lt (n := b.length) (by omega)]
  rw [encrypt_length o hon, List.length_append, callLen_of_lt hint, hstate, hks, hmix,
    encryptCalls_eq o _ hon]
  simp only [List.map_cons, List.map_nil, hsplit, List.zipWith_cons_cons, List.zipWith_nil_left,
    List.flatten_cons, List.flatten_nil, List.append_nil]

/-- A cipher state with an eight-byte key. -/
def exampleCipher : Crypto := ⟨true, [3, 1, 4, 1, 5, 9, 2, 6], 8, .on, 0x0102030405060708, .pack⟩

/-- Two passes over the key, and three bytes behind them. -/
theorem encrypt_rechunk_example :
    encrypt .little exampleCipher (lit "a frame of a key" ++ lit "and") 19 =
      ((encryptCalls .little exampleCipher [lit "a frame of a key", lit "and"]).1,
        (encryptCalls .little exampleCipher [lit "a frame of a key", lit "and"]).2.flatten) :=
  (encrypt_rechunk .little le_rfl rfl).1 (lit "a frame of a key") (lit "and") (by decide)
    (by decide)

end TFProtocol
