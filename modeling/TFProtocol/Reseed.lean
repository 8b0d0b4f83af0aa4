import Mathlib.Data.List.GetD
import TFProtocol.Lib.Runs
import TFProtocol.Keystream
import TFProtocol.Server

/-!
# The guard of the seed

`encrypt` reloads a seed that became zero from the first eight bytes of the key.  A step of
the recurrence writes the low byte of the new seed into the key, so these bytes can be zero
themselves, from the start or later, and then the seed stays zero.  A seed that is not zero
is no help either when the recurrence leaves it as it is and both of its ends are zero.

A session loads its key in `derankey` or `mainloop_fai`, makes calls, and now and then swaps
in a key of `cmd_nigma`, which leaves the seed alone.  What is said of the seed is about the
states behind every byte, and what is said of `encrypt` about the states between the calls.

The seeds are those of the recurrence alone as long as the guard is not needed.  Where it is
needed, a key of `cmd_nigma` can have eight zero bytes for it: the guard is no help to any key.

## Main definitions

* `Loaded`, `cipherNext` — the start of a session, and what happens to the cipher in it.
* `Degenerate` — from here on `encrypt` is the identity.
* `GuardWorks` — the seed is never zero, and the cipher does not degenerate.
* `recur`, `KeepsMoving` — the recurrence, and the seeds that it does not bring to rest.
* `Frozen` — the states in which every byte stays as it is.

## Main results

* `degenerate_iff_frozen` — the states in which `encrypt` is the identity from then on.
* `reseed_guard_iff` — the keys with which the guard works in every session.
* `reseed_guard_fails`, `identity_with_seed` — a zero key, and a seed that is not zero.
-/

namespace TFProtocol

open Bytes CStr

/-! ### Sessions -/

/-- The cipher state a session starts with: the key, at the start of its block, and the seed
made of it. -/
structure Loaded (o : Endian) (key : List Byte) (c : Crypto) : Prop where
  rndlen : c.rndlen = key.length
  rndkey : key <+: c.rndkey
  seed : c.seed = keySeed o key

/-- A step of a session, as far as one direction of the cipher goes. -/
inductive CipherAct
  /-- A call of `encrypt` on the whole of some data. -/
  | call (data : List Byte)
  /-- `cmd_nigma`, with the key it made. -/
  | nigma (key : List Byte)
  deriving DecidableEq, Repr

/-- The cipher behind a step.  `cmd_nigma` makes keys of at least `NIGMA_MIN` bytes, and their
length is an `int`. -/
def cipherNext (o : Endian) (c : Crypto) : CipherAct → Option Crypto
  | .call data => some (encrypt o c data data.length).1
  | .nigma key =>
    if 8 ≤ key.length ∧ key.length < 2 ^ 31 then some (swapkey c key key.length) else none

/-- From here on every call returns its data. -/
def Degenerate (o : Endian) (c : Crypto) : Prop :=
  ∀ datas : List (List Byte), (encryptCalls o c datas).2 = datas

/-- **The guard works** in a run: the seed is not zero behind any byte of any call, and at no
point does the cipher degenerate. -/
structure GuardWorks (o : Endian) (c : Crypto) (acts : List CipherAct) : Prop where
  seed : ∀ before data after c', acts = before ++ .call data :: after →
    Runs.run (cipherNext o) c before = some c' →
      ∀ j < callLen data.length, ((keyNext o)^[j + 1] (c', 0)).1.seed ≠ 0
  alive : ∀ before after c', acts = before ++ after →
    Runs.run (cipherNext o) c before = some c' → ¬ Degenerate o c'

/-! ### When it does -/

/-- What the recurrence makes of a seed, in front of the guard. -/
def recur (seed : BitVec 64) : BitVec 64 :=
  seed * (seed.sshiftRight 8 &&& 0xFFFFFFFF) + (seed.sshiftRight 40 &&& 0xFFFF)

/-- The byte of the key that a seed becomes. -/
def seedLow (seed : BitVec 64) : Byte := (seed.srem 256).setWidth 8

/-- A pair of the keystream that leaves every byte as it is. -/
def Blank (k : Byte × Byte) : Prop := k = (0, 0) ∨ k = (0x80, 0x80)

/-- A seed with the same byte at both ends. -/
def Ends (τ : Byte) (seed : BitVec 64) : Prop := seedTop seed = τ ∧ seedLow seed = τ

/-- **A frozen state**: the first byte of the key is the top byte of the seed, the others are
all zero or all `0x80`, and every seed from the next on has that byte at both ends. -/
def Frozen (o : Endian) (c : Crypto) : Prop :=
  Blank (seedTop c.seed, c.rndkey.getD 0 0) ∧
    ∃ τ : Byte, (τ = 0 ∨ τ = 0x80) ∧ (∀ i, 1 ≤ i → i < c.rndlen → c.rndkey.getD i 0 = τ) ∧
      ∀ n, Ends τ ((nextSeed o (List.replicate 8 τ))^[n] (nextSeed o c.rndkey c.seed))

/-- **A seed that keeps moving**: however far the recurrence goes, it comes to a seed whose ends
are not both zero, and to one whose ends are not both `0x80`. -/
def KeepsMoving (seed : BitVec 64) : Prop :=
  ∀ τ : Byte, τ = 0 ∨ τ = 0x80 → ∀ n, ∃ m, n ≤ m ∧ ¬ Ends τ (recur^[m] seed)

/-! ### The seed -/

theorem ofLe_eq_zero_iff (bs : List Byte) : ofLe bs = 0 ↔ ∀ b ∈ bs, b = 0 := by
  induction bs with
  | nil => simp [ofLe]
  | cons b bs ih =>
    rw [ofLe, List.forall_mem_cons, ← ih, BitVec.toNat_eq]
    simp

/-- The eight bytes make a zero seed if and only if all of them are zero. -/
theorem keySeed_eq_zero_iff (o : Endian) (key : List Byte) :
    keySeed o key = 0 ↔ ∀ b ∈ key.take 8, b = 0 := by
  have hlt : ofMem o (key.take 8) < 2 ^ 64 := by
    refine lt_of_lt_of_le (ofMem_lt o _) ?_
    calc 256 ^ (key.take 8).length ≤ 256 ^ 8 :=
          Nat.pow_le_pow_right (by norm_num) (List.length_take_le 8 key)
      _ = 2 ^ 64 := by norm_num
  have hzero : keySeed o key = 0 ↔ ofMem o (key.take 8) = 0 := by
    rw [keySeed, BitVec.toNat_eq, BitVec.toNat_ofNat, Nat.mod_eq_of_lt hlt]
    rfl
  rw [hzero]
  cases o with
  | little => exact ofLe_eq_zero_iff _
  | big => simp [ofMem, ofLe_eq_zero_iff]

theorem nextSeed_eq (o : Endian) (key : List Byte) (seed : BitVec 64) :
    nextSeed o key seed = if recur seed = 0 then keySeed o key else recur seed := rfl

/-- **When a byte step ends with a zero seed.** -/
theorem nextSeed_eq_zero_iff (o : Endian) (key : List Byte) (seed : BitVec 64) :
    nextSeed o key seed = 0 ↔ recur seed = 0 ∧ ∀ b ∈ key.take 8, b = 0 := by
  rw [← keySeed_eq_zero_iff o, nextSeed_eq]
  by_cases h : recur seed = 0
  · rw [if_pos h]
    exact ⟨fun hkey => ⟨h, hkey⟩, And.right⟩
  · rw [if_neg h]
    exact ⟨fun hzero => absurd hzero h, fun hzero => absurd hzero.1 h⟩

/-! ### The identity on bytes -/

theorem Blank.eq {k : Byte × Byte} (h : Blank k) : k.1 = k.2 ∧ (k.2 = 0 ∨ k.2 = 0x80) := by
  rcases h with rfl | rfl
  · exact ⟨rfl, .inl rfl⟩
  · exact ⟨rfl, .inr rfl⟩

theorem blank_self {τ : Byte} (h : τ = 0 ∨ τ = 0x80) : Blank (τ, τ) := by
  rcases h with rfl | rfl
  · exact .inl rfl
  · exact .inr rfl

/-- Only two bytes are their own negatives. -/
theorem eq_of_add_self_eq_zero {x : Byte} (h : x + x = 0) : x = 0 ∨ x = 0x80 := by
  have hlt := x.isLt
  have hsum : (x.toNat + x.toNat) % 256 = 0 := by
    rw [← BitVec.toNat_add, h]
    rfl
  have hval : x.toNat = 0 ∨ x.toNat = 128 := by omega
  exact hval.imp (fun h => BitVec.eq_of_toNat_eq h) (fun h => BitVec.eq_of_toNat_eq h)

/-- **The pairs that leave every byte as it is**, in either packing mode. -/
theorem mixPair_id_iff {mode : Pack} (hmode : mode ≠ .nopack) (k : Byte × Byte) :
    (∀ d, mixPair mode k d = d) ↔ Blank k := by
  obtain ⟨t, b⟩ := k
  constructor
  · intro h
    -- the two bytes are equal, and then only a byte that is its own negative is left
    have htwice : t = b ∧ (b = 0 ∨ b = 0x80) := by
      cases mode with
      | nopack => exact absurd rfl hmode
      | pack =>
        obtain rfl : t = b := by simpa [mixPair] using h b
        have hzero : t + t = 0 := by simpa [mixPair] using h 0
        exact ⟨rfl, eq_of_add_self_eq_zero hzero⟩
      | unpack =>
        obtain rfl : b = t := by simpa [mixPair] using h t
        have hneg : 0 - b = b := BitVec.xor_eq_zero_iff.mp (h 0)
        have hzero : b + b = 0 := by
          nth_rewrite 1 [← hneg]
          exact BitVec.sub_add_cancel 0 b
        exact ⟨rfl, eq_of_add_self_eq_zero hzero⟩
    obtain ⟨rfl, hb⟩ := htwice
    exact blank_self hb
  · -- the top bit is added, or taken away, without a carry
    have hflip : ∀ d : Byte, d ^^^ 0x80 = d + 0x80 := by decide +kernel
    rintro (h | h) d
    · rw [h]
      cases mode <;> simp [mixPair]
    · rw [h]
      cases mode with
      | nopack => rfl
      | pack =>
        rw [mixPair, hflip, BitVec.add_comm, BitVec.add_assoc]
        exact BitVec.add_zero d
      | unpack =>
        rw [mixPair, hflip]
        exact BitVec.sub_add_cancel d 0x80

/-! ### The start of a session -/

/-- `derankey` makes the seed of the key it decrypted. -/
theorem derankey_loaded {o : Endian} {w : World} {c c' : Crypto} {enkey : List Byte}
    (h : derankey o w c enkey = some c') : ∃ key, keymin ≤ key.length ∧ Loaded o key c' := by
  have hmin : (8 : ℕ) ≤ keymin := by decide
  unfold derankey at h
  split at h
  · cases h
  · next key _ =>
    split at h
    · next hkey =>
      obtain rfl := Option.some.inj h
      refine ⟨key, hkey, rfl, List.prefix_append _ _, keySeed_eq_of_take le_rfl ?_⟩
      rw [overlay, List.take_append_of_le_length (by omega)]
    · cases h

/-- `mainloop_fai` does so with the key of the token. -/
theorem mainloopFai_loaded (o : Endian) (c : Crypto) (faikey : List Byte) :
    Loaded o faikey
      { c with rndlen := faikey.length, rndkey := faikey, seed := keySeed o faikey } :=
  ⟨rfl, List.prefix_rfl, rfl⟩

/-- Both directions start with the key of the receiving one. -/
theorem Loaded.cryptOn {o : Endian} {key : List Byte} {s : Sess} (h : Loaded o key s.crypRx) :
    let s' := cryptOn { s with crypTx := dupCrypt true s.crypRx }
    (Loaded o key s'.crypRx ∧ s'.crypRx.st = .on ∧ s'.crypRx.pack = .unpack) ∧
      Loaded o key s'.crypTx ∧ s'.crypTx.st = .on ∧ s'.crypTx.pack = .pack := by
  refine ⟨⟨⟨h.rndlen, h.rndkey, h.seed⟩, rfl, rfl⟩, ⟨h.rndlen, ?_, h.seed⟩, rfl, rfl⟩
  show key <+: s.crypRx.rndkey.take s.crypRx.rndlen
  rw [h.rndlen]
  exact List.prefix_take_iff.mpr ⟨h.rndkey, le_rfl⟩

/-! ### Sessions stay alive -/

/-- What every cipher state of a session has. -/
structure Running (c : Crypto) : Prop where
  on : c.st = .on
  mode : c.pack ≠ .nopack
  keyed : c.Keyed
  int : c.rndlen < 2 ^ 31

theorem Running.call {c : Crypto} (h : Running c) (o : Endian) (n : ℕ) :
    Running (afterCall o c n) := by
  obtain ⟨hlen, hst, hpack, hblock⟩ := afterCall_frame o c n
  refine ⟨by rw [hst]; exact h.on, by rw [hpack]; exact h.mode, ⟨?_, ?_⟩, by rw [hlen]; exact h.int⟩
  · rw [hlen]
    exact h.keyed.min
  · rw [hlen, hblock]
    exact h.keyed.block

theorem Loaded.running {o : Endian} {key : List Byte} {c : Crypto} (h : Loaded o key c)
    (hkey : keymin ≤ key.length) (hint : key.length < 2 ^ 31) (hon : c.st = .on)
    (hmode : c.pack ≠ .nopack) : Running c := by
  have hmin : (8 : ℕ) ≤ keymin := by decide
  refine ⟨hon, hmode, ⟨?_, ?_⟩, by rw [h.rndlen]; exact hint⟩
  · rw [h.rndlen]
    omega
  · rw [h.rndlen]
    exact h.rndkey.length_le

/-- **A step of a session.** -/
theorem Running.next {o : Endian} (c : Crypto) (a : CipherAct) (c' : Crypto) (h : Running c)
    (hnext : cipherNext o c a = some c') : Running c' := by
  cases a with
  | call data =>
    rw [cipherNext, encrypt_length o h.on] at hnext
    obtain rfl := Option.some.inj hnext
    exact h.call o _
  | nigma key =>
    simp only [cipherNext] at hnext
    split at hnext
    · next hkey =>
      obtain rfl := Option.some.inj hnext
      exact ⟨h.on, h.mode, ⟨hkey.1, le_rfl⟩, hkey.2⟩
    · cases hnext

/-! ### Frozen states -/

theorem keyNext_seed (o : Endian) (s : Crypto × ℕ) :
    (keyNext o s).1.seed = nextSeed o s.1.rndkey s.1.seed := rfl

theorem keyNext_rndkey (o : Endian) (s : Crypto × ℕ) :
    (keyNext o s).1.rndkey = s.1.rndkey.set (keyIdx s) (seedLow (keyNext o s).1.seed) := rfl

theorem keyIdx_lt {s : Crypto × ℕ} (hpos : 0 < s.1.rndlen) (hidx : s.2 ≤ s.1.rndlen) :
    keyIdx s < s.1.rndlen := by
  rw [keyIdx]
  split <;> omega

theorem getD_set (l : List Byte) (b : Byte) {i : ℕ} (hi : i < l.length) (j : ℕ) :
    (l.set i b).getD j 0 = if j = i then b else l.getD j 0 := by
  rw [List.getD_eq_getElem?_getD, List.getD_eq_getElem?_getD, List.getElem?_set]
  by_cases h : j = i
  · subst h
    simp [hi]
  · simp [h, Ne.symm h]

/-- The reload of a seed reads eight bytes in use. -/
theorem nextSeed_uniform {o : Endian} {c : Crypto} {τ : Byte} (hc : c.Keyed)
    (hkey : ∀ i < c.rndlen, c.rndkey.getD i 0 = τ) (seed : BitVec 64) :
    nextSeed o c.rndkey seed = nextSeed o (List.replicate 8 τ) seed := by
  have hmin := hc.min
  have hblock := hc.block
  have htake : c.rndkey.take 8 = List.replicate 8 τ := by
    refine List.eq_replicate_iff.mpr ⟨List.length_take_of_le (by omega), fun b hb => ?_⟩
    obtain ⟨i, hi, rfl⟩ := List.getElem_of_mem hb
    rw [List.length_take] at hi
    rw [List.getElem_take, ← hkey i (by omega), List.getD_eq_getElem]
  exact nextSeed_eq_of_take le_rfl (by rw [htake]; rfl) seed

/-- Inside a call: the key is one byte all over, and every seed has it at both ends. -/
structure Still (o : Endian) (τ : Byte) (s : Crypto × ℕ) : Prop where
  keyed : s.1.Keyed
  idx : s.2 ≤ s.1.rndlen
  key : ∀ i < s.1.rndlen, s.1.rndkey.getD i 0 = τ
  seeds : ∀ n, Ends τ ((nextSeed o (List.replicate 8 τ))^[n] s.1.seed)

section

variable {o : Endian} {τ : Byte} {s : Crypto × ℕ} {c : Crypto}

theorem Still.pair (h : Still o τ s) : keyPair s = (τ, τ) := by
  have hlt := keyIdx_lt (by have := h.keyed.min; omega) h.idx
  have htop : seedTop s.1.seed = τ := (h.seeds 0).1
  rw [keyPair, h.key _ hlt, htop]

/-- **Nothing moves but the seed**, which keeps its ends. -/
theorem Still.next (h : Still o τ s) : Still o τ (keyNext o s) := by
  obtain ⟨hlen, -, -, hblock⟩ := keyNext_frame o s
  have hlt := keyIdx_lt (by have := h.keyed.min; omega) h.idx
  have hseed : (keyNext o s).1.seed = nextSeed o (List.replicate 8 τ) s.1.seed := by
    rw [keyNext_seed, nextSeed_uniform h.keyed h.key]
  refine ⟨⟨?_, ?_⟩, ?_, ?_, ?_⟩
  · rw [hlen]
    exact h.keyed.min
  · rw [hlen, hblock]
    exact h.keyed.block
  · rw [hlen]
    exact hlt
  · intro i hi
    rw [hlen] at hi
    rw [keyNext_rndkey, getD_set _ _ (lt_of_lt_of_le hlt h.keyed.block), hseed]
    split
    · exact (h.seeds 1).2
    · exact h.key i hi
  · intro n
    rw [hseed, ← Function.iterate_succ_apply]
    exact h.seeds (n + 1)

theorem Still.iterate (h : Still o τ s) (n : ℕ) : Still o τ ((keyNext o)^[n] s) := by
  induction n with
  | zero => exact h
  | succ n ih =>
    rw [Function.iterate_succ_apply']
    exact ih.next

/-- One byte into a frozen state. -/
theorem still_of_frozen (hc : c.Keyed) (h : Frozen o c) :
    ∃ τ, (τ = 0 ∨ τ = 0x80) ∧ Still o τ (keyNext o (c, 0)) := by
  obtain ⟨-, τ, hτ, hkey, hseeds⟩ := h
  obtain ⟨hlen, -, -, hblock⟩ := keyNext_frame o (c, 0)
  have hmin := hc.min
  refine ⟨τ, hτ, ⟨⟨?_, ?_⟩, ?_, ?_, hseeds⟩⟩
  · rw [hlen]
    exact hc.min
  · rw [hlen, hblock]
    exact hc.block
  · rw [hlen]
    show keyIdx (c, 0) + 1 ≤ c.rndlen
    rw [keyIdx_start]
    omega
  · intro i hi
    rw [hlen] at hi
    rw [keyNext_rndkey, keyIdx_start, getD_set _ _ (lt_of_lt_of_le (by omega) hc.block)]
    split
    · exact (hseeds 0).2
    · next hne => exact hkey i (by omega) hi

theorem Still.frozen (hτ : τ = 0 ∨ τ = 0x80) (h : Still o τ s) : Frozen o s.1 := by
  have hmin := h.keyed.min
  have htop : seedTop s.1.seed = τ := (h.seeds 0).1
  refine ⟨?_, τ, hτ, fun i _ hi => h.key i hi, fun n => ?_⟩
  · rw [htop, h.key 0 (by omega)]
    exact blank_self hτ
  · rw [nextSeed_uniform h.keyed h.key, ← Function.iterate_succ_apply]
    exact h.seeds (n + 1)

/-- **A call in a frozen state** leaves its data, and ends in a frozen state. -/
theorem frozen_call (hc : c.Keyed) (h : Frozen o c) (n : ℕ) :
    (∀ k ∈ keystream o c n, Blank k) ∧ Frozen o (afterCall o c n) := by
  obtain ⟨τ, hτ, hstill⟩ := still_of_frozen hc h
  cases n with
  | zero => exact ⟨by simp [keystream], h⟩
  | succ n =>
    constructor
    · intro k hk
      rw [keystream, List.iterate, List.map_cons, List.mem_cons] at hk
      rcases hk with rfl | hk
      · rw [keyPair, keyIdx_start]
        exact h.1
      · obtain ⟨s, hs, rfl⟩ := List.mem_map.mp hk
        obtain ⟨m, -, rfl⟩ := List.mem_iterate.mp hs
        rw [(hstill.iterate m).pair]
        exact blank_self hτ
    · rw [afterCall, Function.iterate_succ_apply]
      exact (hstill.iterate n).frozen hτ

end

theorem zipWith_blank {mode : Pack} (hmode : mode ≠ .nopack) : ∀ (ks : List (Byte × Byte))
    (data : List Byte), (∀ k ∈ ks, Blank k) → ks.length = data.length →
      List.zipWith (mixPair mode) ks data = data := by
  intro ks
  induction ks with
  | nil =>
    intro data _ hlen
    rw [List.eq_nil_of_length_eq_zero hlen.symm, List.zipWith_nil_left]
  | cons k ks ih =>
    intro data hks hlen
    cases data with
    | nil => cases hlen
    | cons d data =>
      rw [List.zipWith_cons_cons, (mixPair_id_iff hmode k).mpr (hks k List.mem_cons_self) d,
        ih data (fun k hk => hks k (List.mem_cons_of_mem _ hk)) (Nat.succ.inj hlen)]

/-- **In a frozen state every call returns its data.** -/
theorem degenerate_of_frozen {o : Endian} : ∀ (datas : List (List Byte)) {c : Crypto}, Running c →
    Frozen o c → (encryptCalls o c datas).2 = datas := by
  intro datas
  induction datas with
  | nil => intro c _ _; rfl
  | cons data datas ih =>
    intro c hc h
    obtain ⟨hblank, hfrozen⟩ := frozen_call hc.keyed h (callLen data.length)
    have hmix : mixAll c.pack (keystream o c (callLen data.length)) data = data := by
      rw [mixAll, zipWith_blank hc.mode _ _ hblank, List.take_append_drop]
      rw [length_keystream, List.length_take_of_le (callLen_le _)]
    rw [encryptCalls, Mealy.run_cons, encrypt_length o hc.on, hmix]
    exact congrArg (data :: ·) (ih (hc.call o _) hfrozen)

/-! ### Degenerate states -/

section

variable {o : Endian} {c : Crypto}

theorem Degenerate.call (h : Degenerate o c) (hc : Running c) {n : ℕ} (hn : n < 2 ^ 31) :
    Degenerate o (afterCall o c n) := by
  intro datas
  have hcall := h (List.replicate n 0 :: datas)
  rw [encryptCalls, Mealy.run_cons, encrypt_length o hc.on, List.length_replicate,
    callLen_of_lt hn] at hcall
  exact (List.cons.inj hcall).2

/-- The keystream of a degenerate state is blank: it leaves bytes of every value. -/
theorem Degenerate.blank (h : Degenerate o c) (hc : Running c) {n : ℕ} (hn : n < 2 ^ 31) :
    ∀ k ∈ keystream o c n, Blank k := by
  intro k hk
  refine (mixPair_id_iff hc.mode k).mp fun d => ?_
  have hcall := h [List.replicate n d]
  rw [encryptCalls, Mealy.run_cons, encrypt_length o hc.on, List.length_replicate,
    callLen_of_lt hn] at hcall
  have hmix : List.zipWith (mixPair c.pack) (keystream o c n) (List.replicate n d) =
      List.replicate n d := by
    have h := (List.cons.inj hcall).1
    rwa [mixAll, length_keystream, List.take_of_length_le (by simp),
      List.drop_of_length_le (by simp), List.append_nil] at h
  obtain ⟨i, hi, rfl⟩ := List.getElem_of_mem hk
  have hlt : i < n := by rwa [length_keystream] at hi
  have hget : (List.zipWith (mixPair c.pack) (keystream o c n) (List.replicate n d))[i]? =
      (List.replicate n d)[i]? := by rw [hmix]
  rw [List.getElem?_zipWith, List.getElem?_eq_getElem hi, List.getElem?_replicate_of_lt hlt] at hget
  exact Option.some.inj hget

/-- In a single call the key is overwritten from the front. -/
theorem call_key (hc : c.Keyed) {n : ℕ} (hn : n ≤ c.rndlen) :
    ((keyNext o)^[n] (c, 0)).2 = n ∧
      (∀ i, n ≤ i → (afterCall o c n).rndkey.getD i 0 = c.rndkey.getD i 0) ∧
      (1 ≤ n → (afterCall o c n).rndkey.getD 0 0 = seedLow (nextSeed o c.rndkey c.seed)) := by
  induction n with
  | zero => exact ⟨rfl, fun _ _ => rfl, fun h => absurd h (by omega)⟩
  | succ n ih =>
    obtain ⟨hidx, hrest, hfirst⟩ := ih (by omega)
    have hlen : ((keyNext o)^[n] (c, 0)).1.rndlen = c.rndlen := (iterate_keyNext_frame o n (c, 0)).1
    have hblock : ((keyNext o)^[n] (c, 0)).1.rndkey.length = c.rndkey.length :=
      (iterate_keyNext_frame o n (c, 0)).2.2.2
    have hkeyIdx : keyIdx ((keyNext o)^[n] (c, 0)) = n := by
      rw [keyIdx, hidx, hlen, if_neg (by omega)]
    have hin : n < ((keyNext o)^[n] (c, 0)).1.rndkey.length := by
      have := hc.block
      omega
    simp only [afterCall, Function.iterate_succ_apply'] at hrest hfirst ⊢
    refine ⟨congrArg (· + 1) hkeyIdx, fun i hi => ?_, fun _ => ?_⟩
    · rw [keyNext_rndkey, hkeyIdx, getD_set _ _ hin, if_neg (by omega)]
      exact hrest i (by omega)
    · rw [keyNext_rndkey, hkeyIdx, getD_set _ _ hin]
      split
      · next heq => subst heq; rfl
      · next hne => exact hfirst (by omega)

theorem mem_keystream {n i : ℕ} (hi : i < n) :
    keyPair ((keyNext o)^[i] (c, 0)) ∈ keystream o c n :=
  List.mem_map_of_mem (List.mem_iterate.mpr ⟨i, hi, rfl⟩)

/-- **What the key of a degenerate state is**: behind its first byte there is only the byte that
the next step writes. -/
theorem Degenerate.key (h : Degenerate o c) (hc : Running c) {i : ℕ} (hpos : 1 ≤ i)
    (hi : i < c.rndlen) : c.rndkey.getD i 0 = seedLow (nextSeed o c.rndkey c.seed) := by
  have hint := hc.int
  obtain ⟨hidx, hrest, hfirst⟩ := call_key (o := o) hc.keyed hi.le
  have hlen : ((keyNext o)^[i] (c, 0)).1.rndlen = c.rndlen := (iterate_keyNext_frame o i (c, 0)).1
  -- the seed behind `i` bytes meets the byte `i` if the call goes on, and the first one if not
  have hon := (h.blank hc (n := i + 1) (by omega) _ (mem_keystream (Nat.lt_succ_self i))).eq.1
  have hnew := ((h.call hc (by omega : i < 2 ^ 31)).blank (hc.call o i) (n := 1) (by omega) _
    (mem_keystream Nat.zero_lt_one)).eq.1
  have hkeyIdx : keyIdx ((keyNext o)^[i] (c, 0)) = i := by
    rw [keyIdx, hidx, hlen, if_neg (by omega)]
  simp only [keyPair, hkeyIdx] at hon
  simp only [Function.iterate_zero, id_eq, keyPair, keyIdx_start, hfirst hpos] at hnew
  rw [← hnew, ← hrest i le_rfl]
  exact hon.symm

/-- The pair that the next byte meets. -/
theorem Degenerate.start (h : Degenerate o c) (hc : Running c) :
    Blank (seedTop c.seed, c.rndkey.getD 0 0) := by
  have hpair := h.blank hc (n := 1) (by omega) _ (mem_keystream Nat.zero_lt_one)
  simpa only [Function.iterate_zero, id_eq, keyPair, keyIdx_start] using hpair

/-- **One byte into a degenerate state.** -/
theorem Degenerate.step (h : Degenerate o c) (hc : Running c) :
    ∃ τ : Byte, (τ = 0 ∨ τ = 0x80) ∧ (∀ i, 1 ≤ i → i < c.rndlen → c.rndkey.getD i 0 = τ) ∧
      (∀ i < c.rndlen, (afterCall o c 1).rndkey.getD i 0 = τ) ∧
      Ends τ (nextSeed o c.rndkey c.seed) := by
  have hmin := hc.keyed.min
  obtain ⟨-, hrest, hfirst⟩ := call_key (o := o) hc.keyed (by omega : 1 ≤ c.rndlen)
  have hstart := (h.call hc (n := 1) (by omega)).start (hc.call o 1)
  rw [hfirst le_rfl] at hstart
  refine ⟨_, hstart.eq.2, fun i => h.key hc, fun i hi => ?_, hstart.eq.1, rfl⟩
  rcases Nat.eq_zero_or_pos i with rfl | hpos
  · exact hfirst le_rfl
  · rw [hrest i hpos]
    exact h.key hc hpos hi

/-- The seeds behind a degenerate state whose key is one byte all over. -/
theorem Degenerate.ends {τ : Byte} (n : ℕ) : ∀ {c : Crypto}, Degenerate o c → Running c →
    (∀ i < c.rndlen, c.rndkey.getD i 0 = τ) →
      Ends τ ((nextSeed o (List.replicate 8 τ))^[n] (nextSeed o c.rndkey c.seed)) := by
  induction n with
  | zero =>
    intro c h hc hkey
    have hmin := hc.keyed.min
    obtain ⟨τ', -, hold, -, hends⟩ := h.step hc
    obtain rfl : τ' = τ := (hold 1 le_rfl (by omega)).symm.trans (hkey 1 (by omega))
    exact hends
  | succ n ih =>
    intro c h hc hkey
    have hmin := hc.keyed.min
    obtain ⟨τ', -, hold, hnew, -⟩ := h.step hc
    obtain rfl : τ' = τ := (hold 1 le_rfl (by omega)).symm.trans (hkey 1 (by omega))
    have hc' := hc.call o 1
    have hseed : (afterCall o c 1).seed = nextSeed o c.rndkey c.seed := rfl
    have hlen : (afterCall o c 1).rndlen = c.rndlen := (afterCall_frame o c 1).1
    have hnext := ih (h.call hc (n := 1) (by omega)) hc' (by rwa [hlen])
    rwa [nextSeed_uniform hc'.keyed (by rwa [hlen]), hseed, ← Function.iterate_succ_apply] at hnext

/-- **The degenerate states are the frozen ones.** -/
theorem degenerate_iff_frozen (hc : Running c) : Degenerate o c ↔ Frozen o c := by
  refine ⟨fun h => ?_, fun h datas => degenerate_of_frozen datas hc h⟩
  obtain ⟨τ, hτ, hold, hnew, hends⟩ := h.step hc
  refine ⟨h.start hc, τ, hτ, hold, fun n => ?_⟩
  cases n with
  | zero => exact hends
  | succ n =>
    have hc' := hc.call o 1
    have hseed : (afterCall o c 1).seed = nextSeed o c.rndkey c.seed := rfl
    have hlen : (afterCall o c 1).rndlen = c.rndlen := (afterCall_frame o c 1).1
    have hnext := (h.call hc (n := 1) (by omega)).ends n hc' (by rwa [hlen])
    rwa [nextSeed_uniform hc'.keyed (by rwa [hlen]), hseed, ← Function.iterate_succ_apply] at hnext

end

/-! ### The recurrence alone -/

/-- The recurrence stays at zero, where both ends are zero. -/
theorem KeepsMoving.ne_zero {seed : BitVec 64} (h : KeepsMoving seed) (n : ℕ) :
    recur^[n] seed ≠ 0 := by
  intro hzero
  obtain ⟨m, hm, hends⟩ := h 0 (.inl rfl) n
  have hfixed : recur 0 = 0 := by decide
  have hrest : recur^[m] seed = 0 := by
    rw [← Nat.sub_add_cancel hm, Function.iterate_add_apply, hzero, Function.iterate_fixed hfixed]
  rw [hrest] at hends
  exact hends ⟨by decide, by decide⟩

theorem nextSeed_of_ne {o : Endian} {key : List Byte} {seed : BitVec 64} (h : recur seed ≠ 0) :
    nextSeed o key seed = recur seed := by
  rw [nextSeed_eq, if_neg h]

/-- As long as the recurrence does not come to zero, the guard is not needed. -/
theorem iterate_nextSeed {o : Endian} {key : List Byte} {seed : BitVec 64}
    (h : ∀ n, recur^[n] seed ≠ 0) (n : ℕ) : (nextSeed o key)^[n] seed = recur^[n] seed := by
  induction n with
  | zero => rfl
  | succ n ih =>
    have hne := h (n + 1)
    rw [Function.iterate_succ_apply'] at hne
    rw [Function.iterate_succ_apply', Function.iterate_succ_apply', ih, nextSeed_of_ne hne]

/-- The seed behind some bytes, in any call. -/
theorem seed_iterate (o : Endian) (s : Crypto × ℕ) {n : ℕ}
    (h : ∀ m < n, recur^[m + 1] s.1.seed ≠ 0) :
    ((keyNext o)^[n] s).1.seed = recur^[n] s.1.seed := by
  induction n with
  | zero => rfl
  | succ n ih =>
    have hne := h n (Nat.lt_succ_self n)
    rw [Function.iterate_succ_apply'] at hne
    rw [Function.iterate_succ_apply', keyNext_seed, ih fun m hm => h m (Nat.lt_succ_of_lt hm),
      nextSeed_of_ne hne, Function.iterate_succ_apply']

/-- A state of a session whose seed is one that the recurrence comes to. -/
structure OnOrbit (seed : BitVec 64) (c : Crypto) : Prop where
  running : Running c
  seed : ∃ n, c.seed = recur^[n] seed

/-- **A step of a session** whose guard is not needed. -/
theorem OnOrbit.next {o : Endian} {seed : BitVec 64} (hne : ∀ n, recur^[n] seed ≠ 0) (c : Crypto)
    (a : CipherAct) (c' : Crypto) (h : OnOrbit seed c) (hnext : cipherNext o c a = some c') :
    OnOrbit seed c' := by
  refine ⟨h.running.next c a c' hnext, ?_⟩
  obtain ⟨n, hn⟩ := h.seed
  cases a with
  | call data =>
    rw [cipherNext, encrypt_length o h.running.on] at hnext
    obtain rfl := Option.some.inj hnext
    refine ⟨callLen data.length + n, ?_⟩
    rw [afterCall, seed_iterate o (c, 0), hn, ← Function.iterate_add_apply]
    intro m _
    rw [hn, ← Function.iterate_add_apply]
    exact hne _
  | nigma key =>
    simp only [cipherNext] at hnext
    split at hnext
    · obtain rfl := Option.some.inj hnext
      exact ⟨n, hn⟩
    · cases hnext

/-- Some bytes, one in a call, bring the seed as many steps on. -/
theorem exists_run_calls (o : Endian) (n : ℕ) : ∀ {c : Crypto}, Running c →
    (∀ m < n, recur^[m + 1] c.seed ≠ 0) →
      ∃ c', Runs.run (cipherNext o) c (List.replicate n (.call [0])) = some c' ∧ Running c' ∧
        c'.seed = recur^[n] c.seed := by
  induction n with
  | zero => exact fun {c} hc _ => ⟨c, rfl, hc, rfl⟩
  | succ n ih =>
    intro c hc hne
    have hcall : cipherNext o c (.call [0]) = some (afterCall o c 1) := by
      rw [cipherNext, encrypt_length o hc.on]
      rfl
    have hseed : (afterCall o c 1).seed = recur c.seed := nextSeed_of_ne (hne 0 (Nat.succ_pos n))
    obtain ⟨c', hrun, hc', hseed'⟩ := ih (hc.call o 1) fun m hm => by
      rw [hseed, ← Function.iterate_succ_apply]
      exact hne (m + 1) (Nat.succ_lt_succ hm)
    refine ⟨c', ?_, hc', ?_⟩
    · rw [List.replicate_succ, Runs.run_cons hcall, hrun]
    · rw [hseed', hseed, ← Function.iterate_succ_apply]

/-! ### The guard -/

/-- The step of a session that a uniform key of `cmd_nigma` is. -/
theorem cipherNext_nigma (o : Endian) (c : Crypto) (τ : Byte) :
    cipherNext o c (.nigma (List.replicate 8 τ)) = some (swapkey c (List.replicate 8 τ) 8) := by
  simp [cipherNext]

/-- **Where the guard is needed, some session makes it fail**: its key has eight zero bytes when
the recurrence comes to zero. -/
theorem exists_zero_seed (o : Endian) {c : Crypto} (hc : Running c)
    (h : ∃ n, recur^[n] c.seed = 0) : ∃ acts, ¬ GuardWorks o c acts := by
  classical
  -- up to the step before the recurrence comes to zero
  obtain ⟨n, hn⟩ : ∃ n, n = Nat.find h - 1 := ⟨_, rfl⟩
  have hbefore : ∀ m < n, recur^[m + 1] c.seed ≠ 0 := fun m hm => Nat.find_min h (by omega)
  have hzero : recur^[n + 1] c.seed = 0 := by
    have hfind := Nat.find_spec h
    rcases Nat.eq_zero_or_pos (Nat.find h) with hfirst | hpos
    · rw [hfirst] at hfind
      rw [hn, hfirst, Function.iterate_succ_apply, show c.seed = 0 from hfind]
      decide
    · rwa [hn, Nat.sub_add_cancel hpos]
  obtain ⟨c', hrun, -, hseed⟩ := exists_run_calls o n hc hbefore
  refine ⟨List.replicate n (.call [0]) ++ [.nigma (List.replicate 8 0), .call [0]],
    fun hworks => ?_⟩
  refine hworks.seed (List.replicate n (.call [0]) ++ [.nigma (List.replicate 8 0)]) [0] []
    (swapkey c' (List.replicate 8 0) 8) (by simp) ?_ 0 (by decide) ?_
  · rw [Runs.run_append, hrun, Option.bind_some, Runs.run_cons (cipherNext_nigma o c' 0)]
    rfl
  · show nextSeed o (List.replicate 8 0) c'.seed = 0
    rw [nextSeed_eq_zero_iff, hseed, ← Function.iterate_succ_apply' recur]
    exact ⟨hzero, fun b hb => List.eq_of_mem_replicate (List.mem_of_mem_take hb)⟩

/-- **Where the recurrence comes to rest, some session degenerates**: its key is the byte at both
ends of the seeds. -/
theorem exists_degenerate (o : Endian) {c : Crypto} (hc : Running c)
    (hne : ∀ n, recur^[n] c.seed ≠ 0) {τ : Byte} (hτ : τ = 0 ∨ τ = 0x80) {n : ℕ}
    (hends : ∀ m, n ≤ m → Ends τ (recur^[m] c.seed)) : ∃ acts, ¬ GuardWorks o c acts := by
  obtain ⟨c', hrun, hc', hseed⟩ := exists_run_calls o n hc fun m _ => hne (m + 1)
  have hrest : ∀ m, recur^[m] c'.seed ≠ 0 := by
    intro m
    rw [hseed, ← Function.iterate_add_apply]
    exact hne _
  have hfrozen : Frozen o (swapkey c' (List.replicate 8 τ) 8) := by
    refine ⟨?_, τ, hτ, fun i _ hi => ?_, fun m => ?_⟩
    · have htop : seedTop c'.seed = τ := hseed ▸ (hends n le_rfl).1
      show Blank (seedTop c'.seed, (List.replicate 8 τ).getD 0 0)
      rw [htop]
      exact blank_self hτ
    · have hi : i < 8 := hi
      show (List.replicate 8 τ).getD i 0 = τ
      rw [List.getD_eq_getElem?_getD, List.getElem?_replicate_of_lt hi]
      rfl
    · show Ends τ ((nextSeed o (List.replicate 8 τ))^[m] (nextSeed o (List.replicate 8 τ) c'.seed))
      rw [← Function.iterate_succ_apply, iterate_nextSeed hrest, hseed,
        ← Function.iterate_add_apply]
      exact hends _ (Nat.le_add_left _ _)
  have hrunning : Running (swapkey c' (List.replicate 8 τ) 8) :=
    ⟨hc'.on, hc'.mode, ⟨le_rfl, le_rfl⟩, show 8 < 2 ^ 31 by decide⟩
  refine ⟨List.replicate n (.call [0]) ++ [.nigma (List.replicate 8 τ)], fun hworks => ?_⟩
  refine hworks.alive _ [] _ (List.append_nil _).symm ?_
    ((degenerate_iff_frozen hrunning).mpr hfrozen)
  rw [Runs.run_append, hrun, Option.bind_some, Runs.run_cons (cipherNext_nigma o c' τ)]
  rfl

/-- **With a seed that keeps moving the guard works** in every session. -/
theorem guardWorks_of_keepsMoving {o : Endian} {c : Crypto} (hc : Running c)
    (h : KeepsMoving c.seed) (acts : List CipherAct) : GuardWorks o c acts := by
  have hrun : ∀ {before : List CipherAct} {c' : Crypto},
      Runs.run (cipherNext o) c before = some c' → OnOrbit c.seed c' :=
    Runs.inv_of_all (OnOrbit.next h.ne_zero) ⟨hc, 0, rfl⟩
  have hnext : ∀ {before : List CipherAct} {c' : Crypto},
      Runs.run (cipherNext o) c before = some c' → ∀ n, recur^[n] c'.seed ≠ 0 := by
    intro before c' hbefore n
    obtain ⟨k, hk⟩ := (hrun hbefore).seed
    rw [hk, ← Function.iterate_add_apply]
    exact h.ne_zero _
  refine ⟨fun before data after c' _ hbefore j _ => ?_, fun before after c' _ hbefore hdeg => ?_⟩
  · rw [seed_iterate o (c', 0) fun m _ => hnext hbefore (m + 1)]
    exact hnext hbefore (j + 1)
  · obtain ⟨-, τ, hτ, -, hends⟩ := (degenerate_iff_frozen (hrun hbefore).running).mp hdeg
    obtain ⟨k, hk⟩ := (hrun hbefore).seed
    obtain ⟨m, hm, hno⟩ := h τ hτ (k + 1)
    -- the seed behind one byte is one step on
    have hfirst : nextSeed o c'.rndkey c'.seed = recur c'.seed := nextSeed_of_ne (hnext hbefore 1)
    have hrest := hends (m - (k + 1))
    rw [hfirst, iterate_nextSeed (fun n => by
      rw [← Function.iterate_succ_apply]
      exact hnext hbefore (n + 1)), hk, ← Function.iterate_succ_apply' recur k,
      ← Function.iterate_add_apply, Nat.sub_add_cancel hm] at hrest
    exact hno hrest

/-- **When the reseed guard works.**  A session starts with a key `derankey` or `mainloop_fai`
accepts.  In every such session, over every sequence of calls and keys of `cmd_nigma`, the seed is
never zero and the cipher never degenerates, if and only if the number made of the first eight
bytes of the key keeps moving under the recurrence. -/
theorem reseed_guard_iff (o : Endian) {key : List Byte} {c : Crypto} (hload : Loaded o key c)
    (hkey : keymin ≤ key.length) (hint : key.length < 2 ^ 31) (hon : c.st = .on)
    (hmode : c.pack ≠ .nopack) :
    (∀ acts, GuardWorks o c acts) ↔ KeepsMoving (keySeed o key) := by
  have hc : Running c := hload.running hkey hint hon hmode
  rw [← hload.seed]
  refine ⟨fun hworks => ?_, guardWorks_of_keepsMoving hc⟩
  by_contra hrest
  obtain ⟨acts, hfails⟩ : ∃ acts, ¬ GuardWorks o c acts := by
    by_cases hzero : ∃ n, recur^[n] c.seed = 0
    · exact exists_zero_seed o hc hzero
    · unfold KeepsMoving at hrest
      push Not at hzero hrest
      obtain ⟨τ, hτ, n, hends⟩ := hrest
      exact exists_degenerate o hc hzero hτ hends
  exact hfails (hworks acts)

/-- A key whose seed stays as it is, with the byte `7` at its top end. -/
def steadyKey : List Byte := [0, 1, 0, 0, 0, 0, 0, 7] ++ lit "any text"

/-- A cipher with that key. -/
def steadyCipher : Crypto :=
  ⟨true, steadyKey, steadyKey.length, .on, keySeed .little steadyKey, .pack⟩

theorem reseed_guard_works : Loaded .little steadyKey steadyCipher ∧
    ∀ acts, GuardWorks .little steadyCipher acts := by
  have hload : Loaded .little steadyKey steadyCipher := ⟨rfl, List.prefix_rfl, rfl⟩
  refine ⟨hload,
    (reseed_guard_iff .little hload (by decide) (by decide) rfl (by decide)).mpr ?_⟩
  have hfixed : recur (keySeed .little steadyKey) = keySeed .little steadyKey := by decide
  intro τ hτ n
  refine ⟨n, le_rfl, fun hends => ?_⟩
  rw [Function.iterate_fixed hfixed] at hends
  have htop : seedTop (keySeed .little steadyKey) = 7 := by decide
  rcases hτ with rfl | rfl
  · exact absurd (htop.symm.trans hends.1) (by decide)
  · exact absurd (htop.symm.trans hends.1) (by decide)

/-- A cipher whose key is all zeros. -/
def zeroCipher : Crypto := ⟨true, List.replicate 16 0, 16, .on, 0, .pack⟩

/-- A key of sixteen zero bytes: the seed is zero behind the first byte. -/
theorem reseed_guard_fails : ¬ ∀ (key : List Byte) (c : Crypto), Loaded .little key c →
    keymin ≤ key.length → key.length < 2 ^ 31 → c.st = .on → c.pack ≠ .nopack →
      ∀ acts, GuardWorks .little c acts := by
  intro h
  have hload : Loaded .little (List.replicate 16 0) zeroCipher := ⟨rfl, List.prefix_rfl, by decide⟩
  have hworks := h _ _ hload (by decide) (by decide) rfl (by decide) [.call [0]]
  exact hworks.seed [] [0] [] zeroCipher rfl rfl 0 (by decide) (by decide)

/-- The seed 256 stays as it is, whatever the key. -/
theorem nextSeed_256 (o : Endian) (key : List Byte) : nextSeed o key 256 = 256 := by
  have hrecur : recur 256 = 256 := by decide
  rw [nextSeed_eq, hrecur, if_neg (by decide)]

/-- A cipher whose key is all zeros but for its second byte. -/
def secondByteCipher : Crypto := ⟨true, 0 :: 1 :: List.replicate 14 0, 16, .on, 256, .pack⟩

/-- **A seed that is never zero, and the identity all the same**: two bytes into the first call
the key is zero, the seed stays 256, and all data from then on is sent in the clear. -/
theorem identity_with_seed : Loaded .little (0 :: 1 :: List.replicate 14 0) secondByteCipher ∧
    (∀ n, ((keyNext .little)^[n] (secondByteCipher, 0)).1.seed = 256) ∧
      Degenerate .little (afterCall .little secondByteCipher 2) := by
  have hload : Loaded .little (0 :: 1 :: List.replicate 14 0) secondByteCipher :=
    ⟨rfl, List.prefix_rfl, by decide⟩
  have hseed : ∀ n, ((keyNext .little)^[n] (secondByteCipher, 0)).1.seed = 256 := by
    intro n
    induction n with
    | zero => rfl
    | succ n ih => rw [Function.iterate_succ_apply', keyNext_seed, ih, nextSeed_256]
  have hrunning := (hload.running (by decide) (by decide) rfl (by decide)).call .little 2
  refine ⟨hload, hseed,
    (degenerate_iff_frozen hrunning).mpr ⟨.inl (by decide), 0, .inl rfl, ?_, ?_⟩⟩
  · decide
  · intro n
    have hfixed := nextSeed_256 .little (List.replicate 8 0)
    have htwo : (afterCall .little secondByteCipher 2).seed = 256 := hseed 2
    rw [htwo, nextSeed_256, Function.iterate_fixed hfixed]
    exact ⟨by decide, by decide⟩

end TFProtocol
