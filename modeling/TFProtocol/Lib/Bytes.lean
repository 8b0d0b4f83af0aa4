import Mathlib.Data.List.Basic
import Mathlib.Data.BitVec
import Mathlib.Tactic.Ring

/-!
# Bytes, byte order and C integer conversions

A host stores an integer in memory as the bytes of its little-endian expansion,
in that order or reversed.  `memBytes` and `ofMem` are the two directions, with
the host's byte order as an argument.

## Main definitions

* `Byte`, `Endian` — a byte, and the two byte orders.
* `memBytes o n v`, `ofMem o bs` — the `n` bytes of `v` in memory, and back.
* `cint` — conversion of an integer to a 32-bit `int`.

## Main results

* `ofMem_memBytes` — reading back what was stored.
* `cint_of_lt` — a length below `2 ^ 31` survives the conversion to `int`.
-/

/-- A byte of memory. -/
abbrev Byte := BitVec 8

/-- The byte order of a host. -/
inductive Endian
  | little
  | big
  deriving DecidableEq, Repr, Inhabited

namespace Bytes

/-- The byte of a character. -/
def ofChar (c : Char) : Byte := BitVec.ofNat 8 c.toNat

/-- The bytes of a string literal. -/
def lit (s : String) : List Byte := s.toList.map ofChar

/-- A literal by its characters.  To compute with a long literal, rewrite with this first: the
characters of a string are slow to find. -/
theorem lit_ofList (cs : List Char) : lit (no_index (String.ofList cs)) = cs.map ofChar := by
  rw [lit, String.toList_ofList]

/-! ### Byte order -/

/-- The `n` low bytes of `v`, least significant first. -/
def leBytes : ℕ → ℕ → List Byte
  | 0, _ => []
  | n + 1, v => BitVec.ofNat 8 v :: leBytes n (v / 256)

/-- The number whose little-endian expansion is `bs`. -/
def ofLe : List Byte → ℕ
  | [] => 0
  | b :: bs => b.toNat + 256 * ofLe bs

@[simp] theorem length_leBytes : ∀ (n v : ℕ), (leBytes n v).length = n := by
  intro n
  induction n with
  | zero => intro v; rfl
  | succ n ih => intro v; simp [leBytes, ih]

/-- A byte of a value. -/
theorem ofNat_div_pow {w : ℕ} (v : BitVec w) (i : ℕ) :
    BitVec.ofNat 8 (v.toNat / 256 ^ i) = v.extractLsb' (8 * i) 8 := by
  apply BitVec.eq_of_toNat_eq
  rw [BitVec.toNat_ofNat, BitVec.extractLsb'_toNat, Nat.shiftRight_eq_div_pow, pow_mul]
  norm_num

/-- The bytes of a value, the lowest first. -/
theorem leBytes_eq_map {w : ℕ} (v : BitVec w) (n : ℕ) :
    leBytes n v.toNat = (List.range n).map fun i => v.extractLsb' (8 * i) 8 := by
  have h : ∀ (n k m : ℕ), leBytes n (m / 256 ^ k)
      = (List.range n).map fun i => BitVec.ofNat 8 (m / 256 ^ (k + i)) := by
    intro n
    induction n with
    | zero => intro k m; rfl
    | succ n ih =>
      intro k m
      rw [leBytes, Nat.div_div_eq_div_mul, ← pow_succ, ih, List.range_succ_eq_map, List.map_cons,
        List.map_map]
      simp only [Nat.add_zero, List.cons.injEq, true_and]
      refine List.map_congr_left fun i _ => ?_
      simp only [Function.comp_apply]
      rw [show k + 1 + i = k + i.succ by omega]
  have h0 := h n 0 v.toNat
  simp only [pow_zero, Nat.div_one, Nat.zero_add, ofNat_div_pow] at h0
  exact h0

theorem ofLe_leBytes : ∀ (n v : ℕ), v < 256 ^ n → ofLe (leBytes n v) = v := by
  intro n
  induction n with
  | zero => intro v hv; simp only [pow_zero] at hv; simp [leBytes, ofLe]; omega
  | succ n ih =>
    intro v hv
    have hdiv : v / 256 < 256 ^ n := by
      rw [Nat.div_lt_iff_lt_mul (by omega)]
      rwa [pow_succ] at hv
    simp only [leBytes, ofLe, ih _ hdiv, BitVec.toNat_ofNat]
    omega

theorem leBytes_ofLe : ∀ bs : List Byte, leBytes bs.length (ofLe bs) = bs := by
  intro bs
  induction bs with
  | nil => rfl
  | cons b bs ih =>
    have hb := b.isLt
    have hdiv : (b.toNat + 256 * ofLe bs) / 256 = ofLe bs := by omega
    rw [List.length_cons, leBytes, ofLe, hdiv, ih]
    congr 1
    apply BitVec.eq_of_toNat_eq
    rw [BitVec.toNat_ofNat]
    omega

/-- The `n` bytes of `v` as a host with byte order `o` stores them. -/
def memBytes : Endian → ℕ → ℕ → List Byte
  | .little, n, v => leBytes n v
  | .big, n, v => (leBytes n v).reverse

/-- The number a host with byte order `o` reads from the bytes `bs`. -/
def ofMem : Endian → List Byte → ℕ
  | .little, bs => ofLe bs
  | .big, bs => ofLe bs.reverse

@[simp] theorem length_memBytes (o : Endian) (n v : ℕ) : (memBytes o n v).length = n := by
  cases o <;> simp [memBytes]

/-- Reading back the bytes of a number that fits. -/
theorem ofMem_memBytes (o : Endian) {n v : ℕ} (hv : v < 256 ^ n) :
    ofMem o (memBytes o n v) = v := by
  cases o with
  | little => exact ofLe_leBytes n v hv
  | big => simp only [ofMem, memBytes, List.reverse_reverse]; exact ofLe_leBytes n v hv

/-- Storing the number that some bytes stand for. -/
theorem memBytes_ofMem (o : Endian) (bs : List Byte) : memBytes o bs.length (ofMem o bs) = bs := by
  cases o with
  | little => exact leBytes_ofLe bs
  | big =>
    show (leBytes bs.length (ofLe bs.reverse)).reverse = bs
    rw [← List.length_reverse, leBytes_ofLe, List.reverse_reverse]

theorem ofMem_lt (o : Endian) (bs : List Byte) : ofMem o bs < 256 ^ bs.length := by
  have hle : ∀ bs : List Byte, ofLe bs < 256 ^ bs.length := by
    intro bs
    induction bs with
    | nil => simp [ofLe]
    | cons b bs ih =>
      have hb := b.isLt
      rw [ofLe, List.length_cons, pow_succ]
      omega
  cases o with
  | little => exact hle bs
  | big => simpa [ofMem] using hle bs.reverse

/-! ### Integers -/

/-- The conversion of an integer to a 32-bit signed `int`. -/
def cint (n : ℤ) : ℤ := (BitVec.ofInt 32 n).toInt

theorem cint_of_lt {n : ℕ} (h : n < 2 ^ 31) : cint n = n := by
  unfold cint
  rw [BitVec.toInt_ofInt]
  norm_num [Int.bmod_def]
  omega

/-- The natural numbers that an `int` holds. -/
theorem cint_eq_self_iff {n : ℕ} : cint n = n ↔ n < 2 ^ 31 := by
  refine ⟨fun h => ?_, cint_of_lt⟩
  rw [cint, BitVec.toInt_ofInt, Int.bmod_def] at h
  norm_num at h ⊢
  omega

end Bytes
