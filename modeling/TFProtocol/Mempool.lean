import Mathlib.Data.List.TakeDrop
import TFProtocol.DirWalk
import TFProtocol.Lib.Blocks
import TFProtocol.Lib.Programs

/-!
# Memory pools

A `struct mempool` describes one block of memory that `mpool_addblk` makes longer by a record of
`blksz` bytes; the functions that list directories store a path in each record.  When `realloc`
fails, `mpool_addblk` frees the block and leaves the description as it is.

Every use of memory is a call here: those of the pool functions, of the fields and records of a
pool, of the buffer `newp` of `listdir`, and of the system.  A call is not defined where it
frees or uses a block that is not there.  The outcome of an allocation and the answers of the
system are given for every moment, and may be different at any two of them; `realloc` always
moves a block, so that an old address never comes to be good again.  Strings fit into their
records.

## Main definitions

* `PoolBlk`, `Mempool`, `mpoolCreate`, `mpoolDestroy`, `mpoolAddblk` — the source.
* `PoolCall`, `poolNext` — the calls, and what they do.
* `PoolSound` — what should hold at a call, and after it.
* `PoolAllowed` — no allocation fails for a pool that has a block, and no pool is too long.
* `PoolInv` — which blocks there are, pool by pool and buffer by buffer.
* `PoolUse` — a call is one the callers may make.

## Main results

* `poolSound_iff` — **a call is sound exactly when it is allowed.**
* `dangling_pool` — behind a failure nothing can be done with the pool.
-/

namespace TFProtocol

open Bytes

/-! ### Blocks of records -/

/-- A block of so many bytes, with the strings in it: one for every `PATH_MAX` bytes. -/
structure PoolBlk where
  size : ℕ
  recs : List (List Byte)
  deriving DecidableEq

/-- A block of a size, with what it holds of another one. -/
def PoolBlk.fit (size : ℕ) (b : Option PoolBlk) : PoolBlk :=
  ⟨size, List.takeD (size / pathMax) ((b.map (·.recs)).getD []) []⟩

/-- The record that starts at an offset. -/
def recNo (off : ℤ) : Option ℕ :=
  if 0 ≤ off ∧ (pathMax : ℤ) ∣ off then some (off / pathMax).toNat else none

/-- The string at `data + off`. -/
def poolRead (h : Blocks PoolBlk) (data : Option ℕ) (off : ℤ) : Option (List Byte) :=
  data.bind fun d => (h.get d).bind fun b => (recNo off).bind fun i => b.recs[i]?

/-- A string is stored at `data + off`. -/
def poolWrite (h : Blocks PoolBlk) (data : Option ℕ) (off : ℤ) (s : List Byte) :
    Option (Blocks PoolBlk) :=
  data.bind fun d => (h.get d).bind fun b => (recNo off).bind fun i =>
    if i < b.recs.length then some (h.store d { b with recs := b.recs.set i s }) else none

/-! ### The functions -/

/-- `struct mempool`. -/
structure Mempool where
  data : Option ℕ
  size : ℕ
  blksz : ℕ
  count : ℤ
  deriving DecidableEq

/-- `mpool_create(pool, blksz)`. -/
def mpoolCreate (blksz : ℕ) : Mempool where
  data := none
  blksz := blksz
  size := 0
  count := 0

/-- `mpool_destroy(pool)`. -/
def mpoolDestroy (h : Blocks PoolBlk) (pool : Mempool) : Option (Blocks PoolBlk × Mempool) :=
  if pool.data ≠ none then (h.free pool.data).map fun h => (h, mpoolCreate 0) else some (h, pool)

/-- `mpool_addblk(pool)`, with the outcome of `realloc`: the pool, and whether a pointer is
returned. -/
def mpoolAddblk (ok : Bool) (h : Blocks PoolBlk) (pool : Mempool) :
    Option (Blocks PoolBlk × Mempool × Bool) :=
  let size := (pool.size + pool.blksz) % 2 ^ 64
  match h.realloc ok (PoolBlk.fit size) pool.data with
  | none => none
  | some (h, none) => (h.free pool.data).map fun h => (h, pool, false)
  | some (h, some data) =>
    let pool := { pool with data := some data, count := cint (pool.count + 1), size }
    (poolWrite h pool.data (cint (pool.count - 1) * pool.blksz) []).map fun h => (h, pool, true)

/-! ### Calls -/

/-- The calls of the system, with their arguments. -/
inductive SysCall
  | opendir (path : List Byte)
  | stat (path : List Byte)
  | lstat (path : List Byte)
  | realpath (path : List Byte)
  | access (path : List Byte)
  | mkdir (path : List Byte)
  | rmdir (path : List Byte)
  | link (src dst : List Byte)
  | unlink (path : List Byte)
  | mktmp (name : List Byte)
  | writetmp (line : List Byte)
  deriving DecidableEq

/-- What they answer.  `opendir` answers all that `readdir` will give. -/
def SysCall.Ans : SysCall → Type
  | .opendir _ => Option (List (List Byte))
  | .stat _ | .lstat _ => Option DType
  | .realpath _ => List Byte
  | .mktmp _ => Bool
  | .writetmp _ => Unit
  | .access _ | .mkdir _ | .rmdir _ | .link _ _ | .unlink _ => ℤ

/-- The calls of the functions that use pools.  They are about the variable `list`, and the
variable `newp`, of the innermost function that has one. -/
inductive PoolCall
  /-- The variable `list`, and `mpool_create(&list, PATH_MAX)`. -/
  | create
  /-- The fields of `list`. -/
  | fields
  /-- `mpool_addblk(&list)`. -/
  | addblk
  /-- `strcpy(list.data + off, s)`. -/
  | strcpy (off : ℤ) (s : List Byte)
  /-- The path at `list.data + off`. -/
  | path (off : ℤ)
  /-- `mpool_destroy(&list)`. -/
  | destroy
  /-- The variable `list` goes out of scope. -/
  | leave
  /-- `newp = malloc(PATH_MAX)`. -/
  | malloc
  /-- `strcpy(newp, s)`. -/
  | strcpyNewp (s : List Byte)
  /-- `free(newp)`, at the end of the function. -/
  | freeNewp
  | sys (c : SysCall)
  deriving DecidableEq

/-- What they answer: `addblk` and `malloc` whether the pointer is one. -/
def PoolCall.Ans : PoolCall → Type
  | .fields => Mempool
  | .addblk | .malloc => Bool
  | .path _ => List Byte
  | .sys c => c.Ans
  | .create | .strcpy _ _ | .destroy | .leave | .strcpyNewp _ | .freeNewp => Unit

/-- The blocks, the variables `list` and `newp` of the functions that are running, from the
innermost one out, and the time. -/
structure PoolMem where
  heap : Blocks PoolBlk
  pools : List Mempool
  bufs : List (Option ℕ)
  tick : ℕ

/-- What happens outside, at each time. -/
structure PoolEnv where
  /-- An allocation succeeds. -/
  alloc : ℕ → Bool
  sys : ℕ → (c : SysCall) → c.Ans

/-- Memory before the first call. -/
def PoolMem.start (h : Blocks PoolBlk) : PoolMem := ⟨h, [], [], 0⟩

/-- What a call does, and its answer. -/
def poolNext (env : PoolEnv) (m : PoolMem) : (a : PoolCall) → Option (PoolMem × a.Ans)
  | .create => some ({ m with pools := mpoolCreate pathMax :: m.pools }, ())
  | .fields => m.pools.head?.map fun list => (m, list)
  | .addblk =>
    match m.pools with
    | [] => none
    | list :: pools => (mpoolAddblk (env.alloc m.tick) m.heap list).map fun r =>
      ({ m with heap := r.1, pools := r.2.1 :: pools, tick := m.tick + 1 }, r.2.2)
  | .strcpy off s => m.pools.head?.bind fun list =>
    (poolWrite m.heap list.data off s).map fun h => ({ m with heap := h }, ())
  | .path off => m.pools.head?.bind fun list =>
    (poolRead m.heap list.data off).map fun s => (m, s)
  | .destroy =>
    match m.pools with
    | [] => none
    | list :: pools => (mpoolDestroy m.heap list).map fun r =>
      ({ m with heap := r.1, pools := r.2 :: pools }, ())
  | .leave => some ({ m with pools := m.pools.tail }, ())
  | .malloc =>
    let r := m.heap.malloc (env.alloc m.tick) (PoolBlk.fit pathMax none)
    some ({ m with heap := r.1, bufs := r.2 :: m.bufs, tick := m.tick + 1 }, r.2.isSome)
  | .strcpyNewp s => m.bufs.head?.bind fun newp =>
    (poolWrite m.heap newp 0 s).map fun h => ({ m with heap := h }, ())
  | .freeNewp => m.bufs.head?.bind fun newp =>
    (m.heap.free newp).map fun h => ({ m with heap := h, bufs := m.bufs.tail }, ())
  | .sys c => some ({ m with tick := m.tick + 1 }, env.sys m.tick c)

/-- The programs that make these calls. -/
abbrev PoolProg := Prog PoolCall.Ans

/-! ### Soundness -/

/-- `data` is `NULL` and `count` is zero, or `data` is a block of `count * blksz` bytes. -/
def Mempool.Rep (h : Blocks PoolBlk) (pool : Mempool) : Prop :=
  match pool.data with
  | none => pool.count = 0
  | some d => ∃ b ∈ h.get d, (b.size : ℤ) = pool.count * pool.blksz ∧ pool.size = b.size

/-- What should hold at a call, and after it. -/
structure PoolSound (env : PoolEnv) (m : PoolMem) (a : PoolCall) : Prop where
  /-- Nothing is freed or used that is not there. -/
  defined : (poolNext env m a).isSome
  rep : ∀ r ∈ poolNext env m a, ∀ pool ∈ r.1.pools, pool.Rep r.1.heap
  /-- A block that could not be added leaves the pool as it was, or empty. -/
  failed : a = .addblk → env.alloc m.tick = false → ∀ r ∈ poolNext env m a,
    r.1.pools = m.pools ∧ r.1.heap = m.heap ∨ ∀ pool ∈ r.1.pools.head?, pool.data = none ∧
      pool.count = 0

instance (h : Blocks PoolBlk) (pool : Mempool) : Decidable (pool.Rep h) := by
  unfold Mempool.Rep
  split <;> infer_instance

instance (env : PoolEnv) (m : PoolMem) (a : PoolCall) : Decidable (PoolSound env m a) :=
  decidable_of_iff ((poolNext env m a).isSome ∧
    (∀ r ∈ poolNext env m a, ∀ pool ∈ r.1.pools, pool.Rep r.1.heap) ∧
    (a = .addblk → env.alloc m.tick = false → ∀ r ∈ poolNext env m a,
      r.1.pools = m.pools ∧ r.1.heap = m.heap ∨
        ∀ pool ∈ r.1.pools.head?, pool.data = none ∧ pool.count = 0))
    ⟨fun h => ⟨h.1, h.2.1, h.2.2⟩, fun h => ⟨h.defined, h.rep, h.failed⟩⟩

/-- An allocation does not fail for a pool that has a block, and `count` is not at its end. -/
def PoolAllowed (env : PoolEnv) (m : PoolMem) (a : PoolCall) : Prop :=
  a = .addblk → ∀ pool ∈ m.pools.head?,
    if env.alloc m.tick then pool.count + 1 < 2 ^ 31 else pool.data = none

/-! ### Records -/

@[simp] theorem recNo_mul (i : ℕ) : recNo (i * pathMax) = some i := by
  have hdvd : (pathMax : ℤ) ∣ (i : ℤ) * pathMax := ⟨i, mul_comm _ _⟩
  have hpos : (pathMax : ℤ) ≠ 0 := by decide
  rw [recNo, if_pos ⟨by positivity, hdvd⟩, Int.mul_ediv_cancel _ hpos, Int.toNat_natCast]

/-- A block that has become longer by a record. -/
theorem fit_succ (n : ℕ) (L : List (List Byte)) :
    PoolBlk.fit ((L.length + 1) * pathMax) (some ⟨n, L⟩) =
      ⟨(L.length + 1) * pathMax, L ++ [[]]⟩ := by
  have htake : List.takeD (L.length + 1) L [] = L ++ [[]] := by
    induction L with
    | nil => rfl
    | cons x L ih => exact congrArg (x :: ·) ih
  rw [PoolBlk.fit, Nat.mul_div_cancel _ (by decide)]
  exact congrArg _ htake

section

variable {h : Blocks PoolBlk} {d n i : ℕ} {L : List (List Byte)} {l : List (ℕ × PoolBlk)}

theorem poolRead_of_owns (ho : h.Owns ((d, ⟨n, L⟩) :: l)) (i : ℕ) :
    poolRead h (some d) (i * pathMax) = L[i]? := by
  rw [poolRead, Option.bind_some, ho.get, Option.bind_some, recNo_mul, Option.bind_some]

theorem poolWrite_of_owns (ho : h.Owns ((d, ⟨n, L⟩) :: l)) (hi : i < L.length) (s : List Byte) :
    ∃ h', poolWrite h (some d) (i * pathMax) s = some h' ∧
      h'.Owns ((d, ⟨n, L.set i s⟩) :: l) := by
  refine ⟨h.store d ⟨n, L.set i s⟩, ?_, ho.store _⟩
  rw [poolWrite, Option.bind_some, ho.get, Option.bind_some, recNo_mul, Option.bind_some,
    if_pos hi]

end

/-! ### One pool -/

/-- The fields of a pool with these records. -/
structure Mempool.Fits (pool : Mempool) (L : List (List Byte)) : Prop where
  count : pool.count = L.length
  int : L.length < 2 ^ 31
  null : pool.data = none → L = []
  size : pool.size = L.length * pathMax
  blksz : pool.data ≠ none → pool.blksz = pathMax

/-- The block of a pool. -/
def poolBlock (x : Mempool × List (List Byte)) : List (ℕ × PoolBlk) :=
  x.1.data.toList.map fun d => (d, ⟨x.2.length * pathMax, x.2⟩)

theorem fits_create (blksz : ℕ) : (mpoolCreate blksz).Fits [] :=
  ⟨rfl, by decide, fun _ => rfl, rfl, fun h => absurd rfl h⟩

section

variable {h : Blocks PoolBlk} {pool : Mempool} {L : List (List Byte)} {l : List (ℕ × PoolBlk)}

theorem Mempool.Fits.rep (hf : pool.Fits L)
    (hget : ∀ x ∈ poolBlock (pool, L), h.get x.1 = some x.2) : pool.Rep h := by
  unfold Mempool.Rep
  cases hd : pool.data with
  | none => rw [hf.count, hf.null hd]; rfl
  | some d =>
    rw [poolBlock, hd] at hget
    refine ⟨_, hget _ List.mem_cons_self, ?_, hf.size⟩
    rw [hf.count, hf.blksz (by rw [hd]; nofun)]
    push_cast
    rfl

/-- **A record more.** -/
theorem mpoolAddblk_true (hf : pool.Fits L) (hblksz : pool.blksz = pathMax)
    (hint : L.length + 1 < 2 ^ 31) (ho : h.Owns (poolBlock (pool, L) ++ l)) :
    ∃ h' pool', mpoolAddblk true h pool = some (h', pool', true) ∧ pool'.Fits (L ++ [[]]) ∧
      pool'.blksz = pathMax ∧ h'.Owns (poolBlock (pool', L ++ [[]]) ++ l) := by
  have hsize : (pool.size + pathMax) % 2 ^ 64 = (L.length + 1) * pathMax := by
    rw [hf.size, Nat.mod_eq_of_lt]
    · ring
    · simp only [pathMax]
      omega
  have hcount : cint (pool.count + 1) = (L.length + 1 : ℕ) := by
    rw [hf.count]
    exact cint_of_lt hint
  -- the block that `realloc` gives
  obtain ⟨h₁, d, hre, ho₁⟩ : ∃ h₁ d,
      h.realloc true (PoolBlk.fit ((L.length + 1) * pathMax)) pool.data = some (h₁, some d) ∧
        h₁.Owns ((d, ⟨(L.length + 1) * pathMax, L ++ [[]]⟩) :: l) := by
    cases hd : pool.data with
    | none =>
      obtain rfl := hf.null hd
      rw [poolBlock, hd] at ho
      exact ⟨_, _, rfl, ho.malloc _⟩
    | some d =>
      rw [poolBlock, hd] at ho
      obtain ⟨h₁, hre, ho₁⟩ := Blocks.Owns.realloc ho (PoolBlk.fit ((L.length + 1) * pathMax))
      exact ⟨h₁, _, hre, by rwa [fit_succ] at ho₁⟩
  obtain ⟨h₂, hw, ho₂⟩ := poolWrite_of_owns ho₁ (i := L.length) (by simp) []
  have hset : (L ++ [[]]).set L.length ([] : List Byte) = L ++ [[]] := by
    rw [List.set_append_right _ _ le_rfl, Nat.sub_self]
    rfl
  refine ⟨h₂, ⟨some d, (L.length + 1) * pathMax, pathMax, (L.length + 1 : ℕ)⟩, ?_, ?_, rfl, ?_⟩
  · have hlast : cint (((L.length + 1 : ℕ) : ℤ) - 1) = L.length := by
      rw [Nat.cast_succ, add_sub_cancel_right]
      exact cint_of_lt (by omega)
    simp only [mpoolAddblk, hblksz, hsize, hre, hcount, hlast, hw, Option.map_some]
  · refine ⟨by simp, by simpa using hint, nofun, by simp, fun _ => rfl⟩
  · rw [hset] at ho₂
    simpa [poolBlock] using ho₂

/-- A block that is not there is not freed. -/
theorem mpoolAddblk_false (hd : pool.data = none) :
    mpoolAddblk false h pool = some (h, pool, false) := by
  simp [mpoolAddblk, hd, Blocks.realloc, Blocks.malloc, Blocks.free]

theorem mpoolDestroy_of_owns (hf : pool.Fits L) (ho : h.Owns (poolBlock (pool, L) ++ l)) :
    ∃ h' pool', mpoolDestroy h pool = some (h', pool') ∧ pool'.Fits [] ∧ pool'.data = none ∧
      h'.Owns l := by
  cases hd : pool.data with
  | none =>
    have hnil := hf.null hd
    subst hnil
    refine ⟨h, pool, by simp [mpoolDestroy, hd], hf, hd, ?_⟩
    simpa [poolBlock, hd] using ho
  | some d =>
    rw [poolBlock, hd] at ho
    obtain ⟨h', hfree, ho'⟩ := Blocks.Owns.free ho
    exact ⟨h', mpoolCreate 0, by simp [mpoolDestroy, hd, hfree], fits_create 0, rfl, ho'⟩

/-- The fields behind a success. -/
theorem mpoolAddblk_true_fields {h' : Blocks PoolBlk} {pool' : Mempool} {b : Bool}
    (hadd : mpoolAddblk true h pool = some (h', pool', b)) :
    pool'.data ≠ none ∧ pool'.count = cint (pool.count + 1) ∧ pool'.blksz = pool.blksz := by
  simp only [mpoolAddblk] at hadd
  split at hadd
  · cases hadd
  · next hre =>
    -- `realloc` does not fail
    unfold Blocks.realloc at hre
    split at hre
    · simp [Blocks.malloc] at hre
    · split at hre
      · cases hre
      · simp [Blocks.malloc] at hre
  · obtain ⟨_, _, heq⟩ := Option.map_eq_some_iff.mp hadd
    cases heq
    exact ⟨nofun, rfl, rfl⟩

/-- **Behind a failure** of a pool that has a block the block is gone, the pool is the same, and
whatever is done with it next is an error. -/
theorem dangling_pool {d : ℕ} {b : PoolBlk} (hd : pool.data = some d) (hb : h.get d = some b) :
    ∃ h', mpoolAddblk false h pool = some (h', pool, false) ∧ h'.get d = none ∧
      mpoolDestroy h' pool = none ∧ (∀ ok, mpoolAddblk ok h' pool = none) ∧
      ∀ off s, poolRead h' pool.data off = none ∧ poolWrite h' pool.data off s = none := by
  have hgone := Blocks.get_set_none h d
  refine ⟨h.set d none, ?_, hgone, ?_, fun ok => ?_, fun off s => ⟨?_, ?_⟩⟩
  · simp [mpoolAddblk, hd, Blocks.realloc, Blocks.free, hb]
  · simp [mpoolDestroy, hd, Blocks.free_of_get hgone]
  · simp [mpoolAddblk, hd, Blocks.realloc_of_get hgone]
  · simp [poolRead, hd, hgone]
  · simp [poolWrite, hd, hgone]

end

/-! ### All pools and buffers -/

/-- The block of a buffer. -/
def bufBlock (y : Option ℕ × List Byte) : List (ℕ × PoolBlk) :=
  y.1.toList.map fun q => (q, ⟨pathMax, [y.2]⟩)

/-- The pools that are there, with their records, and the buffers, with their contents. -/
structure PoolInv (ps : List (Mempool × List (List Byte))) (bs : List (Option ℕ × List Byte))
    (m : PoolMem) : Prop where
  pools : m.pools = ps.map Prod.fst
  bufs : m.bufs = bs.map Prod.fst
  fits : ∀ x ∈ ps, x.1.Fits x.2
  owns : m.heap.Owns (ps.flatMap poolBlock ++ bs.flatMap bufBlock)

/-- The calls that the functions make. -/
inductive PoolUse (m : PoolMem) : PoolCall → Prop
  | create {ps bs} (h : PoolInv ps bs m) : PoolUse m .create
  | fields {x ps bs} (h : PoolInv (x :: ps) bs m) : PoolUse m .fields
  | addblk {x ps bs} (h : PoolInv (x :: ps) bs m) (hblksz : x.1.blksz = pathMax) :
      PoolUse m .addblk
  | strcpy {x ps bs} {i : ℕ} (h : PoolInv (x :: ps) bs m) (hi : i < x.2.length) (s : List Byte) :
      PoolUse m (.strcpy (i * pathMax) s)
  | path {x ps bs} {i : ℕ} (h : PoolInv (x :: ps) bs m) (hi : i < x.2.length) :
      PoolUse m (.path (i * pathMax))
  | destroy {x ps bs} (h : PoolInv (x :: ps) bs m) : PoolUse m .destroy
  | leave {x ps bs} (h : PoolInv (x :: ps) bs m) : PoolUse m .leave
  | malloc {ps bs} (h : PoolInv ps bs m) : PoolUse m .malloc
  | strcpyNewp {q r ps bs} (h : PoolInv ps ((some q, r) :: bs) m) (s : List Byte) :
      PoolUse m (.strcpyNewp s)
  | freeNewp {y ps bs} (h : PoolInv ps (y :: bs) m) : PoolUse m .freeNewp
  | sys {ps bs} (h : PoolInv ps bs m) (c : SysCall) : PoolUse m (.sys c)

section

variable {env : PoolEnv} {m : PoolMem} {pool : Mempool} {L : List (List Byte)}
  {ps : List (Mempool × List (List Byte))} {bs : List (Option ℕ × List Byte)}

theorem PoolInv.start (h : Blocks PoolBlk) : PoolInv [] [] (.start h) :=
  ⟨rfl, rfl, nofun, Blocks.owns_nil h⟩

theorem PoolInv.head (h : PoolInv ((pool, L) :: ps) bs m) : m.pools = pool :: ps.map Prod.fst :=
  h.pools

theorem PoolInv.fitsHead (h : PoolInv ((pool, L) :: ps) bs m) : pool.Fits L :=
  h.fits _ List.mem_cons_self

/-- The block of the first pool comes before the others. -/
theorem PoolInv.ownsHead (h : PoolInv ((pool, L) :: ps) bs m) :
    m.heap.Owns (poolBlock (pool, L) ++ (ps.flatMap poolBlock ++ bs.flatMap bufBlock)) := by
  have ho := h.owns
  rwa [List.flatMap_cons, List.append_assoc] at ho

theorem PoolInv.rep (h : PoolInv ps bs m) : ∀ pool ∈ m.pools, pool.Rep m.heap := by
  intro pool hpool
  rw [h.pools] at hpool
  obtain ⟨x, hx, rfl⟩ := List.mem_map.mp hpool
  refine (h.fits x hx).rep fun y hy => h.owns.2 y ?_
  exact List.mem_append_left _ (List.mem_flatMap.mpr ⟨x, hx, hy⟩)

/-- Another pool in the first place. -/
theorem PoolInv.setHead (h : PoolInv ((pool, L) :: ps) bs m) (heap : Blocks PoolBlk)
    {pool' : Mempool} {L' : List (List Byte)} (hf : pool'.Fits L')
    (ho : heap.Owns (poolBlock (pool', L') ++ (ps.flatMap poolBlock ++ bs.flatMap bufBlock)))
    (tick : ℕ) : PoolInv ((pool', L') :: ps) bs ⟨heap, pool' :: ps.map Prod.fst, m.bufs, tick⟩ := by
  refine ⟨rfl, h.bufs, ?_, ?_⟩
  · intro x hx
    rcases List.mem_cons.mp hx with rfl | hx
    · exact hf
    · exact h.fits x (List.mem_cons_of_mem _ hx)
  · rwa [List.flatMap_cons, List.append_assoc]

/-! ### What each call does -/

variable (env)

theorem PoolInv.create (h : PoolInv ps bs m) : ∃ t, poolNext env m .create = some (t, ()) ∧
    PoolInv ((mpoolCreate pathMax, []) :: ps) bs t := by
  refine ⟨_, rfl, by rw [h.pools]; rfl, h.bufs, ?_, h.owns⟩
  intro x hx
  rcases List.mem_cons.mp hx with rfl | hx
  · exact fits_create pathMax
  · exact h.fits x hx

theorem PoolInv.fields (h : PoolInv ((pool, L) :: ps) bs m) :
    poolNext env m .fields = some (m, pool) := by
  rw [poolNext, h.head]
  rfl

theorem PoolInv.addblk_true (h : PoolInv ((pool, L) :: ps) bs m) (hblksz : pool.blksz = pathMax)
    (hint : L.length + 1 < 2 ^ 31) (hok : env.alloc m.tick = true) :
    ∃ t pool', poolNext env m .addblk = some (t, true) ∧
      PoolInv ((pool', L ++ [[]]) :: ps) bs t ∧ pool'.blksz = pathMax := by
  obtain ⟨heap, pool', hadd, hf, hblksz', ho⟩ :=
    mpoolAddblk_true h.fitsHead hblksz hint h.ownsHead
  refine ⟨_, pool', ?_, h.setHead heap hf ho (m.tick + 1), hblksz'⟩
  simp only [poolNext, h.head, hok, hadd]
  rfl

theorem PoolInv.addblk_false (h : PoolInv ((pool, L) :: ps) bs m) (hd : pool.data = none)
    (hfail : env.alloc m.tick = false) :
    ∃ t, poolNext env m .addblk = some (t, false) ∧ PoolInv ((pool, L) :: ps) bs t ∧
      t.pools = m.pools ∧ t.heap = m.heap := by
  refine ⟨_, ?_, h.setHead m.heap h.fitsHead h.ownsHead (m.tick + 1), h.head.symm, rfl⟩
  simp only [poolNext, h.head, hfail, mpoolAddblk_false hd]
  rfl

/-- A pool with records has a block. -/
theorem PoolInv.exists_data (h : PoolInv ((pool, L) :: ps) bs m) {i : ℕ} (hi : i < L.length) :
    ∃ d, pool.data = some d ∧ m.heap.Owns ((d, ⟨L.length * pathMax, L⟩) ::
      (ps.flatMap poolBlock ++ bs.flatMap bufBlock)) := by
  have ho := h.ownsHead
  cases hd : pool.data with
  | none =>
    obtain rfl := h.fitsHead.null hd
    exact absurd hi (Nat.not_lt_zero i)
  | some d =>
    rw [poolBlock, hd] at ho
    exact ⟨d, rfl, ho⟩

theorem PoolInv.strcpy (h : PoolInv ((pool, L) :: ps) bs m) {i : ℕ} (hi : i < L.length)
    (s : List Byte) : ∃ t, poolNext env m (.strcpy (i * pathMax) s) = some (t, ()) ∧
      PoolInv ((pool, L.set i s) :: ps) bs t := by
  obtain ⟨d, hd, ho⟩ := h.exists_data hi
  obtain ⟨heap, hw, ho'⟩ := poolWrite_of_owns ho hi s
  have hf : pool.Fits (L.set i s) := by
    have hlen : (L.set i s).length = L.length := List.length_set
    have hf := h.fitsHead
    refine ⟨by rw [hlen, hf.count], by rw [hlen]; exact hf.int, ?_, by rw [hlen, hf.size],
      hf.blksz⟩
    rw [hd]
    nofun
  refine ⟨_, ?_, h.setHead heap hf ?_ m.tick⟩
  · simp only [poolNext, h.head, List.head?_cons, Option.bind_some, hd, hw]
    rfl
  · rw [poolBlock, hd, List.length_set]
    exact ho'

theorem PoolInv.path (h : PoolInv ((pool, L) :: ps) bs m) {i : ℕ} (hi : i < L.length) :
    poolNext env m (.path (i * pathMax)) = some (m, L[i]) := by
  obtain ⟨d, hd, ho⟩ := h.exists_data hi
  simp only [poolNext, h.head, List.head?_cons, Option.bind_some, hd, poolRead_of_owns ho,
    List.getElem?_eq_getElem hi]
  rfl

theorem PoolInv.destroy (h : PoolInv ((pool, L) :: ps) bs m) :
    ∃ t pool', poolNext env m .destroy = some (t, ()) ∧ PoolInv ((pool', []) :: ps) bs t := by
  obtain ⟨heap, pool', hdes, hf, hd, ho⟩ := mpoolDestroy_of_owns h.fitsHead h.ownsHead
  refine ⟨_, pool', ?_, h.setHead heap hf ?_ m.tick⟩
  · simp only [poolNext, h.head, hdes]
    rfl
  · rw [poolBlock, hd]
    exact ho

theorem PoolInv.leave (h : PoolInv ((pool, L) :: ps) bs m) :
    ∃ t, poolNext env m .leave = some (t, ()) ∧ PoolInv ps bs t := by
  refine ⟨_, rfl, by rw [h.head]; rfl, h.bufs, fun x hx => h.fits x (List.mem_cons_of_mem _ hx),
    ?_⟩
  have ho := h.ownsHead
  -- a block that nobody has is still there
  cases hd : pool.data with
  | none => simpa [poolBlock, hd] using ho
  | some d =>
    rw [poolBlock, hd] at ho
    exact Blocks.Owns.tail ho

/-- The block of the first buffer may come first. -/
theorem PoolInv.ownsBuf {y : Option ℕ × List Byte} (h : PoolInv ps (y :: bs) m) :
    m.heap.Owns (bufBlock y ++ (ps.flatMap poolBlock ++ bs.flatMap bufBlock)) := by
  refine h.owns.perm ?_
  rw [List.flatMap_cons, ← List.append_assoc, ← List.append_assoc]
  exact List.perm_append_comm.append_right _

theorem PoolInv.malloc (h : PoolInv ps bs m) : ∃ t q, poolNext env m .malloc = some (t, q.isSome) ∧
    PoolInv ps ((q, []) :: bs) t := by
  refine ⟨_, (m.heap.malloc (env.alloc m.tick) (PoolBlk.fit pathMax none)).2, rfl, h.pools,
    by rw [List.map_cons, ← h.bufs], h.fits, ?_⟩
  cases env.alloc m.tick with
  | false => exact h.owns
  | true => exact (h.owns.malloc (PoolBlk.fit pathMax none)).perm List.perm_middle.symm

theorem PoolInv.strcpyNewp {q : ℕ} {r : List Byte} (h : PoolInv ps ((some q, r) :: bs) m)
    (s : List Byte) : ∃ t, poolNext env m (.strcpyNewp s) = some (t, ()) ∧
      PoolInv ps ((some q, s) :: bs) t := by
  have ho : m.heap.Owns ((q, ⟨pathMax, [r]⟩) :: (ps.flatMap poolBlock ++ bs.flatMap bufBlock)) :=
    h.ownsBuf
  obtain ⟨heap, hw, ho'⟩ := poolWrite_of_owns (i := 0) ho Nat.one_pos s
  rw [Nat.cast_zero, zero_mul] at hw
  refine ⟨{ m with heap }, ?_, h.pools, h.bufs, h.fits, ho'.perm List.perm_middle.symm⟩
  simp only [poolNext, h.bufs, List.map_cons, List.head?_cons, Option.bind_some, hw]
  rfl

theorem PoolInv.freeNewp {y : Option ℕ × List Byte} (h : PoolInv ps (y :: bs) m) :
    ∃ t, poolNext env m .freeNewp = some (t, ()) ∧ PoolInv ps bs t := by
  obtain ⟨heap, hfree, ho⟩ : ∃ heap, m.heap.free y.1 = some heap ∧
      heap.Owns (ps.flatMap poolBlock ++ bs.flatMap bufBlock) := by
    have ho := h.ownsBuf
    cases hy : y.1 with
    | none =>
      rw [bufBlock, hy] at ho
      exact ⟨_, rfl, ho⟩
    | some q =>
      rw [bufBlock, hy] at ho
      exact Blocks.Owns.free ho
  refine ⟨⟨heap, m.pools, m.bufs.tail, m.tick⟩, ?_, h.pools, ?_, h.fits, ho⟩
  · simp only [poolNext, h.bufs, List.map_cons, List.head?_cons, Option.bind_some, hfree]
    rfl
  · rw [h.bufs]
    rfl

theorem PoolInv.sys (h : PoolInv ps bs m) (c : SysCall) :
    ∃ t, poolNext env m (.sys c) = some (t, env.sys m.tick c) ∧ PoolInv ps bs t :=
  ⟨_, rfl, h.pools, h.bufs, h.fits, h.owns⟩

/-! ### Sound calls -/

variable {env}

/-- A call after which the memory is as it should be is sound. -/
theorem PoolInv.sound {a : PoolCall} {t : PoolMem} {b : a.Ans}
    (hnext : poolNext env m a = some (t, b)) (h : PoolInv ps bs t)
    (hfailed : a = .addblk → env.alloc m.tick = false → t.pools = m.pools ∧ t.heap = m.heap) :
    PoolSound env m a := by
  refine ⟨by rw [hnext]; rfl, fun r hr => ?_, fun ha hf r hr => ?_⟩
  · obtain rfl : (t, b) = r := Option.some.inj (hnext.symm.trans hr)
    exact h.rep
  · obtain rfl : (t, b) = r := Option.some.inj (hnext.symm.trans hr)
    exact .inl (hfailed ha hf)

/-- An allocation for a pool: it may fail if there is no block, and succeed while `count` can
count. -/
theorem PoolInv.addblk_sound_iff (h : PoolInv ((pool, L) :: ps) bs m)
    (hblksz : pool.blksz = pathMax) :
    PoolSound env m .addblk ↔ PoolAllowed env m .addblk := by
  have hf := h.fitsHead
  constructor
  · rintro hs - pool' hpool'
    obtain rfl : pool = pool' := by simpa [h.head] using hpool'
    obtain ⟨⟨t, b⟩, hr⟩ := Option.isSome_iff_exists.mp hs.defined
    have hrep := hs.rep _ hr
    rw [poolNext, h.head] at hr
    obtain ⟨⟨h', pool', b'⟩, hadd, heq⟩ := Option.map_eq_some_iff.mp hr
    cases heq
    have hhead := hrep pool' List.mem_cons_self
    cases hok : env.alloc m.tick with
    | true =>
      -- otherwise `count` becomes negative
      rw [if_pos rfl]
      by_contra hlt
      rw [hok] at hadd
      obtain ⟨hdata, hcount, hblksz'⟩ := mpoolAddblk_true_fields hadd
      have hlen : L.length = 2 ^ 31 - 1 := by
        have hint := hf.int
        rw [hf.count] at hlt
        omega
      have hneg : pool'.count = -2 ^ 31 := by
        rw [hcount, hf.count, hlen]
        decide
      obtain ⟨d, hd⟩ := Option.ne_none_iff_exists'.mp hdata
      rw [Mempool.Rep, hd] at hhead
      obtain ⟨b, -, hsize, -⟩ := hhead
      rw [hneg, hblksz', hblksz, pathMax] at hsize
      omega
    | false =>
      -- otherwise the block is gone
      simp only [Bool.false_eq_true, if_false]
      by_contra hdata
      obtain ⟨d, hd⟩ := Option.ne_none_iff_exists'.mp hdata
      have ho := h.ownsHead
      rw [poolBlock, hd] at ho
      obtain ⟨h'', hadd', hgone, -⟩ := dangling_pool hd ho.get
      rw [hok, hadd'] at hadd
      cases hadd
      rw [Mempool.Rep, hd] at hhead
      obtain ⟨b, hb, -⟩ := hhead
      rw [hgone] at hb
      cases hb
  · intro hl
    have hpool := hl rfl pool (by rw [h.head]; rfl)
    cases hok : env.alloc m.tick with
    | true =>
      rw [hok, if_pos rfl, hf.count] at hpool
      obtain ⟨t, pool', hnext, ht, -⟩ := h.addblk_true env hblksz (by omega) hok
      exact ht.sound hnext fun _ hfail => by rw [hok] at hfail; cases hfail
    | false =>
      simp only [hok, Bool.false_eq_true, if_false] at hpool
      obtain ⟨t, hnext, ht, hsame⟩ := h.addblk_false env hpool hok
      exact ht.sound hnext fun _ _ => hsame

/-- **A call is sound exactly when it is allowed.** -/
theorem poolSound_iff {a : PoolCall} (huse : PoolUse m a) :
    PoolSound env m a ↔ PoolAllowed env m a := by
  cases huse with
  | addblk h hblksz => exact h.addblk_sound_iff hblksz
  | create h =>
    obtain ⟨t, hnext, ht⟩ := h.create env
    exact iff_of_true (ht.sound hnext nofun) nofun
  | fields h => exact iff_of_true (h.sound (h.fields env) nofun) nofun
  | strcpy h hi s =>
    obtain ⟨t, hnext, ht⟩ := h.strcpy env hi s
    exact iff_of_true (ht.sound hnext nofun) nofun
  | path h hi => exact iff_of_true (h.sound (h.path env hi) nofun) nofun
  | destroy h =>
    obtain ⟨t, pool', hnext, ht⟩ := h.destroy env
    exact iff_of_true (ht.sound hnext nofun) nofun
  | leave h =>
    obtain ⟨t, hnext, ht⟩ := h.leave env
    exact iff_of_true (ht.sound hnext nofun) nofun
  | malloc h =>
    obtain ⟨t, q, hnext, ht⟩ := h.malloc env
    exact iff_of_true (ht.sound hnext nofun) nofun
  | strcpyNewp h s =>
    obtain ⟨t, hnext, ht⟩ := h.strcpyNewp env s
    exact iff_of_true (ht.sound hnext nofun) nofun
  | freeNewp h =>
    obtain ⟨t, hnext, ht⟩ := h.freeNewp env
    exact iff_of_true (ht.sound hnext nofun) nofun
  | sys h c =>
    obtain ⟨t, hnext, ht⟩ := h.sys env c
    exact iff_of_true (ht.sound hnext nofun) nofun

end

end TFProtocol
