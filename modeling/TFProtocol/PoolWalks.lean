import TFProtocol.Mempool

/-!
# The functions with memory pools

`listdir` adds a record to a pool for every entry it finds, and calls itself with the same pool
for a directory; when a record cannot be added it returns without a word.  Its callers go
through as many records as `count` says, and some of them call `cpr` or `rmr` for a record,
which have a pool of their own.

## Main definitions

* `poolCreate`, `poolAddblk`, … — the calls as programs.
* `poolListdir`, `poolCpr`, `poolRmr`, `cmdLsPool`, `cmdLsrPool`, `cmdXcopyPool`,
  `cmdXcpdirPool`, `cmdXdelPool`, `cmdXrmdirPool` — the source, each from `mpool_create` to the
  end; loops and recursion go to a depth `k`.
* `PoolUser`, `poolSession` — any of them, and one after the other.
* `PoolKeeps` — what holds at every call and at the end as long as the calls are allowed.
* `PoolWalked` — what `listdir` leaves in the pool.

## Main results

* `keeps_poolListdir` — as long as its calls are allowed, `listdir` stores what the traversal of
  the directories finds, or nothing.
* `PoolInv.keeps_user` — every function leaves the pools as they were.
* `pool_runs_sound_iff` — **a run is sound exactly when all its calls are allowed.**
* `pool_runs_unsound` — a record that cannot be added, and a use of a block that is gone.
-/

namespace TFProtocol

open Bytes CStr

/-! ### Calls -/

/-- `mpool_create(&list, PATH_MAX)`. -/
def poolCreate : PoolProg Unit := Prog.ask PoolCall.create

def poolFields : PoolProg Mempool := Prog.ask PoolCall.fields

/-- `mpool_addblk(&list)` is not `NULL`. -/
def poolAddblk : PoolProg Bool := Prog.ask PoolCall.addblk

def poolStrcpy (off : ℤ) (s : List Byte) : PoolProg Unit := Prog.ask (PoolCall.strcpy off s)

def poolPath (off : ℤ) : PoolProg (List Byte) := Prog.ask (PoolCall.path off)

/-- `mpool_destroy(&list)`. -/
def poolDestroy : PoolProg Unit := Prog.ask PoolCall.destroy

def poolLeave : PoolProg Unit := Prog.ask PoolCall.leave

/-- `newp = malloc(PATH_MAX)` is not `NULL`. -/
def newpMalloc : PoolProg Bool := Prog.ask PoolCall.malloc

def newpStrcpy (s : List Byte) : PoolProg Unit := Prog.ask (PoolCall.strcpyNewp s)

def newpFree : PoolProg Unit := Prog.ask PoolCall.freeNewp

def sysCall (c : SysCall) : PoolProg c.Ans := Prog.ask (PoolCall.sys c)

/-! ### `listdir` -/

/-- `strcpy(dl->data + (dl->count - 1) * dl->blksz, s)`. -/
def storeLast (s : List Byte) : PoolProg Unit := do
  let dl ← poolFields
  poolStrcpy (cint (dl.count - 1) * dl.blksz) s

/-- The loop of `listdir` over the entries that are left, with the call it makes of itself;
`newp` is not `NULL` if the buffer could be allocated, and the process ends where it would write
to `NULL`. -/
def poolListdirLoop (recur : Bool) (self : List Byte → PoolProg Unit) (newp : Bool)
    (path : List Byte) : List (List Byte) → PoolProg Unit
  | [] => newpFree
  | den :: rest => do
    let dt : Option DType ← sysCall (.stat (path ++ [slash] ++ den))
    match dt with
    | none => poolListdirLoop recur self newp path rest
    | some dt =>
      if dt = .dir ∧ dt ≠ .lnk ∧ den ≠ [dot] ∧ den ≠ dotdot then
        if newp then
          newpStrcpy (path ++ [slash] ++ den)
          if ← poolAddblk then
            storeLast (path ++ [slash] ++ den)
            (if recur then self (path ++ [slash] ++ den) else pure ())
            poolListdirLoop recur self newp path rest
          else newpFree
        else Prog.cut
      else if dt ≠ .dir then
        if ← poolAddblk then
          storeLast (path ++ [slash] ++ den)
          poolListdirLoop recur self newp path rest
        else newpFree
      else poolListdirLoop recur self newp path rest

/-- `listdir(path, &list, recur)`, to a depth. -/
def poolListdir (recur : Bool) : ℕ → List Byte → PoolProg Unit
  | 0, _ => Prog.cut
  | k + 1, path => do
    let dir : Option (List (List Byte)) ← sysCall (.opendir path)
    match dir with
    | none => pure ()
    | some dir =>
      let newp ← newpMalloc
      poolListdirLoop recur (poolListdir recur k) newp path dir

/-! ### `cpr` and `rmr` -/

/-- A turn of the loop of `cpr`: the index, and whether `st` is that of a directory. -/
def poolCprTurn (srcp dstp : List Byte) : ℤ × Bool → PoolProg ((ℤ × Bool) ⊕ ℤ)
  | (i, isdir) => do
    let list ← poolFields
    if i < list.count then
      let prec ← poolPath (i * pathMax)
      let st : Option DType ← sysCall (.stat prec)
      let isdir : Bool := st.elim isdir (· = .dir)
      let path := dstp ++ prec.drop srcp.length
      if isdir then
        let r : ℤ ← sysCall (.mkdir path)
        if r ≠ 0 then
          poolDestroy
          return .inr (-1)
        else return .inl (i + 1, isdir)
      else
        let r : ℤ ← sysCall (.link prec path)
        if r = -1 then
          poolDestroy
          return .inr (-1)
        else return .inl (i + 1, isdir)
    else
      poolDestroy
      return .inr 0

/-- `cpr(srcp, dstp)`. -/
def poolCpr (k : ℕ) (srcp dstp : List Byte) : PoolProg ℤ := do
  poolCreate
  poolListdir true k srcp
  let r : ℤ ← sysCall (.mkdir dstp)
  if r ≠ 0 then
    poolDestroy
    poolLeave
    return -1
  else
    let r ← Prog.iter (poolCprTurn srcp dstp) k (0, false)
    poolLeave
    return r

/-- A turn of the loop of `rmr`: the index, and `rmf`. -/
def poolRmrTurn (excl : Option (List Byte)) : ℤ × ℤ → PoolProg ((ℤ × ℤ) ⊕ ℤ)
  | (i, rmf) => do
    if i ≥ 0 then
      let prec ← poolPath (i * pathMax)
      poolStrcpy (i * pathMax) (prec ++ [slash])
      if spared excl prec then
        let r : ℤ ← sysCall (.access (prec ++ [slash]))
        return .inl (i - 1, if r = 0 then -1 else rmf)
      else
        let _ ← sysCall (.rmdir (prec ++ [slash]))
        poolStrcpy (i * pathMax) prec
        let _ ← sysCall (.unlink prec)
        let r : ℤ ← sysCall (.access prec)
        return .inl (i - 1, if r = 0 then -1 else rmf)
    else
      poolDestroy
      return .inr rmf

/-- `rmr(path, excl)`. -/
def poolRmr (k : ℕ) (path : List Byte) (excl : Option (List Byte)) : PoolProg ℤ := do
  poolCreate
  if ← poolAddblk then
    poolStrcpy 0 path
    poolListdir true k path
    let list ← poolFields
    let r ← Prog.iter (poolRmrTurn excl) k (cint (list.count - 1), 0)
    poolLeave
    return r
  else
    poolDestroy
    poolLeave
    return -1

/-! ### The commands

Each from `mpool_create` on. -/

/-- The line of `LS` for an entry, and whether it is written: `rp` is its path, behind which
`cpypath` is looked for.  What is in a secure directory is left out, by `LS` only if it is a
directory itself. -/
def lsLine (lsr : Bool) (cpypath : List Byte) (st : DType) (rp : List Byte) :
    Option (List Byte × Bool) :=
  (strstr cpypath rp).map fun x =>
    let path := match st with
      | .dir => lit "D: " ++ x.2 ++ lit "/" ++ [newline]
      | .reg => lit "F: " ++ x.2 ++ [newline]
      | _ => lit "U: " ++ x.2 ++ [newline]
    let scdir := (lsr || st = .dir) && decide (sdext <:+: path) || decide (fsmeta <:+: path)
    (path, !scdir)

/-- A turn of the loop of `LS` and `LSR`: the index, and the type in `st`.  Without an
occurrence of `cpypath` the process ends. -/
def poolLsTurn (lsr : Bool) (cpypath : List Byte) : ℤ × DType → PoolProg ((ℤ × DType) ⊕ Unit)
  | (i, st) => do
    let list ← poolFields
    if i < list.count then
      let prec ← poolPath (i * pathMax)
      let dt : Option DType ← sysCall (.lstat prec)
      let st := dt.getD st
      let rp : List Byte ← sysCall (.realpath prec)
      match lsLine lsr cpypath st (if st = .dir ∨ st = .reg then rp else normpath prec) with
      | none => Prog.cut
      | some (path, written) =>
        if written then
          let _ ← sysCall (.writetmp path)
          return .inl (i + 1, st)
        else return .inl (i + 1, st)
    else
      poolDestroy
      return .inr ()

/-- `cmd_ls` and `cmd_lsr`. -/
def poolLs (lsr : Bool) (k : ℕ) (path cpypath : List Byte) : PoolProg Unit := do
  poolCreate
  poolListdir lsr k path
  let tmp : Bool ← sysCall (.mktmp (lit "_ls.tmp"))
  if tmp then
    Prog.iter (poolLsTurn lsr cpypath) k (0, .unknown)
    poolLeave
  else
    poolDestroy
    poolLeave

def cmdLsPool (k : ℕ) (path cpypath : List Byte) : PoolProg Unit := poolLs false k path cpypath

def cmdLsrPool (k : ℕ) (path cpypath : List Byte) : PoolProg Unit := poolLs true k path cpypath

/-- `trylck(path, lcknam, rmtrail)` is not `0`. -/
def poolTrylck (lcknam path : List Byte) (rmtrail : Bool) : PoolProg Bool :=
  if lcknam = [] then pure true else do
    let r : ℤ ← sysCall (.access ((if rmtrail then cutLast path else path) ++ [slash] ++ lcknam))
    return r ≠ 0

/-- A turn of the loops of the commands with a pattern: the index, and whether `st` is that of a
directory; `hit` is for a path that ends in the pattern. -/
def poolPatternTurn (pat : List Byte) (hit : Bool → List Byte → PoolProg Bool) :
    ℤ × Bool → PoolProg ((ℤ × Bool) ⊕ Unit)
  | (i, isdir) => do
    let list ← poolFields
    if i < list.count then
      let prec ← poolPath (i * pathMax)
      if endsIn pat prec then
        let isdir ← hit isdir prec
        return .inl (i + 1, isdir)
      else return .inl (i + 1, isdir)
    else
      poolDestroy
      return .inr ()

/-- The commands with a pattern. -/
def poolPattern (k : ℕ) (root pat : List Byte) (isdir : Bool)
    (hit : Bool → List Byte → PoolProg Bool) : PoolProg Unit := do
  poolCreate
  poolListdir true k root
  Prog.iter (poolPatternTurn pat hit) k (0, isdir)
  poolLeave

/-- `cmd_xcopy`. -/
def cmdXcopyPool (k : ℕ) (dbdir lcknam newn srcp dstpat : List Byte) : PoolProg Unit :=
  poolPattern k dbdir dstpat false fun isdir prec => do
    let path := prec ++ [slash] ++ newn
    if ← poolTrylck lcknam path true then
      let _ ← sysCall (.link srcp path)
      return isdir
    else return isdir

/-- `cmd_xcpdir`. -/
def cmdXcpdirPool (k : ℕ) (dbdir lcknam newn srcp dstpat : List Byte) : PoolProg Unit :=
  poolPattern k dbdir dstpat true fun isdir prec => do
    let path := prec ++ [slash] ++ newn
    if ← poolTrylck lcknam path true then
      let _ ← poolCpr k srcp path
      return isdir
    else return isdir

/-- `cmd_xdel`. -/
def cmdXdelPool (k : ℕ) (lcknam path nam : List Byte) : PoolProg Unit :=
  poolPattern k path nam true fun isdir prec => do
    if ← poolTrylck lcknam prec true then
      let _ ← sysCall (.unlink prec)
      return isdir
    else return isdir

/-- `cmd_xrmdir`. -/
def cmdXrmdirPool (k : ℕ) (lcknam path nam : List Byte) : PoolProg Unit :=
  poolPattern k path nam true fun isdir prec => do
    let st : Option DType ← sysCall (.stat prec)
    let isdir : Bool := st.elim isdir (· = .dir)
    if isdir then
      if ← poolTrylck lcknam prec false then
        let _ ← poolRmr k prec (some sdext)
        return isdir
      else return isdir
    else return isdir

/-- What uses pools: the commands, and `cpr` and `rmr`, which other commands call. -/
inductive PoolUser
  | ls (path cpypath : List Byte)
  | lsr (path cpypath : List Byte)
  | xcopy (dbdir lcknam newn srcp dstpat : List Byte)
  | xcpdir (dbdir lcknam newn srcp dstpat : List Byte)
  | xdel (lcknam path nam : List Byte)
  | xrmdir (lcknam path nam : List Byte)
  | cpr (srcp dstp : List Byte)
  | rmr (path : List Byte) (excl : Option (List Byte))

def PoolUser.prog (k : ℕ) : PoolUser → PoolProg Unit
  | ls path cpypath => cmdLsPool k path cpypath
  | lsr path cpypath => cmdLsrPool k path cpypath
  | xcopy dbdir lcknam newn srcp dstpat => cmdXcopyPool k dbdir lcknam newn srcp dstpat
  | xcpdir dbdir lcknam newn srcp dstpat => cmdXcpdirPool k dbdir lcknam newn srcp dstpat
  | xdel lcknam path nam => cmdXdelPool k lcknam path nam
  | xrmdir lcknam path nam => cmdXrmdirPool k lcknam path nam
  | cpr srcp dstp => do
    let _ ← poolCpr k srcp dstp
    return
  | rmr path excl => do
    let _ ← poolRmr k path excl
    return

/-- One after the other. -/
def poolSession (k : ℕ) : List PoolUser → PoolProg Unit
  | [] => pure ()
  | u :: us => do
    u.prog k
    poolSession k us

/-! ### Rules -/

/-- As long as the calls are allowed, they are calls the functions may make; and the end. -/
abbrev PoolKeeps (env : PoolEnv) {γ : Type} (p : PoolProg γ) (post : γ → PoolMem → Prop)
    (m : PoolMem) : Prop :=
  p.Keeps (poolNext env) (PoolAllowed env) PoolUse post m

section

variable {env : PoolEnv} {m : PoolMem} {pool : Mempool} {L : List (List Byte)}
  {ps : List (Mempool × List (List Byte))} {bs : List (Option ℕ × List Byte)}
  {γ : Type} {post : γ → PoolMem → Prop}

/-- The rule for a call, from what it does. -/
theorem keeps_call {a : PoolCall} {k : a.Ans → PoolProg γ} (huse : PoolUse m a)
    (hk : PoolAllowed env m a → ∃ t b, poolNext env m a = some (t, b) ∧ PoolKeeps env (k b) post t) :
    PoolKeeps env (Prog.ask a >>= k) post m := by
  refine Prog.keeps_ask huse fun hl r hr => ?_
  obtain ⟨t, b, hnext, ht⟩ := hk hl
  obtain rfl : (t, b) = r := Option.some.inj (hnext.symm.trans hr)
  exact ht

theorem PoolInv.keeps_create {k : Unit → PoolProg γ} (h : PoolInv ps bs m)
    (hk : ∀ t, PoolInv ((mpoolCreate pathMax, []) :: ps) bs t → PoolKeeps env (k ()) post t) :
    PoolKeeps env (poolCreate >>= k) post m := by
  refine keeps_call (.create h) fun _ => ?_
  obtain ⟨t, hnext, ht⟩ := h.create env
  exact ⟨t, (), hnext, hk t ht⟩

theorem PoolInv.keeps_fields {k : Mempool → PoolProg γ} (h : PoolInv ((pool, L) :: ps) bs m)
    (hk : PoolKeeps env (k pool) post m) : PoolKeeps env (poolFields >>= k) post m :=
  keeps_call (.fields h) fun _ => ⟨m, pool, h.fields env, hk⟩

/-- A record more, or none at all. -/
theorem PoolInv.keeps_addblk {k : Bool → PoolProg γ} (h : PoolInv ((pool, L) :: ps) bs m)
    (hblksz : pool.blksz = pathMax)
    (htrue : ∀ t pool', PoolInv ((pool', L ++ [[]]) :: ps) bs t → pool'.blksz = pathMax →
      PoolKeeps env (k true) post t)
    (hfalse : ∀ t, PoolInv ((pool, L) :: ps) bs t → L = [] → PoolKeeps env (k false) post t) :
    PoolKeeps env (poolAddblk >>= k) post m := by
  refine keeps_call (.addblk h hblksz) fun hl => ?_
  have hpool := hl rfl pool (by rw [h.head]; rfl)
  cases hok : env.alloc m.tick with
  | true =>
    rw [hok, if_pos rfl, h.fitsHead.count] at hpool
    obtain ⟨t, pool', hnext, ht, hblksz'⟩ := h.addblk_true env hblksz (by omega) hok
    exact ⟨t, true, hnext, htrue t pool' ht hblksz'⟩
  | false =>
    simp only [hok, Bool.false_eq_true, if_false] at hpool
    obtain ⟨t, hnext, ht, -⟩ := h.addblk_false env hpool hok
    exact ⟨t, false, hnext, hfalse t ht (h.fitsHead.null hpool)⟩

theorem PoolInv.keeps_strcpy {k : Unit → PoolProg γ} {i : ℕ} {s : List Byte}
    (h : PoolInv ((pool, L) :: ps) bs m) (hi : i < L.length)
    (hk : ∀ t, PoolInv ((pool, L.set i s) :: ps) bs t → PoolKeeps env (k ()) post t) :
    PoolKeeps env (poolStrcpy (i * pathMax) s >>= k) post m := by
  refine keeps_call (.strcpy h hi s) fun _ => ?_
  obtain ⟨t, hnext, ht⟩ := h.strcpy env hi s
  exact ⟨t, (), hnext, hk t ht⟩

theorem PoolInv.keeps_path {k : List Byte → PoolProg γ} {i : ℕ}
    (h : PoolInv ((pool, L) :: ps) bs m) (hi : i < L.length)
    (hk : PoolKeeps env (k L[i]) post m) : PoolKeeps env (poolPath (i * pathMax) >>= k) post m :=
  keeps_call (.path h hi) fun _ => ⟨m, L[i], h.path env hi, hk⟩

/-- The end of a function with a pool. -/
theorem PoolInv.keeps_destroy {k : Unit → PoolProg γ} (h : PoolInv ((pool, L) :: ps) bs m)
    (hk : ∀ t pool', PoolInv ((pool', []) :: ps) bs t → PoolKeeps env (k ()) post t) :
    PoolKeeps env (poolDestroy >>= k) post m := by
  refine keeps_call (.destroy h) fun _ => ?_
  obtain ⟨t, pool', hnext, ht⟩ := h.destroy env
  exact ⟨t, (), hnext, hk t pool' ht⟩

theorem PoolInv.keeps_leave {k : Unit → PoolProg γ} (h : PoolInv ((pool, L) :: ps) bs m)
    (hk : ∀ t, PoolInv ps bs t → PoolKeeps env (k ()) post t) :
    PoolKeeps env (poolLeave >>= k) post m := by
  refine keeps_call (.leave h) fun _ => ?_
  obtain ⟨t, hnext, ht⟩ := h.leave env
  exact ⟨t, (), hnext, hk t ht⟩

theorem PoolInv.keeps_malloc {k : Bool → PoolProg γ} (h : PoolInv ps bs m)
    (hk : ∀ t q, PoolInv ps ((q, []) :: bs) t → PoolKeeps env (k q.isSome) post t) :
    PoolKeeps env (newpMalloc >>= k) post m := by
  refine keeps_call (.malloc h) fun _ => ?_
  obtain ⟨t, q, hnext, ht⟩ := h.malloc env
  exact ⟨t, q.isSome, hnext, hk t q ht⟩

theorem PoolInv.keeps_strcpyNewp {k : Unit → PoolProg γ} {q : ℕ} {r s : List Byte}
    (h : PoolInv ps ((some q, r) :: bs) m)
    (hk : ∀ t, PoolInv ps ((some q, s) :: bs) t → PoolKeeps env (k ()) post t) :
    PoolKeeps env (newpStrcpy s >>= k) post m := by
  refine keeps_call (.strcpyNewp h s) fun _ => ?_
  obtain ⟨t, hnext, ht⟩ := h.strcpyNewp env s
  exact ⟨t, (), hnext, hk t ht⟩

theorem PoolInv.keeps_freeNewp {post : Unit → PoolMem → Prop} {y : Option ℕ × List Byte}
    (h : PoolInv ps (y :: bs) m) (hk : ∀ t, PoolInv ps bs t → post () t) :
    PoolKeeps env newpFree post m := by
  refine keeps_call (k := fun _ => pure ()) (.freeNewp h) fun _ => ?_
  obtain ⟨t, hnext, ht⟩ := h.freeNewp env
  exact ⟨t, (), hnext, hk t ht⟩

/-- The answer of the system is the one it gives at some time. -/
theorem PoolInv.keeps_sys {c : SysCall} {k : c.Ans → PoolProg γ} (h : PoolInv ps bs m)
    (hk : ∀ t n, PoolInv ps bs t → PoolKeeps env (k (env.sys n c)) post t) :
    PoolKeeps env (sysCall c >>= k) post m := by
  refine keeps_call (.sys h c) fun _ => ?_
  obtain ⟨t, hnext, ht⟩ := h.sys env c
  exact ⟨t, _, hnext, hk t m.tick ht⟩

/-- The path of an entry goes to the record that was added for it. -/
theorem PoolInv.keeps_storeLast {k : Unit → PoolProg γ} {r s : List Byte}
    (h : PoolInv ((pool, L ++ [r]) :: ps) bs m) (hblksz : pool.blksz = pathMax)
    (hk : ∀ t, PoolInv ((pool, L ++ [s]) :: ps) bs t → PoolKeeps env (k ()) post t) :
    PoolKeeps env (storeLast s >>= k) post m := by
  have hf := h.fitsHead
  have hoff : cint (pool.count - 1) * pool.blksz = (L.length : ℤ) * pathMax := by
    have hint := hf.int
    rw [List.length_append, List.length_singleton] at hint
    rw [hf.count, hblksz, List.length_append, List.length_singleton, Nat.cast_succ,
      add_sub_cancel_right, cint_of_lt (by omega)]
  have hset : (L ++ [r]).set L.length s = L ++ [s] := by
    rw [List.set_append_right _ _ le_rfl, Nat.sub_self]
    rfl
  refine Prog.Keeps.bind (h.keeps_fields ?_)
  rw [hoff]
  refine h.keeps_strcpy (k := pure) (by simp) fun t ht => ?_
  rw [hset] at ht
  exact hk t ht

end

/-! ### What `listdir` leaves -/

/-- The system always shows these directories. -/
def PoolEnv.Shows (env : PoolEnv) (fs : DirFs) : Prop :=
  ∀ n path, env.sys n (.opendir path) = fs.opendir path ∧ env.sys n (.stat path) = fs.stat path

/-- The pool behind a traversal that started with the records `L`: if there were any they are
not gone, and on directories that stay the same the records are those of the traversal of these,
unless none could be added at all. -/
def PoolWalked (env : PoolEnv) (ps : List (Mempool × List (List Byte)))
    (bs : List (Option ℕ × List Byte)) (walk : DirFs → Option (List (List Byte)))
    (L : List (List Byte)) (t : PoolMem) : Prop :=
  ∃ pool L', PoolInv ((pool, L') :: ps) bs t ∧ pool.blksz = pathMax ∧ (L ≠ [] → L' ≠ []) ∧
    ∀ fs, env.Shows fs → walk fs = some L' ∨ L = [] ∧ L' = []

section

variable {env : PoolEnv} {m : PoolMem} {pool : Mempool} {L L₁ : List (List Byte)}
  {ps : List (Mempool × List (List Byte))} {bs : List (Option ℕ × List Byte)}
  {walk walk₁ : DirFs → Option (List (List Byte))}

theorem PoolInv.walked (h : PoolInv ((pool, L) :: ps) bs m) (hblksz : pool.blksz = pathMax)
    (hwalk : ∀ fs, env.Shows fs → walk fs = some L ∨ L = []) :
    PoolWalked env ps bs walk L m :=
  ⟨pool, L, h, hblksz, id, fun fs hfs => (hwalk fs hfs).imp_right fun h => ⟨h, h⟩⟩

/-- The rest of a traversal, from the records that are there by then. -/
theorem PoolWalked.of_rest (h : PoolWalked env ps bs walk₁ L₁ m) (hL : L₁ ≠ [] ∨ L₁ = L)
    (hwalk : ∀ fs, env.Shows fs → walk fs = walk₁ fs) : PoolWalked env ps bs walk L m := by
  obtain ⟨pool, L', hinv, hblksz, hgrows, hlist⟩ := h
  rcases hL with hne | rfl
  · refine ⟨pool, L', hinv, hblksz, fun _ => hgrows hne, fun fs hfs => .inl ?_⟩
    rw [hwalk fs hfs]
    exact (hlist fs hfs).resolve_right fun h => hne h.1
  · refine ⟨pool, L', hinv, hblksz, hgrows, fun fs hfs => ?_⟩
    rw [hwalk fs hfs]
    exact hlist fs hfs

/-- **The loop of `listdir`**, given the call it makes of itself. -/
theorem keeps_poolListdirLoop {recur : Bool} {self : List Byte → PoolProg Unit}
    (walk : DirFs → List Byte → List (List Byte) → Option (List (List Byte)))
    (hself : ∀ path {pool L m bs}, PoolInv ((pool, L) :: ps) bs m → pool.blksz = pathMax →
      PoolKeeps env (self path) (fun _ => PoolWalked env ps bs (walk · path L) L) m)
    (path : List Byte) (newp : Option ℕ) :
    ∀ (l : List (List Byte)) {pool L m r}, PoolInv ((pool, L) :: ps) ((newp, r) :: bs) m →
      pool.blksz = pathMax →
      PoolKeeps env (poolListdirLoop recur self newp.isSome path l)
        (fun _ => PoolWalked env ps bs
          (fun fs => l.foldlM (fs.listdirEntry recur (walk fs) path) L) L) m := by
  intro l
  induction l with
  | nil =>
    intro pool L m r h hblksz
    exact h.keeps_freeNewp fun t ht => ht.walked hblksz fun _ _ => .inl rfl
  | cons den rest ih =>
    intro pool L m r h hblksz
    refine h.keeps_sys fun t n ht => ?_
    -- what the system says of the entry is what the traversal finds
    have hgdt : ∀ fs, env.Shows fs →
        fs.gdt path den = env.sys n (.stat (path ++ [slash] ++ den)) := fun fs hfs =>
      (hfs n (path ++ [slash] ++ den)).2.symm
    cases hdt : env.sys n (.stat (path ++ [slash] ++ den)) with
    | none =>
      refine (ih ht hblksz).mono fun _ t hw => hw.of_rest (.inr rfl) fun fs hfs => ?_
      rw [List.foldlM_cons, DirFs.listdirEntry, hgdt fs hfs, hdt]
      rfl
    | some dt =>
      have hentry : ∀ fs, env.Shows fs → ∀ L,
          (den :: rest).foldlM (fs.listdirEntry recur (walk fs) path) L =
            (if dt = .dir ∧ dt ≠ .lnk ∧ den ≠ [dot] ∧ den ≠ dotdot then
              if recur then walk fs (path ++ [slash] ++ den) (L ++ [path ++ [slash] ++ den])
              else some (L ++ [path ++ [slash] ++ den])
            else if dt ≠ .dir then some (L ++ [path ++ [slash] ++ den]) else some L).bind
              fun L => rest.foldlM (fs.listdirEntry recur (walk fs) path) L := by
        intro fs hfs L
        rw [List.foldlM_cons, DirFs.listdirEntry, hgdt fs hfs, hdt]
        rfl
      by_cases hdir : dt = .dir ∧ dt ≠ .lnk ∧ den ≠ [dot] ∧ den ≠ dotdot
      · simp only [if_pos hdir] at hentry ⊢
        cases newp with
        | none => exact Prog.keeps_cut
        | some q =>
          refine ht.keeps_strcpyNewp fun t ht => ?_
          refine ht.keeps_addblk hblksz (fun t pool' ht hblksz' => ?_) fun t ht hnil => ?_
          · refine ht.keeps_storeLast hblksz' fun t ht => ?_
            cases recur with
            | false =>
              refine (ih ht hblksz').mono fun _ t hw => hw.of_rest (.inl (by simp)) fun fs hfs => ?_
              rw [hentry fs hfs]
              rfl
            | true =>
              -- the records of the call are there when the loop goes on
              refine Prog.Keeps.bind ((hself _ ht hblksz').mono fun _ t hw => ?_)
              obtain ⟨pool₁, L₁, ht₁, hblksz₁, hgrows, hlist⟩ := hw
              have hne : L ++ [path ++ [slash] ++ den] ≠ [] := by simp
              refine (ih ht₁ hblksz₁).mono fun _ t hw =>
                hw.of_rest (.inl (hgrows hne)) fun fs hfs => ?_
              have hwalk : walk fs _ _ = some L₁ := (hlist fs hfs).resolve_right fun h => hne h.1
              rw [hentry fs hfs, if_pos rfl, hwalk]
              rfl
          · exact ht.keeps_freeNewp fun t ht => ht.walked hblksz fun _ _ => .inr hnil
      · simp only [if_neg hdir] at hentry ⊢
        by_cases hne : dt ≠ .dir
        · simp only [if_pos hne] at hentry ⊢
          refine ht.keeps_addblk hblksz (fun t pool' ht hblksz' => ?_) fun t ht hnil => ?_
          · refine ht.keeps_storeLast hblksz' fun t ht => ?_
            exact (ih ht hblksz').mono fun _ t hw => hw.of_rest (.inl (by simp)) fun fs hfs =>
              hentry fs hfs L
          · exact ht.keeps_freeNewp fun t ht => ht.walked hblksz fun _ _ => .inr hnil
        · simp only [if_neg hne] at hentry ⊢
          exact (ih ht hblksz).mono fun _ t hw => hw.of_rest (.inr rfl) fun fs hfs =>
            hentry fs hfs L

/-- **`listdir`** keeps what is there, and stores what the traversal of the directories finds. -/
theorem keeps_poolListdir (recur : Bool) : ∀ (k : ℕ) (path : List Byte) {pool L m bs},
    PoolInv ((pool, L) :: ps) bs m → pool.blksz = pathMax →
    PoolKeeps env (poolListdir recur k path)
      (fun _ => PoolWalked env ps bs (fun fs => fs.listdir recur k path L) L) m := by
  intro k
  induction k with
  | zero => exact fun _ _ _ _ _ _ _ => Prog.keeps_cut
  | succ k ih =>
    intro path pool L m bs h hblksz
    refine h.keeps_sys fun t n ht => ?_
    have hopen : ∀ fs, env.Shows fs → fs.opendir path = env.sys n (.opendir path) :=
      fun fs hfs => (hfs n path).1.symm
    cases hdir : env.sys n (.opendir path) with
    | none =>
      refine ht.walked hblksz fun fs hfs => .inl ?_
      rw [DirFs.listdir, hopen fs hfs, hdir]
    | some dir =>
      refine ht.keeps_malloc fun t q ht => ?_
      refine (keeps_poolListdirLoop (fun fs => fs.listdir recur k) ih path q dir ht
        hblksz).mono fun _ t hw => hw.of_rest (.inr rfl) fun fs hfs => ?_
      rw [DirFs.listdir, hopen fs hfs, hdir]

end

/-! ### The callers -/

/-- One more pool. -/
def MorePool (ps : List (Mempool × List (List Byte))) (bs : List (Option ℕ × List Byte))
    (t : PoolMem) : Prop :=
  ∃ pool L, PoolInv ((pool, L) :: ps) bs t

section

variable {env : PoolEnv} {m : PoolMem} {ps : List (Mempool × List (List Byte))}
  {bs : List (Option ℕ × List Byte)} {γ : Type} {post : γ → PoolMem → Prop}

/-- A turn of a loop over the records: there is one at an index below `count`. -/
theorem MorePool.keeps_turn {i : ℤ} {k : List Byte → PoolProg γ} {stop : PoolProg γ}
    (h : MorePool ps bs m) (hi : 0 ≤ i) (hk : ∀ prec, PoolKeeps env (k prec) post m)
    (hstop : PoolKeeps env stop post m) :
    PoolKeeps env (poolFields >>= fun list =>
      if i < list.count then poolPath (i * pathMax) >>= k else stop) post m := by
  obtain ⟨pool, L, h⟩ := h
  refine h.keeps_fields ?_
  by_cases hlt : i < pool.count
  · rw [if_pos hlt]
    obtain ⟨n, rfl⟩ := Int.eq_ofNat_of_zero_le hi
    rw [h.fitsHead.count] at hlt
    exact h.keeps_path (by exact_mod_cast hlt) (hk _)
  · rw [if_neg hlt]
    exact hstop

theorem MorePool.keeps_sys {c : SysCall} {k : c.Ans → PoolProg γ} (h : MorePool ps bs m)
    (hk : ∀ t n, MorePool ps bs t → PoolKeeps env (k (env.sys n c)) post t) :
    PoolKeeps env (sysCall c >>= k) post m := by
  obtain ⟨pool, L, h⟩ := h
  exact h.keeps_sys fun t n ht => hk t n ⟨pool, L, ht⟩

theorem MorePool.keeps_destroy {k : Unit → PoolProg γ} (h : MorePool ps bs m)
    (hk : ∀ t, MorePool ps bs t → PoolKeeps env (k ()) post t) :
    PoolKeeps env (poolDestroy >>= k) post m := by
  obtain ⟨pool, L, h⟩ := h
  exact h.keeps_destroy fun t pool' ht => hk t ⟨pool', [], ht⟩

theorem MorePool.keeps_leave {k : Unit → PoolProg γ} (h : MorePool ps bs m)
    (hk : ∀ t, PoolInv ps bs t → PoolKeeps env (k ()) post t) :
    PoolKeeps env (poolLeave >>= k) post m := by
  obtain ⟨pool, L, h⟩ := h
  exact h.keeps_leave hk

/-- **A loop over the records**, with a variable next to the index, and what follows. -/
theorem MorePool.keeps_loop {τ δ : Type} {body : ℤ × τ → PoolProg ((ℤ × τ) ⊕ δ)}
    {f : δ → PoolProg γ}
    (hbody : ∀ i x t, 0 ≤ i → MorePool ps bs t → PoolKeeps env (body (i, x))
      (Sum.elim (fun x t => 0 ≤ x.1 ∧ MorePool ps bs t) fun _ => MorePool ps bs) t)
    (h : MorePool ps bs m) (n : ℕ) (x : τ)
    (hf : ∀ t c, MorePool ps bs t → PoolKeeps env (f c) post t) :
    PoolKeeps env (Prog.iter body n (0, x) >>= f) post m := by
  have hloop : PoolKeeps env (Prog.iter body n (0, x)) (fun _ => MorePool ps bs) m :=
    Prog.Keeps.iter (fun x t => 0 ≤ x.1 ∧ MorePool ps bs t)
      (fun x t hx => hbody x.1 x.2 t hx.1 hx.2) n ⟨le_rfl, h⟩
  exact Prog.Keeps.bind (hloop.mono fun c t ht => hf t c ht)

/-- The call of `listdir` with a new pool. -/
theorem PoolInv.keeps_create_listdir {recur : Bool} {k : ℕ} {path : List Byte}
    {f : Unit → PoolProg γ} (h : PoolInv ps bs m)
    (hf : ∀ t, MorePool ps bs t → PoolKeeps env (f ()) post t) :
    PoolKeeps env (poolCreate >>= fun _ => poolListdir recur k path >>= f) post m := by
  refine h.keeps_create fun t ht => Prog.Keeps.bind ?_
  refine (keeps_poolListdir recur k path ht rfl).mono fun _ t hw => ?_
  obtain ⟨pool, L, ht, -⟩ := hw
  exact hf t ⟨pool, L, ht⟩

/-- **`cpr`** leaves the pools as they were. -/
theorem PoolInv.keeps_poolCpr (k : ℕ) (srcp dstp : List Byte) (h : PoolInv ps bs m) :
    PoolKeeps env (poolCpr k srcp dstp) (fun _ => PoolInv ps bs) m := by
  refine h.keeps_create_listdir fun t ht => ht.keeps_sys fun t n ht => ?_
  split
  · exact ht.keeps_destroy fun t ht => ht.keeps_leave fun t ht => ht
  · refine ht.keeps_loop (fun i isdir t hi ht => ?_) k false fun t c ht =>
      ht.keeps_leave fun t ht => ht
    refine ht.keeps_turn hi (fun prec => ht.keeps_sys fun t n ht => ?_)
      (ht.keeps_destroy fun t ht => ht)
    dsimp only
    split
    · refine ht.keeps_sys fun t n ht => ?_
      split
      · exact ht.keeps_destroy fun t ht => ht
      · exact ⟨by omega, ht⟩
    · refine ht.keeps_sys fun t n ht => ?_
      split
      · exact ht.keeps_destroy fun t ht => ht
      · exact ⟨by omega, ht⟩

/-- Between two turns of the loop of `rmr`: the index stays below the number of records. -/
def RmrTurns (ps : List (Mempool × List (List Byte))) (bs : List (Option ℕ × List Byte))
    (x : ℤ × ℤ) (t : PoolMem) : Prop :=
  ∃ pool L, PoolInv ((pool, L) :: ps) bs t ∧ x.1 < L.length

theorem RmrTurns.keeps_turn {excl : Option (List Byte)} {x : ℤ × ℤ} (h : RmrTurns ps bs x m) :
    PoolKeeps env (poolRmrTurn excl x) (Sum.elim (RmrTurns ps bs) fun _ => MorePool ps bs) m := by
  obtain ⟨i, rmf⟩ := x
  obtain ⟨pool, L, h, hlt⟩ := h
  unfold poolRmrTurn
  dsimp only
  split
  · next hi =>
    obtain ⟨n, rfl⟩ := Int.eq_ofNat_of_zero_le hi
    have hn : n < L.length := Int.ofNat_lt.mp hlt
    refine h.keeps_path hn (h.keeps_strcpy hn fun t ht => ?_)
    split
    · refine ht.keeps_sys fun t _ ht => ⟨pool, _, ht, ?_⟩
      rw [List.length_set]
      omega
    · refine ht.keeps_sys fun t _ ht => ht.keeps_strcpy (by simpa using hn) fun t ht => ?_
      refine ht.keeps_sys fun t _ ht => ht.keeps_sys fun t _ ht => ⟨pool, _, ht, ?_⟩
      rw [List.length_set, List.length_set]
      omega
  · exact h.keeps_destroy fun t pool ht => ⟨pool, [], ht⟩

theorem cint_pred_lt {n : ℕ} (h : n < 2 ^ 31) : cint (n - 1) < n := by
  rcases Nat.eq_zero_or_pos n with rfl | hpos
  · decide
  · rw [← Nat.cast_pred hpos, cint_of_lt (by omega)]
    omega

/-- **`rmr`** leaves the pools as they were. -/
theorem PoolInv.keeps_poolRmr (k : ℕ) (path : List Byte) (excl : Option (List Byte))
    (h : PoolInv ps bs m) :
    PoolKeeps env (poolRmr k path excl) (fun _ => PoolInv ps bs) m := by
  refine h.keeps_create fun t ht => ?_
  refine ht.keeps_addblk rfl (fun t pool ht hblksz => ?_) fun t ht _ => ?_
  · have hzero : ((0 : ℕ) : ℤ) * pathMax = 0 := by rw [Nat.cast_zero, zero_mul]
    rw [if_pos rfl, ← hzero]
    refine ht.keeps_strcpy Nat.one_pos fun t ht => Prog.Keeps.bind ?_
    refine (keeps_poolListdir true k path ht hblksz).mono fun _ t hw => ?_
    obtain ⟨pool, L, ht, -⟩ := hw
    have hf := ht.fitsHead
    have hstart : RmrTurns ps bs (cint (pool.count - 1), 0) t :=
      ⟨pool, L, ht, by rw [hf.count]; exact cint_pred_lt hf.int⟩
    have hloop : PoolKeeps env (Prog.iter (poolRmrTurn excl) k (cint (pool.count - 1), 0))
        (fun _ => MorePool ps bs) t :=
      Prog.Keeps.iter (RmrTurns ps bs) (fun _ _ hx => hx.keeps_turn) k hstart
    refine ht.keeps_fields (Prog.Keeps.bind ?_)
    exact hloop.mono fun _ t ht => ht.keeps_leave fun t ht => ht
  · exact ht.keeps_destroy fun t pool ht => ht.keeps_leave fun t ht => ht

/-- **`LS` and `LSR`** leave the pools as they were. -/
theorem PoolInv.keeps_poolLs (lsr : Bool) (k : ℕ) (path cpypath : List Byte) (h : PoolInv ps bs m) :
    PoolKeeps env (poolLs lsr k path cpypath) (fun _ => PoolInv ps bs) m := by
  refine h.keeps_create_listdir fun t ht => ht.keeps_sys fun t n ht => ?_
  split
  · refine ht.keeps_loop (fun i st t hi ht => ?_) k DType.unknown fun t c ht =>
      ht.keeps_leave fun t ht => ht
    refine ht.keeps_turn hi (fun prec => ht.keeps_sys fun t n ht => ht.keeps_sys fun t n ht => ?_)
      (ht.keeps_destroy fun t ht => ht)
    split
    · exact Prog.keeps_cut
    · split
      · exact ht.keeps_sys fun t n ht => ⟨by omega, ht⟩
      · exact ⟨by omega, ht⟩
  · exact ht.keeps_destroy fun t ht => ht.keeps_leave fun t ht => ht

theorem PoolInv.keeps_poolTrylck {f : Bool → PoolProg γ} {lcknam path : List Byte} {rmtrail : Bool}
    (h : PoolInv ps bs m) (hf : ∀ t b, PoolInv ps bs t → PoolKeeps env (f b) post t) :
    PoolKeeps env (poolTrylck lcknam path rmtrail >>= f) post m := by
  refine Prog.Keeps.bind ?_
  unfold poolTrylck
  split
  · exact hf m true h
  · exact h.keeps_sys fun t n ht => hf t _ ht

/-- **A command with a pattern** leaves the pools as they were, if what it does with a path
does. -/
theorem PoolInv.keeps_poolPattern {k : ℕ} {root pat : List Byte} {isdir : Bool}
    {hit : Bool → List Byte → PoolProg Bool}
    (hhit : ∀ {pool L t} isdir prec, PoolInv ((pool, L) :: ps) bs t →
      PoolKeeps env (hit isdir prec) (fun _ => PoolInv ((pool, L) :: ps) bs) t)
    (h : PoolInv ps bs m) :
    PoolKeeps env (poolPattern k root pat isdir hit) (fun _ => PoolInv ps bs) m := by
  refine h.keeps_create_listdir fun t ht => ?_
  refine ht.keeps_loop (fun i isdir t hi ht => ?_) k isdir fun t c ht =>
    ht.keeps_leave fun t ht => ht
  refine ht.keeps_turn hi (fun prec => ?_) (ht.keeps_destroy fun t ht => ht)
  split
  · obtain ⟨pool, L, ht⟩ := ht
    exact Prog.Keeps.bind ((hhit isdir prec ht).mono fun _ t ht => ⟨by omega, pool, L, ht⟩)
  · exact ⟨by omega, ht⟩

/-- **Every user of pools** leaves them as they were. -/
theorem PoolInv.keeps_user (k : ℕ) (u : PoolUser) (h : PoolInv ps bs m) :
    PoolKeeps env (u.prog k) (fun _ => PoolInv ps bs) m := by
  cases u with
  | ls path cpypath => exact h.keeps_poolLs false k path cpypath
  | lsr path cpypath => exact h.keeps_poolLs true k path cpypath
  | xcopy dbdir lcknam newn srcp dstpat =>
    refine h.keeps_poolPattern fun isdir prec ht => ht.keeps_poolTrylck fun t b ht => ?_
    split
    · exact ht.keeps_sys fun t n ht => ht
    · exact ht
  | xcpdir dbdir lcknam newn srcp dstpat =>
    refine h.keeps_poolPattern fun isdir prec ht => ht.keeps_poolTrylck fun t b ht => ?_
    split
    · exact Prog.Keeps.bind ((ht.keeps_poolCpr k srcp _).mono fun _ t ht => ht)
    · exact ht
  | xdel lcknam path nam =>
    refine h.keeps_poolPattern fun isdir prec ht => ht.keeps_poolTrylck fun t b ht => ?_
    split
    · exact ht.keeps_sys fun t n ht => ht
    · exact ht
  | xrmdir lcknam path nam =>
    refine h.keeps_poolPattern fun isdir prec ht => ht.keeps_sys fun t n ht => ?_
    dsimp only
    split
    · refine ht.keeps_poolTrylck fun t b ht => ?_
      split
      · exact Prog.Keeps.bind ((ht.keeps_poolRmr k prec _).mono fun _ t ht => ht)
      · exact ht
    · exact ht
  | cpr srcp dstp => exact Prog.Keeps.bind ((h.keeps_poolCpr k srcp dstp).mono fun _ t ht => ht)
  | rmr path excl => exact Prog.Keeps.bind ((h.keeps_poolRmr k path excl).mono fun _ t ht => ht)

theorem PoolInv.keeps_session (k : ℕ) : ∀ (us : List PoolUser) {m : PoolMem}, PoolInv ps bs m →
    PoolKeeps env (poolSession k us) (fun _ => PoolInv ps bs) m := by
  intro us
  induction us with
  | nil => exact fun h => h
  | cons u us ih =>
    exact fun h => Prog.Keeps.bind ((h.keeps_user k u).mono fun _ t ht => ih ht)

/-- **Memory pools.**  In every run of the functions that use pools, in any order and from any
memory, whatever the system answers and whichever allocations fail, every call is sound exactly
if every call is allowed. -/
theorem pool_runs_sound_iff (env : PoolEnv) (k : ℕ) (us : List PoolUser) (h : Blocks PoolBlk) :
    (poolSession k us).Meets (poolNext env) (PoolSound env) (.start h) ↔
      (poolSession k us).Meets (poolNext env) (PoolAllowed env) (.start h) :=
  Prog.Keeps.meets_iff (fun _ _ => poolSound_iff) ((PoolInv.start h).keeps_session k us)

/-- A directory with two files, and a second record that cannot be added. -/
def secondRecordFails : PoolEnv where
  alloc n := n ≠ 5
  sys _
    | .opendir p => if p = lit "/d" then some [lit "a", lit "b"] else none
    | .stat _ | .lstat _ => some .reg
    | .realpath p => p
    | .mktmp _ => true
    | .writetmp _ => ()
    | .access _ | .mkdir _ | .rmdir _ | .link _ _ | .unlink _ => (0 : ℤ)

/-- `LS` then reads the path of the first file from a block that was freed. -/
theorem pool_runs_unsound :
    ¬ (poolSession 3 [.ls (lit "/d") (lit "/d/")]).Meets (poolNext secondRecordFails)
        (PoolSound secondRecordFails) (.start []) ∧
      ¬ (poolSession 3 [.ls (lit "/d") (lit "/d/")]).Meets (poolNext secondRecordFails)
        (fun m a => (poolNext secondRecordFails m a).isSome) (.start []) := by
  decide +kernel

/-- The same directory with memory for both records. -/
example : (poolSession 3 [.ls (lit "/d") (lit "/d/")]).Meets
    (poolNext { secondRecordFails with alloc := fun _ => true })
    (PoolSound { secondRecordFails with alloc := fun _ => true }) (.start []) := by
  decide +kernel

end

end TFProtocol
