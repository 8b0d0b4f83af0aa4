import TFProtocol.Lib.CArray
import TFProtocol.Listing

/-!
# Paths and the arrays they are built in

`jaildir` builds the path of a request in an array of its caller, `secfs_proc` copies it to
one of its own and appends the name of the metadata file, and `normpath` copies a path
without its runs of slashes.  All these arrays have `PATH_MAX` bytes.

`jaildir` stops after `PATH_MAX - 1` bytes of the client, whatever the length of the root in
front of them, and stores what comes next as the terminator.  `normpath` terminates a string
of `PATH_MAX - 1` bytes at an offset from where its pointer is by then.

## Main definitions

* `jaildirArr`, `secfsProcArr`, `normpathArr` — the functions, with their stores.
* `JailFits`, `NormFits` — every store is inside, and the array holds the path.

## Main results

* `jaildir_fits_iff` — which requests `jaildir` has room for.
* `normpath_fits_iff` — which paths `normpath` has room for.
-/

namespace TFProtocol

open Bytes CStr

/-! ### `normpath` -/

/-- The loop of `normpath`; `rst` and `i` move together. -/
def normLoop : Bool → ℕ → CArray → List Byte → ℕ × CArray
  | _, i, rst, [] => (i, rst)
  | sl, i, rst, x :: xs =>
    if pathMax ≤ i then (i, rst)
    else if x = slash ∧ sl then normLoop sl i rst xs
    else normLoop (x = slash) (i + 1) (rst.put i x) xs

/-- `normpath(path, rst)`, with the stores into `rst`. -/
def normpathArr (path : List Byte) (rst : CArray) : CArray :=
  let r := normLoop false 0 rst path
  if r.1 < pathMax - 1 then r.2.put r.1 0
  -- counted from where `rst` points now
  else r.2.put (r.1 + (pathMax - 1)) 0

/-- An array of `PATH_MAX` bytes, before anything is stored in it. -/
structure PathArr (a : CArray) : Prop where
  size : a.size = pathMax
  room : pathMax ≤ a.mem.length
  inside : a.inside = true

/-- Every store of `normpath` is inside, the array holds the terminated path with its runs of
slashes cut to one, and another call returns the same. -/
structure NormFits (path : List Byte) (rst : CArray) : Prop where
  inside : (normpathArr path rst).inside = true
  terminated : 0 ∈ (normpathArr path rst).mem.take pathMax
  collapsed : (normpathArr path rst).str = (LexPath.runsOf slash path).flatMap (List.take 1)
  stable : ∀ rst', PathArr rst' →
    (normpathArr (normpathArr path rst).str rst').str = (normpathArr path rst).str

/-- The loop copies the path without its runs of slashes. -/
theorem normLoop_eq : ∀ (path : List Byte) (sl : Bool) (i : ℕ) (rst : CArray),
    i + (LexPath.squeeze slash sl path).length ≤ pathMax →
      normLoop sl i rst path = (i + (LexPath.squeeze slash sl path).length,
        rst.puts i (LexPath.squeeze slash sl path)) := by
  intro path
  induction path with
  | nil => intro sl i rst _; rfl
  | cons x path ih =>
    intro sl i rst hlen
    by_cases hfull : pathMax ≤ i
    · have hnil : LexPath.squeeze slash sl (x :: path) = [] :=
        List.length_eq_zero_iff.mp (by omega)
      rw [normLoop, if_pos hfull, hnil]
      rfl
    · rw [normLoop, if_neg hfull]
      split
      · next hx =>
        have hskip : LexPath.squeeze slash sl (x :: path) = LexPath.squeeze slash sl path := by
          rw [LexPath.squeeze, if_pos hx.1, if_pos hx.2, hx.2]
        rw [hskip] at hlen ⊢
        exact ih sl i rst hlen
      · next hx =>
        have hkeep : LexPath.squeeze slash sl (x :: path) =
            x :: LexPath.squeeze slash (decide (x = slash)) path := by
          by_cases hslash : x = slash
          · rw [LexPath.squeeze, if_pos hslash, if_neg fun h => hx ⟨hslash, h⟩, hslash]
            simp
          · rw [LexPath.squeeze, if_neg hslash, decide_eq_false hslash]
        rw [hkeep, List.length_cons] at hlen
        rw [ih _ _ _ (by omega), hkeep, List.length_cons, CArray.puts]
        congr 1
        omega

/-- What `normpath` does with a path that has room with its terminator. -/
theorem normpathArr_eq {path : List Byte} (hlen : (normpath path).length < pathMax)
    (rst : CArray) : normpathArr path rst =
      if (normpath path).length < pathMax - 1 then rst.strcpy (normpath path)
      else (rst.puts 0 (normpath path)).put ((normpath path).length + (pathMax - 1)) 0 := by
  have hloop : normLoop false 0 rst path = ((normpath path).length, rst.puts 0 (normpath path)) := by
    have h := normLoop_eq path false 0 rst (by unfold normpath at hlen; omega)
    rwa [Nat.zero_add] at h
  simp only [normpathArr, hloop]
  split
  · rw [CArray.strcpy, CArray.puts_append, Nat.zero_add]
    rfl
  · rfl

theorem zero_not_mem_normpath {path : List Byte} (h : 0 ∉ path) : 0 ∉ normpath path :=
  fun hmem => h ((LexPath.squeeze_sublist false path).subset hmem)

theorem normpath_normpath (path : List Byte) : normpath (normpath path) = normpath path :=
  LexPath.squeeze_squeeze false path

/-- The string that `normpath` leaves. -/
theorem str_normpathArr {path : List Byte} (hpath : 0 ∉ path)
    (hlen : (normpath path).length < pathMax - 1) {rst : CArray} (hrst : PathArr rst) :
    (normpathArr path rst).str = normpath path := by
  have := hrst.room
  rw [normpathArr_eq (by omega), if_pos hlen]
  exact CArray.str_strcpy (zero_not_mem_normpath hpath) (by omega)

theorem normFits_of_lt {path : List Byte} (hpath : 0 ∉ path)
    (hlen : (normpath path).length < pathMax - 1) {rst : CArray} (hrst : PathArr rst) :
    NormFits path rst := by
  have hstr := str_normpathArr hpath hlen hrst
  have hcopy : normpathArr path rst = rst.strcpy (normpath path) := by
    rw [normpathArr_eq (by omega), if_pos hlen]
  refine ⟨?_, ?_, ?_, ?_⟩
  · rw [hcopy, CArray.inside_strcpy, hrst.size]
    exact ⟨hrst.inside, by omega⟩
  · have hroom : pathMax ≤ (normpathArr path rst).mem.length := by
      rw [hcopy, CArray.length_mem_strcpy]
      exact hrst.room
    rw [CArray.zero_mem_take hroom, hstr]
    omega
  · rw [hstr]
    exact LexPath.squeeze_eq_runs path
  · intro rst' hrst'
    have hagain : (normpath (normpath path)).length < pathMax - 1 := by rwa [normpath_normpath]
    rw [hstr, str_normpathArr (zero_not_mem_normpath hpath) hagain hrst', normpath_normpath]

/-- The terminator of a path of `PATH_MAX - 1` bytes is stored behind the array. -/
theorem not_normFits_of_eq {path : List Byte} (hlen : (normpath path).length = pathMax - 1)
    {rst : CArray} (hrst : PathArr rst) : ¬ NormFits path rst := by
  intro h
  have hin := h.inside
  rw [normpathArr_eq (by rw [hlen]; decide), if_neg (by omega), CArray.put, hlen] at hin
  simp only [CArray.size_puts, hrst.size, Bool.and_eq_true, decide_eq_true_eq] at hin
  exact absurd hin.2 (by decide)

/-- **Which paths `normpath` has room for**, among those that fit with their terminator: all
but those of `PATH_MAX - 1` bytes. -/
theorem normpath_fits_iff {path : List Byte} (hpath : 0 ∉ path)
    (hlen : ((LexPath.runsOf slash path).flatMap (List.take 1)).length < pathMax)
    {rst : CArray} (hrst : PathArr rst) :
    NormFits path rst ↔
      ((LexPath.runsOf slash path).flatMap (List.take 1)).length ≠ pathMax - 1 := by
  rw [← LexPath.squeeze_eq_runs] at hlen ⊢
  constructor
  · intro h heq
    exact not_normFits_of_eq heq hrst h
  · intro hne
    apply normFits_of_lt hpath _ hrst
    show (LexPath.squeeze slash false path).length < pathMax - 1
    omega

/-- An array with nothing in it. -/
def blankArr : CArray := ⟨pathMax, List.replicate pathMax 0, true⟩

theorem blankArr_pathArr : PathArr blankArr := ⟨rfl, by rw [blankArr, List.length_replicate], rfl⟩

theorem normpath_fits_double : NormFits (lit "/a//b") blankArr := by
  have hruns : (LexPath.runsOf slash (lit "/a//b")).flatMap (List.take 1) = lit "/a/b" := by decide
  exact (normpath_fits_iff (by decide) (by rw [hruns]; decide) blankArr_pathArr).mpr
    (by rw [hruns]; decide)

/-- A name of `PATH_MAX - 1` characters. -/
theorem normpath_overruns :
    let path := List.replicate (pathMax - 1) dot
    0 ∉ path ∧ ((LexPath.runsOf slash path).flatMap (List.take 1)).length < pathMax ∧
      ¬ NormFits path blankArr := by
  intro path
  have hmem : ∀ b ∈ path, b = dot := fun b => List.eq_of_mem_replicate
  have hlen : (LexPath.squeeze slash false path).length = pathMax - 1 := by
    rw [LexPath.squeeze_of_not_mem false fun h => absurd (hmem _ h) (by decide),
      List.length_replicate]
  refine ⟨fun h => absurd (hmem _ h) (by decide), ?_, not_normFits_of_eq hlen blankArr_pathArr⟩
  rw [← LexPath.squeeze_eq_runs, hlen]
  decide

/-! ### `jaildir` -/

/-- `rmtrdir(str)`: the last separator before the last character is overwritten; where there
is none, the search goes on before the array. -/
def rmtrdirArr (a : CArray) : CArray :=
  if a.str.length ≤ 1 then a
  else if a.str.dropLast.contains slash then a.put (rmtrdir a.str).length 0
  else a.stray

/-- The directory of a path, and the name of the metadata file in it. -/
def metaArr (fs : Fs) (a : CArray) : CArray :=
  (((if fs.isDir a.str then a else rmtrdirArr a).strcat [slash]).strcat fsmeta).strcat fsmetardExt

/-- `secfs_proc(src)`, with the stores into its array `path`. -/
def secfsProcArr (fs : Fs) (j : Jail) (src : List Byte) (path : CArray) :
    (Bool × Jail) × CArray :=
  let path := path.strcpy src
  let fsopold := j.fsop
  let j := { j with fsop := 0 }
  if fsmeta <:+: path.str then ((false, j), path)
  else if j.fsopOvrr ≠ 0 then ((true, { j with fsopOvrr := 0 }), path)
  else
    let path := metaArr fs path
    if !fs.access path.str then ((true, j), path)
    else if fsopold = 0 then ((false, j), path)
    else
      let perm := getfsidperm fs path.str j.fsid
      let perm := if perm = 0 then getfsidperm fs path.str fsotherusr else perm
      ((perm &&& fsopold = fsopold, j), path)

/-- The loop of `jaildir`, and the store behind it: what `src` points to by then. -/
def jailLoop : ℕ → ℕ → CArray → List Byte → CArray
  | _, i, dst, [] => dst.put i 0
  | c, i, dst, x :: xs =>
    if c < pathMax - 1 then jailLoop (c + 1) (i + 1) (dst.put i x) xs else dst.put i x

/-- The result of `jaildir`, with the arrays. -/
structure JailArrs where
  ok : Bool
  dst : CArray
  /-- `path` of `secfs_proc`. -/
  path : CArray
  jail : Jail
  deriving DecidableEq, Repr

/-- `jaildir(src, dst)`, with the stores into `dst` and into `path` of `secfs_proc`. -/
def jaildirArr (fs : Fs) (j : Jail) (src : List Byte) (dst path : CArray) : JailArrs :=
  let dst := dst.strcpy j.dbdir
  let dst := jailLoop 0 dst.str.length dst src
  if pdir <:+: dst.str then ⟨false, dst, path, { j with fsop := 0, fsopOvrr := 0 }⟩
  else
    let r := secfsProcArr fs j dst.str path
    if r.1.1 then ⟨fs.access j.dbdir, dst, r.2, r.1.2⟩ else ⟨false, dst, r.2, r.1.2⟩

/-- Every store of `jaildir` and of `secfs_proc` is inside, the path is terminated, and it is
the root with the client's path behind it where it is accepted. -/
structure JailFits (fs : Fs) (j : Jail) (src : List Byte) (dst path : CArray) : Prop where
  dst_inside : (jaildirArr fs j src dst path).dst.inside = true
  path_inside : (jaildirArr fs j src dst path).path.inside = true
  terminated : 0 ∈ (jaildirArr fs j src dst path).dst.mem.take pathMax
  whole : (jaildirArr fs j src dst path).ok = true →
    (jaildirArr fs j src dst path).dst.str = j.dbdir ++ src

/-- `rmtrdir` finds a separator, if it looks for one. -/
def Cuttable (str : List Byte) : Prop := str.length ≤ 1 ∨ slash ∈ str.dropLast

/-- There is room for the path, and for the name of the metadata file behind its directory
where `secfs_proc` comes to build it. -/
def JailRoom (fs : Fs) (j : Jail) (src : List Byte) : Prop :=
  j.dbdir.length + src.length < pathMax ∧
    (pdir <:+: j.dbdir ++ src ∨ fsmeta <:+: j.dbdir ++ src ∨ j.fsopOvrr ≠ 0 ∨
      (metaOf fs (j.dbdir ++ src)).length < pathMax ∧
        (fs.isDir (j.dbdir ++ src) = true ∨ Cuttable (j.dbdir ++ src)))

/-- What the loop stores. -/
theorem jailLoop_eq : ∀ (src : List Byte) (c i : ℕ) (dst : CArray), c < pathMax →
    jailLoop c i dst src =
      dst.puts i (if c + src.length < pathMax then src ++ [0] else src.take (pathMax - c)) := by
  intro src
  induction src with
  | nil =>
    intro c i dst hc
    rw [if_pos (by simpa using hc)]
    rfl
  | cons x src ih =>
    intro c i dst hc
    rw [jailLoop, List.length_cons]
    split
    · next hlt =>
      rw [ih _ _ _ (by omega), show c + 1 + src.length = c + (src.length + 1) by omega]
      split
      · rfl
      · rw [show pathMax - c = pathMax - (c + 1) + 1 by omega, List.take_succ_cons, CArray.puts]
    · next hlt =>
      rw [if_neg (by omega), show pathMax - c = 0 + 1 by omega, List.take_succ_cons, List.take_zero]
      rfl

/-! ### Room -/

theorem rmtrdir_isPrefix (str : List Byte) : rmtrdir str <+: str := by
  unfold rmtrdir
  split
  · exact List.prefix_rfl
  · have hsuf : (str.dropLast.reverse.dropWhile (· ≠ slash)).tail <:+ str.dropLast.reverse :=
      (List.tail_suffix _).trans (List.dropWhile_suffix _)
    have hpre := List.reverse_prefix.mpr hsuf
    rw [List.reverse_reverse] at hpre
    exact hpre.trans (List.dropLast_prefix str)

theorem length_rmtrdir_lt {str : List Byte} (h : ¬ str.length ≤ 1) :
    (rmtrdir str).length < str.length := by
  unfold rmtrdir
  rw [if_neg h, List.length_reverse, List.length_tail]
  have := (List.dropWhile_suffix (l := str.dropLast.reverse) (· ≠ slash)).length_le
  rw [List.length_reverse, List.length_dropLast] at this
  omega

/-- What `rmtrdir` leaves in an array. -/
theorem str_rmtrdirArr {a : CArray} (h : Cuttable a.str) (hroom : a.str.length ≤ a.mem.length) :
    (rmtrdirArr a).str = rmtrdir a.str := by
  unfold rmtrdirArr
  split
  · next hle => rw [rmtrdir, if_pos hle]
  · next hle =>
    have hlt := length_rmtrdir_lt hle
    rw [if_pos (List.contains_iff_mem.mpr (h.resolve_left hle)),
      CArray.str_put_zero hlt.le (by omega)]
    exact (List.prefix_iff_eq_take.mp (rmtrdir_isPrefix a.str)).symm

theorem inside_rmtrdirArr {a : CArray} (hsize : a.str.length ≤ a.size) :
    (rmtrdirArr a).inside = true ↔ a.inside = true ∧ Cuttable a.str := by
  unfold rmtrdirArr Cuttable
  split
  · next hle => simp [hle]
  · next hle =>
    have hlt := length_rmtrdir_lt hle
    split
    · next hmem =>
      have hslash := List.contains_iff_mem.mp hmem
      simp [CArray.put, hslash, show (rmtrdir a.str).length < a.size by omega]
    · next hmem =>
      have hslash : slash ∉ a.str.dropLast := fun h => hmem (List.contains_iff_mem.mpr h)
      simp [CArray.stray, hle, hslash]

theorem size_rmtrdirArr (a : CArray) : (rmtrdirArr a).size = a.size := by
  unfold rmtrdirArr
  split
  · rfl
  · split <;> rfl

theorem length_mem_rmtrdirArr (a : CArray) : (rmtrdirArr a).mem.length = a.mem.length := by
  unfold rmtrdirArr
  split
  · rfl
  · split
    · exact CArray.length_mem_put _ _ _
    · rfl

/-- The three strings that `metaArr` appends to a directory. -/
def metaParts : List (List Byte) := [[slash], fsmeta, fsmetardExt]

theorem zero_not_mem_metaParts : ∀ t ∈ metaParts, 0 ∉ t := by decide

theorem metaArr_eq (fs : Fs) (a : CArray) :
    metaArr fs a = metaParts.foldl CArray.strcat (if fs.isDir a.str then a else rmtrdirArr a) := rfl

theorem metaOf_eq (fs : Fs) (str : List Byte) :
    metaOf fs str = (if fs.isDir str then str else rmtrdir str) ++ metaParts.flatten := by
  simp [metaOf, metaParts]

/-- **When the name of the metadata file has room.** -/
theorem inside_metaArr (fs : Fs) {a : CArray} (hin : a.inside = true) (hroom : a.size ≤ a.mem.length)
    (hlen : a.str.length < a.size) : (metaArr fs a).inside = true ↔
      (metaOf fs a.str).length < a.size ∧ (fs.isDir a.str = true ∨ Cuttable a.str) := by
  have hne : metaParts ≠ [] := List.cons_ne_nil _ _
  rw [metaArr_eq, metaOf_eq, List.length_append]
  cases hdir : fs.isDir a.str with
  | true =>
    rw [if_pos rfl, if_pos rfl, CArray.inside_foldl_strcat zero_not_mem_metaParts hroom]
    simp [hin, hne]
  | false =>
    simp only [Bool.false_eq_true, if_false, false_or]
    have hmem : (rmtrdirArr a).size ≤ (rmtrdirArr a).mem.length := by
      rw [size_rmtrdirArr, length_mem_rmtrdirArr]
      exact hroom
    rw [CArray.inside_foldl_strcat zero_not_mem_metaParts hmem, inside_rmtrdirArr hlen.le,
      size_rmtrdirArr]
    constructor
    · rintro ⟨⟨-, hcut⟩, hlt⟩
      rw [str_rmtrdirArr hcut (by omega)] at hlt
      exact ⟨hlt.resolve_left hne, hcut⟩
    · rintro ⟨hlt, hcut⟩
      rw [str_rmtrdirArr hcut (by omega)]
      exact ⟨⟨hin, hcut⟩, .inr hlt⟩

/-- The name of the metadata file, where it has room. -/
theorem str_metaArr (fs : Fs) {a : CArray} (hroom : a.size ≤ a.mem.length)
    (hlen : (metaOf fs a.str).length < a.size) (hcut : fs.isDir a.str = true ∨ Cuttable a.str)
    (hstr : a.str.length < a.size) : (metaArr fs a).str = metaOf fs a.str := by
  rw [metaOf_eq, List.length_append] at hlen
  rw [metaArr_eq, metaOf_eq]
  cases hdir : fs.isDir a.str with
  | true =>
    rw [hdir, if_pos rfl] at hlen
    rw [if_pos rfl, if_pos rfl, CArray.str_foldl_strcat zero_not_mem_metaParts (by omega)]
  | false =>
    rw [hdir] at hlen hcut
    simp only [Bool.false_eq_true, if_false] at hlen ⊢
    have hdirstr := str_rmtrdirArr (hcut.resolve_left Bool.false_ne_true) (by omega)
    rw [← hdirstr] at hlen ⊢
    exact CArray.str_foldl_strcat zero_not_mem_metaParts (by rw [length_mem_rmtrdirArr]; omega)

/-- The array `secfs_proc` leaves: `src` is in it, and the name of the metadata file if it
comes to that. -/
theorem secfsProcArr_path (fs : Fs) (j : Jail) (src : List Byte) (path : CArray) :
    (secfsProcArr fs j src path).2 =
      if fsmeta <:+: (path.strcpy src).str ∨ j.fsopOvrr ≠ 0 then path.strcpy src
      else metaArr fs (path.strcpy src) := by
  simp only [secfsProcArr]
  split
  · next hmeta => rw [if_pos (.inl hmeta)]
  · next hmeta =>
    split
    · next hov => rw [if_pos (.inr hov)]
    · next hov =>
      rw [if_neg (not_or.mpr ⟨hmeta, hov⟩)]
      split
      · rfl
      · split <;> rfl

/-- `secfs_proc` decides as it would with arrays of any size, where there is room. -/
theorem secfsProcArr_eq (fs : Fs) (j : Jail) {src : List Byte} (hsrc : 0 ∉ src)
    (hlen : src.length < pathMax) {path : CArray} (hpath : PathArr path)
    (hmeta : fsmeta <:+: src ∨ j.fsopOvrr ≠ 0 ∨
      (metaOf fs src).length < pathMax ∧ (fs.isDir src = true ∨ Cuttable src)) :
    (secfsProcArr fs j src path).1 = secfsProc fs j src := by
  have hroom := hpath.room
  have hstr : (path.strcpy src).str = src := CArray.str_strcpy hsrc (by omega)
  simp only [secfsProcArr, secfsProc, hstr]
  split
  · rfl
  · next hno =>
    split
    · rfl
    · next hov =>
      obtain ⟨hfits, hcut⟩ := (hmeta.resolve_left hno).resolve_left hov
      have hname : (metaArr fs (path.strcpy src)).str = metaOf fs src := by
        have h := str_metaArr fs (a := path.strcpy src) (by simp [hpath.size, hroom])
        rw [hstr, CArray.size_strcpy, hpath.size] at h
        exact h hfits hcut hlen
      rw [hname]
      split
      · rfl
      · split <;> rfl

/-- The array of the caller behind the loop of `jaildir`. -/
theorem jaildirArr_dst (fs : Fs) (j : Jail) (src : List Byte) (dst path : CArray) :
    (jaildirArr fs j src dst path).dst =
      jailLoop 0 (dst.strcpy j.dbdir).str.length (dst.strcpy j.dbdir) src := by
  simp only [jaildirArr]
  split
  · rfl
  · split <;> rfl

section

variable {fs : Fs} {j : Jail} {src : List Byte} {dst path : CArray}
variable (hroot : 0 ∉ j.dbdir) (hlen : j.dbdir.length < pathMax) (hsrc : 0 ∉ src)
variable (hdst : PathArr dst) (hpath : PathArr path)

include hroot hlen hdst in
/-- The stores of the client's path. -/
theorem jaildirArr_dst_puts : (jaildirArr fs j src dst path).dst =
    (dst.strcpy j.dbdir).puts j.dbdir.length
      (if src.length < pathMax then src ++ [0] else src.take pathMax) := by
  have hstr : (dst.strcpy j.dbdir).str = j.dbdir := by
    have := hdst.room
    exact CArray.str_strcpy hroot (by omega)
  rw [jaildirArr_dst, hstr, jailLoop_eq _ _ _ _ (by decide), Nat.zero_add, Nat.sub_zero]

include hroot hlen hsrc hdst in
/-- The path of a request that has room. -/
theorem str_jaildirArr (hfits : j.dbdir.length + src.length < pathMax) :
    (jaildirArr fs j src dst path).dst.str = j.dbdir ++ src := by
  have hroom := hdst.room
  have hstr : (dst.strcpy j.dbdir).str = j.dbdir := CArray.str_strcpy hroot (by omega)
  rw [jaildirArr_dst_puts hroot hlen hdst, if_pos (by omega),
    CArray.str_puts hsrc (by rw [hstr]) (by rw [CArray.length_mem_strcpy]; omega), hstr,
    List.take_length]

include hroot hlen hsrc hdst in
/-- **When the path has room** in the array of the caller: with its terminator. -/
theorem jaildirArr_dst_iff :
    ((jaildirArr fs j src dst path).dst.inside = true ∧
      0 ∈ (jaildirArr fs j src dst path).dst.mem.take pathMax) ↔
      j.dbdir.length + src.length < pathMax := by
  have hroom := hdst.room
  have hmem : pathMax ≤ (jaildirArr fs j src dst path).dst.mem.length := by
    rw [jaildirArr_dst_puts hroot hlen hdst, CArray.length_mem_puts, CArray.length_mem_strcpy]
    exact hroom
  have hin : (jaildirArr fs j src dst path).dst.inside = true ↔ j.dbdir.length +
      (if src.length < pathMax then src ++ [0] else src.take pathMax).length ≤ pathMax := by
    have hne : (if src.length < pathMax then src ++ [0] else src.take pathMax) ≠ [] := by
      split
      · simp
      · next hlong =>
        intro hnil
        rw [List.take_eq_nil_iff] at hnil
        rcases hnil with h | rfl
        · exact absurd h (by decide)
        · exact hlong (by decide)
    rw [jaildirArr_dst_puts hroot hlen hdst, CArray.inside_puts, CArray.inside_strcpy,
      CArray.size_strcpy, hdst.size]
    exact ⟨fun h => h.2 hne, fun h => ⟨⟨hdst.inside, hlen⟩, fun _ => h⟩⟩
  constructor
  · rintro ⟨hinside, hzero⟩
    rw [hin] at hinside
    split at hinside
    · rw [List.length_append, List.length_singleton] at hinside
      omega
    · next hlong =>
      -- only without a root; then the array is full and has no terminator
      rw [List.length_take, Nat.min_eq_left (by omega)] at hinside
      have hnil : j.dbdir = [] := List.length_eq_zero_iff.mp (by omega)
      have hstored : (jaildirArr fs j src dst path).dst = _ := jaildirArr_dst_puts hroot hlen hdst
      rw [if_neg hlong, hnil, List.length_nil] at hstored
      rw [hstored, CArray.mem_puts _ _ _ (by simp; omega), List.take_zero, List.nil_append,
        List.take_append_of_le_length (by rw [List.length_take]; omega), List.take_take,
        Nat.min_self] at hzero
      exact absurd (List.mem_of_mem_take hzero) hsrc
  · intro hfits
    rw [hin, if_pos (by omega), CArray.zero_mem_take hmem,
      str_jaildirArr hroot hlen hsrc hdst hfits, List.length_append, List.length_append,
      List.length_singleton]
    omega

include hroot hlen hsrc hdst hpath in
/-- **When `secfs_proc` has room**, for a path that had. -/
theorem jaildirArr_path_iff (hfits : j.dbdir.length + src.length < pathMax) :
    (jaildirArr fs j src dst path).path.inside = true ↔ JailRoom fs j src := by
  have hroom := hpath.room
  have hfree : 0 ∉ j.dbdir ++ src := by
    rw [List.mem_append, not_or]
    exact ⟨hroot, hsrc⟩
  have hstr : (path.strcpy (j.dbdir ++ src)).str = j.dbdir ++ src :=
    CArray.str_strcpy hfree (by rw [List.length_append]; omega)
  have hcopy : (path.strcpy (j.dbdir ++ src)).inside = true := by
    rw [CArray.inside_strcpy, hpath.size, List.length_append]
    exact ⟨hpath.inside, hfits⟩
  have hdststr : (jaildirArr fs j src dst path).dst.str = j.dbdir ++ src :=
    str_jaildirArr hroot hlen hsrc hdst hfits
  have hpatharr : (jaildirArr fs j src dst path).path =
      if pdir <:+: j.dbdir ++ src then path else (secfsProcArr fs j (j.dbdir ++ src) path).2 := by
    rw [jaildirArr_dst] at hdststr
    simp only [jaildirArr, hdststr]
    split
    · rfl
    · split <;> rfl
  rw [hpatharr, JailRoom]
  by_cases hp : pdir <:+: j.dbdir ++ src
  · rw [if_pos hp]
    exact ⟨fun _ => ⟨hfits, .inl hp⟩, fun _ => hpath.inside⟩
  · rw [if_neg hp, secfsProcArr_path, hstr]
    split
    · next hearly =>
      exact ⟨fun _ => ⟨hfits, .inr (hearly.imp_right .inl)⟩, fun _ => hcopy⟩
    · next hearly =>
      rw [not_or] at hearly
      have hmeta := inside_metaArr fs hcopy (by simp [hpath.size, hroom])
        (by rw [hstr, CArray.size_strcpy, hpath.size, List.length_append]; exact hfits)
      rw [hstr, CArray.size_strcpy, hpath.size] at hmeta
      rw [hmeta]
      constructor
      · exact fun h => ⟨hfits, .inr (.inr (.inr h))⟩
      · rintro ⟨-, h | h | h | h⟩
        · exact absurd h hp
        · exact absurd h hearly.1
        · exact absurd h hearly.2
        · exact h

include hroot hlen hsrc hdst hpath in
/-- **Which requests `jaildir` has room for**: those that fit behind the root, and leave room
for the name of the metadata file where `secfs_proc` looks for it. -/
theorem jaildir_fits_iff : JailFits fs j src dst path ↔ JailRoom fs j src := by
  constructor
  · intro h
    have hfits := (jaildirArr_dst_iff hroot hlen hsrc hdst).mp ⟨h.dst_inside, h.terminated⟩
    exact (jaildirArr_path_iff hroot hlen hsrc hdst hpath hfits).mp h.path_inside
  · intro h
    obtain ⟨hin, hzero⟩ := (jaildirArr_dst_iff hroot hlen hsrc hdst).mpr h.1
    exact ⟨hin, (jaildirArr_path_iff hroot hlen hsrc hdst hpath h.1).mpr h, hzero,
      fun _ => str_jaildirArr hroot hlen hsrc hdst h.1⟩

include hroot hlen hsrc hdst hpath in
/-- Where there is room, `jaildir` decides as it would with arrays of any size. -/
theorem jaildirArr_eq (hroom : JailRoom fs j src) (beyond : List Byte) :
    (jaildirArr fs j src dst path).ok = (jaildir fs j src beyond).ok ∧
      (jaildirArr fs j src dst path).jail = (jaildir fs j src beyond).jail := by
  have hfree : 0 ∉ j.dbdir ++ src := by
    rw [List.mem_append, not_or]
    exact ⟨hroot, hsrc⟩
  have hstr : (jaildirArr fs j src dst path).dst.str = j.dbdir ++ src :=
    str_jaildirArr hroot hlen hsrc hdst hroom.1
  rw [jaildirArr_dst] at hstr
  simp only [jaildirArr, jaildir, hstr, jailed_of_lt (show src.length < pathMax from by
    have := hroom.1
    omega)]
  by_cases hp : pdir <:+: j.dbdir ++ src
  · rw [if_pos hp, if_pos hp]
    exact ⟨rfl, rfl⟩
  · rw [if_neg hp, if_neg hp, secfsProcArr_eq fs j hfree
      (by rw [List.length_append]; exact hroom.1) hpath (hroom.2.resolve_left hp)]
    split <;> exact ⟨rfl, rfl⟩

end

theorem jaildir_fits_short :
    JailFits (Fs.ofDirs [lit "/srv/"]) exampleJail (lit "a") blankArr blankArr :=
  (jaildir_fits_iff (by decide) (by decide) (by decide) blankArr_pathArr blankArr_pathArr).mpr
    ⟨by decide, .inr (.inr (.inr ⟨by decide, .inr (.inr (by decide))⟩))⟩

/-- A request that fills the array behind the root: the terminator is stored behind it. -/
theorem jaildir_overruns :
    let src := List.replicate (pathMax - 5) (ofChar 'a')
    0 ∉ exampleJail.dbdir ∧ exampleJail.dbdir.length < pathMax ∧ 0 ∉ src ∧
      ¬ JailFits (Fs.ofDirs [lit "/srv/"]) exampleJail src blankArr blankArr := by
  intro src
  have hsrc : 0 ∉ src := fun h => absurd (List.eq_of_mem_replicate h) (by decide)
  refine ⟨by decide, by decide, hsrc, fun h => ?_⟩
  have hfits := (jaildirArr_dst_iff (by decide) (by decide) hsrc blankArr_pathArr).mp
    ⟨h.dst_inside, h.terminated⟩
  rw [List.length_replicate] at hfits
  exact absurd hfits (by decide)

end TFProtocol
