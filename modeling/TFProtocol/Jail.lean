import TFProtocol.Lib.CStr
import TFProtocol.Lib.LexPath

/-!
# The jail

Every path a client names goes through `jaildir` of `util.c`: it is appended to
`tfproto.dbdir`, the result is searched for `/../`, and `secfs_proc` of `tfproto.c`
decides whether Secure FileSystem metadata in the directory allows the operation.
The operation is not an argument: the caller leaves it in the global `fsop`, and a
caller that manages the metadata itself sets the global `fsop_ovrr` to be let
through.

Memory is unbounded here.  A client path of `PATH_MAX` bytes or more is copied
without its terminator, so the string goes on with whatever lies behind it; that is
the argument `beyond` of `jaildir`.

## Main definitions

* `Fs` — what the file system answers.
* `Jail` — `tfproto.dbdir`, `fsid` and the two flags.
* `getfsidperm`, `secfsProc`, `jaildir` — the functions of the source.
* `IsRoot` — a directory string as the configuration produces it.

## Main results

* `jaildir_inside_iff` — when an accepted path is inside the root.
-/

namespace TFProtocol

open Bytes CStr

/-- `PATH_MAX`. -/
def pathMax : ℕ := 4096

/-- `LINE_MAX`. -/
def lineMax : ℕ := 2048

/-- The path separator. -/
def slash : Byte := ofChar '/'

/-- The character `.`. -/
def dot : Byte := ofChar '.'

/-- The newline. -/
def newline : Byte := ofChar '\n'

/-- The components of a path that lexical resolution looks at. -/
abbrev comps (p : List Byte) : List (List Byte) := LexPath.comps slash dot p

/-- A path leads, lexically, to a directory or below it. -/
abbrev Inside (root p : List Byte) : Prop := LexPath.Inside slash dot root p

/-- A path never leaves the directory it starts from. -/
abbrev Descends (p : List Byte) : Prop := LexPath.Descends slash dot p

/-- The component `..`. -/
def dotdot : List Byte := [dot, dot]

/-! ### The file system -/

/-- What the file system answers to the calls the jail makes. -/
structure Fs where
  /-- `stat` succeeds and reports a directory. -/
  isDir : List Byte → Bool
  /-- `access(path, F_OK)` returns `0`. -/
  access : List Byte → Bool
  /-- The content `fopen(path, "r")` gives access to, if it succeeds. -/
  read : List Byte → Option (List Byte)

/-! ### Secure FileSystem -/

/-- `FSMETA`. -/
def fsmeta : List Byte := lit ".securefs_metadata"

/-- `FSMETARD_EXT`. -/
def fsmetardExt : List Byte := lit ".rd"

/-- `FSPERM_TOK`. -/
def fspermTok : Byte := ofChar ':'

/-- `FSOTHERUSR`. -/
def fsotherusr : List Byte := []

/-- The permission bits, `enum SECFS`. -/
inductive Secfs
  | setperm | remperm | rfile | wfile | ldir | rmdir | mkdir | dfile | stat | fdupd | uxperm | lrdir
  deriving DecidableEq, Repr, Inhabited

/-- The value of a permission bit. -/
def Secfs.bit : Secfs → BitVec 32
  | .setperm => 1
  | .remperm => 2
  | .rfile => 4
  | .wfile => 8
  | .ldir => 16
  | .rmdir => 32
  | .mkdir => 64
  | .dfile => 128
  | .stat => 256
  | .fdupd => 512
  | .uxperm => 1024
  | .lrdir => 2048

/-- The globals a path check reads and writes. -/
structure Jail where
  /-- `tfproto.dbdir`. -/
  dbdir : List Byte
  fsid : List Byte
  fsop : BitVec 32
  fsopOvrr : BitVec 32
  deriving DecidableEq, Repr, Inhabited

/-- The loop of `getfsidperm` over the lines of a metadata file. -/
def permOf (id : List Byte) : List (List Byte) → BitVec 32
  | [] => 0
  | line :: ls =>
    match strchr fspermTok (cstr line) with
    | some (name, perm) => if id = name then BitVec.ofInt 32 (atoi perm) else permOf id ls
    | none => permOf id ls

/-- `getfsidperm(path, id)`. -/
def getfsidperm (fs : Fs) (path id : List Byte) : BitVec 32 :=
  match fs.read path with
  | none => 0
  | some file => permOf id (lines newline lineMax file)

/-- `rmtrdir`: the string is cut at the last separator before its last
character.  Every string it is called with starts with a separator. -/
def rmtrdir (str : List Byte) : List Byte :=
  if str.length ≤ 1 then str
  else (str.dropLast.reverse.dropWhile (· ≠ slash)).tail.reverse

/-- The metadata file that governs a path. -/
def metaOf (fs : Fs) (path : List Byte) : List Byte :=
  (if fs.isDir path then path else rmtrdir path) ++ [slash] ++ fsmeta ++ fsmetardExt

/-- `secfs_proc(src)`: whether it returns `0`, and the globals afterwards.  The path is taken to
fit `PATH_MAX` bytes with the name of the metadata behind it. -/
def secfsProc (fs : Fs) (j : Jail) (src : List Byte) : Bool × Jail :=
  let fsopold := j.fsop
  let j := { j with fsop := 0 }
  if fsmeta <:+: src then (false, j)
  else if j.fsopOvrr ≠ 0 then (true, { j with fsopOvrr := 0 })
  else
    let path := metaOf fs src
    if !fs.access path then (true, j)
    else if fsopold = 0 then (false, j)
    else
      let perm := getfsidperm fs path j.fsid
      let perm := if perm = 0 then getfsidperm fs path fsotherusr else perm
      (perm &&& fsopold = fsopold, j)

/-! ### `jaildir` -/

/-- The string `jaildir` builds in `dst`. -/
def jailed (dbdir src beyond : List Byte) : List Byte :=
  if src.length < pathMax then dbdir ++ src else dbdir ++ src.take pathMax ++ beyond

/-- The substring `jaildir` looks for. -/
def pdir : List Byte := [slash, dot, dot, slash]

/-- The result of `jaildir`. -/
structure JailRes where
  /-- It returned `0`. -/
  ok : Bool
  dst : List Byte
  jail : Jail
  deriving DecidableEq, Repr

/-- `jaildir(src, dst)`. -/
def jaildir (fs : Fs) (j : Jail) (src beyond : List Byte) : JailRes :=
  let dst := jailed j.dbdir src beyond
  if pdir <:+: dst then ⟨false, dst, { j with fsop := 0, fsopOvrr := 0 }⟩
  else
    let r := secfsProc fs j dst
    if r.1 then ⟨fs.access j.dbdir, dst, r.2⟩ else ⟨false, dst, r.2⟩

/-- A directory string as the configuration leaves it: an absolute path that
ends in a separator and has no component `..`. -/
structure IsRoot (d : List Byte) : Prop where
  absolute : d.head? = some slash
  closed : d.getLast? = some slash
  proper : dotdot ∉ comps d

/-! ### What a call leaves behind -/

theorem jailed_of_lt {dbdir src : List Byte} (h : src.length < pathMax) (beyond : List Byte) :
    jailed dbdir src beyond = dbdir ++ src := if_pos h

@[simp] theorem jaildir_dst (fs : Fs) (j : Jail) (src beyond : List Byte) :
    (jaildir fs j src beyond).dst = jailed j.dbdir src beyond := by
  simp only [jaildir]
  split
  · rfl
  · split <;> rfl

/-- `secfs_proc` changes nothing but the flags, clears the operation, and clears
the override unless the path names metadata. -/
theorem secfsProc_jail (fs : Fs) (j : Jail) (src : List Byte) :
    (secfsProc fs j src).2 =
      { j with fsop := 0, fsopOvrr := if fsmeta <:+: src then j.fsopOvrr else 0 } := by
  simp only [secfsProc]
  split
  · rfl
  · split
    · rfl
    · rename_i hov
      have hzero : j.fsopOvrr = 0 := not_not.mp hov
      split
      · rw [hzero]
      · split <;> rw [hzero]

/-- What `jaildir` leaves in the globals. -/
theorem jaildir_jail (fs : Fs) (j : Jail) (src beyond : List Byte) :
    (jaildir fs j src beyond).jail =
      { j with
        fsop := 0
        fsopOvrr :=
          if fsmeta <:+: jailed j.dbdir src beyond ∧ ¬ pdir <:+: jailed j.dbdir src beyond then
            j.fsopOvrr
          else 0 } := by
  simp only [jaildir]
  split
  · rename_i hp
    simp [hp]
  · rename_i hp
    split <;> simp [hp, secfsProc_jail]

/-- When a path is accepted. -/
theorem jaildir_ok_iff {fs : Fs} {j : Jail} {src beyond : List Byte} :
    (jaildir fs j src beyond).ok = true ↔ ¬ pdir <:+: jailed j.dbdir src beyond ∧
      (secfsProc fs j (jailed j.dbdir src beyond)).1 = true ∧ fs.access j.dbdir = true := by
  simp only [jaildir]
  split
  next hp => simp [hp]
  next hp =>
    split
    next hs => simp [hp, hs]
    next hs => simp [hs]

/-- An accepted path does not show `/../`, and does not name metadata. -/
theorem jaildir_accepts {fs : Fs} {j : Jail} {src beyond : List Byte}
    (h : (jaildir fs j src beyond).ok = true) :
    ¬ pdir <:+: jailed j.dbdir src beyond ∧ ¬ fsmeta <:+: jailed j.dbdir src beyond := by
  refine ⟨?_, ?_⟩
  · intro hp
    simp [jaildir, hp] at h
  · intro hm
    simp only [jaildir] at h
    split at h
    · cases h
    · simp [secfsProc, hm] at h

/-! ### Containment -/

/-- A root is some path with a separator behind it. -/
theorem IsRoot.exists_eq {d : List Byte} (h : IsRoot d) : ∃ a, d = a ++ [slash] := by
  obtain ⟨a, ha⟩ := List.getLast?_eq_some_iff.mp h.closed
  exact ⟨a, ha⟩

/-- An absolute directory string that ends in a separator and does not show `/../` is a
root. -/
theorem IsRoot.of_closed {a : List Byte} (habs : (a ++ [slash]).head? = some slash)
    (h : ¬ pdir <:+: a ++ [slash]) : IsRoot (a ++ [slash]) := by
  refine ⟨habs, List.getLast?_concat, ?_⟩
  cases a with
  | nil => decide
  | cons x a =>
    obtain rfl : x = slash := Option.some.inj habs
    rw [comps, List.cons_append, LexPath.comps_cons_sep]
    exact LexPath.dotdot_not_mem_comps_concat h

/-- When a path without `/../` is inside the root it is appended to. -/
theorem append_inside_iff {d src : List Byte} (hroot : IsRoot d) (hpdir : ¬ pdir <:+: d ++ src) :
    Inside d (d ++ src) ↔ comps d = [] ∨ comps src ≠ [dotdot] := by
  have hproper := hroot.proper
  obtain ⟨a, rfl⟩ := hroot.exists_eq
  rw [List.append_assoc, List.singleton_append] at hpdir ⊢
  have hsrc : ¬ [slash, dot, dot, slash] <:+: slash :: src :=
    fun h => hpdir (h.trans (List.suffix_append a _).isInfix)
  have hbase : LexPath.resolve slash dot a = comps (a ++ [slash]) := by
    rw [← LexPath.resolve_concat_sep, LexPath.resolve_of_not_mem hproper]
  unfold Inside
  rw [LexPath.inside_iff_walk, hbase]
  -- without `/../` a component `..` can only be the last one
  obtain hno | ⟨ns, hns, hcomps⟩ := LexPath.comps_cases hsrc
  · have hne : comps src ≠ [dotdot] := by
      intro h
      apply hno
      rw [show LexPath.comps slash dot src = [dotdot] from h]
      exact List.mem_singleton_self _
    rw [LexPath.walk_of_not_mem _ _ hno]
    exact ⟨fun _ => .inr hne, fun _ => List.prefix_append _ _⟩
  · have hiff : comps src ≠ [dotdot] ↔ ns ≠ [] := by
      rw [show comps src = ns ++ [[dot, dot]] from hcomps]
      simp [dotdot]
    rw [hcomps, LexPath.isPrefix_walk_iff _ hns, hiff]

/-- **When an accepted path is inside the root.**  The search for `/../` misses a
`..` at the very end: the path leaves the root exactly when that `..` is its only
component, and the root is not `/` itself. -/
theorem jaildir_inside_iff (fs : Fs) {j : Jail} (hroot : IsRoot j.dbdir) {src beyond : List Byte}
    (hlen : j.dbdir.length + src.length < pathMax)
    (hok : (jaildir fs j src beyond).ok = true) :
    Inside j.dbdir (jaildir fs j src beyond).dst ↔
      comps j.dbdir = [] ∨ comps src ≠ [dotdot] := by
  obtain ⟨hpdir, -⟩ := jaildir_accepts hok
  rw [jaildir_dst]
  rw [jailed_of_lt (by omega)] at hpdir ⊢
  exact append_inside_iff hroot hpdir

/-- A file system that holds the directories given and no files. -/
def Fs.ofDirs (dirs : List (List Byte)) : Fs :=
  ⟨fun p => p ∈ dirs, fun p => p ∈ dirs, fun _ => none⟩

/-- A server locked into `/srv/`. -/
def exampleJail : Jail := ⟨lit "/srv/", [], 0, 0⟩

theorem exampleJail_isRoot : IsRoot exampleJail.dbdir :=
  ⟨by decide, by decide, by decide⟩

theorem jaildir_inside_iff_example :
    Inside (lit "/srv/") (jaildir (Fs.ofDirs [lit "/srv/"]) exampleJail (lit "a/..") []).dst :=
  (jaildir_inside_iff (Fs.ofDirs [lit "/srv/"]) exampleJail_isRoot (by decide) (by decide)).mpr
    (by decide)

/-- The path `..` is accepted, and leads to the parent of the root. -/
theorem jaildir_accepts_parent :
    (jaildir (Fs.ofDirs [lit "/srv/"]) exampleJail (lit "..") []).ok = true ∧
      (jaildir (Fs.ofDirs [lit "/srv/"]) exampleJail (lit "..") []).dst = lit "/srv/.." ∧
      ¬ Inside (lit "/srv/")
        (jaildir (Fs.ofDirs [lit "/srv/"]) exampleJail (lit "..") []).dst := by
  decide

end TFProtocol
