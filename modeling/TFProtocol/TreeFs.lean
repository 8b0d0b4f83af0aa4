import TFProtocol.Lib.Inodes
import TFProtocol.PathHandlers
import TFProtocol.SecfsFlags

/-!
# Paths and files

The file tree the commands work on, and the system calls they make, on path strings as the
kernel resolves them: empty components and `.` stay in a directory, `..` leads to its
parent, and a path with a separator at its end names a directory.  A call can also fail for
reasons that are not in the tree (permissions of the system, space); `deny` says for which
paths it does.

## Main definitions

* `dirAt`, `slot`, `fileSlot`, `node` — what a path leads to.
* `treeFs` — the answers `jaildir` gets.
* `mkdir`, `rmdir`, `unlink`, `link`, `rename`, `openFile` — the calls.
* `placeIn`, `fileIn`, `otherName` — a path that is a place, or a file, in a directory, and
  a file elsewhere that has a second name in it.

## Main results

* `files_rename`, `files_unlink` and the like — which calls leave the regular files of a
  directory as they are.
* `jaildir_refuses` — a place in a directory is refused to an identity without the
  permission.
-/

namespace TFProtocol

open Bytes CStr

theorem DirName.ext {a b : DirName} (h : a.val = b.val) : a = b := by
  cases a
  cases b
  cases h
  rfl

instance : DecidableEq DirName := fun a b =>
  decidable_of_iff (a.val = b.val) ⟨DirName.ext, fun h => h ▸ rfl⟩

/-- The name that a component is, if it is one. -/
def dirName? (c : List Byte) : Option DirName :=
  if h : c ≠ [] ∧ c.contains slash = false ∧ c ≠ [dot] ∧ c ≠ dotdot then
    some ⟨c, h.1, by simpa using h.2.1, h.2.2.1, h.2.2.2⟩
  else none

/-- A tree of directories and regular files. -/
abbrev FileTree := Inodes.Tree DirName (List Byte)

/-! ### Paths -/

/-- What a component of a path means. -/
def compStep (c : List Byte) : Inodes.Step DirName :=
  match dirName? c with
  | some n => .name n
  | none => if c = dotdot then .up else .stay

def compSteps (p : List Byte) : List (Inodes.Step DirName) := (p.splitOn slash).map compStep

/-- The directory a path leads to. -/
def dirAt (t : FileTree) (p : List Byte) : Option ℕ := t.walk 0 (compSteps p)

/-- The path ends in a separator. -/
def trailing (p : List Byte) : Bool := p.getLast? = some slash

/-- A path without separators at its end. -/
def stripSlashes (p : List Byte) : List Byte := (p.reverse.dropWhile (· = slash)).reverse

/-- A path cut at its last separator. -/
def lastSlash (p : List Byte) : Option (List Byte × List Byte) :=
  match p.reverse.dropWhile (· ≠ slash) with
  | [] => none
  | _ :: a => some (a.reverse, (p.reverse.takeWhile (· ≠ slash)).reverse)

/-- The directory and the name in it that a path stands for, whether something is there or
not. -/
def slot (t : FileTree) (p : List Byte) : Option (ℕ × DirName) :=
  match lastSlash (stripSlashes p) with
  | none => none
  | some (a, c) => (dirName? c).bind fun n => (dirAt t a).map fun e => (e, n)

/-- The same for a path that can be that of a regular file. -/
def fileSlot (t : FileTree) (p : List Byte) : Option (ℕ × DirName) :=
  if trailing p then none else slot t p

/-- The inode a path leads to. -/
def node (t : FileTree) (p : List Byte) : Option ℕ :=
  match dirAt t p with
  | some e => some e
  | none => (fileSlot t p).bind fun x => t.entry x.1 x.2

/-- What the file system answers. -/
def treeFs (t : FileTree) : Fs where
  isDir p := (dirAt t p).isSome
  access p := (node t p).isSome
  read p := (node t p).bind t.data

/-- `stat` reports a regular file. -/
def isReg (t : FileTree) (p : List Byte) : Bool := ((node t p).bind t.data).isSome

/-! ### System calls -/

section

variable (deny : List Byte → Bool) (t : FileTree)

def mkdir (p : List Byte) : FileTree × Bool :=
  match slot t p with
  | none => (t, false)
  | some (e, n) =>
    if deny p ∨ (t.entry e n).isSome then (t, false)
    else ((t.alloc none e).insert e n t.next, true)

def rmdir (p : List Byte) : FileTree :=
  match slot t p with
  | none => t
  | some (e, n) =>
    match t.entry e n with
    | none => t
    | some i => if !deny p && t.isDir i && (t.dir i).isEmpty then t.remove e n else t

def unlink (p : List Byte) : FileTree :=
  match fileSlot t p with
  | none => t
  | some (e, n) =>
    match t.entry e n with
    | none => t
    | some i => if !deny p && !t.isDir i then t.remove e n else t

def link (src dst : List Byte) : FileTree × Bool :=
  match node t src, fileSlot t dst with
  | some i, some (e, n) =>
    if deny dst ∨ t.isDir i ∨ (t.entry e n).isSome then (t, false) else (t.insert e n i, true)
  | _, _ => (t, false)

/-- Whether `rename` can put inode `i` in the place of what is there: a file replaces a file,
a directory an empty directory. -/
def replaces (i : ℕ) : Option ℕ → Bool
  | none => true
  | some j => if t.isDir i then t.isDir j && (t.dir j).isEmpty else !t.isDir j

def rename (src dst : List Byte) : FileTree × Bool :=
  match slot t src, slot t dst with
  | some (e, n), some (f, m) =>
    match t.entry e n with
    | none => (t, false)
    | some i =>
      if t.entry f m = some i then (t, true)
      else if deny src ∨ deny dst ∨ !replaces t i (t.entry f m) then (t, false)
      else if t.isDir i then
        -- not into itself
        if i ∈ t.above t.next f then (t, false)
        else (((t.remove e n).insert f m i).setParent i f, true)
      else if trailing src ∨ trailing dst then (t, false)
      else ((t.remove e n).insert f m i, true)
  | _, _ => (t, false)

/-- `open` for writing, with `O_CREAT` and `O_EXCL` or not: the tree and the file. -/
def openFile (creat excl : Bool) (p : List Byte) : Option (FileTree × ℕ) :=
  match fileSlot t p with
  | none => none
  | some (e, n) =>
    if deny p then none
    else
      match t.entry e n with
      | some i => if t.isDir i ∨ excl then none else some (t, i)
      | none => if creat then some ((t.alloc (some []) e).insert e n t.next, t.next) else none

end

/-! ### Places in a directory -/

/-- The path is the place of a regular file in the directory, whether there is one or not. -/
def placeIn (t : FileTree) (d : ℕ) (p : List Byte) : Bool :=
  match dirAt t p, fileSlot t p with
  | none, some (e, _) => e = d
  | _, _ => false

/-- The path is that of a regular file in the directory. -/
def fileIn (t : FileTree) (d : ℕ) (p : List Byte) : Bool :=
  match fileSlot t p with
  | some (e, n) => e = d && (t.files d n).isSome
  | none => false

/-- The path is a free place in the directory. -/
def newIn (t : FileTree) (d : ℕ) (p : List Byte) : Bool :=
  match fileSlot t p with
  | some (e, n) => e = d && (t.entry d n).isNone
  | none => false

/-- The path is that of a file outside the directory that has a second name in it. -/
def otherName (t : FileTree) (d : ℕ) (p : List Byte) : Bool :=
  match fileSlot t p with
  | some (e, n) =>
    match t.entry e n with
    | some i => e ≠ d && (t.dir d).any fun x => t.entry d x.1 = some i
    | none => false
  | none => false

variable {t : FileTree} {p : List Byte} {d e : ℕ} {n : DirName}

/-! ### Resolution -/

theorem dirAt_append (a b : List Byte) :
    dirAt t (a ++ slash :: b) = (dirAt t a).bind fun e => t.walk e (compSteps b) := by
  unfold dirAt compSteps
  rw [List.splitOn_append_cons_self, List.map_append, Inodes.walk_append]

theorem dirName?_val (n : DirName) : dirName? n.val = some n :=
  dif_pos ⟨n.nonempty, by simpa using n.single, n.not_dot, n.not_dotdot⟩

theorem val_of_dirName? {c : List Byte} (h : dirName? c = some n) : n.val = c := by
  unfold dirName? at h
  split at h
  · obtain rfl := Option.some.inj h
    rfl
  · cases h

theorem eq_of_lastSlash {a c : List Byte} (h : lastSlash p = some (a, c)) :
    p = a ++ slash :: c := by
  unfold lastSlash at h
  have hsplit := List.takeWhile_append_dropWhile (p := (· ≠ slash)) (l := p.reverse)
  split at h
  · cases h
  · next b a' hdrop =>
    obtain ⟨rfl, rfl⟩ : a'.reverse = a ∧ (p.reverse.takeWhile (· ≠ slash)).reverse = c := by
      simpa using h
    have hb : b = slash := by
      have := List.head?_dropWhile_not (· ≠ slash) p.reverse
      rw [hdrop] at this
      simpa using this
    rw [hdrop, hb] at hsplit
    calc p = p.reverse.reverse := p.reverse_reverse.symm
      _ = (p.reverse.takeWhile (· ≠ slash) ++ slash :: a').reverse := by rw [hsplit]
      _ = _ := by rw [List.reverse_append, List.reverse_cons, List.append_assoc]; rfl

theorem stripSlashes_of_not_trailing (h : trailing p = false) : stripSlashes p = p := by
  unfold stripSlashes
  cases hp : p.reverse with
  | nil => rw [← hp]; simp_all
  | cons b q =>
    have hlast : p.getLast? = some b := by
      rw [← List.head?_reverse, hp]
      rfl
    have hb : b ≠ slash := by
      rintro rfl
      simp [trailing, hlast] at h
    rw [List.dropWhile_cons_of_neg (by simpa using hb), ← hp, List.reverse_reverse]

theorem dirAt_lt (h : dirAt t p = some e) : e < t.next := (Inodes.walk_lt t.root_lt t.root_dir h).1

/-- A separator at the end changes nothing for a directory. -/
theorem dirAt_concat_slash (p : List Byte) : dirAt t (p ++ [slash]) = dirAt t p := by
  rw [dirAt_append]
  show (dirAt t p).bind some = dirAt t p
  exact Option.bind_fun_some _

theorem dirAt_stripSlashes (p : List Byte) : dirAt t (stripSlashes p) = dirAt t p := by
  induction p using List.reverseRecOn with
  | nil => rfl
  | append_singleton q b ih =>
    by_cases hb : b = slash
    · subst hb
      rw [dirAt_concat_slash, ← ih]
      unfold stripSlashes
      rw [List.reverse_append, List.reverse_singleton, List.singleton_append,
        List.dropWhile_cons_of_pos (by simp)]
    · rw [stripSlashes_of_not_trailing]
      simpa [trailing] using hb

/-- The string of a place of any kind, without the separators at its end. -/
theorem slot_eq_some (h : slot t p = some (e, n)) :
    ∃ a, stripSlashes p = a ++ slash :: n.val ∧ dirAt t a = some e := by
  unfold slot at h
  split at h
  · cases h
  · next a c hlast =>
    obtain ⟨n', hn, h⟩ := Option.bind_eq_some_iff.mp h
    obtain ⟨e', he, heq⟩ := Option.map_eq_some_iff.mp h
    obtain ⟨rfl, rfl⟩ : e' = e ∧ n' = n := by simpa using heq
    exact ⟨a, by rw [val_of_dirName? hn]; exact eq_of_lastSlash hlast, he⟩

/-- The string of a place: a path to the directory, a separator and the name. -/
theorem fileSlot_eq_some (h : fileSlot t p = some (e, n)) :
    ∃ a, p = a ++ slash :: n.val ∧ dirAt t a = some e := by
  unfold fileSlot at h
  split at h
  · cases h
  · next htr =>
    obtain ⟨a, ha, he⟩ := slot_eq_some h
    rw [stripSlashes_of_not_trailing (by simpa using htr)] at ha
    exact ⟨a, ha, he⟩

/-- A name is one component. -/
theorem compSteps_name (n : DirName) : compSteps n.val = [.name n] := by
  unfold compSteps
  rw [List.splitOn_eq_singleton n.single]
  simp [compStep, dirName?_val]

theorem dirAt_concat_name {a : List Byte} (ha : dirAt t a = some e) (n : DirName) :
    dirAt t (a ++ slash :: n.val) = (t.entry e n).filter t.isDir := by
  rw [dirAt_append, ha, compSteps_name]
  show ((t.entry e n).filter t.isDir).bind some = _
  exact Option.bind_fun_some _

/-- A place is a directory if the name in it is. -/
theorem dirAt_of_fileSlot (h : fileSlot t p = some (e, n)) :
    dirAt t p = (t.entry e n).filter t.isDir := by
  obtain ⟨a, rfl, ha⟩ := fileSlot_eq_some h
  exact dirAt_concat_name ha n

/-- A place without a directory in it is a place for a regular file. -/
theorem placeIn_of_fileSlot (h : fileSlot t p = some (d, n))
    (hno : ∀ i, t.entry d n = some i → t.data i ≠ none) : placeIn t d p = true := by
  have hdir : dirAt t p = none := by
    rw [dirAt_of_fileSlot h, Option.filter_eq_none_iff]
    intro i hi
    have := hno i hi
    simpa [Inodes.Tree.isDir] using this
  unfold placeIn
  rw [hdir, h]
  simp

theorem placeIn_iff :
    placeIn t d p = true ↔ ∃ n, dirAt t p = none ∧ fileSlot t p = some (d, n) := by
  unfold placeIn
  split
  · next e n hdir hslot => simp [hdir, hslot]
  · next hno =>
    refine ⟨nofun, ?_⟩
    rintro ⟨n, hdir, hslot⟩
    exact absurd hslot (hno d n hdir)

/-- A path that is no place in the directory leads elsewhere. -/
theorem ne_of_placeIn (h : placeIn t d p = false) (hslot : fileSlot t p = some (e, n))
    (hno : ∀ i, t.entry e n = some i → t.data i ≠ none) : e ≠ d := by
  rintro rfl
  rw [placeIn_of_fileSlot hslot hno] at h
  cases h

theorem fileSlot_lt (h : fileSlot t p = some (e, n)) : e < t.next := by
  obtain ⟨a, -, ha⟩ := fileSlot_eq_some h
  exact dirAt_lt ha

theorem fileIn_eq_false (h : fileIn t d p = false) (hslot : fileSlot t p = some (e, n)) :
    e = d → t.files d n = none := by
  intro he
  unfold fileIn at h
  rw [hslot] at h
  simpa [he] using h

theorem newIn_eq_false (h : newIn t d p = false) (hslot : fileSlot t p = some (d, n)) :
    t.entry d n ≠ none := by
  intro hnone
  unfold newIn at h
  rw [hslot] at h
  simp [hnone] at h

/-! ### One tree in another -/

variable {t' : FileTree}

theorem dirAt_of_dirsIn (h : Inodes.DirsIn t' t) (hp : dirAt t' p = some e) : dirAt t p = some e :=
  h.walk t'.root_lt t'.root_dir hp

theorem slot_of_dirsIn (h : Inodes.DirsIn t' t) (hp : slot t' p = some (e, n)) :
    slot t p = some (e, n) := by
  unfold slot at hp ⊢
  split at hp
  · cases hp
  · next a c hlast =>
    obtain ⟨n', hn, hp⟩ := Option.bind_eq_some_iff.mp hp
    obtain ⟨e', he, heq⟩ := Option.map_eq_some_iff.mp hp
    obtain ⟨rfl, rfl⟩ : e' = e ∧ n' = n := by simpa using heq
    rw [hn, dirAt_of_dirsIn h he]
    rfl

theorem fileSlot_of_dirsIn (h : Inodes.DirsIn t' t) (hp : fileSlot t' p = some (e, n)) :
    fileSlot t p = some (e, n) := by
  unfold fileSlot at hp ⊢
  split at hp
  · cases hp
  · next htr =>
    rw [if_neg htr]
    exact slot_of_dirsIn h hp

theorem fileIn_iff :
    fileIn t d p = true ↔ ∃ n, fileSlot t p = some (d, n) ∧ t.files d n ≠ none := by
  unfold fileIn
  cases hslot : fileSlot t p with
  | none => simp
  | some x =>
    obtain ⟨e, n⟩ := x
    constructor
    · intro h
      obtain ⟨rfl, hn⟩ : e = d ∧ (t.files d n).isSome = true := by simpa using h
      exact ⟨n, rfl, Option.isSome_iff_ne_none.mp hn⟩
    · rintro ⟨m, hm, hn⟩
      obtain ⟨rfl, rfl⟩ : e = d ∧ n = m := by simpa using hm
      simpa [Option.isSome_iff_ne_none] using hn

/-- The path of a regular file is not that of a directory. -/
theorem isDir_of_fileIn (h : fileIn t d p = true) : (treeFs t).isDir p = false := by
  obtain ⟨n, hslot, hn⟩ := fileIn_iff.mp h
  show (dirAt t p).isSome = false
  rw [dirAt_of_fileSlot hslot, Option.isSome_eq_false_iff, Option.isNone_iff_eq_none,
    Option.filter_eq_none_iff]
  intro i hi hdir
  refine hn ?_
  show (t.entry d n).bind t.data = none
  rw [hi]
  exact Option.isNone_iff_eq_none.mp hdir

/-- A directory is there. -/
theorem ite_access_isDir (t : FileTree) (p : List Byte) :
    (if (treeFs t).access p = true then (treeFs t).isDir p else false) = (treeFs t).isDir p := by
  split
  · rfl
  · next hacc =>
    cases hdir : dirAt t p with
    | none => simp [treeFs, hdir]
    | some e => exact absurd (by simp [treeFs, node, hdir]) hacc

theorem fileIn_mono (h : Inodes.DirsIn t' t)
    (hfiles : ∀ n, t'.files d n ≠ none → t.files d n ≠ none) (hp : fileIn t d p = false) :
    fileIn t' d p = false := by
  by_contra hne
  obtain ⟨n, hslot, hn⟩ := fileIn_iff.mp (by simpa using hne)
  rw [fileIn_iff.mpr ⟨n, fileSlot_of_dirsIn h hslot, hfiles n hn⟩] at hp
  cases hp

/-- A file in a directory is a place in it. -/
theorem fileIn_of_placeIn (h : placeIn t d p = false) : fileIn t d p = false := by
  by_contra hne
  obtain ⟨n, hslot, hn⟩ := fileIn_iff.mp (by simpa using hne)
  rw [placeIn_of_fileSlot hslot fun i hi hdata => hn (by simp [Inodes.Tree.files, hi, hdata])] at h
  cases h

/-! ### What the calls can do -/

section

variable {deny : List Byte → Bool}

theorem mkdir_cases (deny : List Byte → Bool) (t : FileTree) (p : List Byte) :
    mkdir deny t p = (t, false) ∨
    ∃ e n, t.entry e n = none ∧ mkdir deny t p = ((t.alloc none e).insert e n t.next, true) ∧
      slot t p = some (e, n) := by
  unfold mkdir
  split
  · exact .inl rfl
  · next e n hslot =>
    split
    · exact .inl rfl
    · next hok =>
      obtain ⟨-, hnone⟩ : ¬ deny p = true ∧ t.entry e n = none := by simpa using hok
      exact .inr ⟨e, n, hnone, rfl, hslot⟩

theorem rmdir_cases (deny : List Byte → Bool) (t : FileTree) (p : List Byte) :
    rmdir deny t p = t ∨
    ∃ e n i, t.entry e n = some i ∧ t.data i = none ∧ rmdir deny t p = t.remove e n := by
  unfold rmdir
  split
  · exact .inl rfl
  · next e n hslot =>
    split
    · exact .inl rfl
    · next i hi =>
      split
      · next hok =>
        simp only [Bool.and_eq_true] at hok
        exact .inr ⟨e, n, i, hi, Option.isNone_iff_eq_none.mp hok.1.2, rfl⟩
      · exact .inl rfl

theorem unlink_cases (deny : List Byte → Bool) (t : FileTree) (p : List Byte) :
    unlink deny t p = t ∨
    ∃ e n i, fileSlot t p = some (e, n) ∧ t.entry e n = some i ∧ t.data i ≠ none ∧
      unlink deny t p = t.remove e n := by
  unfold unlink
  split
  · exact .inl rfl
  · next e n hslot =>
    split
    · exact .inl rfl
    · next i hi =>
      split
      · next hok =>
        simp only [Bool.and_eq_true] at hok
        exact .inr ⟨e, n, i, hslot, hi,
          by simpa [Inodes.Tree.isDir, Option.isSome_iff_ne_none] using hok.2, rfl⟩
      · exact .inl rfl

theorem link_cases (deny : List Byte → Bool) (t : FileTree) (src dst : List Byte) :
    link deny t src dst = (t, false) ∨
    ∃ i e n, fileSlot t dst = some (e, n) ∧ t.data i ≠ none ∧ t.entry e n = none ∧
      link deny t src dst = (t.insert e n i, true) := by
  unfold link
  split
  · next i e n hsrc hdst =>
    split
    · exact .inl rfl
    · next hok =>
      simp only [not_or, Option.not_isSome_iff_eq_none] at hok
      exact .inr ⟨i, e, n, hdst, by simpa [Inodes.Tree.isDir] using hok.2.1, hok.2.2, rfl⟩
  · exact .inl rfl

theorem openFile_cases {creat excl : Bool} {i : ℕ}
    (h : openFile deny t creat excl p = some (t', i)) :
    ∃ e n, fileSlot t p = some (e, n) ∧
      (t' = t ∧ t.entry e n = some i ∧ t.data i ≠ none ∨
        t.entry e n = none ∧ i = t.next ∧ t' = (t.alloc (some []) e).insert e n t.next) := by
  unfold openFile at h
  split at h
  · cases h
  · next e n hslot =>
    split at h
    · cases h
    · split at h
      · next j hj =>
        split at h
        · cases h
        · next hok =>
          obtain ⟨rfl, rfl⟩ : t = t' ∧ j = i := by simpa using h
          simp only [not_or] at hok
          exact ⟨e, n, hslot, .inl ⟨rfl, hj, by simpa [Inodes.Tree.isDir] using hok.1⟩⟩
      · next hnone =>
        split at h
        · obtain ⟨rfl, rfl⟩ : (t.alloc (some []) e).insert e n t.next = t' ∧ t.next = i := by
            simpa using h
          exact ⟨e, n, hslot, .inr ⟨hnone, rfl, rfl⟩⟩
        · cases h

/-- A directory is moved to a place without a regular file, or a regular file to a place
without a directory. -/
theorem rename_cases (deny : List Byte → Bool) (t : FileTree) (src dst : List Byte) :
    (rename deny t src dst).1 = t ∨
    (∃ e n f m i, t.entry e n = some i ∧ t.data i = none ∧ t.files f m = none ∧
      (rename deny t src dst).1 = ((t.remove e n).insert f m i).setParent i f ∧
      slot t src = some (e, n)) ∨
    ∃ e n f m i, fileSlot t src = some (e, n) ∧ fileSlot t dst = some (f, m) ∧
      t.entry e n = some i ∧ t.data i ≠ none ∧ (∀ j, t.entry f m = some j → t.data j ≠ none) ∧
      (rename deny t src dst).1 = (t.remove e n).insert f m i := by
  unfold rename
  split
  · next e n f m hs hd =>
    split
    · exact .inl rfl
    · next i hi =>
      split
      · exact .inl rfl
      · split
        · exact .inl rfl
        · next hok =>
          have hrep : replaces t i (t.entry f m) = true := by
            simp only [not_or] at hok
            simpa using hok.2.2
          split
          · next hdir =>
            split
            · exact .inl rfl
            · refine .inr (.inl ⟨e, n, f, m, i, hi, Option.isNone_iff_eq_none.mp hdir, ?_, rfl, hs⟩)
              cases hj : t.entry f m with
              | none => simp [Inodes.Tree.files, hj]
              | some j =>
                rw [hj] at hrep
                simp only [replaces, hdir, if_true, Bool.and_eq_true] at hrep
                have := Option.isNone_iff_eq_none.mp hrep.1
                simp [Inodes.Tree.files, hj, this]
          · next hfile =>
            split
            · exact .inl rfl
            · next htr =>
              obtain ⟨htrs, htrd⟩ : trailing src = false ∧ trailing dst = false := by
                simpa using htr
              refine .inr (.inr ⟨e, n, f, m, i, ?_, ?_, hi, ?_, fun j hj => ?_, rfl⟩)
              · rw [fileSlot, htrs]
                exact hs
              · rw [fileSlot, htrd]
                exact hd
              · simpa [Inodes.Tree.isDir] using hfile
              · rw [hj] at hrep
                simp only [replaces, hfile] at hrep
                simpa [Inodes.Tree.isDir, Option.isSome_iff_ne_none] using hrep
  · exact .inl rfl

/-! ### What the calls leave as it is -/

theorem files_mkdir (d : ℕ) (p : List Byte) : (mkdir deny t p).1.files d = t.files d := by
  rcases mkdir_cases deny t p with h | ⟨e, n, hnone, h, -⟩
  · rw [h]
  · rw [h, Inodes.files_insert, Inodes.files_alloc]
    rintro rfl
    rw [Inodes.files_alloc]
    refine ⟨?_, Function.update_self ..⟩
    simp [Inodes.Tree.files, hnone]

theorem files_rmdir (d : ℕ) (p : List Byte) : (rmdir deny t p).files d = t.files d := by
  rcases rmdir_cases deny t p with h | ⟨e, n, i, hi, hdata, h⟩
  · rw [h]
  · rw [h, Inodes.files_remove]
    rintro rfl
    simp [Inodes.Tree.files, hi, hdata]

theorem files_unlink (h : fileIn t d p = false) : (unlink deny t p).files d = t.files d := by
  rcases unlink_cases deny t p with heq | ⟨e, n, i, hslot, -, -, heq⟩
  · rw [heq]
  · rw [heq, Inodes.files_remove (fileIn_eq_false h hslot)]

theorem files_link {src dst : List Byte} (h : placeIn t d dst = false) :
    (link deny t src dst).1.files d = t.files d := by
  rcases link_cases deny t src dst with heq | ⟨i, e, n, hdst, -, hnone, heq⟩
  · rw [heq]
  · have hed : e ≠ d := ne_of_placeIn h hdst (by rw [hnone]; nofun)
    rw [heq, Inodes.files_insert fun he => absurd he hed]

/-- The second name is one of the entries. -/
theorem otherName_iff : otherName t d p = true ↔ ∃ e n i m, fileSlot t p = some (e, n) ∧
    t.entry e n = some i ∧ e ≠ d ∧ t.entry d m = some i := by
  unfold otherName
  cases hslot : fileSlot t p with
  | none => simp
  | some x =>
    obtain ⟨e, n⟩ := x
    cases hi : t.entry e n with
    | none => simp [hi]
    | some i =>
      simp only [hi, Bool.and_eq_true, decide_eq_true_eq, List.any_eq_true]
      constructor
      · rintro ⟨hne, x, -, hx⟩
        exact ⟨e, n, i, x.1, rfl, hi, hne, hx⟩
      · rintro ⟨e', n', i', m, heq, hi', hne, hm⟩
        obtain ⟨rfl, rfl⟩ : e = e' ∧ n = n' := by simpa using heq
        obtain rfl : i = i' := by simpa [hi] using hi'
        exact ⟨hne, (m, i), Inodes.mem_dir_of_entry hm, hm⟩

/-- Where nothing is, nothing has a second name. -/
theorem otherName_of_access (h : (treeFs t).access p = false) : otherName t d p = false := by
  by_contra hne
  obtain ⟨e, n, i, m, hslot, hi, -, -⟩ := otherName_iff.mp (by simpa using hne)
  have hnode : node t p ≠ none := by
    unfold node
    rw [hslot]
    split
    · nofun
    · show t.entry e n ≠ none
      rw [hi]
      nofun
  exact hnode (by simpa [treeFs] using h)

/-- A directory that is moved takes no file with it. -/
theorem files_rename {src dst : List Byte} (hsrc : fileIn t d src = false)
    (hdst : dirAt t src = none → placeIn t d dst = false) :
    (rename deny t src dst).1.files d = t.files d := by
  rcases rename_cases deny t src dst with h |
    ⟨e, n, f, m, i, hi, hdir, hfiles, h, -⟩ | ⟨e, n, f, m, i, hs, hd, hi, hdata, hj, h⟩
  · rw [h]
  · have hrem : (t.remove e n).files d = t.files d := by
      refine Inodes.files_remove ?_
      rintro rfl
      simp [Inodes.Tree.files, hi, hdir]
    rw [h, Inodes.files_setParent, Inodes.files_insert, hrem]
    rintro rfl
    rw [hrem]
    exact ⟨hfiles, hdir⟩
  · have hfile : dirAt t src = none := by
      rw [dirAt_of_fileSlot hs, hi, Option.filter_eq_none_iff]
      rintro j ⟨⟩
      simpa [Inodes.Tree.isDir] using hdata
    have hfd : f ≠ d := ne_of_placeIn (hdst hfile) hd hj
    rw [h, Inodes.files_insert fun hf => absurd hf hfd,
      Inodes.files_remove (fileIn_eq_false hsrc hs)]

end

/-! ### Permissions -/

/-- The name of the metadata the readers open. -/
def metaRd : DirName := ⟨fsmeta ++ fsmetardExt, by decide, by decide, by decide, by decide⟩

/-- The permission `secfs_proc` takes for an identity. -/
def effPerm (file id : List Byte) : BitVec 32 :=
  let perm := permOf id (lines newline lineMax file)
  if perm = 0 then permOf fsotherusr (lines newline lineMax file) else perm

theorem lastSlash_append (a : List Byte) (n : DirName) :
    lastSlash (a ++ slash :: n.val) = some (a, n.val) := by
  have hall : ∀ b ∈ n.val.reverse, (decide (b ≠ slash)) = true := by
    intro b hb
    have : b ≠ slash := fun h => n.single (h ▸ List.mem_reverse.mp hb)
    simpa using this
  unfold lastSlash
  rw [List.reverse_append, List.reverse_cons, List.append_assoc, List.singleton_append,
    List.dropWhile_append_of_pos hall, List.takeWhile_append_of_pos hall]
  simp

/-- A name as some bytes and a last one, none of which is a separator. -/
theorem DirName.exists_concat (n : DirName) : ∃ m b, n.val = m ++ [b] ∧ slash ∉ m ∧ b ≠ slash := by
  obtain ⟨m, b, hn⟩ := (List.eq_nil_or_concat' n.val).resolve_left n.nonempty
  have hsl := n.single
  rw [hn] at hsl
  refine ⟨m, b, hn, fun h => hsl (List.mem_append_left _ h), ?_⟩
  rintro rfl
  exact hsl (by simp)

theorem trailing_append (a : List Byte) (n : DirName) : trailing (a ++ slash :: n.val) = false := by
  obtain ⟨m, b, hn, -, hb⟩ := n.exists_concat
  have hlast : (a ++ slash :: (m ++ [b])).getLast? = some b := by
    rw [← List.cons_append, ← List.append_assoc, List.getLast?_concat]
  rw [hn]
  simpa [trailing, hlast] using hb

theorem fileSlot_append {a : List Byte} (ha : dirAt t a = some e) (n : DirName) :
    fileSlot t (a ++ slash :: n.val) = some (e, n) := by
  have htr := trailing_append a n
  unfold fileSlot slot
  rw [htr, stripSlashes_of_not_trailing htr, lastSlash_append]
  simp [dirName?_val, ha]

theorem rmtrdir_append (a : List Byte) (n : DirName) : rmtrdir (a ++ slash :: n.val) = a := by
  obtain ⟨m, b, hn, hm, -⟩ := n.exists_concat
  have hall : ∀ c ∈ m.reverse, (decide (c ≠ slash)) = true := by
    intro c hc
    have : c ≠ slash := by
      rintro rfl
      exact hm (List.mem_reverse.mp hc)
    simpa using this
  have hdrop : (a ++ slash :: (m ++ [b])).dropLast = a ++ slash :: m := by
    rw [← List.cons_append, ← List.append_assoc, List.dropLast_concat]
  rw [hn]
  unfold rmtrdir
  rw [if_neg (by simp; omega), hdrop, List.reverse_append, List.reverse_cons, List.append_assoc,
    List.singleton_append, List.dropWhile_append_of_pos hall]
  simp

/-- A regular file of a directory, by any path to it. -/
theorem read_append {a c : List Byte} {n : DirName} (ha : dirAt t a = some d)
    (hc : t.files d n = some c) :
    (treeFs t).access (a ++ slash :: n.val) = true ∧
      (treeFs t).read (a ++ slash :: n.val) = some c := by
  have hslot : fileSlot t (a ++ slash :: n.val) = some (d, n) := fileSlot_append ha n
  obtain ⟨i, hi, hdata⟩ := Option.bind_eq_some_iff.mp hc
  have hdir : dirAt t (a ++ slash :: n.val) = none := by
    rw [dirAt_of_fileSlot hslot, hi]
    simp [Inodes.Tree.isDir, hdata]
  have hnode : node t (a ++ slash :: n.val) = some i := by
    unfold node
    rw [hdir, hslot]
    exact hi
  show (node t _).isSome = true ∧ (node t _).bind t.data = some c
  rw [hnode]
  exact ⟨rfl, hdata⟩

/-- **A place in a directory is governed by its metadata.** -/
theorem secfsProc_placeIn {j : Jail} {file : List Byte} (hplace : placeIn t d p = true)
    (hfile : t.files d metaRd = some file) (hovrr : j.fsopOvrr = 0)
    (hok : (secfsProc (treeFs t) j p).1 = true) : effPerm file j.fsid &&& j.fsop = j.fsop := by
  unfold placeIn at hplace
  split at hplace
  · next e n hdir hslot =>
    obtain rfl : e = d := by simpa using hplace
    obtain ⟨a, rfl, ha⟩ := fileSlot_eq_some hslot
    have hmeta : metaOf (treeFs t) (a ++ slash :: n.val) = a ++ slash :: metaRd.val := by
      unfold metaOf
      rw [if_neg, rmtrdir_append]
      · simp [metaRd]
      · show ¬ (dirAt t (a ++ slash :: n.val)).isSome = true
        rw [hdir]
        nofun
    obtain ⟨hacc, hread⟩ := read_append ha hfile
    simp only [secfsProc, hovrr, hmeta, hacc, getfsidperm, hread] at hok
    split at hok
    · cases hok
    · simp only [ne_eq, not_true_eq_false, if_false, Bool.not_true, Bool.false_eq_true] at hok
      split at hok
      · cases hok
      · simpa [effPerm] using hok
  · cases hplace

/-- **A place in a directory is refused** to an identity without the permission. -/
theorem jaildir_refuses {j : Jail} {src beyond file : List Byte}
    (hplace : placeIn t d (jailed j.dbdir src beyond) = true)
    (hfile : t.files d metaRd = some file) (hovrr : j.fsopOvrr = 0)
    (hlack : effPerm file j.fsid &&& j.fsop ≠ j.fsop) :
    (jaildir (treeFs t) j src beyond).ok = false := by
  by_contra hok
  have hok : (jaildir (treeFs t) j src beyond).ok = true := by simpa using hok
  simp only [jaildir] at hok
  split at hok
  · cases hok
  · split at hok
    · next hsec => exact hlack (secfsProc_placeIn hplace hfile hovrr hsec)
    · cases hok

end TFProtocol
