import TFProtocol.Lib.FirstMatch
import TFProtocol.Roots
import TFProtocol.Login

/-!
# Permissions of the Secure FileSystem

The permissions of a directory are the lines `identity:permission` of its metadata
file.  `SETFSPERM` appends a line, `REMFSPERM` copies all lines but those of one
identity, and the readers (`GETFSPERM`, and `secfs_proc` at every access) take the
first line of an identity.  What the commands are for is a map from identities to
permissions, in which the latest `SETFSPERM` counts.

Both commands work on `.securefs_metadata` and then replace the copy `.rd` that the
readers open.

## Main definitions

* `cmdSetfsperm`, `cmdRemfsperm`, `cmdGetfsperm` — the handlers.
* `PermStep`, `permRun` — sequences of successful commands on one directory.
* `PermStep.op` — what a command does to the map.
* `AsMap` — the readers answer as a map of permissions says.

## Main results

* `securefs_refines_map` — the sequences after which, all along, the readers answer as
  the map says.
-/

namespace TFProtocol

open Bytes CStr

/-! ### The handlers -/

/-- A file is replaced by one with the content given. -/
def Fs.write (fs : Fs) (path content : List Byte) : Fs :=
  { fs with
    access := Function.update fs.access path true
    read := Function.update fs.read path (some content) }

/-- Which operations on the files of the metadata succeed. -/
structure MetaIo where
  /-- `open` of the metadata with `O_CREAT`. -/
  openMeta : Bool
  /-- Making the swap file: `cpfile` and `fopen`. -/
  openSwap : Bool
  /-- Every `fputs`. -/
  put : Bool
  /-- `rename` of the swap file to the metadata. -/
  renameMeta : Bool
  /-- `cpfile` and `rename` to the copy for the readers. -/
  renameRd : Bool
  deriving DecidableEq, Repr, Inhabited

/-- The reply of a command, the globals and the files it leaves. -/
structure MetaRes where
  reply : List Byte
  jail : Jail
  fs : Fs

/-- The metadata file of a directory. -/
def metaFile (dir : List Byte) : List Byte := dir ++ [slash] ++ fsmeta

/-- The copy the readers open. -/
def rdFile (dir : List Byte) : List Byte := metaFile dir ++ fsmetardExt

/-- The search of `cmd_setfsperm` for the identity of the process: whether it is found
with the permission to set permissions.  A line without a separator that is the
identity itself makes the code read through a null pointer; no answer follows. -/
def maySet (fsid : List Byte) : List (List Byte) → Bool
  | [] => false
  | line :: ls =>
    match strchr fspermTok (cstr line) with
    | some (name, perm) =>
      if name = fsid then BitVec.ofInt 32 (atoi perm) &&& Secfs.setperm.bit ≠ 0 else maySet fsid ls
    | none => if cstr line = fsid then false else maySet fsid ls

/-- `cmd_setfsperm`, on the text behind the command name. -/
def cmdSetfsperm (fs : Fs) (io : MetaIo) (j : Jail) (arg beyond : List Byte) : MetaRes :=
  let err := cmdFailText (lit "57 : Failed setting secure FS permission.")
  match strchr blank arg with
  | none => ⟨cmdFailText (lit "16 : Missing parameter from command."), j, fs⟩
  | some (tok, dir) =>
    if fspermTok ∉ tok then ⟨err, j, fs⟩
    else
      let c := jaildir fs { j with fsopOvrr := 1 } dir beyond
      if !c.ok then ⟨cmdFailText (lit "1 : Access denied to location."), c.jail, fs⟩
      else if !fs.isDir c.dst then ⟨err, c.jail, fs⟩
      else if !io.openMeta then ⟨err, c.jail, fs⟩
      else
        let path := metaFile c.dst
        -- `O_CREAT` leaves an empty file where there was none
        let file := (fs.read path).getD []
        let fs := fs.write path file
        if !io.openSwap then ⟨err, c.jail, fs⟩
        -- the first permission of a directory may be set by anyone
        else if file ≠ [] ∧ !maySet c.jail.fsid (lines newline lineMax file) then ⟨err, c.jail, fs⟩
        else if !io.put || !io.renameMeta then ⟨err, c.jail, fs⟩
        else
          let file := file ++ tok ++ [newline]
          let fs := fs.write path file
          if !io.renameRd then ⟨err, c.jail, fs⟩
          else ⟨cmdOkText, c.jail, fs.write (rdFile c.dst) file⟩

/-- The copying loop of `cmd_remfsperm`.  A line without a separator makes the code
write through a null pointer; no answer follows. -/
def remLines (tok : List Byte) : List (List Byte) → Option (List Byte)
  | [] => some []
  | line :: ls =>
    match strchr fspermTok (cstr line) with
    | some (name, _) =>
      if name = tok then remLines tok ls else (remLines tok ls).map (cstr line ++ ·)
    | none => none

/-- `cmd_remfsperm`, on the text behind the command name. -/
def cmdRemfsperm (fs : Fs) (io : MetaIo) (j : Jail) (arg beyond : List Byte) : MetaRes :=
  let err := cmdFailText (lit "58 : Failed removing secure FS permission.")
  match strchr blank arg with
  | none => ⟨cmdFailText (lit "16 : Missing parameter from command."), j, fs⟩
  | some (tok, dir) =>
    let c := jaildir fs { j with fsopOvrr := 1 } dir beyond
    if !c.ok then ⟨cmdFailText (lit "1 : Access denied to location."), c.jail, fs⟩
    else if !fs.isDir c.dst then ⟨err, c.jail, fs⟩
    else if getfsidperm fs (rdFile c.dst) c.jail.fsid &&& Secfs.remperm.bit = 0 then
      ⟨err, c.jail, fs⟩
    else
      match fs.read (metaFile c.dst) with
      | none => ⟨err, c.jail, fs⟩
      | some file =>
        if !io.openSwap then ⟨err, c.jail, fs⟩
        else
          match remLines tok (lines newline lineMax file) with
          | none => ⟨err, c.jail, fs⟩
          | some kept =>
            if !io.put || !io.renameMeta then ⟨err, c.jail, fs⟩
            else
              let fs := fs.write (metaFile c.dst) kept
              if !io.renameRd then ⟨err, c.jail, fs⟩
              else ⟨cmdOkText, c.jail, fs.write (rdFile c.dst) kept⟩

/-- The reply of `cmd_getfsperm` with a permission. -/
def permText (perm : ℕ) : List Byte := cmdOkText ++ [blank] ++ udec perm

/-- `cmd_getfsperm`, on the text behind the command name. -/
def cmdGetfsperm (fs : Fs) (j : Jail) (arg beyond : List Byte) : MetaRes :=
  match strchr blank arg with
  | none => ⟨cmdFailText (lit "16 : Missing parameter from command."), j, fs⟩
  | some (tok, dir) =>
    let c := jaildir fs { j with fsopOvrr := 1 } dir beyond
    if !c.ok then ⟨cmdFailText (lit "1 : Access denied to location."), c.jail, fs⟩
    else if !fs.isDir c.dst then
      ⟨cmdFailText (lit "59 : Failed getting secure FS permission identity."), c.jail, fs⟩
    else ⟨permText (getfsidperm fs (rdFile c.dst) tok).toNat, c.jail, fs⟩

/-! ### Sequences of commands -/

/-- One of the two commands that change permissions. -/
inductive PermCmd
  | set (id perm : List Byte)
  | rem (id : List Byte)
  deriving DecidableEq, Repr

/-- A command, the identity of the process that gives it, and how its file operations
go. -/
structure PermStep where
  cmd : PermCmd
  fsid : List Byte
  io : MetaIo
  deriving DecidableEq, Repr

/-- The result of a command on the directory `dir`. -/
def permStep (j : Jail) (dir beyond : List Byte) (fs : Fs) (st : PermStep) : MetaRes :=
  match st.cmd with
  | .set id perm =>
    cmdSetfsperm fs st.io { j with fsid := st.fsid } (id ++ fspermTok :: perm ++ blank :: dir) beyond
  | .rem id => cmdRemfsperm fs st.io { j with fsid := st.fsid } (id ++ blank :: dir) beyond

/-- The files after a sequence of commands on one directory, if all of them succeed. -/
def permRun (j : Jail) (dir beyond : List Byte) (fs : Fs) (steps : List PermStep) : Option Fs :=
  steps.foldlM (fun fs st =>
    if (permStep j dir beyond fs st).reply = cmdOkText then some (permStep j dir beyond fs st).fs
    else none) fs

/-- An identity: no separator, blank, newline or NUL. -/
structure IsId (id : List Byte) : Prop where
  no_tok : fspermTok ∉ id
  no_blank : blank ∉ id
  no_newline : newline ∉ id
  no_nul : 0 ∉ id

/-- A line of the metadata: an identity and a decimal permission below `2 ^ 31`, which
fit one call of `fgets`. -/
structure IsEntry (e : List Byte × List Byte) : Prop where
  isId : IsId e.1
  digits : ∀ d ∈ e.2, isDigit d = true
  ne_nil : e.2 ≠ []
  small : digitsVal e.2 < 2 ^ 31
  fits : e.1.length + e.2.length + 2 < lineMax

/-- A command with well-formed parameters. -/
def PermCmd.Valid : PermCmd → Prop
  | .set id perm => IsEntry (id, perm)
  | .rem id => IsId id

/-- What a command does to the map from identities to permissions. -/
def PermStep.op (st : PermStep) : FirstMatch.Op (List Byte) ℕ :=
  match st.cmd with
  | .set id perm => .put id (digitsVal perm)
  | .rem id => .del id

/-- The permission an access is decided by: the entry of the identity, and the entry
of everybody else only if there is none. -/
def effective (m : List Byte → Option ℕ) (fsid : List Byte) : ℕ :=
  match m fsid with
  | some perm => perm
  | none => (m fsotherusr).getD 0

/-- The readers answer as the map `m` says: `GETFSPERM` with the permission of an
identity, and `secfs_proc` on every path the directory governs with the decision of the
effective permission. -/
structure AsMap (j : Jail) (dir beyond : List Byte) (fs : Fs) (m : List Byte → Option ℕ) :
    Prop where
  getfsperm : ∀ id, IsId id →
    (cmdGetfsperm fs j (id ++ blank :: dir) beyond).reply = permText ((m id).getD 0)
  access : ∀ (fsid src : List Byte) (fsop : BitVec 32), fsop ≠ 0 → ¬ fsmeta <:+: src →
    metaOf fs src = rdFile (jailed j.dbdir dir beyond) →
    fs.access (rdFile (jailed j.dbdir dir beyond)) = true →
    (secfsProc fs ⟨j.dbdir, fsid, fsop, 0⟩ src).1 =
      decide (BitVec.ofNat 32 (effective m fsid) &&& fsop = fsop)

/-- No identity but everybody else has the permission `0`, unless everybody else has
none either. -/
def NoZero (m : List Byte → Option ℕ) : Prop :=
  ∀ id, m id = some 0 → (m fsotherusr).getD 0 = 0

/-! ### Lines -/

/-- The line of an entry, without its newline. -/
def entryLine (e : List Byte × List Byte) : List Byte := e.1 ++ fspermTok :: e.2

/-- The file that holds these entries. -/
def fileOf (es : List (List Byte × List Byte)) : List Byte := unlines newline (es.map entryLine)

/-- The entries with their permissions as numbers. -/
def vals (es : List (List Byte × List Byte)) : List (List Byte × ℕ) :=
  es.map fun e => (e.1, digitsVal e.2)

/-- No digit is one of the characters with a meaning. -/
theorem not_mem_of_isDigit {ds : List Byte} (h : ∀ d ∈ ds, isDigit d = true) {b : Byte}
    (hb : isDigit b = false) : b ∉ ds := by
  intro hmem
  rw [h b hmem] at hb
  cases hb

theorem IsEntry.newline_not_mem {e : List Byte × List Byte} (h : IsEntry e) :
    newline ∉ entryLine e := by
  rw [entryLine, List.mem_append, List.mem_cons]
  rintro (hm | hm | hm)
  · exact h.isId.no_newline hm
  · exact absurd hm (by decide)
  · exact not_mem_of_isDigit h.digits (by decide) hm

/-- A line as it is read, cut at the separator. -/
theorem IsEntry.strchr_line {e : List Byte × List Byte} (h : IsEntry e) :
    cstr (entryLine e ++ [newline]) = entryLine e ++ [newline] ∧
      strchr fspermTok (cstr (entryLine e ++ [newline])) = some (e.1, e.2 ++ [newline]) := by
  have hnul : 0 ∉ entryLine e ++ [newline] := by
    simp only [entryLine, List.mem_append, List.mem_cons, List.not_mem_nil, or_false]
    rintro ((hm | hm | hm) | hm)
    · exact h.isId.no_nul hm
    · exact absurd hm (by decide)
    · exact not_mem_of_isDigit h.digits (by decide) hm
    · exact absurd hm (by decide)
  have hcstr := cstr_eq_self hnul
  refine ⟨hcstr, ?_⟩
  rw [hcstr, entryLine, List.append_assoc, List.cons_append]
  exact strchr_append h.isId.no_tok _

/-- The file is read line by line. -/
theorem lines_fileOf {es : List (List Byte × List Byte)} (h : ∀ e ∈ es, IsEntry e) :
    lines newline lineMax (fileOf es) = es.map fun e => entryLine e ++ [newline] := by
  rw [fileOf, lines_unlines, List.map_map]
  · rfl
  · intro l hl
    obtain ⟨e, he, rfl⟩ := List.mem_map.mp hl
    refine ⟨(h e he).newline_not_mem, ?_⟩
    have hfits := (h e he).fits
    simp only [entryLine, List.length_append, List.length_cons]
    omega

/-- The readers take the first entry of an identity. -/
theorem permOf_entries (id : List Byte) : ∀ {es : List (List Byte × List Byte)},
    (∀ e ∈ es, IsEntry e) →
    permOf id (es.map fun e => entryLine e ++ [newline])
      = BitVec.ofNat 32 ((FirstMatch.get (vals es) id).getD 0) := by
  intro es
  induction es with
  | nil => intro _; rfl
  | cons e es ih =>
    intro h
    have he := h e List.mem_cons_self
    have htail := ih fun e he => h e (List.mem_cons_of_mem _ he)
    have hatoi : atoi (e.2 ++ [newline]) = digitsVal e.2 := by
      refine atoi_digits he.ne_nil he.digits he.small ?_
      intro b hb
      obtain rfl : newline = b := by simpa using hb
      decide
    have hvals : vals (e :: es) = (e.1, digitsVal e.2) :: vals es := rfl
    rw [List.map_cons, permOf, he.strchr_line.2, hvals, FirstMatch.get_cons]
    simp only [hatoi]
    by_cases hid : id = e.1
    · rw [if_pos hid, if_pos hid.symm, Option.getD_some, BitVec.ofInt_natCast]
    · rw [if_neg hid, if_neg (Ne.symm hid), htail]

/-- The copying loop filters entries. -/
theorem remLines_entries (tok : List Byte) : ∀ {es : List (List Byte × List Byte)},
    (∀ e ∈ es, IsEntry e) →
    remLines tok (es.map fun e => entryLine e ++ [newline])
      = some (fileOf (es.filter fun e => e.1 ≠ tok)) := by
  intro es
  induction es with
  | nil => intro _; rfl
  | cons e es ih =>
    intro h
    have htail := ih fun e he => h e (List.mem_cons_of_mem _ he)
    obtain ⟨hcstr, hsplit⟩ := (h e List.mem_cons_self).strchr_line
    rw [List.map_cons, remLines, hsplit]
    simp only [htail]
    by_cases htok : e.1 = tok
    · rw [if_pos htok, List.filter_cons_of_neg (by simpa using htok)]
    · rw [if_neg htok, List.filter_cons_of_pos (by simpa using htok), hcstr]
      simp [fileOf, unlines]

/-! ### The files of a directory -/

/-- The metadata of the directory and its copy hold the entries `es`. -/
structure Stored (j : Jail) (dir beyond : List Byte) (fs : Fs)
    (es : List (List Byte × List Byte)) : Prop where
  accepted : (jaildir fs { j with fsopOvrr := 1 } dir beyond).ok = true
  isDir : fs.isDir (jailed j.dbdir dir beyond) = true
  file : (fs.read (metaFile (jailed j.dbdir dir beyond))).getD [] = fileOf es
  rd : (fs.read (rdFile (jailed j.dbdir dir beyond))).getD [] = fileOf es
  entries : ∀ e ∈ es, IsEntry e
  exposed : es ≠ [] → fs.access (rdFile (jailed j.dbdir dir beyond)) = true

theorem rdFile_ne_metaFile (dir : List Byte) : rdFile dir ≠ metaFile dir := by
  intro h
  have hlen := congrArg List.length h
  simp [rdFile, fsmetardExt, lit] at hlen

/-- With the override, the answer of `jaildir` depends on the file system only through
the root. -/
theorem jaildir_override (fs : Fs) (j : Jail) (dir beyond : List Byte) :
    (jaildir fs { j with fsopOvrr := 1 } dir beyond).ok = true ↔
      ¬ pdir <:+: jailed j.dbdir dir beyond ∧ ¬ fsmeta <:+: jailed j.dbdir dir beyond ∧
        fs.access j.dbdir = true := by
  simp only [jaildir, secfsProc]
  by_cases hp : pdir <:+: jailed j.dbdir dir beyond
  · simp [hp]
  · by_cases hm : fsmeta <:+: jailed j.dbdir dir beyond
    · simp [hp, hm]
    · simp [hp, hm]

theorem Fs.write_access_of {fs : Fs} {p : List Byte} (h : fs.access p = true)
    (path content : List Byte) : (fs.write path content).access p = true := by
  simp only [Fs.write, Function.update_apply]
  split
  · rfl
  · exact h

/-- Replacing both files by one content. -/
theorem Stored.write {j : Jail} {dir beyond : List Byte} {fs : Fs}
    {es es' : List (List Byte × List Byte)} (h : Stored j dir beyond fs es)
    (hes : ∀ e ∈ es', IsEntry e) :
    Stored j dir beyond
      ((fs.write (metaFile (jailed j.dbdir dir beyond)) (fileOf es')).write
        (rdFile (jailed j.dbdir dir beyond)) (fileOf es')) es' := by
  have hne := rdFile_ne_metaFile (jailed j.dbdir dir beyond)
  obtain ⟨hp, hm, hacc⟩ := (jaildir_override fs j dir beyond).mp h.accepted
  refine ⟨?_, h.isDir, ?_, ?_, hes, ?_⟩
  · rw [jaildir_override]
    exact ⟨hp, hm, Fs.write_access_of (Fs.write_access_of hacc _ _) _ _⟩
  · simp [Fs.write, Function.update_of_ne hne.symm]
  · simp [Fs.write]
  · intro _
    simp [Fs.write]

/-- Past a check that answers with a failure, a success is one of what follows. -/
theorem MetaRes.fs_of_check {c : Prop} [Decidable c] {j : Jail} {arg : List Byte} {fs fs' : Fs}
    {r : MetaRes} (hr : r.reply = cmdOkText → r.fs = fs') :
    (if c then ⟨cmdFailText arg, j, fs⟩ else r).reply = cmdOkText →
      (if c then ⟨cmdFailText arg, j, fs⟩ else r).fs = fs' := by
  by_cases hc : c
  · rw [if_pos hc]
    exact fun hok => absurd hok (cmdFailText_ne_ok _)
  · rw [if_neg hc]
    exact hr

theorem MetaRes.ne_ok_of_check {c : Prop} [Decidable c] {j : Jail} {arg : List Byte} {fs : Fs}
    {r : MetaRes} (hr : r.reply ≠ cmdOkText) :
    (if c then ⟨cmdFailText arg, j, fs⟩ else r).reply ≠ cmdOkText := by
  by_cases hc : c
  · rw [if_pos hc]
    exact cmdFailText_ne_ok _
  · rw [if_neg hc]
    exact hr

/-- What a successful `SETFSPERM` leaves. -/
theorem cmdSetfsperm_ok {fs : Fs} {io : MetaIo} {j : Jail} {tok dir beyond : List Byte}
    (htok : blank ∉ tok)
    (hok : (cmdSetfsperm fs io j (tok ++ blank :: dir) beyond).reply = cmdOkText) :
    let d := jailed j.dbdir dir beyond
    let file := (fs.read (metaFile d)).getD []
    (cmdSetfsperm fs io j (tok ++ blank :: dir) beyond).fs =
      (((fs.write (metaFile d) file).write (metaFile d) (file ++ tok ++ [newline])).write (rdFile d)
        (file ++ tok ++ [newline])) := by
  revert hok
  simp only [cmdSetfsperm, strchr_append htok, jaildir_dst]
  apply MetaRes.fs_of_check
  apply MetaRes.fs_of_check
  apply MetaRes.fs_of_check
  apply MetaRes.fs_of_check
  apply MetaRes.fs_of_check
  apply MetaRes.fs_of_check
  apply MetaRes.fs_of_check
  apply MetaRes.fs_of_check
  exact fun _ => rfl

/-- What a successful `REMFSPERM` leaves. -/
theorem cmdRemfsperm_ok {fs : Fs} {io : MetaIo} {j : Jail} {tok dir beyond : List Byte}
    (htok : blank ∉ tok)
    (hok : (cmdRemfsperm fs io j (tok ++ blank :: dir) beyond).reply = cmdOkText) :
    let d := jailed j.dbdir dir beyond
    ∃ kept, remLines tok (lines newline lineMax ((fs.read (metaFile d)).getD [])) = some kept ∧
      (cmdRemfsperm fs io j (tok ++ blank :: dir) beyond).fs =
        (fs.write (metaFile d) kept).write (rdFile d) kept := by
  revert hok
  simp only [cmdRemfsperm, strchr_append htok, jaildir_dst]
  cases fs.read (metaFile (jailed j.dbdir dir beyond)) with
  | none =>
    intro hok
    refine absurd hok ?_
    apply MetaRes.ne_ok_of_check
    apply MetaRes.ne_ok_of_check
    apply MetaRes.ne_ok_of_check
    exact cmdFailText_ne_ok _
  | some file =>
    simp only [Option.getD_some]
    cases remLines tok (lines newline lineMax file) with
    | none =>
      intro hok
      refine absurd hok ?_
      apply MetaRes.ne_ok_of_check
      apply MetaRes.ne_ok_of_check
      apply MetaRes.ne_ok_of_check
      apply MetaRes.ne_ok_of_check
      exact cmdFailText_ne_ok _
    | some kept =>
      intro hok
      refine ⟨kept, rfl, ?_⟩
      revert hok
      apply MetaRes.fs_of_check
      apply MetaRes.fs_of_check
      apply MetaRes.fs_of_check
      apply MetaRes.fs_of_check
      apply MetaRes.fs_of_check
      apply MetaRes.fs_of_check
      exact fun _ => rfl

theorem fileOf_concat (es : List (List Byte × List Byte)) (e : List Byte × List Byte) :
    fileOf (es ++ [e]) = fileOf es ++ entryLine e ++ [newline] := by
  simp [fileOf, unlines]

theorem vals_filter (es : List (List Byte × List Byte)) (id : List Byte) :
    vals (es.filter fun e => e.1 ≠ id) = (vals es).filter fun e => e.1 ≠ id := by
  rw [vals, vals, List.filter_map]
  rfl

/-- Writing a file twice is writing it once. -/
theorem Fs.write_write (fs : Fs) (path a b : List Byte) :
    (fs.write path a).write path b = fs.write path b := by
  simp [Fs.write]

/-- **One successful command changes the entries as it should change a log.** -/
theorem Stored.step {j : Jail} {dir beyond : List Byte} {fs : Fs}
    {es : List (List Byte × List Byte)} (h : Stored j dir beyond fs es) {st : PermStep}
    (hvalid : st.cmd.Valid) (hok : (permStep j dir beyond fs st).reply = cmdOkText) :
    ∃ es', Stored j dir beyond (permStep j dir beyond fs st).fs es' ∧
      vals es' = FirstMatch.logStep (vals es) st.op := by
  obtain ⟨cmd, fsid, io⟩ := st
  cases cmd with
  | set id perm =>
    have hentry : IsEntry (id, perm) := hvalid
    have htok : blank ∉ entryLine (id, perm) := by
      rw [entryLine, List.mem_append, List.mem_cons]
      rintro (hm | hm | hm)
      · exact hentry.isId.no_blank hm
      · exact absurd hm (by decide)
      · exact not_mem_of_isDigit hentry.digits (by decide) hm
    have hfs := cmdSetfsperm_ok (j := { j with fsid := fsid }) htok hok
    simp only [h.file, Fs.write_write, ← fileOf_concat] at hfs
    refine ⟨es ++ [(id, perm)], ?_, by simp [vals, FirstMatch.logStep, PermStep.op]⟩
    have hes : ∀ e ∈ es ++ [(id, perm)], IsEntry e := by
      intro e he
      rcases List.mem_append.mp he with he | he
      · exact h.entries e he
      · rw [List.mem_singleton.mp he]
        exact hentry
    have hstored := h.write hes
    rw [← hfs] at hstored
    exact hstored
  | rem id =>
    have hid : IsId id := hvalid
    obtain ⟨kept, hkept, hfs⟩ := cmdRemfsperm_ok (j := { j with fsid := fsid }) hid.no_blank hok
    simp only [h.file, lines_fileOf h.entries, remLines_entries id h.entries,
      Option.some.injEq] at hkept
    subst hkept
    refine ⟨es.filter fun e => e.1 ≠ id, ?_, vals_filter es id⟩
    have hes : ∀ e ∈ es.filter (fun e => e.1 ≠ id), IsEntry e :=
      fun e he => h.entries e (List.mem_of_mem_filter he)
    have hstored := h.write hes
    rw [← hfs] at hstored
    exact hstored

/-- **A sequence of successful commands leaves the log of its operations.** -/
theorem Stored.run {j : Jail} {dir beyond : List Byte} : ∀ {steps : List PermStep} {fs fs' : Fs}
    {es : List (List Byte × List Byte)}, Stored j dir beyond fs es →
    (∀ st ∈ steps, st.cmd.Valid) → permRun j dir beyond fs steps = some fs' →
    ∃ es', Stored j dir beyond fs' es' ∧
      vals es' = (steps.map PermStep.op).foldl FirstMatch.logStep (vals es) := by
  intro steps
  induction steps with
  | nil =>
    intro fs fs' es h _ hrun
    simp only [permRun, List.foldlM_nil, Option.pure_def, Option.some.injEq] at hrun
    exact ⟨es, hrun ▸ h, rfl⟩
  | cons st steps ih =>
    intro fs fs' es h hvalid hrun
    simp only [permRun, List.foldlM_cons, Option.bind_eq_bind] at hrun
    by_cases hok : (permStep j dir beyond fs st).reply = cmdOkText
    · rw [if_pos hok, Option.bind_some] at hrun
      obtain ⟨es₁, h₁, hvals₁⟩ := h.step (hvalid st List.mem_cons_self) hok
      obtain ⟨es', h', hvals'⟩ := ih h₁ (fun st hst => hvalid st (List.mem_cons_of_mem _ hst)) hrun
      refine ⟨es', h', ?_⟩
      rw [hvals', hvals₁]
      rfl
    · rw [if_neg hok] at hrun
      cases hrun

/-! ### The readers -/

/-- The permission the readers find. -/
theorem Stored.getfsidperm {j : Jail} {dir beyond : List Byte} {fs : Fs}
    {es : List (List Byte × List Byte)} (h : Stored j dir beyond fs es) (id : List Byte) :
    getfsidperm fs (rdFile (jailed j.dbdir dir beyond)) id
      = BitVec.ofNat 32 ((FirstMatch.get (vals es) id).getD 0) := by
  rw [← permOf_entries id h.entries, ← lines_fileOf h.entries, ← h.rd]
  unfold TFProtocol.getfsidperm
  cases fs.read (rdFile (jailed j.dbdir dir beyond)) with
  | none => rfl
  | some file => rfl

theorem Stored.lt {j : Jail} {dir beyond : List Byte} {fs : Fs}
    {es : List (List Byte × List Byte)} (h : Stored j dir beyond fs es) (id : List Byte) :
    (FirstMatch.get (vals es) id).getD 0 < 2 ^ 32 := by
  unfold FirstMatch.get
  cases hfind : (vals es).find? (fun e => e.1 = id) with
  | none => simp
  | some e =>
    obtain ⟨x, hx, rfl⟩ := List.mem_map.mp (List.mem_of_find?_eq_some hfind)
    have := (h.entries x hx).small
    simp only [Option.map_some, Option.getD_some]
    omega

/-- What `GETFSPERM` answers. -/
theorem Stored.getfsperm_reply {j : Jail} {dir beyond : List Byte} {fs : Fs}
    {es : List (List Byte × List Byte)} (h : Stored j dir beyond fs es) {id : List Byte}
    (hid : IsId id) :
    (cmdGetfsperm fs j (id ++ blank :: dir) beyond).reply
      = permText ((FirstMatch.get (vals es) id).getD 0) := by
  simp only [cmdGetfsperm, strchr_append hid.no_blank, h.accepted, jaildir_dst, h.isDir,
    h.getfsidperm, Bool.not_true, Bool.false_eq_true, if_false]
  rw [BitVec.toNat_ofNat, Nat.mod_eq_of_lt (h.lt id)]

/-- The permission `secfs_proc` decides by: a first entry of `0` counts as none. -/
def codePerm (es : List (List Byte × ℕ)) (fsid : List Byte) : ℕ :=
  if (FirstMatch.get es fsid).getD 0 = 0 then (FirstMatch.get es fsotherusr).getD 0
  else (FirstMatch.get es fsid).getD 0

theorem Stored.access_decision {j : Jail} {dir beyond : List Byte} {fs : Fs}
    {es : List (List Byte × List Byte)} (h : Stored j dir beyond fs es)
    {fsid src : List Byte} {fsop : BitVec 32} (hop : fsop ≠ 0) (hsrc : ¬ fsmeta <:+: src)
    (hmeta : metaOf fs src = rdFile (jailed j.dbdir dir beyond))
    (hacc : fs.access (rdFile (jailed j.dbdir dir beyond)) = true) :
    (secfsProc fs ⟨j.dbdir, fsid, fsop, 0⟩ src).1 =
      decide (BitVec.ofNat 32 (codePerm (vals es) fsid) &&& fsop = fsop) := by
  have hzero : BitVec.ofNat 32 ((FirstMatch.get (vals es) fsid).getD 0) = 0 ↔
      (FirstMatch.get (vals es) fsid).getD 0 = 0 := by
    rw [← BitVec.toNat_inj, BitVec.toNat_ofNat, Nat.mod_eq_of_lt (h.lt fsid)]
    rfl
  simp only [secfsProc, hsrc, if_false, ne_eq, not_true_eq_false, hmeta, hacc, Bool.not_true,
    Bool.false_eq_true, hop, h.getfsidperm, hzero, codePerm]
  split <;> rfl

/-- A path with nothing but the directory itself. -/
theorem Stored.metaOf_self {j : Jail} {dir beyond : List Byte} {fs : Fs}
    {es : List (List Byte × List Byte)} (h : Stored j dir beyond fs es) :
    metaOf fs (jailed j.dbdir dir beyond) = rdFile (jailed j.dbdir dir beyond) := by
  simp only [metaOf, h.isDir, if_true]
  rfl

/-- **When the readers answer as a map says**, for a map with the keys of the file:
when the first entry of every identity is its value in the map, and `0` is not used in
front of a permission for everybody else. -/
theorem Stored.asMap_iff {j : Jail} {dir beyond : List Byte} {fs : Fs}
    {es : List (List Byte × List Byte)} (h : Stored j dir beyond fs es)
    {m : List Byte → Option ℕ} (hkeys : ∀ k, FirstMatch.get (vals es) k = none ↔ m k = none) :
    AsMap j dir beyond fs m ↔ (∀ k, FirstMatch.get (vals es) k = m k) ∧ NoZero m := by
  have hentry : ∀ {k v}, FirstMatch.get (vals es) k = some v → IsId k ∧ es ≠ [] := by
    intro k v hget
    obtain ⟨e, hfind, -⟩ := Option.map_eq_some_iff.mp hget
    obtain ⟨x, hx, rfl⟩ := List.mem_map.mp (List.mem_of_find?_eq_some hfind)
    have hk : x.1 = k := by simpa using List.find?_some hfind
    exact ⟨hk ▸ (h.entries x hx).isId, List.ne_nil_of_mem hx⟩
  constructor
  · intro hmap
    -- `GETFSPERM` shows the value of every key, and there are no keys it cannot be asked for
    have hget : ∀ k, FirstMatch.get (vals es) k = m k := by
      intro k
      cases hg : FirstMatch.get (vals es) k with
      | none => exact ((hkeys k).mp hg).symm
      | some v =>
        have hreply := hmap.getfsperm k (hentry hg).1
        rw [h.getfsperm_reply (hentry hg).1, hg] at hreply
        have hval : v = (m k).getD 0 :=
          udec_injective (List.append_cancel_left hreply)
        cases hm : m k with
        | none => rw [(hkeys k).mpr hm] at hg; cases hg
        | some v' => rw [hval, hm]; rfl
    refine ⟨hget, ?_⟩
    intro id hid
    by_contra hne
    -- the operations everybody else may do are refused by `0` and granted by the code
    have hcode : codePerm (vals es) id = (m fsotherusr).getD 0 := by
      simp only [codePerm, hget, hid, Option.getD_some, if_true]
    have heff : effective m id = 0 := by rw [effective, hid]
    have hlt := h.lt fsotherusr
    rw [hget] at hlt
    have hop : BitVec.ofNat 32 ((m fsotherusr).getD 0) ≠ 0 := by
      intro hz
      rw [← BitVec.toNat_inj, BitVec.toNat_ofNat, Nat.mod_eq_of_lt hlt] at hz
      exact hne hz
    have hsrc := (jaildir_accepts h.accepted).2
    have hacc := h.exposed (hentry ((hget id).trans hid)).2
    have hdec := hmap.access id _ _ hop hsrc h.metaOf_self hacc
    rw [h.access_decision hop hsrc h.metaOf_self hacc, hcode, heff] at hdec
    simp only [BitVec.and_self, decide_true, BitVec.zero_and, true_eq_decide_iff] at hdec
    exact hop hdec.symm
  · rintro ⟨hget, hzero⟩
    refine ⟨?_, ?_⟩
    · intro id hid
      rw [h.getfsperm_reply hid, hget]
    · intro fsid src fsop hop hsrc hmeta hacc
      have heff : codePerm (vals es) fsid = effective m fsid := by
        simp only [codePerm, effective, hget]
        cases hm : m fsid with
        | none => simp
        | some v =>
          by_cases hv : v = 0
          · subst hv
            simp [hzero fsid hm]
          · simp [hv]
      rw [h.access_decision hop hsrc hmeta hacc, heff]

/-! ### Runs -/

/-- A directory the commands accept, without metadata. -/
structure NewDir (j : Jail) (dir beyond : List Byte) (fs : Fs) : Prop where
  accepted : (jaildir fs { j with fsopOvrr := 1 } dir beyond).ok = true
  isDir : fs.isDir (jailed j.dbdir dir beyond) = true
  noMeta : fs.read (metaFile (jailed j.dbdir dir beyond)) = none
  noRd : fs.read (rdFile (jailed j.dbdir dir beyond)) = none

theorem NewDir.stored {j : Jail} {dir beyond : List Byte} {fs : Fs}
    (h : NewDir j dir beyond fs) : Stored j dir beyond fs [] :=
  ⟨h.accepted, h.isDir, by rw [h.noMeta]; rfl, by rw [h.noRd]; rfl, by simp, fun hne => absurd rfl hne⟩

/-- The map from identities to permissions that a sequence of commands means. -/
def permMap (steps : List PermStep) : List Byte → Option ℕ :=
  FirstMatch.latest (steps.map PermStep.op)

/-- The permission a command sets. -/
def PermCmd.perm : PermCmd → Option ℕ
  | .set _ perm => some (digitsVal perm)
  | .rem _ => none

/-- Commands that never set `0`. -/
theorem noZero_of_ne_zero {steps : List PermStep} (h : ∀ st ∈ steps, st.cmd.perm ≠ some 0) :
    NoZero (permMap steps) := by
  have hne : ∀ id, permMap steps id ≠ some 0 := by
    induction steps using List.reverseRecOn with
    | nil => intro id hid; cases hid
    | append_singleton steps st ih =>
      intro id hid
      have hlast := h st (by simp)
      rw [permMap, List.map_append, List.map_singleton, FirstMatch.latest_concat] at hid
      obtain ⟨cmd, fsid, io⟩ := st
      cases cmd with
      | set k perm =>
        by_cases hk : id = k
        · simp only [PermStep.op, FirstMatch.mapStep, hk, Function.update_self] at hid
          exact hlast hid
        · simp only [PermStep.op, FirstMatch.mapStep, Function.update_of_ne hk] at hid
          exact ih (fun st hst => h st (by simp [hst])) id hid
      | rem k =>
        by_cases hk : id = k
        · simp only [PermStep.op, FirstMatch.mapStep, hk, Function.update_self] at hid
          cases hid
        · simp only [PermStep.op, FirstMatch.mapStep, Function.update_of_ne hk] at hid
          exact ih (fun st hst => h st (by simp [hst])) id hid
  exact fun id hid => absurd hid (hne id)

/-- Every prefix of a successful sequence is successful. -/
theorem permRun_prefix {j : Jail} {dir beyond : List Byte} {fs fs' : Fs} {pre steps : List PermStep}
    (hpre : pre <+: steps) (hrun : permRun j dir beyond fs steps = some fs') :
    ∃ fs₁, permRun j dir beyond fs pre = some fs₁ := by
  obtain ⟨post, rfl⟩ := hpre
  simp only [permRun, List.foldlM_append, Option.bind_eq_bind, Option.bind_eq_some_iff] at hrun
  obtain ⟨fs₁, hfs₁, -⟩ := hrun
  exact ⟨fs₁, hfs₁⟩

/-- **The metadata file as a map from identities to permissions.**  Take any
sequence of successful `SETFSPERM` and `REMFSPERM` commands on a directory that had no
metadata, whose lines fit the buffer.  After each of them `GETFSPERM` answers with the
latest permission and every access is decided by it, if and only if every `SETFSPERM`
finds no entry of its identity or one with the same permission, and no identity has the
permission `0` while everybody else has another one. -/
theorem securefs_refines_map {j : Jail} {dir beyond : List Byte} {fs₀ fs' : Fs}
    {steps : List PermStep} (hnew : NewDir j dir beyond fs₀) (hvalid : ∀ st ∈ steps, st.cmd.Valid)
    (hrun : permRun j dir beyond fs₀ steps = some fs') :
    (∀ pre fs, pre <+: steps → permRun j dir beyond fs₀ pre = some fs →
        AsMap j dir beyond fs (permMap pre)) ↔
      (∀ pre st post, steps = pre ++ st :: post →
        FirstMatch.FreshOrSame (permMap pre) st.op) ∧
      ∀ pre, pre <+: steps → NoZero (permMap pre) := by
  -- after each prefix the files hold the log of its operations
  have hread : ∀ {pre fs}, pre <+: steps → permRun j dir beyond fs₀ pre = some fs →
      (AsMap j dir beyond fs (permMap pre) ↔
        (∀ k, FirstMatch.get (FirstMatch.log (pre.map PermStep.op)) k = permMap pre k) ∧
          NoZero (permMap pre)) := by
    intro pre fs hpre hfs
    obtain ⟨es, hstored, hes⟩ := hnew.stored.run (fun st hst => hvalid st (hpre.subset hst)) hfs
    have hlog : vals es = FirstMatch.log (pre.map PermStep.op) := hes
    rw [hstored.asMap_iff fun k => by rw [hlog]; exact FirstMatch.get_log_eq_none_iff _ k, hlog]
  have hiff := FirstMatch.get_log_iff (steps.map PermStep.op)
  constructor
  · intro hall
    have hboth : ∀ pre, pre <+: steps →
        (∀ k, FirstMatch.get (FirstMatch.log (pre.map PermStep.op)) k = permMap pre k) ∧
          NoZero (permMap pre) := by
      intro pre hpre
      obtain ⟨fs, hfs⟩ := permRun_prefix hpre hrun
      exact (hread hpre hfs).mp (hall pre fs hpre hfs)
    refine ⟨?_, fun pre hpre => (hboth pre hpre).2⟩
    intro pre st post hsplit
    refine hiff.mp ?_ (pre.map PermStep.op) st.op (post.map PermStep.op) (by simp [hsplit])
    intro ops hops
    obtain ⟨pre, hpre, rfl⟩ := List.prefix_map_iff.mp hops
    exact (hboth pre hpre).1
  · rintro ⟨hfresh, hzero⟩ pre fs hpre hfs
    refine (hread hpre hfs).mpr ⟨?_, hzero pre hpre⟩
    refine hiff.mpr ?_ (pre.map PermStep.op) (hpre.map _)
    intro ops op post hsplit
    obtain ⟨pre', rest, rfl, rfl, hrest⟩ := List.map_eq_append_iff.mp hsplit
    obtain ⟨st, post', rfl, rfl, rfl⟩ := List.map_eq_cons_iff.mp hrest
    exact hfresh pre' st post' rfl

/-- A `SETFSPERM` by `root` whose file operations all succeed. -/
def exampleSet (id perm : String) : PermStep :=
  ⟨.set (lit id) (lit perm), lit "root", ⟨true, true, true, true, true⟩⟩

/-- A server with one directory below its root. -/
def exampleDirs : Fs := Fs.ofDirs [lit "/srv/", lit "/srv/d"]

theorem exampleDirs_newDir : NewDir exampleJail (lit "d") [] exampleDirs :=
  ⟨by decide +kernel, by decide +kernel, rfl, rfl⟩

theorem exampleSet_valid {id perm : String} (hid : IsId (lit id)) (hne : lit perm ≠ [])
    (hds : ∀ d ∈ lit perm, isDigit d = true) (hval : digitsVal (lit perm) < 2 ^ 31)
    (hlen : (lit id).length + (lit perm).length + 2 < lineMax) : (exampleSet id perm).cmd.Valid :=
  ⟨hid, hds, hne, hval, hlen⟩

/-- The owner, and one more identity. -/
theorem securefs_refines_map_example :
    ∃ fs, permRun exampleJail (lit "d") [] exampleDirs [exampleSet "root" "3", exampleSet "ann" "4"]
        = some fs ∧
      AsMap exampleJail (lit "d") [] fs (permMap [exampleSet "root" "3", exampleSet "ann" "4"]) := by
  have hsome : (permRun exampleJail (lit "d") [] exampleDirs
      [exampleSet "root" "3", exampleSet "ann" "4"]).isSome = true := by decide +kernel
  obtain ⟨fs, hfs⟩ := Option.isSome_iff_exists.mp hsome
  have hvalid : ∀ st ∈ [exampleSet "root" "3", exampleSet "ann" "4"], st.cmd.Valid := by
    intro st hst
    simp only [List.mem_cons, List.not_mem_nil, or_false] at hst
    rcases hst with rfl | rfl
    · exact exampleSet_valid ⟨by decide, by decide, by decide, by decide⟩ (by decide)
        (List.all_eq_true.mp (by decide)) (by decide) (by decide)
    · exact exampleSet_valid ⟨by decide, by decide, by decide, by decide⟩ (by decide)
        (List.all_eq_true.mp (by decide)) (by decide) (by decide)
  have hzero : ∀ pre, pre <+: [exampleSet "root" "3", exampleSet "ann" "4"] →
      NoZero (permMap pre) := by
    intro pre hpre
    refine noZero_of_ne_zero fun st hst => ?_
    have hmem := hpre.subset hst
    simp only [List.mem_cons, List.not_mem_nil, or_false] at hmem
    rcases hmem with rfl | rfl <;> exact (by decide)
  refine ⟨fs, hfs, (securefs_refines_map exampleDirs_newDir hvalid hfs).mpr ⟨?_, hzero⟩ _ fs
    (List.prefix_refl _) hfs⟩
  intro pre st post hsplit
  cases pre with
  | nil =>
    obtain ⟨rfl, -⟩ := List.cons.inj hsplit
    exact .inl rfl
  | cons x pre =>
    obtain ⟨rfl, htail⟩ := List.cons.inj hsplit
    cases pre with
    | nil =>
      obtain ⟨rfl, -⟩ := List.cons.inj htail
      exact .inl (by decide)
    | cons y pre => simp at htail

/-- The second of two permissions for one identity is not the one that counts, and an
identity with the permission `0` has the permission of everybody else. -/
theorem securefs_first_line_wins :
    (((permRun exampleJail (lit "d") [] exampleDirs
          [exampleSet "root" "3", exampleSet "ann" "4", exampleSet "ann" "8"]).map fun fs =>
        (cmdGetfsperm fs exampleJail (lit "ann d") []).reply) = some (permText 4) ∧
      permMap [exampleSet "root" "3", exampleSet "ann" "4", exampleSet "ann" "8"] (lit "ann")
        = some 8) ∧
    (((permRun exampleJail (lit "d") [] exampleDirs
          [exampleSet "root" "3", exampleSet "" "4", exampleSet "ann" "0"]).map fun fs =>
        (secfsProc fs ⟨lit "/srv/", lit "ann", Secfs.rfile.bit, 0⟩ (lit "/srv/d")).1) = some true ∧
      permMap [exampleSet "root" "3", exampleSet "" "4", exampleSet "ann" "0"] (lit "ann")
        = some 0) := by
  decide +kernel

end TFProtocol
