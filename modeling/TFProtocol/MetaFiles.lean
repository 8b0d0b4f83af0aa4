import TFProtocol.Lib.Runs
import TFProtocol.SecureFs

/-!
# The files of the permissions

`SETFSPERM` and `REMFSPERM` prepare the new permissions of a directory in the swap file,
rename it to the metadata, copy the metadata to the swap file, and rename that to the copy
for the readers.  Here one call on the way may fail, and the commands are followed through
all their exits, on the three files of the directory.

The first rename cannot be taken back, so a failure behind it is reported with the metadata
changed and the copy for the readers as before.  `cpfile` opens the destination also when it
could not open the source, and leaves it there.  What `fclose` still has to write is not
checked.  `cmd_remfsperm` closes a null pointer when a file cannot be opened, and writes
through one at a line without a separator; `cmd_setfsperm` reads through one at such a line
if it is the identity.

## Main definitions

* `MetaFiles` — the three files.
* `MetaFault` — the call that fails.
* `setfsperm`, `remfsperm`, `metaStep` — the commands, from the point where the directory is
  found.
* `AllOrNothing` — a command changes both files or none, and leaves no swap file.
* `SafeStep` — the failures the commands survive.

## Main results

* `allOrNothing_iff` — a command is all-or-nothing exactly under these failures.
* `metadata_runs_iff` — **so are all commands of a sequence.**
* `cmdSetfsperm_eq`, `cmdRemfsperm_eq` — without a failure the commands are those the map of
  the permissions was shown for.
-/

namespace TFProtocol

open Bytes CStr

/-! ### The commands -/

/-- The files of a directory the commands work on: `.securefs_metadata`, the copy for the
readers, and the swap file. -/
structure MetaFiles where
  perms : Option (List Byte)
  rd : Option (List Byte)
  swp : Option (List Byte)
  deriving DecidableEq, Repr

/-- The reply; `died` if the process ends without one. -/
inductive MetaReply
  | ok
  | failed
  | died
  deriving DecidableEq, Repr

/-- The call that fails in a copy. -/
inductive CopyFault
  | src
  | dst
  | read
  | write
  deriving DecidableEq, Repr

/-- The call that fails in a command. -/
inductive MetaFault
  /-- `open` of the lock file; the test for it never succeeds. -/
  | lock
  /-- `open` of the metadata. -/
  | openMeta
  /-- A call in the copy of the metadata to the swap file. -/
  | copy (c : CopyFault)
  /-- `fopen` of the swap file. -/
  | openSwap
  /-- A call of `fputs`, by its number. -/
  | put (k : ℕ)
  /-- The write in `fclose`, of which only the first `k` bytes get to the swap file. -/
  | flush (k : ℕ)
  /-- `rename` to the metadata. -/
  | renameMeta
  /-- A call in the copy of the metadata for the readers. -/
  | copyRd (c : CopyFault)
  /-- `rename` to the copy for the readers. -/
  | renameRd
  /-- `fopen` in `getfsidperm`. -/
  | openRd
  /-- `fopen` of the metadata. -/
  | openPerm
  deriving DecidableEq, Repr

/-- `cpfile(src, dst)` on the contents of the files: that of the destination, and whether it
returns `0`. -/
def cpfileTo (f : Option CopyFault) (src dst : Option (List Byte)) : Option (List Byte) × Bool :=
  match (if f = some .src then none else src) with
  -- the destination is opened, and cut off, before the test
  | none => (if f = some .dst then dst else some [], false)
  | some file =>
    if f = some .dst then (dst, false)
    else if f = some .read then (none, false)
    -- nothing is written of an empty file
    else if f = some .write ∧ file ≠ [] then (none, false)
    else (some file, true)

/-- The failure in the first copy, and in the second. -/
def MetaFault.inCopy : MetaFault → Option CopyFault
  | .copy c => some c
  | _ => none

def MetaFault.inCopyRd : MetaFault → Option CopyFault
  | .copyRd c => some c
  | _ => none

/-- What gets to the swap file of a text that is written at the end. -/
def flushed (f : Option MetaFault) (text : List Byte) : List Byte :=
  match f with
  | some (.flush k) => text.take k
  | _ => text

/-- The call of `fputs` that fails. -/
def failingPut (f : Option MetaFault) : Option ℕ :=
  match f with
  | some (.put k) => some k
  | _ => none

/-- The end of both commands, with the new permissions in the swap file. -/
def replaceMeta (f : Option MetaFault) (m : MetaFiles) : MetaFiles × MetaReply :=
  if f = some .renameMeta then ({ m with swp := none }, .failed)
  else
    let m := { m with perms := m.swp, swp := none }
    let c := cpfileTo (f.bind MetaFault.inCopyRd) m.perms m.swp
    let m := { m with swp := c.1 }
    if !c.2 then (m, .failed)
    else if f = some .renameRd then ({ m with swp := none }, .failed)
    else ({ m with rd := m.swp, swp := none }, .ok)

/-- The line of the metadata that `cmd_setfsperm` takes for that of the identity: what is
behind the separator, if there is one. -/
def selfLine (fsid : List Byte) : List (List Byte) → Option (Option (List Byte))
  | [] => none
  | line :: ls =>
    match strchr fspermTok (cstr line) with
    | some (name, perm) => if name = fsid then some (some perm) else selfLine fsid ls
    | none => if cstr line = fsid then some none else selfLine fsid ls

/-- Whether the identity may set permissions: in an empty file anyone may; `none` if the
process dies at the search. -/
def mayAppend (fsid file : List Byte) : Option Bool :=
  if file = [] then some true
  else
    match selfLine fsid (lines newline lineMax file) with
    | none => some false
    | some none => none
    | some (some perm) => some (BitVec.ofInt 32 (atoi perm) &&& Secfs.setperm.bit ≠ 0)

/-- `cmd_setfsperm` in a directory, with the call `f` failing. -/
def setfsperm (fsid tok : List Byte) (f : Option MetaFault) (m : MetaFiles) :
    MetaFiles × MetaReply :=
  if f = some .openMeta then (m, .failed)
  else
    -- `O_CREAT` leaves an empty file where there was none
    let file := m.perms.getD []
    let m := { m with perms := some file }
    let c := cpfileTo (f.bind MetaFault.inCopy) m.perms m.swp
    let m := { m with swp := c.1 }
    if !c.2 then (m, .failed)
    else if f = some .openSwap then ({ m with swp := none }, .failed)
    else
      match mayAppend fsid file with
      | none => (m, .died)
      | some false => ({ m with swp := none }, .failed)
      | some true =>
        -- the identity with its permission, and a newline
        if (failingPut f).any (· < 2) then ({ m with swp := none }, .failed)
        else replaceMeta f { m with swp := some (file ++ flushed f (tok ++ [newline])) }

/-- What the copying loop of `cmd_remfsperm` comes to. -/
inductive RemRes
  | done (kept : List Byte)
  | failed
  | died
  deriving DecidableEq, Repr

/-- The copying loop of `cmd_remfsperm`, with a call of `fputs` failing. -/
def remLoop (tok : List Byte) : Option ℕ → List (List Byte) → RemRes
  | _, [] => .done []
  | k, line :: ls =>
    match strchr fspermTok (cstr line) with
    | some (name, _) =>
      if name = tok then remLoop tok k ls
      else if k = some 0 then .failed
      else
        match remLoop tok (k.map (· - 1)) ls with
        | .done kept => .done (cstr line ++ kept)
        | r => r
    | none => .died

/-- `getfsidperm`, on the content of the file. -/
def permIn (file : Option (List Byte)) (id : List Byte) : BitVec 32 :=
  match file with
  | none => 0
  | some file => permOf id (lines newline lineMax file)

/-- `cmd_remfsperm` in a directory, with the call `f` failing.  What a process that dies has
written to the swap file by then is left open; nobody reads it. -/
def remfsperm (fsid tok : List Byte) (f : Option MetaFault) (m : MetaFiles) :
    MetaFiles × MetaReply :=
  if permIn (if f = some .openRd then none else m.rd) fsid &&& Secfs.remperm.bit = 0 then
    (m, .failed)
  else if f = some .openSwap then (m, .died)
  else
    let m := { m with swp := some [] }
    match (if f = some .openPerm then none else m.perms) with
    | none => (m, .died)
    | some file =>
      match remLoop tok (failingPut f) (lines newline lineMax file) with
      | .died => (m, .died)
      | .failed => ({ m with swp := none }, .failed)
      | .done kept => replaceMeta f { m with swp := some (flushed f kept) }

/-- One of the commands with its parameter. -/
inductive MetaCmd
  | set (tok : List Byte)
  | rem (tok : List Byte)
  deriving DecidableEq, Repr

/-- A command, the identity of the process that gets it, and the call that fails, if one
does. -/
structure MetaStep where
  cmd : MetaCmd
  fsid : List Byte
  fault : Option MetaFault
  deriving DecidableEq, Repr

/-- What a command does. -/
def metaStep (m : MetaFiles) (st : MetaStep) : MetaFiles × MetaReply :=
  match st.cmd with
  | .set tok => setfsperm st.fsid tok st.fault m
  | .rem tok => remfsperm st.fsid tok st.fault m

/-- The files after a command. -/
def metaNext (m : MetaFiles) (st : MetaStep) : Option MetaFiles := some (metaStep m st).1

/-! ### All or nothing -/

/-- A line has a separator. -/
def hasSep (line : List Byte) : Bool := (strchr fspermTok (cstr line)).isSome

/-- A line is not that of an identity. -/
def notOf (tok line : List Byte) : Bool := (strchr fspermTok (cstr line)).map Prod.fst ≠ some tok

/-- What `REMFSPERM` is to leave: the lines that are not those of the identity. -/
def keptLines (tok : List Byte) (ls : List (List Byte)) : List Byte :=
  (ls.filter (notOf tok)).flatMap cstr

/-- The permissions a command is to leave. -/
def updated (perms : Option (List Byte)) : MetaCmd → Option (List Byte)
  | .set tok => some (perms.getD [] ++ tok ++ [newline])
  | .rem tok => perms.map fun file => keptLines tok (lines newline lineMax file)

/-- What a command made of the files: both have the new content, or both the old one, as the
reply says; they are equal, and there is no swap file. -/
structure AllOrNothing (m : MetaFiles) (new : Option (List Byte)) (r : MetaFiles × MetaReply) :
    Prop where
  ok : r.2 = .ok → r.1.perms = new ∧ r.1.rd = new
  failed : r.2 = .failed → r.1.perms = m.perms ∧ r.1.rd = m.rd
  equal : r.1.perms = r.1.rd
  clean : r.1.swp = none

/-- The files between two commands. -/
def MetaFiles.Settled (m : MetaFiles) : Prop := m.perms = m.rd ∧ m.swp = none

/-- The failures `cmd_setfsperm` survives.  One behind the first rename is not among them, nor
one that keeps `cpfile` from reading the metadata or `fclose` from writing, and where there
was no metadata, none behind its creation. -/
def SetSafe (fsid tok : List Byte) (f : Option MetaFault) (m : MetaFiles) : Prop :=
  let may := mayAppend fsid (m.perms.getD [])
  match f with
  | some .openMeta | some (.copy .write) => True
  | some (.copy .src) => False
  | some (.copy .dst) | some (.copy .read) | some .openSwap => m.perms ≠ none
  | some (.put k) => may ≠ none ∧ (k < 2 → m.perms ≠ none)
  | some (.flush k) => may ≠ none ∧ (may = some true → tok.length < k)
  | some .renameMeta => may ≠ none ∧ m.perms ≠ none
  | some (.copyRd _) | some .renameRd => may = some false
  | some .lock | some .openRd | some .openPerm | none => may ≠ none

/-- The failures `cmd_remfsperm` survives, if the identity may remove permissions: every line
has a separator, or the failure comes before the first that has none; and a failure behind the
first rename does not matter if there is nothing to remove. -/
def RemSafe (fsid tok : List Byte) (f : Option MetaFault) (m : MetaFiles) : Prop :=
  permIn (if f = some .openRd then none else m.rd) fsid &&& Secfs.remperm.bit ≠ 0 →
    let file := m.perms.getD []
    let ls := lines newline lineMax file
    match f with
    | some .openSwap => True
    | some .openPerm | some (.copyRd .src) => False
    | some (.put k) => k < ((ls.takeWhile hasSep).filter (notOf tok)).length ∨ ls.all hasSep = true
    | some (.flush k) => ls.all hasSep = true ∧ (keptLines tok ls).length ≤ k
    | some (.copyRd .write) =>
      ls.all hasSep = true ∧ (keptLines tok ls = [] ∨ keptLines tok ls = file)
    | some (.copyRd _) | some .renameRd => ls.all hasSep = true ∧ keptLines tok ls = file
    | _ => ls.all hasSep = true

/-- The failures a command survives. -/
def SafeStep (m : MetaFiles) (st : MetaStep) : Prop :=
  match st.cmd with
  | .set tok => SetSafe st.fsid tok st.fault m
  | .rem tok => RemSafe st.fsid tok st.fault m

section

variable {m m' : MetaFiles} {new : Option (List Byte)}

theorem allOrNothing_ok :
    AllOrNothing m new (m', .ok) ↔ m'.perms = new ∧ m'.rd = new ∧ m'.swp = none := by
  constructor
  · intro h
    exact ⟨(h.ok rfl).1, (h.ok rfl).2, h.clean⟩
  · rintro ⟨hperms, hrd, hswp⟩
    exact ⟨fun _ => ⟨hperms, hrd⟩, nofun, hperms.trans hrd.symm, hswp⟩

theorem allOrNothing_failed (hm : m.Settled) :
    AllOrNothing m new (m', .failed) ↔ m' = m := by
  constructor
  · intro h
    obtain ⟨perms, rd, swp⟩ := m
    obtain ⟨perms', rd', swp'⟩ := m'
    obtain ⟨hperms, hrd⟩ := h.failed rfl
    have hclean := h.clean
    have hswp := hm.2
    simp_all
  · rintro rfl
    exact ⟨nofun, fun _ => ⟨rfl, rfl⟩, hm.1, hm.2⟩

/-- A failure behind the creation of the metadata. -/
theorem allOrNothing_created (hm : m.Settled) (swp : Option (List Byte)) :
    AllOrNothing m new (⟨some (m.perms.getD []), m.rd, swp⟩, .failed) ↔
      m.perms ≠ none ∧ swp = none := by
  rw [allOrNothing_failed hm]
  obtain ⟨perms, rd, swp'⟩ := m
  obtain ⟨rfl, rfl⟩ : perms = rd ∧ swp' = none := hm
  cases perms <;> simp

theorem allOrNothing_died :
    AllOrNothing m new (m', .died) ↔ m'.Settled :=
  ⟨fun h => ⟨h.equal, h.clean⟩, fun h => ⟨nofun, nofun, h.1, h.2⟩⟩

end

/-- The copying loop: it stops at the call that fails, dies at the first line without a
separator, and otherwise leaves out the lines of the identity. -/
theorem remLoop_eq (tok : List Byte) : ∀ (ls : List (List Byte)) (k : Option ℕ), remLoop tok k ls =
    if k.any (· < ((ls.takeWhile hasSep).filter (notOf tok)).length) then .failed
    else if ls.all hasSep then .done (keptLines tok ls) else .died := by
  intro ls
  induction ls with
  | nil =>
    intro k
    cases k <;> rfl
  | cons line ls ih =>
    intro k
    rw [remLoop]
    cases hsep : strchr fspermTok (cstr line) with
    | none =>
      have hno : hasSep line = false := by rw [hasSep, hsep]; rfl
      cases k <;> simp [hno]
    | some x =>
      have hyes : hasSep line = true := by rw [hasSep, hsep]; rfl
      have hof : notOf tok line = decide (x.1 ≠ tok) := by simp [notOf, hsep]
      by_cases hx : x.1 = tok
      · simp only [hx, if_true, ih k]
        simp [hyes, hof, hx, keptLines]
      · simp only [if_neg hx]
        cases k with
        | none =>
          rw [Option.map_none, ih none]
          by_cases hall : ls.all hasSep = true
          · simp [hyes, hof, hx, hall, keptLines]
          · simp [hyes, hall]
        | some k =>
          cases k with
          | zero => simp [hyes, hof, hx]
          | succ k =>
            rw [Option.map_some, ih (some (k + 1 - 1))]
            by_cases hk : k < ((ls.takeWhile hasSep).filter (notOf tok)).length
            · simp [hyes, hof, hx, hk]
            · by_cases hall : ls.all hasSep = true
              · simp [hyes, hof, hx, hk, hall, keptLines]
              · simp [hyes, hof, hx, hk, hall]

/-- The end of both commands. -/
theorem allOrNothing_replaceMeta (f : Option MetaFault) {m : MetaFiles} (hm : m.Settled)
    (perms : Option (List Byte)) (text : List Byte) (new : Option (List Byte)) :
    AllOrNothing m new (replaceMeta f ⟨perms, m.rd, some text⟩) ↔
      match f with
      | some .renameMeta => perms = m.perms
      | some (.copyRd .src) => False
      | some (.copyRd .write) => if text = [] then new = some text else m.perms = some text
      | some (.copyRd _) | some .renameRd => m.perms = some text
      | _ => new = some text := by
  obtain ⟨perms', rd, swp⟩ := m
  have hfailed (m' : MetaFiles) : AllOrNothing _ new (m', .failed) ↔ m' = _ := allOrNothing_failed hm
  obtain ⟨rfl, rfl⟩ : perms' = rd ∧ swp = none := hm
  have hok : AllOrNothing ⟨perms', perms', none⟩ new (⟨some text, some text, none⟩, .ok) ↔
      new = some text := by
    rw [allOrNothing_ok]
    exact ⟨fun h => h.1.symm, fun h => ⟨h.symm, h.symm, rfl⟩⟩
  have hback : AllOrNothing ⟨perms', perms', none⟩ new (⟨some text, perms', none⟩, .failed) ↔
      perms' = some text := by
    rw [hfailed]
    simp [eq_comm]
  cases f with
  | none => exact hok
  | some f =>
    cases f with
    | renameMeta =>
      show AllOrNothing _ new (⟨perms, perms', none⟩, .failed) ↔ _
      rw [hfailed]
      simp
    | copyRd c =>
      cases c with
      | src =>
        show AllOrNothing _ new (⟨some text, perms', some []⟩, .failed) ↔ _
        rw [hfailed]
        simp
      | dst => exact hback
      | read => exact hback
      | write =>
        by_cases htext : text = []
        · subst htext
          exact hok
        · show AllOrNothing _ new _ ↔ if text = [] then _ else _
          rw [if_neg htext]
          simpa [replaceMeta, cpfileTo, MetaFault.inCopyRd, htext] using hback
    | renameRd => exact hback
    | _ => exact hok

/-- `cmd_setfsperm` behind the copy of the metadata. -/
def setSearch (fsid tok : List Byte) (f : Option MetaFault) (m : MetaFiles) (file : List Byte) :
    MetaFiles × MetaReply :=
  match mayAppend fsid file with
  | none => (⟨some file, m.rd, some file⟩, .died)
  | some false => (⟨some file, m.rd, none⟩, .failed)
  | some true =>
    if (failingPut f).any (· < 2) then (⟨some file, m.rd, none⟩, .failed)
    else replaceMeta f ⟨some file, m.rd, some (file ++ flushed f (tok ++ [newline]))⟩

theorem setfsperm_eq_setSearch (fsid tok : List Byte) {f : Option MetaFault} (m : MetaFiles)
    (hopen : f ≠ some .openMeta) (hswap : f ≠ some .openSwap)
    (hcopy : cpfileTo (f.bind MetaFault.inCopy) (some (m.perms.getD [])) m.swp =
      (some (m.perms.getD []), true)) :
    setfsperm fsid tok f m = setSearch fsid tok f m (m.perms.getD []) := by
  unfold setfsperm setSearch
  rw [if_neg hopen]
  dsimp only
  rw [hcopy]
  simp only [Bool.not_true, Bool.false_eq_true, if_false, if_neg hswap]

/-- The failures that `cmd_setfsperm` survives once it may set the permission. -/
def AppendSafe (tok : List Byte) (f : Option MetaFault) (m : MetaFiles) : Prop :=
  if (failingPut f).any (· < 2) then m.perms ≠ none
  else
    match f with
    | some .renameMeta => m.perms ≠ none
    | some (.copyRd _) | some .renameRd => False
    | some (.flush k) => tok.length < k
    | _ => True

/-- Behind the copy the process must not die, and if the identity may set permissions, what
follows must not fail. -/
theorem allOrNothing_setSearch (fsid tok : List Byte) (f : Option MetaFault) {m : MetaFiles}
    (hm : m.Settled) :
    AllOrNothing m (updated m.perms (.set tok)) (setSearch fsid tok f m (m.perms.getD [])) ↔
      mayAppend fsid (m.perms.getD []) ≠ none ∧ (mayAppend fsid (m.perms.getD []) = some true →
        AppendSafe tok f m) := by
  have hgrown (text : List Byte) (hne : text ≠ []) : m.perms ≠ some (m.perms.getD [] ++ text) := by
    cases m.perms with
    | none => nofun
    | some file => simpa using hne
  unfold setSearch
  cases hmay : mayAppend fsid (m.perms.getD []) with
  | none =>
    rw [allOrNothing_died]
    simp [MetaFiles.Settled]
  | some b =>
    cases b with
    | false =>
      rw [allOrNothing_created hm]
      refine iff_of_true ⟨fun hnone => ?_, rfl⟩ ⟨nofun, nofun⟩
      rw [hnone] at hmay
      cases hmay
    | true =>
      simp only [ne_eq, reduceCtorEq, not_false_eq_true, true_and, forall_const, AppendSafe]
      split
      · rw [allOrNothing_created hm, and_iff_left rfl]
      · rw [allOrNothing_replaceMeta f hm]
        have hnew : updated m.perms (.set tok) = some (m.perms.getD [] ++ (tok ++ [newline])) := by
          rw [updated, List.append_assoc]
        have hback : m.perms = some (m.perms.getD [] ++ (tok ++ [newline])) ↔ False :=
          iff_false_intro (hgrown _ (by simp))
        cases f with
        | none => exact iff_true_intro hnew
        | some f =>
          cases f with
          | renameMeta => cases m.perms <;> simp
          | copyRd c =>
            cases c with
            | src => exact Iff.rfl
            | write =>
              rw [show flushed (some (.copyRd .write)) (tok ++ [newline]) = tok ++ [newline] from rfl]
              simpa using hback
            | _ => exact hback
          | renameRd => exact hback
          | flush k =>
            show updated m.perms (.set tok) = some (_ ++ (tok ++ [newline]).take k) ↔ tok.length < k
            rw [hnew, Option.some.injEq, List.append_right_inj, eq_comm, List.take_eq_self_iff,
              List.length_append, List.length_singleton, Nat.succ_le_iff]
          | _ => exact iff_true_intro hnew

/-- The faults that `cmd_setfsperm` meets behind the copy. -/
theorem allOrNothing_of_copied (fsid tok : List Byte) (f : Option MetaFault) {m : MetaFiles}
    (hm : m.Settled) (hopen : f ≠ some .openMeta) (hswap : f ≠ some .openSwap)
    (hcopy : cpfileTo (f.bind MetaFault.inCopy) (some (m.perms.getD [])) m.swp =
      (some (m.perms.getD []), true)) :
    AllOrNothing m (updated m.perms (.set tok)) (setfsperm fsid tok f m) ↔
      mayAppend fsid (m.perms.getD []) ≠ none ∧ (mayAppend fsid (m.perms.getD []) = some true →
        AppendSafe tok f m) := by
  rw [setfsperm_eq_setSearch fsid tok m hopen hswap hcopy]
  exact allOrNothing_setSearch fsid tok f hm

/-- A failure in the copy itself. -/
theorem allOrNothing_copy (fsid tok : List Byte) (c : CopyFault) {m : MetaFiles}
    (hm : m.Settled) :
    AllOrNothing m (updated m.perms (.set tok)) (setfsperm fsid tok (some (.copy c)) m) ↔
      SetSafe fsid tok (some (.copy c)) m := by
  cases c with
  | src =>
    apply (allOrNothing_created hm (some [])).trans
    simp [SetSafe]
  | dst =>
    apply (allOrNothing_created hm m.swp).trans
    simp [SetSafe, hm.2]
  | read =>
    apply (allOrNothing_created hm none).trans
    simp [SetSafe]
  | write =>
    by_cases hfile : m.perms.getD [] = []
    · -- nothing is written, so nothing fails
      apply (allOrNothing_of_copied fsid tok (some (.copy .write)) hm nofun nofun
        (by rw [hfile]; rfl)).trans
      simp [SetSafe, AppendSafe, failingPut, mayAppend, hfile]
    · have hset : setfsperm fsid tok (some (.copy .write)) m =
          (⟨some (m.perms.getD []), m.rd, none⟩, .failed) := by
        simp [setfsperm, cpfileTo, MetaFault.inCopy, hfile]
      rw [hset, allOrNothing_created hm]
      refine iff_of_true ⟨fun hnone => hfile ?_, rfl⟩ trivial
      rw [hnone]
      rfl

/-- **`SETFSPERM` is all-or-nothing exactly under these failures.** -/
theorem allOrNothing_setfsperm (fsid tok : List Byte) (f : Option MetaFault) {m : MetaFiles}
    (hm : m.Settled) :
    AllOrNothing m (updated m.perms (.set tok)) (setfsperm fsid tok f m) ↔ SetSafe fsid tok f m := by
  have hmay : m.perms = none → mayAppend fsid (m.perms.getD []) = some true := by
    intro hnone
    rw [hnone]
    rfl
  cases f with
  | none =>
    apply (allOrNothing_of_copied fsid tok none hm nofun nofun rfl).trans
    simp [SetSafe, AppendSafe, failingPut]
  | some f =>
    cases f with
    | openMeta => exact iff_of_true ((allOrNothing_failed hm).mpr rfl) trivial
    | copy c => exact allOrNothing_copy fsid tok c hm
    | openSwap =>
      apply (allOrNothing_created hm none).trans
      simp [SetSafe]
    | put k =>
      have hput : (failingPut (some (.put k))).any (· < 2) = decide (k < 2) := rfl
      apply (allOrNothing_of_copied fsid tok (some (.put k)) hm nofun nofun rfl).trans
      refine and_congr_right fun _ => ?_
      unfold AppendSafe
      by_cases hk : k < 2
      · rw [hput, if_pos (decide_eq_true hk)]
        exact ⟨fun h _ hnone => h (hmay hnone) hnone, fun h _ => h hk⟩
      · rw [hput, if_neg fun h => hk (of_decide_eq_true h)]
        exact iff_of_true (fun _ => trivial) fun h => absurd h hk
    | renameMeta =>
      apply (allOrNothing_of_copied fsid tok (some .renameMeta) hm nofun nofun rfl).trans
      refine and_congr_right fun _ => ?_
      exact ⟨fun h hnone => h (hmay hnone) hnone, fun h _ => h⟩
    | copyRd c =>
      apply (allOrNothing_of_copied fsid tok (some (.copyRd c)) hm nofun nofun rfl).trans
      show _ ∧ (_ → False) ↔ mayAppend fsid (m.perms.getD []) = some false
      rcases mayAppend fsid (m.perms.getD []) with _ | _ | _ <;> simp
    | renameRd =>
      apply (allOrNothing_of_copied fsid tok (some .renameRd) hm nofun nofun rfl).trans
      show _ ∧ (_ → False) ↔ mayAppend fsid (m.perms.getD []) = some false
      rcases mayAppend fsid (m.perms.getD []) with _ | _ | _ <;> simp
    | flush k => exact allOrNothing_of_copied fsid tok (some (.flush k)) hm nofun nofun rfl
    | lock | openRd | openPerm =>
      refine (allOrNothing_of_copied fsid tok _ hm ?_ ?_ ?_).trans ?_
      · nofun
      · nofun
      · rfl
      · simp [SetSafe, AppendSafe, failingPut]

/-- `cmd_remfsperm` behind the opening of the files: the process must not die, and what follows
must not fail. -/
theorem allOrNothing_remLoop (tok : List Byte) (f : Option MetaFault) {m : MetaFiles}
    (hm : m.Settled) {file : List Byte} (hfile : m.perms = some file) :
    AllOrNothing m (updated m.perms (.rem tok))
        (match remLoop tok (failingPut f) (lines newline lineMax file) with
        | .died => ({ m with swp := some [] }, .died)
        | .failed => ({ m with swp := none }, .failed)
        | .done kept => replaceMeta f { m with swp := some (flushed f kept) }) ↔
      (failingPut f).any
          (· < (((lines newline lineMax file).takeWhile hasSep).filter (notOf tok)).length) = true ∨
        (lines newline lineMax file).all hasSep = true ∧
          match f with
          | some (.copyRd .src) => False
          | some (.copyRd .write) => keptLines tok (lines newline lineMax file) = [] ∨
              keptLines tok (lines newline lineMax file) = file
          | some (.copyRd _) | some .renameRd => keptLines tok (lines newline lineMax file) = file
          | some (.flush k) => (keptLines tok (lines newline lineMax file)).length ≤ k
          | _ => True := by
  have hnew : updated m.perms (.rem tok) = some (keptLines tok (lines newline lineMax file)) := by
    rw [hfile]
    rfl
  generalize lines newline lineMax file = ls at hnew ⊢
  rw [remLoop_eq]
  by_cases hput : (failingPut f).any (· < ((ls.takeWhile hasSep).filter (notOf tok)).length) = true
  · rw [if_pos hput]
    exact iff_of_true ((allOrNothing_failed hm).mpr (by rw [← hm.2])) (.inl hput)
  · rw [if_neg hput]
    by_cases hall : ls.all hasSep = true
    · rw [if_pos hall]
      have hback : m.perms = some (keptLines tok ls) ↔ keptLines tok ls = file := by
        rw [hfile, Option.some.injEq, eq_comm]
      show AllOrNothing m _ (replaceMeta f ⟨m.perms, m.rd, some (flushed f (keptLines tok ls))⟩) ↔ _
      rw [allOrNothing_replaceMeta f hm, or_iff_right hput, and_iff_right hall]
      cases f with
      | none => exact iff_true_intro hnew
      | some f =>
        cases f with
        | renameMeta => exact iff_true_intro rfl
        | copyRd c =>
          cases c with
          | src => exact Iff.rfl
          | write =>
            show (if keptLines tok ls = [] then _ else _) ↔ _
            split
            · next hnil => exact iff_of_true hnew (.inl hnil)
            · next hnil => exact hback.trans (or_iff_right hnil).symm
          | _ => exact hback
        | renameRd => exact hback
        | flush k =>
          show updated m.perms (.rem tok) = some ((keptLines tok ls).take k) ↔ _
          rw [hnew, Option.some.injEq, eq_comm, List.take_eq_self_iff]
        | _ => exact iff_true_intro hnew
    · rw [if_neg hall]
      refine iff_of_false (fun h => ?_) (not_or.mpr ⟨hput, fun h => hall h.1⟩)
      exact absurd (allOrNothing_died.mp h).2 nofun

/-- **`REMFSPERM` is all-or-nothing exactly under these failures.** -/
theorem allOrNothing_remfsperm (fsid tok : List Byte) (f : Option MetaFault) {m : MetaFiles}
    (hm : m.Settled) :
    AllOrNothing m (updated m.perms (.rem tok)) (remfsperm fsid tok f m) ↔ RemSafe fsid tok f m := by
  unfold remfsperm RemSafe
  by_cases hperm : permIn (if f = some .openRd then none else m.rd) fsid &&& Secfs.remperm.bit = 0
  · rw [if_pos hperm]
    exact iff_of_true ((allOrNothing_failed hm).mpr rfl) fun h => absurd hperm h
  · rw [if_neg hperm, imp_iff_right hperm]
    -- the identity has its permission from the copy for the readers, so there are metadata
    obtain ⟨file, hfile⟩ : ∃ file, m.perms = some file := by
      rw [← Option.ne_none_iff_exists', hm.1]
      intro hnone
      apply hperm
      rw [hnone, ite_self]
      exact BitVec.zero_and
    by_cases hswap : f = some .openSwap
    · rw [if_pos hswap, hswap]
      exact iff_of_true (allOrNothing_died.mpr hm) trivial
    · rw [if_neg hswap]
      by_cases hopen : f = some .openPerm
      · rw [hopen]
        refine iff_of_false (fun h => ?_) id
        exact absurd (allOrNothing_died.mp h).2 nofun
      · have hloop := allOrNothing_remLoop tok f hm hfile
        simp only [if_neg hopen, hfile, Option.getD_some] at hloop ⊢
        apply hloop.trans
        cases f with
        | none => simp [failingPut]
        | some f =>
          cases f with
          | openSwap => exact absurd rfl hswap
          | openPerm => exact absurd rfl hopen
          | copyRd c => cases c <;> simp [failingPut]
          | _ => simp [failingPut]

/-- **A command is all-or-nothing exactly under the failures it survives.** -/
theorem allOrNothing_iff {m : MetaFiles} (hm : m.Settled) (st : MetaStep) :
    AllOrNothing m (updated m.perms st.cmd) (metaStep m st) ↔ SafeStep m st := by
  obtain ⟨cmd, fsid, f⟩ := st
  cases cmd with
  | set tok => exact allOrNothing_setfsperm fsid tok f hm
  | rem tok => exact allOrNothing_remfsperm fsid tok f hm

/-! ### Sequences of commands -/

theorem settled_of_safe (m : MetaFiles) (st : MetaStep) (m' : MetaFiles) (hm : m.Settled)
    (hsafe : SafeStep m st) (hnext : metaNext m st = some m') : m'.Settled := by
  obtain rfl : (metaStep m st).1 = m' := Option.some.inj hnext
  have h := (allOrNothing_iff hm st).mpr hsafe
  exact ⟨h.equal, h.clean⟩

/-- **The permissions of a directory.**  From files that are equal and without a swap file:
all commands of a sequence are all-or-nothing, and leave the files equal and no swap file,
exactly if all of them meet failures they survive. -/
theorem metadata_runs_iff {m : MetaFiles} (hm : m.Settled) (steps : List MetaStep) :
    (∀ before st after m', steps = before ++ st :: after → Runs.run metaNext m before = some m' →
      m'.Settled ∧ AllOrNothing m' (updated m'.perms st.cmd) (metaStep m' st)) ↔
      Runs.Meets metaNext SafeStep m steps := by
  constructor
  · intro h
    refine Runs.meets_of_forall fun before st after m' hsteps hrun => ?_
    obtain ⟨hm', hall⟩ := h before st after m' hsteps hrun
    exact (allOrNothing_iff hm' st).mp hall
  · rintro h before st after m' rfl hrun
    obtain ⟨hm', hsafe⟩ := Runs.step_of_run settled_of_safe hm h hrun
    exact ⟨hm', (allOrNothing_iff hm' st).mpr hsafe⟩

/-- The first permission of a directory is set; a second one is refused because the rename of
the swap file fails. -/
theorem metadata_runs_two : (⟨none, none, none⟩ : MetaFiles).Settled ∧
    ∀ before st after m', [⟨.set (lit "a:65535"), lit "a", none⟩,
        ⟨.set (lit "b:1"), lit "a", some .renameMeta⟩] = before ++ st :: after →
      Runs.run metaNext ⟨none, none, none⟩ before = some m' →
        m'.Settled ∧ AllOrNothing m' (updated m'.perms st.cmd) (metaStep m' st) := by
  refine ⟨⟨rfl, rfl⟩, (metadata_runs_iff ⟨rfl, rfl⟩ _).mpr
    ⟨?_, fun m hm => ⟨?_, fun _ _ => trivial⟩⟩⟩
  · show mayAppend (lit "a") [] ≠ none
    decide
  · have hfirst : metaNext ⟨none, none, none⟩ ⟨.set (lit "a:65535"), lit "a", none⟩ =
        some ⟨some (lit "a:65535\n"), some (lit "a:65535\n"), none⟩ := by decide +kernel
    rw [hfirst] at hm
    cases hm
    show mayAppend (lit "a") (lit "a:65535\n") ≠ none ∧ some (lit "a:65535\n") ≠ none
    decide +kernel

/-- The directory is protected, and `a` may set permissions in it. -/
def protectedFiles : MetaFiles := ⟨some (lit "a:65535\n"), some (lit "a:65535\n"), none⟩

/-- **A permission that is half set.**  The second rename fails: the reply is that nothing was
set, but the metadata have the permission, and the copy for the readers does not. -/
theorem setfsperm_half_set : protectedFiles.Settled ∧
    metaStep protectedFiles ⟨.set (lit "b:1"), lit "a", some .renameRd⟩ =
      (⟨some (lit "a:65535\nb:1\n"), some (lit "a:65535\n"), none⟩, .failed) ∧
    ¬ AllOrNothing protectedFiles (updated protectedFiles.perms (.set (lit "b:1")))
      (metaStep protectedFiles ⟨.set (lit "b:1"), lit "a", some .renameRd⟩) := by
  have hstep : metaStep protectedFiles ⟨.set (lit "b:1"), lit "a", some .renameRd⟩ =
      (⟨some (lit "a:65535\nb:1\n"), some (lit "a:65535\n"), none⟩, .failed) := by decide +kernel
  refine ⟨⟨rfl, rfl⟩, hstep, fun h => ?_⟩
  rw [hstep] at h
  exact absurd h.equal (by decide)

/-! ### The commands without a failure -/

theorem maySet_eq (fsid : List Byte) (ls : List (List Byte)) :
    maySet fsid ls = (selfLine fsid ls).join.any fun perm =>
      BitVec.ofInt 32 (atoi perm) &&& Secfs.setperm.bit ≠ 0 := by
  induction ls with
  | nil => rfl
  | cons line ls ih =>
    rw [maySet, selfLine]
    cases strchr fspermTok (cstr line) with
    | none =>
      by_cases hline : cstr line = fsid
      · simp [hline]
      · simpa [hline] using ih
    | some x =>
      by_cases hname : x.1 = fsid
      · simp [hname]
      · simpa [hname] using ih

theorem mayAppend_eq {fsid file : List Byte} (h : mayAppend fsid file ≠ none) :
    mayAppend fsid file =
      some (!decide (file ≠ [] ∧ (!maySet fsid (lines newline lineMax file)) = true)) := by
  unfold mayAppend at *
  by_cases hfile : file = []
  · simp [hfile]
  · rw [maySet_eq]
    simp only [if_neg hfile] at *
    revert h
    rcases selfLine fsid (lines newline lineMax file) with _ | _ | perm <;> simp [hfile]

theorem remLoop_none (tok : List Byte) (ls : List (List Byte)) :
    remLoop tok none ls = (remLines tok ls).elim .died .done := by
  induction ls with
  | nil => rfl
  | cons line ls ih =>
    rw [remLoop, remLines]
    cases strchr fspermTok (cstr line) with
    | none => rfl
    | some x =>
      by_cases hname : x.1 = tok
      · simpa [hname] using ih
      · simp only [if_neg hname, Option.map_none, ih]
        cases remLines tok ls <;> rfl

theorem remfsperm_none (fsid tok : List Byte) (m : MetaFiles) : remfsperm fsid tok none m =
    if permIn m.rd fsid &&& Secfs.remperm.bit = 0 then (m, .failed)
    else
      match m.perms with
      | none => ({ m with swp := some [] }, .died)
      | some file =>
        match remLines tok (lines newline lineMax file) with
        | none => ({ m with swp := some [] }, .died)
        | some kept => (⟨some kept, some kept, none⟩, .ok) := by
  unfold remfsperm
  apply if_congr Iff.rfl rfl
  show (match m.perms with | none => _ | some file => _) = _
  cases m.perms with
  | none => rfl
  | some file =>
    show (match remLoop tok none (lines newline lineMax file) with
      | .died => _ | .failed => _ | .done kept => _) = _
    rw [remLoop_none]
    dsimp only
    cases remLines tok (lines newline lineMax file) <;> rfl

/-- The files of a directory. -/
def metaFilesOf (fs : Fs) (dir : List Byte) : MetaFiles :=
  ⟨fs.read (metaFile dir), fs.read (rdFile dir), none⟩

theorem metaFilesOf_write (fs : Fs) (dir file : List Byte) :
    metaFilesOf (fs.write (metaFile dir) file) dir = ⟨some file, fs.read (rdFile dir), none⟩ := by
  simp only [metaFilesOf, Fs.write, Function.update_self,
    Function.update_of_ne (rdFile_ne_metaFile dir)]

theorem metaFilesOf_write_rd (fs : Fs) (dir file : List Byte) :
    metaFilesOf (fs.write (rdFile dir) file) dir = ⟨fs.read (metaFile dir), some file, none⟩ := by
  simp only [metaFilesOf, Fs.write, Function.update_self,
    Function.update_of_ne (rdFile_ne_metaFile dir).symm]

theorem read_write_metaFile (fs : Fs) (dir file : List Byte) :
    (fs.write (metaFile dir) file).read (metaFile dir) = some file := by
  simp only [Fs.write, Function.update_self]

/-- Every call succeeds. -/
def allGood : MetaIo := ⟨true, true, true, true, true⟩

section

variable {fs : Fs} {j : Jail} {arg beyond tok dir : List Byte} {c : JailRes}
  (harg : strchr blank arg = some (tok, dir))
  (hc : jaildir fs { j with fsopOvrr := 1 } dir beyond = c) (hok : c.ok = true)
  (hdir : fs.isDir c.dst = true)

include harg hc hok hdir in
/-- **`SETFSPERM` without a failure** is the command the map of the permissions was shown
for. -/
theorem cmdSetfsperm_eq (htok : fspermTok ∈ tok)
    (hlive : mayAppend c.jail.fsid ((fs.read (metaFile c.dst)).getD []) ≠ none) :
    metaFilesOf (cmdSetfsperm fs allGood j arg beyond).fs c.dst =
        (setfsperm c.jail.fsid tok none (metaFilesOf fs c.dst)).1 ∧
      (cmdSetfsperm fs allGood j arg beyond).reply =
        if (setfsperm c.jail.fsid tok none (metaFilesOf fs c.dst)).2 = .ok then cmdOkText
        else cmdFailText (lit "57 : Failed setting secure FS permission.") := by
  have hset : setfsperm c.jail.fsid tok none (metaFilesOf fs c.dst) =
      setSearch c.jail.fsid tok none (metaFilesOf fs c.dst) ((fs.read (metaFile c.dst)).getD []) :=
    setfsperm_eq_setSearch _ _ _ nofun nofun rfl
  have hmay := mayAppend_eq hlive
  rw [hset]
  simp only [cmdSetfsperm, harg, hc, allGood, hok, hdir, htok, not_true_eq_false, if_false,
    Bool.not_true, Bool.false_eq_true, Bool.or_self]
  generalize (fs.read (metaFile c.dst)).getD [] = file at hmay ⊢
  unfold setSearch
  rw [hmay]
  by_cases hdeny : file ≠ [] ∧ (!maySet c.jail.fsid (lines newline lineMax file)) = true
  · rw [if_pos hdeny, decide_eq_true hdeny]
    exact ⟨metaFilesOf_write fs c.dst file, rfl⟩
  · rw [if_neg hdeny, decide_eq_false hdeny]
    refine ⟨?_, rfl⟩
    rw [metaFilesOf_write_rd, read_write_metaFile, List.append_assoc]
    rfl

include harg hc hok hdir in
/-- **`REMFSPERM` without a failure** is that command, too. -/
theorem cmdRemfsperm_eq
    (hlive : (remfsperm c.jail.fsid tok none (metaFilesOf fs c.dst)).2 ≠ .died) :
    metaFilesOf (cmdRemfsperm fs allGood j arg beyond).fs c.dst =
        (remfsperm c.jail.fsid tok none (metaFilesOf fs c.dst)).1 ∧
      (cmdRemfsperm fs allGood j arg beyond).reply =
        if (remfsperm c.jail.fsid tok none (metaFilesOf fs c.dst)).2 = .ok then cmdOkText
        else cmdFailText (lit "58 : Failed removing secure FS permission.") := by
  simp only [cmdRemfsperm, harg, hc, allGood, hok, hdir, if_false, Bool.not_true,
    Bool.false_eq_true, Bool.or_self]
  rw [remfsperm_none] at hlive ⊢
  have hperm : permIn (metaFilesOf fs c.dst).rd c.jail.fsid =
      getfsidperm fs (rdFile c.dst) c.jail.fsid := rfl
  have hperms : (metaFilesOf fs c.dst).perms = fs.read (metaFile c.dst) := rfl
  rw [hperm, hperms] at hlive ⊢
  by_cases hbit : getfsidperm fs (rdFile c.dst) c.jail.fsid &&& Secfs.remperm.bit = 0
  · rw [if_pos hbit, if_pos hbit]
    exact ⟨rfl, rfl⟩
  · simp only [if_neg hbit] at hlive ⊢
    cases hfile : fs.read (metaFile c.dst) with
    | none =>
      rw [hfile] at hlive
      exact absurd rfl hlive
    | some file =>
      simp only [hfile] at hlive ⊢
      obtain ⟨kept, hkept⟩ : ∃ kept, remLines tok (lines newline lineMax file) = some kept := by
        rw [← Option.ne_none_iff_exists']
        intro hnone
        rw [hnone] at hlive
        exact hlive rfl
      simp only [hkept]
      refine ⟨?_, rfl⟩
      show metaFilesOf ((fs.write (metaFile c.dst) kept).write (rdFile c.dst) kept) c.dst = _
      rw [metaFilesOf_write_rd, read_write_metaFile]

end

end TFProtocol
