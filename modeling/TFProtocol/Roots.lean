import TFProtocol.Jail
import TFProtocol.Session

/-!
# Moving the root

Three commands replace `tfproto.dbdir` while a session runs.  `INJAIL` checks its
path with `jaildir` and appends a separator; `LOCKSYS` appends its argument to the
root with a separator in between, unchecked and without one behind it; `FLYCONTEXT`
checks its path and writes it again component by component.  `jaildir` itself
appends a client path to the root as it is, so all later checks rest on the
separator at the end of the root.

## Main definitions

* `Roots` — the jail and the three flags of the configuration.
* `cmdInjail`, `cmdLocksys`, `cmdFlycontext` — the handlers.
* `RootCmd`, `rootStep`, `rootRun` — sequences of these commands.
* `Confines` — no plain path leaves the root.
* `RootCmd.Descends` — an argument that does not climb.

## Main results

* `roots_shrink` — in a run of arguments that do not climb, every command leaves
  the root or moves it down, and the root confines plain paths.
-/

namespace TFProtocol

open Bytes CStr

/-- The jail, and the flags of the configuration that ask for its commands. -/
structure Roots where
  jail : Jail
  injail : Bool
  locksys : Bool
  flycontext : Bool
  deriving DecidableEq, Repr, Inhabited

/-- The reply of a command, and the state it leaves. -/
structure RootRes where
  reply : List Byte
  roots : Roots
  deriving DecidableEq, Repr

/-- `MULTIP_SEPS`. -/
def multipSeps : List Byte := lit " | "

/-- `JAIL_FILE`. -/
def jailFile : List Byte := lit "jail.key"

/-- A line without its newline, as the handlers cut it. -/
def chop (line : List Byte) : List Byte :=
  match strchr newline line with
  | some (text, _) => text
  | none => line

/-- The loop of `cmd_injail` over the lines of the token file. -/
def tokenListed (sectok file : List Byte) : Bool :=
  (lines newline lineMax file).any fun ln => chop (cstr ln) = sectok

/-- `cmd_injail`, on the text behind the command name. -/
def cmdInjail (fs : Fs) (r : Roots) (arg beyond : List Byte) : RootRes :=
  if !r.injail then ⟨cmdFailText (lit "51 : The process is already in-jailed."), r⟩
  else
    match strstr multipSeps arg with
    | none => ⟨cmdFailText (lit "16 : Missing parameter from command."), r⟩
    | some (sectok, dstp) =>
      let c := jaildir fs r.jail dstp beyond
      let r := { r with jail := c.jail }
      if !c.ok then ⟨cmdFailText (lit "1 : Access denied to location."), r⟩
      else
        let path := c.dst ++ [slash]
        match fs.read (path ++ jailFile) with
        | none => ⟨cmdFailText (lit "48 : Failed to open ACL file in jail directory."), r⟩
        | some file =>
          if tokenListed sectok file then
            ⟨cmdOkText, { r with jail := { r.jail with dbdir := path }, injail := false }⟩
          else ⟨cmdFailText (lit "49 : Invalid security token in jail directory."), r⟩

/-- `cmd_locksys`, on the text behind the command name. -/
def cmdLocksys (fs : Fs) (r : Roots) (arg : List Byte) : RootRes :=
  let hash := r.jail.dbdir ++ [slash] ++ arg
  if !fs.access r.jail.dbdir then ⟨cmdFailText (lit "9 : File does not exist."), r⟩
  else if !fs.isDir hash then ⟨cmdFailText (lit "10 : Directory does not exist."), r⟩
  else ⟨cmdOkText, { r with jail := { r.jail with dbdir := hash }, locksys := false }⟩

/-- The components `strtok(path, "/")` returns one after the other. -/
def strtokDirs (path : List Byte) : List (List Byte) :=
  (path.splitOn slash).filter fun c => decide (c ≠ [])

/-- The directory string `cmd_flycontext` builds. -/
def flyDir (path : List Byte) : List Byte :=
  [slash] ++ (strtokDirs path).flatMap (fun c => slash :: c) ++ [slash]

/-- `cmd_flycontext`, on the text behind the command name.  The file system is
`fs` at the check and `fs'` after the directories were created. -/
def cmdFlycontext (fs fs' : Fs) (r : Roots) (arg beyond : List Byte) : RootRes :=
  let c := jaildir fs r.jail arg beyond
  let r := { r with jail := c.jail }
  if !c.ok then ⟨cmdFailText (lit "1 : Access denied to location."), r⟩
  else
    let dir := flyDir c.dst
    if !fs'.access dir then ⟨cmdFailText (lit "65 : Unable to use the FlyContext System."), r⟩
    else ⟨cmdOkText, { r with jail := { r.jail with dbdir := dir }, flycontext := false }⟩

/-! ### Runs -/

/-- One of the three commands, with what it finds in the file system. -/
inductive RootCmd
  | injail (fs : Fs) (arg beyond : List Byte)
  | locksys (fs : Fs) (arg : List Byte)
  | flycontext (fs fs' : Fs) (arg beyond : List Byte)

/-- The result of one command. -/
def rootStep (r : Roots) : RootCmd → RootRes
  | .injail fs arg beyond => cmdInjail fs r arg beyond
  | .locksys fs arg => cmdLocksys fs r arg
  | .flycontext fs fs' arg beyond => cmdFlycontext fs fs' r arg beyond

/-- The state after a sequence of commands, successful or not. -/
def rootRun (r : Roots) (cmds : List RootCmd) : Roots :=
  cmds.foldl (fun r cmd => (rootStep r cmd).roots) r

/-- A path without the components `.` and `..`. -/
def Plain (p : List Byte) : Prop := ∀ c ∈ p.splitOn slash, c ≠ [dot] ∧ c ≠ dotdot

instance (p : List Byte) : Decidable (Plain p) :=
  inferInstanceAs (Decidable (∀ c ∈ p.splitOn slash, _))

/-- Every plain path that fits the buffers and is accepted leads inside the
root. -/
def Confines (j : Jail) : Prop :=
  ∀ (fs : Fs) (flags : BitVec 32 × BitVec 32) (p beyond : List Byte), Plain p →
    j.dbdir.length + p.length < pathMax →
    (jaildir fs { j with fsop := flags.1, fsopOvrr := flags.2 } p beyond).ok = true →
    Inside j.dbdir (jaildir fs { j with fsop := flags.1, fsopOvrr := flags.2 } p beyond).dst

/-- An argument that does not climb above where it starts, and keeps the root
open for what is appended to it. -/
def RootCmd.Descends : RootCmd → Prop
  | .injail _ arg _ =>
    ∀ sectok dstp, strstr multipSeps arg = some (sectok, dstp) →
      TFProtocol.Descends dstp ∧ dstp.length < pathMax
  | .locksys _ arg => TFProtocol.Descends arg ∧ (arg = [] ∨ arg.getLast? = some slash)
  | .flycontext _ _ arg _ => TFProtocol.Descends arg ∧ arg.length < pathMax

/-! ### One command -/

/-- A directory string that ends in a separator. -/
def Closed (d : List Byte) : Prop := ∃ a, d = a ++ [slash]

/-- Appending a path that does not climb to a closed root. -/
theorem Closed.inside_append {d p : List Byte} (hd : Closed d) (hp : Descends p) :
    Inside d (d ++ p) := by
  obtain ⟨a, rfl⟩ := hd
  have h : LexPath.Inside slash dot a (a ++ slash :: p) := LexPath.inside_append a hp
  unfold Inside LexPath.Inside at h ⊢
  rwa [LexPath.resolve_concat_sep, List.append_assoc, List.singleton_append]

/-- A separator behind a path does not move it. -/
theorem Inside.concat_slash {d p : List Byte} (h : Inside d p) : Inside d (p ++ [slash]) := by
  unfold Inside LexPath.Inside at h ⊢
  rwa [LexPath.resolve_concat_sep]

/-- The string `cmd_flycontext` builds leads where the checked path leads. -/
theorem resolve_flyDir (path : List Byte) :
    LexPath.resolve slash dot (flyDir path) = LexPath.resolve slash dot path := by
  have hcomps : LexPath.comps slash dot (flyDir path) = LexPath.comps slash dot path := by
    rw [flyDir, LexPath.comps_concat_sep, LexPath.comps_append_flatMap, LexPath.comps_cons_sep,
      LexPath.comps_nil, List.nil_append]
    exact LexPath.flatMap_comps_splitOn path
  rw [LexPath.resolve, hcomps]
  rfl

/-- What a command can do to the root: nothing, or replace it by what its
argument says. -/
theorem rootStep_dbdir (r : Roots) (cmd : RootCmd) :
    (rootStep r cmd).roots.jail.dbdir = r.jail.dbdir ∨
      match cmd with
      | .injail _ arg beyond => ∃ sectok dstp, strstr multipSeps arg = some (sectok, dstp) ∧
          (rootStep r cmd).roots.jail.dbdir = jailed r.jail.dbdir dstp beyond ++ [slash]
      | .locksys _ arg => (rootStep r cmd).roots.jail.dbdir = r.jail.dbdir ++ [slash] ++ arg
      | .flycontext _ _ arg beyond =>
          (rootStep r cmd).roots.jail.dbdir = flyDir (jailed r.jail.dbdir arg beyond) := by
  cases cmd with
  | injail fs arg beyond =>
    simp only [rootStep, cmdInjail]
    split
    · exact .inl rfl
    · cases hsplit : strstr multipSeps arg with
      | none => exact .inl rfl
      | some parts =>
        obtain ⟨sectok, dstp⟩ := parts
        simp only
        split
        · exact .inl (by rw [jaildir_jail])
        · split
          · exact .inl (by rw [jaildir_jail])
          · split
            · exact .inr ⟨sectok, dstp, rfl, by simp only [jaildir_dst]⟩
            · exact .inl (by simp only [jaildir_jail])
  | locksys fs arg =>
    simp only [rootStep, cmdLocksys]
    split
    · exact .inl rfl
    · split
      · exact .inl rfl
      · exact .inr rfl
  | flycontext fs fs' arg beyond =>
    simp only [rootStep, cmdFlycontext]
    split
    · exact .inl (by rw [jaildir_jail])
    · split
      · exact .inl (by rw [jaildir_jail])
      · exact .inr (by simp only [jaildir_dst])

/-- **One command whose argument does not climb** leaves the root or moves it
down, and the root stays closed. -/
theorem rootStep_shrinks {r : Roots} (hr : Closed r.jail.dbdir) {cmd : RootCmd}
    (hcmd : cmd.Descends) :
    Inside r.jail.dbdir (rootStep r cmd).roots.jail.dbdir ∧
      Closed (rootStep r cmd).roots.jail.dbdir := by
  obtain hsame | hmove := rootStep_dbdir r cmd
  · rw [hsame]
    exact ⟨LexPath.Inside.refl _, hr⟩
  cases cmd with
  | injail fs arg beyond =>
    obtain ⟨sectok, dstp, hsplit, hroot⟩ := hmove
    obtain ⟨hdesc, hlen⟩ := hcmd sectok dstp hsplit
    rw [hroot, jailed_of_lt hlen]
    exact ⟨(hr.inside_append hdesc).concat_slash, _, rfl⟩
  | locksys fs arg =>
    obtain ⟨hdesc, hend⟩ := hcmd
    dsimp only at hmove
    rw [hmove, List.append_assoc, List.singleton_append]
    refine ⟨LexPath.inside_append _ hdesc, ?_⟩
    -- `cmd_locksys` adds no separator: the root is closed only if the argument closes it
    obtain rfl | hend := hend
    · exact ⟨_, rfl⟩
    · obtain ⟨a, rfl⟩ := List.getLast?_eq_some_iff.mp hend
      exact ⟨r.jail.dbdir ++ slash :: a, by simp⟩
  | flycontext fs fs' arg beyond =>
    obtain ⟨hdesc, hlen⟩ := hcmd
    dsimp only at hmove
    rw [hmove, jailed_of_lt hlen]
    refine ⟨?_, _, rfl⟩
    unfold Inside LexPath.Inside
    rw [resolve_flyDir]
    exact hr.inside_append hdesc

/-- A closed root confines plain paths. -/
theorem Closed.confines {j : Jail} (h : Closed j.dbdir) : Confines j := by
  intro fs flags p beyond hplain hlen _
  rw [jaildir_dst, jailed_of_lt (by omega)]
  apply h.inside_append
  apply LexPath.descends_of_not_mem
  intro hmem
  exact (hplain _ (List.mem_of_mem_filter hmem)).2 rfl

/-! ### Runs -/

/-- A run of arguments that do not climb keeps the root closed. -/
theorem rootRun_closed : ∀ (cmds : List RootCmd) (r : Roots), Closed r.jail.dbdir →
    (∀ cmd ∈ cmds, cmd.Descends) → Closed (rootRun r cmds).jail.dbdir := by
  intro cmds
  induction cmds with
  | nil => intro r hr _; exact hr
  | cons cmd cmds ih =>
    intro r hr hcmds
    exact ih _ (rootStep_shrinks hr (hcmds cmd List.mem_cons_self)).2
      fun c hc => hcmds c (List.mem_cons_of_mem _ hc)

/-- **Roots only shrink, in every run of arguments that do not climb.**  Whatever
commands came before, each command leaves the root where it is or moves it below
itself, and afterwards every plain path that is accepted leads inside the root. -/
theorem roots_shrink {r : Roots} (hr : IsRoot r.jail.dbdir) {cmds : List RootCmd}
    (hcmds : ∀ cmd ∈ cmds, cmd.Descends) :
    ∀ before cmd after, cmds = before ++ cmd :: after →
      Inside (rootRun r before).jail.dbdir (rootStep (rootRun r before) cmd).roots.jail.dbdir ∧
        Confines (rootStep (rootRun r before) cmd).roots.jail := by
  rintro before cmd after rfl
  have hbefore : Closed (rootRun r before).jail.dbdir :=
    rootRun_closed before r hr.exists_eq fun c hc => hcmds c (List.mem_append_left _ hc)
  obtain ⟨hinside, hclosed⟩ :=
    rootStep_shrinks hbefore (hcmds cmd (List.mem_append_right _ List.mem_cons_self))
  exact ⟨hinside, hclosed.confines⟩

/-- The server of `exampleJail` with every gate closed. -/
def exampleRoots : Roots := ⟨exampleJail, true, true, true⟩

theorem roots_shrink_example :
    Inside (lit "/srv/") (rootStep exampleRoots
        (.locksys (Fs.ofDirs [lit "/srv/", lit "/srv//f/"]) (lit "f/"))).roots.jail.dbdir ∧
      (rootStep exampleRoots
        (.locksys (Fs.ofDirs [lit "/srv/", lit "/srv//f/"]) (lit "f/"))).roots.jail.dbdir
          = lit "/srv//f/" := by
  refine ⟨?_, by decide⟩
  have hdescends : ∀ cmd ∈ [RootCmd.locksys (Fs.ofDirs [lit "/srv/", lit "/srv//f/"]) (lit "f/")],
      cmd.Descends := by
    simp only [List.mem_singleton, forall_eq, RootCmd.Descends]
    decide
  exact (roots_shrink (r := exampleRoots) exampleJail_isRoot hdescends [] _ [] rfl).1

/-- After `LOCKSYS f` the client names a file of the sibling folder `foo`, and
`LOCKSYS ..` moves the root to its parent. -/
theorem locksys_leaves_root :
    let fs := Fs.ofDirs [lit "/srv/", lit "/srv//f", lit "/srv//.."]
    let r := (rootStep exampleRoots (.locksys fs (lit "f"))).roots
    r.jail.dbdir = lit "/srv//f" ∧ Plain (lit "oo/x") ∧
      (jaildir fs r.jail (lit "oo/x") []).ok = true ∧
      ¬ Inside r.jail.dbdir (jaildir fs r.jail (lit "oo/x") []).dst ∧
      ¬ Inside (lit "/srv/") (rootStep exampleRoots (.locksys fs (lit ".."))).roots.jail.dbdir := by
  decide

end TFProtocol
