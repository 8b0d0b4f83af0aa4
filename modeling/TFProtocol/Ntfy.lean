import TFProtocol.OkReplies
import TFProtocol.Lib.Runs

/-!
# Directory notifications

`cmd_addntfy` adds a directory and a symbol to the list of `ntfy.c`, and `cmd_startntfy` goes
through the list again and again.  For each entry it looks for the first name in the directory
that starts with the symbol, tells the client of it and waits for the answer: `DEL` removes
the file, `END` ends the session, and anything else leaves the file where it is.

`findntfy` closes the directory only if it finds nothing, and it asks `stat` about the
directory where it means the file, so that a subdirectory is reported like a file.

Other processes change the directories at any time.

## Main definitions

* `cmdAddntfy`, `register` — the list of watched directories.
* `findntfy`, `ntNext` — a look into a directory, and the loop, step by step.
* `NtInv` — what holds of the log of a session.

## Main results

* `ntfy_confined` — what is removed was reported in the message before, starts with the
  symbol, stands directly in a watched directory, and is inside the root unless a client
  asked to watch `..`.
* `ntfy_leaks` — every report costs a descriptor: there are at most as many as were free,
  and the look behind the last one uses a null directory.
-/

namespace TFProtocol

open Bytes CStr

/-! ### The list -/

/-- `CMD_EADDNTFY`. -/
def cmdEaddntfy : List Byte := lit "5 : Error adding new notification to listen."

/-- What `cmd_addntfy` finds around it. -/
structure AddntfyEnv where
  fs : Fs
  beyond : List Byte
  /-- `realloc` succeeds. -/
  alloc : Bool

/-- `cmd_addntfy`, on the memory behind the name of the command: the reply, the list and the
globals of the jail. -/
def cmdAddntfy (e : AddntfyEnv) (j : Jail) (ws : List Watch) (mem : List Byte) :
    List Byte × List Watch × Jail :=
  if h : chksym (cstr (addntfySym mem)) = true then
    let c := jaildir e.fs j (addntfyPath mem) e.beyond
    if c.ok then
      if e.fs.access c.dst && e.alloc then
        (cmdOkText, ws ++ [⟨c.dst ++ [slash], cstr (addntfySym mem), h, length_addntfySym mem⟩],
          c.jail)
      else (cmdFailText cmdEaddntfy, ws, c.jail)
    else (cmdFailText cmdEaccess, ws, c.jail)
  else (cmdFailText cmdEaddntfy, ws, j)

/-- It is the command of a session on the files of the session. -/
theorem cmdAddntfyTree_eq (w : CoreEnv) (s : CoreSt) (mem : List Byte) (alloc : Bool) :
    let r := cmdAddntfy ⟨treeFs s.tree, w.beyond .addntfy, alloc⟩ s.jail s.ntfy mem
    cmdAddntfyTree w s mem alloc =
      { s with ntfy := r.2.1, roots := { s.roots with jail := r.2.2 } } := by
  have hcheck : check w s .addntfy (addntfyPath mem) =
      jaildir (treeFs s.tree) s.jail (addntfyPath mem) (w.beyond .addntfy) := rfl
  simp only [cmdAddntfyTree, cmdAddntfy, hcheck]
  generalize jaildir (treeFs s.tree) s.jail (addntfyPath mem) (w.beyond .addntfy) = c
  split
  · cases c.ok <;> cases hacc : (treeFs s.tree).access c.dst <;> cases alloc <;>
      simp [CoreSt.after, hacc]
  · rfl

/-- The list, and the globals of the jail, after some requests. -/
def register (r : List Watch × Jail) (reqs : List (AddntfyEnv × List Byte)) : List Watch × Jail :=
  reqs.foldl (fun r req => (cmdAddntfy req.1 r.2 r.1 req.2).2) r

/-! ### The directories -/

/-- An entry of a directory, as `readdir` returns it. -/
structure DirEnt where
  name : List Byte
  isDir : Bool
  proper : name ≠ [] ∧ slash ∉ name
  deriving DecidableEq

/-- The directories that paths lead to, and what is in them. -/
structure NtFs where
  opens : List Byte → Option ℕ
  ents : ℕ → List DirEnt

/-- `unlink` of a name in a directory, which fails on a directory. -/
def NtFs.unlink (f : NtFs) (dir name : List Byte) : NtFs :=
  match f.opens dir with
  | some k =>
    { f with
      ents := Function.update f.ents k ((f.ents k).filter fun e => e.name ≠ name || e.isDir) }
  | none => f

/-- `findntfy`: what it stores in `flnam`, if it returns `1`. -/
def findntfy (es : List DirEnt) (sym : List Byte) : Option (List Byte) :=
  (es.find? fun e => symMatches sym e.name).map fun e => strcpySec e.name nameMax

/-! ### The loop -/

/-- What passes between the server and the client, and what is removed. -/
inductive NtEv
  /-- The message `<i> <name>`. -/
  | sent (i : ℕ) (name : List Byte)
  | got (text : List Byte)
  | unlink (path : List Byte)
  deriving DecidableEq, Repr

/-- The state of a session in `cmd_startntfy`. -/
structure Nt where
  fs : NtFs
  /-- The index of `chkact`. -/
  pos : ℕ
  /-- `flnam`, while the answer of the client is awaited. -/
  asked : Option (List Byte)
  loop : Bool
  /-- `readdir` was called on a null pointer. -/
  crashed : Bool
  /-- How many descriptors the process may still open. -/
  fds : ℕ
  log : List NtEv

/-- A step of the session, or of another process. -/
inductive NtAct
  | look
  /-- The answer, if the report could be sent and the answer be read. -/
  | answer (text : Option (List Byte))
  /-- The end of `chkact`, and whether the client is still there. -/
  | turn (alive : Bool)
  | others (fs : NtFs)

/-- The session enters the loop. -/
def Nt.start (fs : NtFs) (fds : ℕ) : Nt := ⟨fs, 0, none, true, false, fds, []⟩

/-- One step, with the list given. -/
def ntNext (ws : List Watch) (s : Nt) : NtAct → Option Nt
  | .look =>
    if s.loop && !s.crashed && s.asked.isNone then
      ws[s.pos]?.map fun w =>
        match if s.fds = 0 then none else s.fs.opens w.path with
        | none => { s with crashed := true }
        | some k =>
          match findntfy (s.fs.ents k) w.sym with
          | some name =>
            -- it returns without `closedir`
            { s with fds := s.fds - 1, asked := some name, log := s.log ++ [.sent s.pos name] }
          | none => { s with pos := s.pos + 1 }
    else none
  | .answer text =>
    s.asked.bind fun name => ws[s.pos]?.map fun w =>
      match text with
      | none => { s with asked := none, loop := false }
      | some text =>
        let s := { s with asked := none, log := s.log ++ [NtEv.got text] }
        let cmd := cmdtoupper text
        if cmd = lit "END" then { s with loop := false }
        else if cmd = lit "DEL" then
          { s with
            fs := s.fs.unlink w.path name, pos := s.pos + 1
            log := s.log ++ [NtEv.unlink (w.path ++ name)] }
        else { s with pos := s.pos + 1 }
  | .turn alive =>
    if s.loop && !s.crashed && s.asked.isNone && ws[s.pos]?.isNone then
      some { s with pos := 0, loop := alive }
    else none
  | .others fs => some { s with fs := fs }

/-! ### What is removed -/

/-- A name that stands for an entry of its directory. -/
structure EntryName (name : List Byte) : Prop where
  ne : name ≠ []
  noSlash : slash ∉ name
  noDot : name ≠ [dot]
  noDots : name ≠ dotdot

theorem symMatches_iff {sym name : List Byte} :
    symMatches sym name = true ↔ name ≠ [dot] ∧ name ≠ dotdot ∧ sym <+: name := by
  have hpre : ((strstr sym name).any fun r => r.1 = []) = true ↔ sym <+: name := by
    constructor
    · intro h
      cases hs : strstr sym name with
      | none => simp [hs] at h
      | some r =>
        have hr : r.1 = [] := by simpa [hs] using h
        have := eq_of_strstr (a := r.1) (b := r.2) hs
        rw [hr, List.nil_append] at this
        exact ⟨r.2, this.symm⟩
    · rintro ⟨rest, rfl⟩
      rw [strstr_append_self]
      rfl
  rw [symMatches, Bool.and_eq_true, Bool.and_eq_true, hpre]
  simp [and_assoc]

/-- What `findntfy` stores is a name that starts with the symbol; a name of `NAME_MAX` characters
loses its last one. -/
theorem findntfy_spec {es : List DirEnt} {sym name : List Byte} (hsym : sym.length < ntfySymlen)
    (h : findntfy es sym = some name) : sym <+: name ∧ EntryName name := by
  obtain ⟨e, he, rfl⟩ := Option.map_eq_some_iff.mp h
  have hmatch : symMatches sym e.name = true :=
    List.find?_some (p := fun e : DirEnt => symMatches sym e.name) he
  obtain ⟨hdot, hdots, hpre⟩ := symMatches_iff.mp hmatch
  obtain ⟨hne, hslash⟩ := e.proper
  have hlong : strcpySec e.name nameMax = e.name ∨ (strcpySec e.name nameMax).length = 254 := by
    simp only [strcpySec, nameMax, List.length_take]
    rcases Nat.lt_or_ge 254 e.name.length with hlt | hle
    · exact .inr (by omega)
    · exact .inl (List.take_of_length_le hle)
  have hbig : ∀ l : List Byte, l.length < 254 →
      (strcpySec e.name nameMax).length = 254 → strcpySec e.name nameMax ≠ l := by
    rintro l hl h254 rfl
    omega
  refine ⟨?_, ?_, fun hmem => hslash (List.mem_of_mem_take hmem), ?_, ?_⟩
  · refine List.prefix_of_prefix_length_le hpre (List.take_prefix _ _) ?_
    rcases hlong with heq | h254
    · rw [heq]
      exact hpre.length_le
    · rw [h254]
      simp only [ntfySymlen] at hsym
      omega
  · rcases hlong with heq | h254
    · rwa [heq]
    · exact hbig [] (by decide) h254
  · rcases hlong with heq | h254
    · rwa [heq]
    · exact hbig [dot] (by decide) h254
  · rcases hlong with heq | h254
    · rwa [heq]
    · exact hbig dotdot (by decide) h254

variable {ws : List Watch} {s t : Nt}

/-- What a step can do. -/
inductive NtStep (ws : List Watch) (s : Nt) : Nt → Prop
  | crash (w : Watch) (hw : ws[s.pos]? = some w)
      (h : s.fds = 0 ∨ s.fs.opens w.path = none) : NtStep ws s { s with crashed := true }
  | found (w : Watch) (k : ℕ) (name : List Byte) (hw : ws[s.pos]? = some w)
      (hfds : s.fds ≠ 0) (hk : s.fs.opens w.path = some k)
      (h : findntfy (s.fs.ents k) w.sym = some name) :
      NtStep ws s
        { s with fds := s.fds - 1, asked := some name, log := s.log ++ [.sent s.pos name] }
  | past (w : Watch) (k : ℕ) (hw : ws[s.pos]? = some w) (hasked : s.asked = none)
      (hk : s.fs.opens w.path = some k) (h : findntfy (s.fs.ents k) w.sym = none) :
      NtStep ws s { s with pos := s.pos + 1 }
  | lost : NtStep ws s { s with asked := none, loop := false }
  | ended (text : List Byte) (h : cmdtoupper text = lit "END") :
      NtStep ws s { s with asked := none, loop := false, log := s.log ++ [.got text] }
  | deleted (w : Watch) (name text : List Byte) (hw : ws[s.pos]? = some w)
      (hasked : s.asked = some name) (h : cmdtoupper text = lit "DEL") :
      NtStep ws s { s with
        asked := none, fs := s.fs.unlink w.path name, pos := s.pos + 1
        log := s.log ++ [.got text] ++ [.unlink (w.path ++ name)] }
  | kept (text : List Byte) (h : cmdtoupper text ≠ lit "DEL") :
      NtStep ws s { s with asked := none, pos := s.pos + 1, log := s.log ++ [.got text] }
  | turned (alive : Bool) (hasked : s.asked = none) :
      NtStep ws s { s with pos := 0, loop := alive }
  | others (fs : NtFs) : NtStep ws s { s with fs := fs }

theorem ntNext_step {a : NtAct} (h : ntNext ws s a = some t) : NtStep ws s t := by
  cases a with
  | look =>
    rw [ntNext] at h
    split at h
    · next hrun =>
      obtain ⟨w, hw, rfl⟩ := Option.map_eq_some_iff.mp h
      have hasked : s.asked = none := by
        simpa using (Bool.and_eq_true_iff.mp hrun).2
      by_cases hfds : s.fds = 0
      · rw [if_pos hfds]
        exact .crash w hw (.inl hfds)
      · rw [if_neg hfds]
        cases hk : s.fs.opens w.path with
        | none => exact .crash w hw (.inr hk)
        | some k =>
          cases hf : findntfy (s.fs.ents k) w.sym with
          | none => simpa only [hf] using .past w k hw hasked hk hf
          | some name => simpa only [hf] using .found w k name hw hfds hk hf
    · cases h
  | answer text =>
    obtain ⟨name, hname, h⟩ := Option.bind_eq_some_iff.mp h
    obtain ⟨w, hw, rfl⟩ := Option.map_eq_some_iff.mp h
    cases text with
    | none => exact .lost
    | some text =>
      by_cases hend : cmdtoupper text = lit "END"
      · simpa only [hend, if_true] using .ended text hend
      · by_cases hdel : cmdtoupper text = lit "DEL"
        · simpa only [if_neg hend, if_pos hdel] using .deleted w name text hw hname hdel
        · simpa only [if_neg hend, if_neg hdel] using .kept text hdel
  | turn alive =>
    rw [ntNext] at h
    split at h
    · next hrun =>
      obtain rfl := Option.some.inj h
      simp only [Bool.and_eq_true, Option.isNone_iff_eq_none] at hrun
      exact .turned alive hrun.1.2
    · cases h
  | others fs =>
    obtain rfl := Option.some.inj h
    exact .others fs

/-- The removal of a path follows from what was said right before it. -/
def Removed (ws : List Watch) (pre : List NtEv) (path : List Byte) : Prop :=
  ∃ (before : List NtEv) (i : ℕ) (w : Watch) (name text : List Byte),
    pre = before ++ [.sent i name, .got text] ∧ cmdtoupper text = lit "DEL" ∧ ws[i]? = some w ∧
      path = w.path ++ name ∧ w.sym <+: name ∧ EntryName name

/-- The event is a report. -/
def NtEv.isSent : NtEv → Bool
  | sent _ _ => true
  | _ => false

/-- What holds of the log, with the descriptors that were free at the start. -/
structure NtInv (ws : List Watch) (n : ℕ) (s : Nt) : Prop where
  asked : ∀ name, s.asked = some name → ∃ (before : List NtEv) (w : Watch),
    s.log = before ++ [.sent s.pos name] ∧ ws[s.pos]? = some w ∧ w.sym <+: name ∧ EntryName name
  removed : ∀ pre path post, s.log = pre ++ .unlink path :: post → Removed ws pre path
  fds : s.fds + s.log.countP NtEv.isSent = n

theorem start_ntInv (fs : NtFs) (n : ℕ) : NtInv ws n (.start fs n) where
  asked := nofun
  removed := fun pre path post h => by simp [Nt.start] at h
  fds := rfl

/-- An event that removes nothing is written. -/
theorem removed_concat {log : List NtEv} {e : NtEv} (he : ∀ path, e ≠ .unlink path)
    (h : ∀ pre path post, log = pre ++ .unlink path :: post → Removed ws pre path) :
    ∀ pre path post, log ++ [e] = pre ++ .unlink path :: post → Removed ws pre path := by
  intro pre path post heq
  obtain rfl | ⟨post', x, rfl⟩ := List.eq_nil_or_concat post
  · exact absurd (List.append_inj_right' heq rfl) (by simpa using he path)
  · rw [List.concat_eq_append, ← List.cons_append, ← List.append_assoc] at heq
    exact h pre path post' (List.append_inj_left' heq rfl)

theorem NtStep.ntInv {n : ℕ} (hs : NtInv ws n s) (h : NtStep ws s t) : NtInv ws n t := by
  obtain ⟨hasked, hrem, hfds⟩ := hs
  cases h with
  | crash w hw h => exact ⟨hasked, hrem, hfds⟩
  | found w k name hw hne hk h =>
    obtain ⟨hpre, hplain⟩ := findntfy_spec w.fits h
    refine ⟨fun name' hname => ?_, removed_concat (fun _ => NtEv.noConfusion) hrem, ?_⟩
    · obtain rfl := Option.some.inj hname
      exact ⟨s.log, w, rfl, hw, hpre, hplain⟩
    · simp only [List.countP_append, List.countP_singleton, NtEv.isSent, if_true]
      omega
  | past w k hw hnone hk h => exact ⟨by simp [hnone], hrem, hfds⟩
  | lost => exact ⟨nofun, hrem, hfds⟩
  | ended text h =>
    refine ⟨nofun, removed_concat (fun _ => NtEv.noConfusion) hrem, ?_⟩
    simpa [List.countP_append, NtEv.isSent] using hfds
  | deleted w name text hw hname h =>
    obtain ⟨before, w', hlog, hw', hpre, hplain⟩ := hasked name hname
    obtain rfl : w = w' := Option.some.inj (hw.symm.trans hw')
    refine ⟨nofun, fun pre path post heq => ?_, ?_⟩
    · obtain rfl | ⟨post', x, rfl⟩ := List.eq_nil_or_concat post
      · obtain ⟨hpre', hpath⟩ := List.append_inj' heq rfl
        obtain rfl : w.path ++ name = path := by simpa using hpath
        refine ⟨before, s.pos, w, name, text, ?_, h, hw, rfl, hpre, hplain⟩
        rw [← hpre', hlog, List.append_assoc]
        rfl
      · rw [List.concat_eq_append, ← List.cons_append, ← List.append_assoc] at heq
        exact removed_concat (fun _ => NtEv.noConfusion) hrem pre path post'
          (List.append_inj_left' heq rfl)
    · simpa [List.countP_append, NtEv.isSent] using hfds
  | kept text h =>
    refine ⟨nofun, removed_concat (fun _ => NtEv.noConfusion) hrem, ?_⟩
    simpa [List.countP_append, NtEv.isSent] using hfds
  | turned alive hnone => exact ⟨by simp [hnone], hrem, hfds⟩
  | others fs => exact ⟨hasked, hrem, hfds⟩

theorem run_ntInv {acts : List NtAct} {fs : NtFs} {n : ℕ}
    (hrun : Runs.run (ntNext ws) (.start fs n) acts = some t) : NtInv ws n t :=
  Runs.inv_of_all (fun _ _ _ h hnext => (ntNext_step hnext).ntInv h) (start_ntInv fs n) hrun

/-! ### Where it is -/

/-- What `cmd_addntfy` does to the list. -/
theorem cmdAddntfy_spec (e : AddntfyEnv) (j : Jail) (ws : List Watch) (mem : List Byte) :
    (cmdAddntfy e j ws mem).2.2.dbdir = j.dbdir ∧
      ((cmdAddntfy e j ws mem).2.1 = ws ∨
        ∃ w : Watch, (cmdAddntfy e j ws mem).2.1 = ws ++ [w] ∧
          (jaildir e.fs j (addntfyPath mem) e.beyond).ok = true ∧
          w.path = (jaildir e.fs j (addntfyPath mem) e.beyond).dst ++ [slash]) := by
  have hdb : (jaildir e.fs j (addntfyPath mem) e.beyond).jail.dbdir = j.dbdir := by
    rw [jaildir_jail]
  simp only [cmdAddntfy]
  split
  · split
    · next hok =>
      split
      · exact ⟨hdb, .inr ⟨_, rfl, hok, rfl⟩⟩
      · exact ⟨hdb, .inl rfl⟩
    · exact ⟨hdb, .inl rfl⟩
  · exact ⟨rfl, .inl rfl⟩

/-- The directory of an entry of the list passed the jail. -/
def FromJail (dbdir : List Byte) (reqs : List (AddntfyEnv × List Byte)) (w : Watch) : Prop :=
  ∃ req ∈ reqs, ∃ j : Jail, j.dbdir = dbdir ∧
    (jaildir req.1.fs j (addntfyPath req.2) req.1.beyond).ok = true ∧
    w.path = (jaildir req.1.fs j (addntfyPath req.2) req.1.beyond).dst ++ [slash]

/-- **Every directory on the list passed the jail.** -/
theorem register_fromJail : ∀ (reqs all : List (AddntfyEnv × List Byte)) (ws : List Watch)
    (j : Jail), (∀ req ∈ reqs, req ∈ all) → (∀ w ∈ ws, FromJail j.dbdir all w) →
      ∀ w ∈ (register (ws, j) reqs).1, FromJail j.dbdir all w := by
  intro reqs
  induction reqs with
  | nil => intro all ws j _ hws; exact hws
  | cons req reqs ih =>
    intro all ws j hall hws
    obtain ⟨hdb, hlist⟩ := cmdAddntfy_spec req.1 j ws req.2
    rw [← hdb]
    refine ih all _ _ (fun r hr => hall r (List.mem_cons_of_mem _ hr)) ?_
    rw [hdb]
    rcases hlist with heq | ⟨w, heq, hok, hpath⟩
    · rw [heq]
      exact hws
    · rw [heq]
      intro w' hw'
      rcases List.mem_append.mp hw' with hw' | hw'
      · exact hws w' hw'
      · obtain rfl := List.mem_singleton.mp hw'
        exact ⟨req, hall req List.mem_cons_self, j, rfl, hok, hpath⟩

/-- A plain name does not climb. -/
theorem EntryName.descends {name : List Byte} (h : EntryName name) : Descends name := by
  refine LexPath.descends_of_not_mem _ _ fun hmem => ?_
  rw [LexPath.comps_of_not_mem h.noSlash] at hmem
  simp only [List.mem_filter, List.mem_singleton] at hmem
  exact h.noDots hmem.1.symm

/-- **What a session removes.**  In every session, whatever the client answers and whatever other
processes do, a path is removed only if the message before it reported that name and the client
answered `DEL`; the name starts with the symbol and stands directly in a directory of the list;
and unless a client asked for `..` the path is inside the root. -/
theorem ntfy_confined {j : Jail} (hroot : IsRoot j.dbdir) {reqs : List (AddntfyEnv × List Byte)}
    (hlen : ∀ req ∈ reqs, j.dbdir.length + (addntfyPath req.2).length < pathMax)
    {acts : List NtAct} {fs : NtFs} {n : ℕ}
    (hrun : Runs.run (ntNext (register ([], j) reqs).1) (.start fs n) acts = some t)
    {pre post : List NtEv} {path : List Byte} (hlog : t.log = pre ++ .unlink path :: post) :
    Removed (register ([], j) reqs).1 pre path ∧
      ((∀ req ∈ reqs, comps (addntfyPath req.2) ≠ [dotdot]) → Inside j.dbdir path) := by
  have hrem := (run_ntInv hrun).removed pre path post hlog
  refine ⟨hrem, fun hdots => ?_⟩
  obtain ⟨before, i, w, name, text, -, -, hw, rfl, -, hplain⟩ := hrem
  obtain ⟨req, hreq, j', hj', hok, hpath⟩ :=
    register_fromJail reqs reqs [] j (fun _ => id) nofun w (List.mem_of_getElem? hw)
  have hdir : Inside j.dbdir w.path := by
    rw [hpath, ← hj']
    refine Inside.concat_slash ((jaildir_inside_iff req.1.fs (hj' ▸ hroot) ?_ hok).mpr ?_)
    · rw [hj']
      exact hlen req hreq
    · exact .inr (hdots req hreq)
  exact LexPath.Inside.trans hdir (Closed.inside_append ⟨_, hpath⟩ hplain.descends)

/-- A file that starts with `!`. -/
def exampleFile : DirEnt := ⟨lit "!a", false, by decide⟩

/-- A directory with that file. -/
def exampleNtFs : NtFs where
  opens := fun path => if path = lit "/srv/in/" then some 0 else none
  ents := fun _ => [exampleFile]

/-- The request `ADDNTFY ! in`. -/
def exampleAddntfy : AddntfyEnv × List Byte :=
  (⟨Fs.ofDirs [lit "/srv/", lit "/srv/in"], [], true⟩, lit "! in")

/-- The list after it. -/
def exampleWatch : Watch := ⟨lit "/srv/in/", lit "!", by decide, by decide⟩

theorem register_example :
    register ([], exampleJail) [exampleAddntfy] = ([exampleWatch], exampleJail) := by
  decide

/-- The client answers `del`. -/
theorem ntfy_confined_del :
    Removed (register ([], exampleJail) [exampleAddntfy]).1
      [.sent 0 (lit "!a"), .got (lit "del")] (lit "/srv/in/!a") ∧
        Inside exampleJail.dbdir (lit "/srv/in/!a") := by
  have hrun : Runs.run (ntNext (register ([], exampleJail) [exampleAddntfy]).1)
      (.start exampleNtFs 1) [.look, .answer (some (lit "del"))]
      = some ⟨exampleNtFs.unlink (lit "/srv/in/") (lit "!a"), 1, none, true, false, 0,
        [.sent 0 (lit "!a"), .got (lit "del"), .unlink (lit "/srv/in/!a")]⟩ := by
    rw [register_example]
    rfl
  have hlog : [NtEv.sent 0 (lit "!a"), .got (lit "del"), .unlink (lit "/srv/in/!a")]
      = [.sent 0 (lit "!a"), .got (lit "del")] ++ .unlink (lit "/srv/in/!a") :: [] := rfl
  have hmain := ntfy_confined exampleJail_isRoot (by decide) hrun hlog
  exact ⟨hmain.1, hmain.2 (by decide)⟩

/-! ### What it costs -/

/-- **Every report costs a descriptor.**  There are never more reports than descriptors were free,
and as long as the directories can be opened, a look uses a null directory exactly when there
have been as many. -/
theorem ntfy_leaks {acts : List NtAct} {fs : NtFs} {n : ℕ} {u : Nt}
    (hrun : Runs.run (ntNext ws) (.start fs n) acts = some t) (hfine : t.crashed = false)
    (hopen : ∀ w ∈ ws, (t.fs.opens w.path).isSome = true) (hlook : ntNext ws t .look = some u) :
    t.log.countP NtEv.isSent ≤ n ∧
      (u.crashed = true ↔ t.log.countP NtEv.isSent = n) := by
  have hfds := (run_ntInv hrun).fds
  have hzero : t.fds = 0 ↔ t.log.countP NtEv.isSent = n := by omega
  refine ⟨by omega, ?_⟩
  rw [← hzero]
  rw [ntNext] at hlook
  split at hlook
  · obtain ⟨w, hw, rfl⟩ := Option.map_eq_some_iff.mp hlook
    obtain ⟨k, hk⟩ := Option.isSome_iff_exists.mp (hopen w (List.mem_of_getElem? hw))
    by_cases hfd : t.fds = 0
    · simp [hfd]
    · cases hf : findntfy (t.fs.ents k) w.sym <;> simp [hfd, hk, hf, hfine]
  · cases hlook

/-- One descriptor was free, and a file was reported and kept. -/
theorem ntfy_leaks_second :
    [NtEv.sent 0 (lit "!a"), .got (lit "NO")].countP NtEv.isSent ≤ 1 ∧
      (true = true ↔ [NtEv.sent 0 (lit "!a"), .got (lit "NO")].countP NtEv.isSent = 1) := by
  have hrun : Runs.run (ntNext [exampleWatch]) (.start exampleNtFs 1)
      [.look, .answer (some (lit "NO")), .turn true]
      = some ⟨exampleNtFs, 0, none, true, false, 0, [.sent 0 (lit "!a"), .got (lit "NO")]⟩ := rfl
  exact ntfy_leaks hrun rfl (by decide)
    (u := ⟨exampleNtFs, 0, none, true, true, 0, [.sent 0 (lit "!a"), .got (lit "NO")]⟩) rfl

end TFProtocol
