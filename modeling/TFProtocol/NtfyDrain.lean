import Mathlib.Data.List.Dedup
import TFProtocol.Ntfy

/-!
# What a client learns of its directories

A client that answers every report with `DEL` is told of every matching file once, and in the
end there is none left, provided that every match is a file with a name that `flnam` holds.  A
subdirectory that matches stays where it is, and as long as it comes first nothing behind it
is reported.

## Main definitions

* `duePairs` — the matching names, with the directories they are in.
* `reported` — what the client was told of.
* `DrainInv` — what holds between them while the client answers `DEL`.

## Main results

* `ntfy_drains` — every matching file is reported once and removed, and nothing else is.
* `ntfy_blocked` — a matching subdirectory that comes first is all that is ever reported.
-/

namespace TFProtocol

open Bytes CStr

variable {ws : List Watch} {f : NtFs} {n : ℕ} {s t : Nt}

/-! ### What is due -/

/-- The matching names of an entry of the list. -/
def Watch.due (f : NtFs) (w : Watch) : List (ℕ × List Byte) :=
  match f.opens w.path with
  | some k => ((f.ents k).filter fun e => symMatches w.sym e.name).map fun e => (k, e.name)
  | none => []

/-- The matching names of all entries, each name of a directory once. -/
def duePairs (ws : List Watch) (f : NtFs) : List (ℕ × List Byte) := (ws.flatMap (Watch.due f)).dedup

theorem mem_due_iff {w : Watch} {k : ℕ} {name : List Byte} :
    (k, name) ∈ w.due f ↔
      f.opens w.path = some k ∧ ∃ e ∈ f.ents k, symMatches w.sym e.name = true ∧ e.name = name := by
  unfold Watch.due
  cases hk : f.opens w.path with
  | none => simp
  | some k' =>
    simp only [List.mem_map, List.mem_filter, Prod.mk.injEq, Option.some.injEq]
    constructor
    · rintro ⟨e, ⟨he, hmatch⟩, rfl, rfl⟩
      exact ⟨rfl, e, he, hmatch, rfl⟩
    · rintro ⟨rfl, e, he, hmatch, rfl⟩
      exact ⟨e, ⟨he, hmatch⟩, rfl, rfl⟩

theorem mem_duePairs_iff {x : ℕ × List Byte} : x ∈ duePairs ws f ↔ ∃ w ∈ ws, x ∈ w.due f := by
  rw [duePairs, List.mem_dedup, List.mem_flatMap]

/-- What a report tells of. -/
def NtEv.pair (ws : List Watch) (f : NtFs) : NtEv → Option (ℕ × List Byte)
  | sent i name => ws[i]?.bind fun w => (f.opens w.path).map fun k => (k, name)
  | _ => none

/-- What the client was told of. -/
def reported (ws : List Watch) (f : NtFs) (log : List NtEv) : List (ℕ × List Byte) :=
  log.filterMap (NtEv.pair ws f)

/-- Every directory can be opened, and every match is a file with a name that fits `flnam`. -/
structure Removable (ws : List Watch) (f : NtFs) : Prop where
  opens : ∀ w ∈ ws, (f.opens w.path).isSome = true
  files : ∀ x ∈ duePairs ws f, ∀ e ∈ f.ents x.1, e.name = x.2 →
    e.isDir = false ∧ e.name.length < nameMax

/-- A step of a session whose client answers `DEL` and stays, with nobody else around. -/
def NtAct.polite : NtAct → Bool
  | look => true
  | answer text => text = some (lit "DEL")
  | turn alive => alive
  | others _ => false

/-- What holds between two reports, from the directories `f` and `n` free descriptors on. -/
structure DrainInv (ws : List Watch) (f : NtFs) (n : ℕ) (s : Nt) : Prop where
  loop : s.loop = true
  fine : s.crashed = false
  idle : s.asked = none
  opens : s.fs.opens = f.opens
  ents : ∀ k, s.fs.ents k = (f.ents k).filter fun e => (k, e.name) ∉ reported ws f s.log
  nodup : (reported ws f s.log).Nodup
  due : ∀ x ∈ reported ws f s.log, x ∈ duePairs ws f
  fds : s.fds + (reported ws f s.log).length = n
  bound : s.pos ≤ ws.length

theorem start_drainInv (ws : List Watch) (f : NtFs) (n : ℕ) : DrainInv ws f n (.start f n) where
  loop := rfl
  fine := rfl
  idle := rfl
  opens := rfl
  ents := fun k => by simp [Nt.start, reported]
  nodup := List.nodup_nil
  due := nofun
  fds := rfl
  bound := Nat.zero_le _

/-- No more is reported than is due. -/
theorem DrainInv.length_le (h : DrainInv ws f n s) :
    (reported ws f s.log).length ≤ (duePairs ws f).length :=
  (h.nodup.subperm h.due).length_le

/-- The states that polite steps lead to. -/
abbrev NtReaches (ws : List Watch) (s t : Nt) : Prop :=
  Runs.Reaches (ntNext ws) (fun a => a.polite = true) s t

/-! ### One directory -/

/-- The session goes on behind a directory in which nothing matches. -/
theorem DrainInv.past (h : DrainInv ws f n s) (hn : (duePairs ws f).length < n) {w : Watch} {k : ℕ}
    (hw : ws[s.pos]? = some w) (hk : s.fs.opens w.path = some k)
    (hnone : findntfy (s.fs.ents k) w.sym = none) :
    NtReaches ws s { s with pos := s.pos + 1 } ∧ DrainInv ws f n { s with pos := s.pos + 1 } := by
  have hfds : s.fds ≠ 0 := by
    have := h.fds
    have := h.length_le
    omega
  have hlt := (List.getElem?_eq_some_iff.mp hw).1
  refine ⟨.step (a := .look) rfl ?_ (.refl _), h.loop, h.fine, h.idle, h.opens, h.ents, h.nodup,
    h.due, h.fds, hlt⟩
  simp [ntNext, h.loop, h.fine, h.idle, hw, hfds, hk, hnone]

/-- The session reports a name, and the client has it removed. -/
theorem DrainInv.found (h : DrainInv ws f n s) (hfiles : Removable ws f)
    (hn : (duePairs ws f).length < n) {w : Watch} {k : ℕ} {name : List Byte}
    (hw : ws[s.pos]? = some w) (hk : s.fs.opens w.path = some k)
    (hname : findntfy (s.fs.ents k) w.sym = some name) :
    ∃ t, NtReaches ws s t ∧ DrainInv ws f n t ∧
      reported ws f t.log = reported ws f s.log ++ [(k, name)] := by
  have hfds : s.fds ≠ 0 := by
    have := h.fds
    have := h.length_le
    omega
  obtain ⟨e, he, heq⟩ := Option.map_eq_some_iff.mp hname
  have hmatch : symMatches w.sym e.name = true :=
    List.find?_some (p := fun e : DirEnt => symMatches w.sym e.name) he
  have hmem := List.mem_of_find?_eq_some he
  rw [h.ents k, List.mem_filter] at hmem
  obtain ⟨hmem, hnew⟩ := hmem
  have hnew : (k, e.name) ∉ reported ws f s.log := by simpa using hnew
  have hkf : f.opens w.path = some k := h.opens ▸ hk
  have hdue : (k, e.name) ∈ duePairs ws f :=
    mem_duePairs_iff.mpr ⟨w, List.mem_of_getElem? hw, mem_due_iff.mpr ⟨hkf, e, hmem, hmatch, rfl⟩⟩
  -- the name fits `flnam`
  obtain rfl : e.name = name := by
    have hlen := (hfiles.files _ hdue e hmem rfl).2
    rw [← heq, strcpySec, List.take_of_length_le (by omega)]
  have hpair : NtEv.pair ws f (.sent s.pos e.name) = some (k, e.name) := by
    simp [NtEv.pair, hw, hkf]
  have hlog : reported ws f (s.log ++ [.sent s.pos e.name] ++ [.got (lit "DEL")]
      ++ [.unlink (w.path ++ e.name)]) = reported ws f s.log ++ [(k, e.name)] := by
    have hgot : NtEv.pair ws f (.got (lit "DEL")) = none := rfl
    have hrem : NtEv.pair ws f (.unlink (w.path ++ e.name)) = none := rfl
    simp [reported, List.filterMap_append, hpair, hgot, hrem]
  refine ⟨{ s with
    fds := s.fds - 1, asked := none, fs := s.fs.unlink w.path e.name, pos := s.pos + 1
    log := s.log ++ [.sent s.pos e.name] ++ [.got (lit "DEL")] ++ [.unlink (w.path ++ e.name)] },
    .step (a := .look) rfl (t := { s with
      fds := s.fds - 1, asked := some e.name, log := s.log ++ [.sent s.pos e.name] }) ?_
      (.step (a := .answer (some (lit "DEL"))) (by simp [NtAct.polite]) ?_ (.refl _)),
    ⟨h.loop, h.fine, rfl, ?_, fun k' => ?_, ?_, fun x hx => ?_, ?_, ?_⟩, hlog⟩
  · simp [ntNext, h.loop, h.fine, h.idle, hw, hfds, hk, hname]
  · have hend : cmdtoupper (lit "DEL") ≠ lit "END" := by decide
    have hdel : cmdtoupper (lit "DEL") = lit "DEL" := by decide
    simp only [ntNext, Option.bind_some, hw, Option.map_some, if_neg hend, if_pos hdel]
  · show (s.fs.unlink w.path e.name).opens = f.opens
    simp only [NtFs.unlink, hk, h.opens]
  · show (s.fs.unlink w.path e.name).ents k' = _
    rw [hlog]
    simp only [NtFs.unlink, hk]
    by_cases hkk : k' = k
    · subst hkk
      rw [Function.update_self, h.ents k', List.filter_filter]
      refine List.filter_congr fun e' he' => ?_
      by_cases hsame : e'.name = e.name
      · have := (hfiles.files _ hdue e' he' hsame).1
        simp [hsame, this]
      · simp [hsame]
    · rw [Function.update_of_ne hkk, h.ents k']
      refine List.filter_congr fun e' _ => ?_
      simp [hkk]
  · rw [hlog]
    exact h.nodup.append (List.nodup_singleton _) (by simpa using hnew)
  · rw [hlog, List.mem_append, List.mem_singleton] at hx
    rcases hx with hx | rfl
    · exact h.due x hx
    · exact hdue
  · rw [hlog]
    have := h.fds
    simp only [List.length_append, List.length_singleton]
    omega
  · exact (List.getElem?_eq_some_iff.mp hw).1

/-! ### All directories -/

/-- Nothing in the directory of an entry matches. -/
def Watch.Empty (f : NtFs) (w : Watch) : Prop :=
  ∀ k, f.opens w.path = some k → findntfy (f.ents k) w.sym = none

/-- The session reports something, or comes to the end of the list with nothing found. -/
theorem DrainInv.scan (hfiles : Removable ws f) (hn : (duePairs ws f).length < n) :
    ∀ {s : Nt}, DrainInv ws f n s →
      ∃ t, NtReaches ws s t ∧ DrainInv ws f n t ∧
        ((reported ws f s.log).length < (reported ws f t.log).length ∨
          t = { s with pos := ws.length } ∧ ∀ w ∈ ws.drop s.pos, w.Empty s.fs) := by
  intro s
  induction hd : ws.length - s.pos generalizing s with
  | zero =>
    intro h
    have heq : s.pos = ws.length := by
      have := h.bound
      omega
    refine ⟨s, .refl s, h, .inr ⟨by rw [← heq], ?_⟩⟩
    rw [heq, List.drop_length]
    nofun
  | succ d ih =>
    intro h
    have hlt : s.pos < ws.length := by omega
    have hw : ws[s.pos]? = some ws[s.pos] := List.getElem?_eq_getElem hlt
    obtain ⟨k, hk⟩ := Option.isSome_iff_exists.mp (hfiles.opens _ (List.mem_of_getElem? hw))
    have hk : s.fs.opens ws[s.pos].path = some k := h.opens ▸ hk
    cases hf : findntfy (s.fs.ents k) ws[s.pos].sym with
    | some name =>
      obtain ⟨t, hreach, ht, hrep⟩ := h.found hfiles hn hw hk hf
      exact ⟨t, hreach, ht, .inl (by simp [hrep])⟩
    | none =>
      obtain ⟨hreach, hpast⟩ := h.past hn hw hk hf
      obtain ⟨t, hreach', ht, hmore⟩ := ih (s := { s with pos := s.pos + 1 })
        (by simp only; omega) hpast
      refine ⟨t, hreach.trans hreach', ht, ?_⟩
      rcases hmore with hmore | ⟨heq, hempty⟩
      · exact .inl hmore
      · refine .inr ⟨heq, ?_⟩
        rw [List.drop_eq_getElem_cons hlt]
        intro w hmem
        rcases List.mem_cons.mp hmem with rfl | hmem
        · intro k' hk'
          obtain rfl := Option.some.inj (hk.symm.trans hk')
          exact hf
        · exact hempty w hmem

/-- The session reports something, or there is nothing left. -/
theorem DrainInv.round (hfiles : Removable ws f) (hn : (duePairs ws f).length < n)
    (h : DrainInv ws f n s) :
    ∃ t, NtReaches ws s t ∧ DrainInv ws f n t ∧
      ((reported ws f s.log).length < (reported ws f t.log).length ∨ ∀ w ∈ ws, w.Empty t.fs) := by
  obtain ⟨u, hreach, hu, hmore | ⟨rfl, -⟩⟩ := h.scan hfiles hn
  · exact ⟨u, hreach, hu, .inl hmore⟩
  -- `chkact` has come to its end and starts again
  · have hturn : ntNext ws { s with pos := ws.length } (.turn true) = some { s with pos := 0 } := by
      simp [ntNext, h.loop, h.fine, h.idle]
    have hstart : DrainInv ws f n { s with pos := 0 } :=
      ⟨h.loop, h.fine, h.idle, h.opens, h.ents, h.nodup, h.due, h.fds, Nat.zero_le _⟩
    obtain ⟨t, hreach', ht, hmore⟩ := hstart.scan hfiles hn
    refine ⟨t, hreach.trans (.step (a := .turn true) rfl hturn hreach'), ht, ?_⟩
    rcases hmore with hmore | ⟨heq, hempty⟩
    · exact .inl hmore
    · refine .inr ?_
      rw [heq]
      exact hempty

/-- The session comes to a point where there is nothing left. -/
theorem DrainInv.drains (hfiles : Removable ws f) (hn : (duePairs ws f).length < n) :
    ∀ {s : Nt}, DrainInv ws f n s →
      ∃ t, NtReaches ws s t ∧ DrainInv ws f n t ∧ ∀ w ∈ ws, w.Empty t.fs := by
  intro s
  induction hd : (duePairs ws f).length - (reported ws f s.log).length using
    Nat.strong_induction_on generalizing s with
  | _ d ih =>
    intro h
    obtain ⟨t, hreach, ht, hmore | hempty⟩ := h.round hfiles hn
    · have := ht.length_le
      obtain ⟨u, hreach', hu, hempty⟩ := ih _ (by omega) rfl ht
      exact ⟨u, hreach.trans hreach', hu, hempty⟩
    · exact ⟨t, hreach, ht, hempty⟩

/-- Where there is nothing left, everything was reported. -/
theorem DrainInv.perm (h : DrainInv ws f n s) (hempty : ∀ w ∈ ws, w.Empty s.fs) :
    (reported ws f s.log).Perm (duePairs ws f) := by
  refine (List.perm_ext_iff_of_nodup h.nodup (List.nodup_dedup _)).mpr fun x => ⟨h.due x, fun hx => ?_⟩
  obtain ⟨w, hw, hx⟩ := mem_duePairs_iff.mp hx
  obtain ⟨hk, e, he, hmatch, hname⟩ := mem_due_iff.mp hx
  by_contra hnot
  -- what was not reported is still there
  have hstill : e ∈ s.fs.ents x.1 := by
    rw [h.ents, List.mem_filter, hname]
    exact ⟨he, by simpa using hnot⟩
  have hnone := hempty w hw x.1 (h.opens ▸ hk)
  rw [findntfy, Option.map_eq_none_iff, List.find?_eq_none] at hnone
  exact hnone e hstill hmatch

/-- The session has looked around since `s`, and nothing came of it. -/
structure NtQuiet (s u : Nt) : Prop where
  idle : u.asked = none
  fs : u.fs = s.fs
  log : u.log = s.log

theorem ntNext_quiet {u v : Nt} (hempty : ∀ w ∈ ws, w.Empty s.fs) {a : NtAct}
    (h : NtQuiet s u) (ha : a.polite = true) (hnext : ntNext ws u a = some v) : NtQuiet s v := by
  cases a with
  | look =>
    rw [ntNext] at hnext
    split at hnext
    · obtain ⟨w, hw, rfl⟩ := Option.map_eq_some_iff.mp hnext
      by_cases hfds : u.fds = 0
      · rw [if_pos hfds]
        exact ⟨h.idle, h.fs, h.log⟩
      · rw [if_neg hfds]
        cases hk : u.fs.opens w.path with
        | none => exact ⟨h.idle, h.fs, h.log⟩
        | some k =>
          have hnone := hempty w (List.mem_of_getElem? hw) k (h.fs ▸ hk)
          rw [← h.fs] at hnone
          simp only [hnone]
          exact ⟨h.idle, h.fs, h.log⟩
    · cases hnext
  | answer text => simp [ntNext, h.idle] at hnext
  | turn alive =>
    rw [ntNext] at hnext
    split at hnext
    · obtain rfl := Option.some.inj hnext
      exact ⟨h.idle, h.fs, h.log⟩
    · cases hnext
  | others fs => simp [NtAct.polite] at ha

/-- Where there is nothing left, nothing is reported any more. -/
theorem quiet_of_empty {acts : List NtAct} (hacts : ∀ a ∈ acts, a.polite = true)
    (hidle : s.asked = none) (hempty : ∀ w ∈ ws, w.Empty s.fs)
    (hrun : Runs.run (ntNext ws) s acts = some t) : NtQuiet s t := by
  have hmeets : Runs.Meets (ntNext ws) (fun _ a => a.polite = true) s acts :=
    Runs.meets_of_forall fun before a after u has _ => hacts a (has ▸ by simp)
  exact Runs.inv_of_run (fun _ _ _ h ha hnext => ntNext_quiet hempty h ha hnext)
    ⟨hidle, rfl, rfl⟩ hmeets hrun

/-- The polite step that is possible in a state, if any is. -/
def Nt.polite (ws : List Watch) (s : Nt) : NtAct :=
  if s.asked.isSome then .answer (some (lit "DEL"))
  else if ws[s.pos]?.isSome then .look else .turn true

theorem polite_of_next {a : NtAct} (ha : a.polite = true) (h : ntNext ws s a = some t) :
    a = s.polite ws := by
  cases a with
  | look =>
    rw [ntNext] at h
    split at h
    · next hrun =>
      obtain ⟨w, hw, -⟩ := Option.map_eq_some_iff.mp h
      simp only [Bool.and_eq_true, Option.isNone_iff_eq_none] at hrun
      simp [Nt.polite, hrun.2, hw]
    · cases h
  | answer text =>
    obtain ⟨name, hname, -⟩ := Option.bind_eq_some_iff.mp h
    obtain rfl : text = some (lit "DEL") := by simpa [NtAct.polite] using ha
    simp [Nt.polite, hname]
  | turn alive =>
    obtain rfl : alive = true := ha
    rw [ntNext] at h
    split at h
    · next hrun =>
      simp only [Bool.and_eq_true, Option.isNone_iff_eq_none] at hrun
      simp [Nt.polite, hrun.1.2, hrun.2]
    · cases h
  | others fs => simp [NtAct.polite] at ha

/-- **A client that answers `DEL` learns of every file.**  If every match is a file with a name
that `flnam` holds, and there are more descriptors than matches, then from some number of steps
on, every session in which the client answers `DEL` and nobody else touches the directories has
reported every matching name exactly once and nothing else, and exactly these are gone. -/
theorem ntfy_drains (hfiles : Removable ws f) (hn : (duePairs ws f).length < n) :
    ∃ acts₀ : List NtAct, (∀ a ∈ acts₀, a.polite = true) ∧
      (Runs.run (ntNext ws) (.start f n) acts₀).isSome = true ∧
      ∀ (acts : List NtAct) (t : Nt), (∀ a ∈ acts, a.polite = true) →
        acts₀.length ≤ acts.length → Runs.run (ntNext ws) (.start f n) acts = some t →
        (reported ws f t.log).Perm (duePairs ws f) ∧
          ∀ k, t.fs.ents k = (f.ents k).filter fun e => (k, e.name) ∉ duePairs ws f := by
  obtain ⟨u, ⟨acts₀, hacts₀, hrun₀⟩, hu, hempty⟩ :=
    (start_drainInv ws f n).drains hfiles hn
  refine ⟨acts₀, hacts₀, by rw [hrun₀]; rfl, fun acts t hacts hlen hrun => ?_⟩
  -- the client leaves the session no choice, so the longer run goes through the same state
  have hone : ∀ (s : Nt) (a b : NtAct) (t u : Nt), a.polite = true → b.polite = true →
      ntNext ws s a = some t → ntNext ws s b = some u → a = b :=
    fun _ _ _ _ _ ha hb h h' => (polite_of_next ha h).trans (polite_of_next hb h').symm
  obtain ⟨rest, rfl⟩ := Runs.prefix_of_determined hone hacts₀ hacts hlen hrun₀ hrun
  rw [Runs.run_append, hrun₀, Option.bind_some] at hrun
  obtain ⟨-, hfs, hlog⟩ := quiet_of_empty
    (fun a ha => hacts a (List.mem_append_right _ ha)) hu.idle hempty hrun
  have hperm := hu.perm hempty
  refine ⟨by rwa [hlog], fun k => ?_⟩
  rw [hfs, hu.ents k]
  refine List.filter_congr fun e _ => ?_
  simp only [hperm.mem_iff]

theorem duePairs_example : duePairs [exampleWatch] exampleNtFs = [(0, lit "!a")] := by decide

/-- There is one file, and two descriptors are free. -/
theorem ntfy_drains_one :
    ∃ acts₀ : List NtAct, (∀ a ∈ acts₀, a.polite = true) ∧
      (Runs.run (ntNext [exampleWatch]) (.start exampleNtFs 2) acts₀).isSome = true ∧
      ∀ (acts : List NtAct) (t : Nt), (∀ a ∈ acts, a.polite = true) →
        acts₀.length ≤ acts.length →
        Runs.run (ntNext [exampleWatch]) (.start exampleNtFs 2) acts = some t →
        (reported [exampleWatch] exampleNtFs t.log).Perm (duePairs [exampleWatch] exampleNtFs) ∧
          ∀ k, t.fs.ents k = (exampleNtFs.ents k).filter fun e =>
            (k, e.name) ∉ duePairs [exampleWatch] exampleNtFs := by
  have hfiles : Removable [exampleWatch] exampleNtFs := by
    refine ⟨by decide, fun x _ e he _ => ?_⟩
    obtain rfl := List.mem_singleton.mp he
    decide
  exact ntfy_drains hfiles (by rw [duePairs_example]; decide)

/-! ### A subdirectory that matches -/

/-- `unlink` leaves a directory that is the first match where it is. -/
theorem NtFs.unlink_find {dir name sym : List Byte} {k : ℕ} {e : DirEnt} (hdir : e.isDir = true)
    (h : (f.ents k).find? (fun e => symMatches sym e.name) = some e) :
    ((f.unlink dir name).ents k).find? (fun e => symMatches sym e.name) = some e := by
  cases hd : f.opens dir with
  | none => simpa only [NtFs.unlink, hd] using h
  | some k' =>
    simp only [NtFs.unlink, hd]
    by_cases hk : k = k'
    · subst hk
      rw [Function.update_self]
      obtain ⟨hmatch, as, bs, hsplit, has⟩ := List.find?_eq_some_iff_append.mp h
      rw [hsplit, List.filter_append, List.filter_cons_of_pos (by simp [hdir])]
      exact List.find?_eq_some_iff_append.mpr ⟨hmatch, _, _, rfl, fun a ha =>
        has a (List.mem_of_mem_filter ha)⟩
    · rwa [Function.update_of_ne hk]

/-- The subdirectory `e` is still the first match of the entry `i`, and all that was reported. -/
structure Blocked (f : NtFs) (i k : ℕ) (sym : List Byte) (e : DirEnt) (s : Nt) : Prop where
  opens : s.fs.opens = f.opens
  first : (s.fs.ents k).find? (fun e => symMatches sym e.name) = some e
  sent : ∀ name, .sent i name ∈ s.log → name = strcpySec e.name nameMax

theorem ntNext_blocked {i k : ℕ} {w : Watch} {e : DirEnt} (hw : ws[i]? = some w)
    (hk : f.opens w.path = some k) (hdir : e.isDir = true) {a : NtAct}
    (h : Blocked f i k w.sym e s) (ha : ∀ fs, a ≠ .others fs) (hnext : ntNext ws s a = some t) :
    Blocked f i k w.sym e t := by
  obtain ⟨hopens, hfirst, hsent⟩ := h
  cases a with
  | others fs => exact absurd rfl (ha fs)
  | look =>
    rw [ntNext] at hnext
    split at hnext
    · obtain ⟨w', hw', rfl⟩ := Option.map_eq_some_iff.mp hnext
      cases hk' : if s.fds = 0 then none else s.fs.opens w'.path with
      | none => exact ⟨hopens, hfirst, hsent⟩
      | some k' =>
        cases hf : findntfy (s.fs.ents k') w'.sym with
        | none => simpa only [hf] using ⟨hopens, hfirst, hsent⟩
        | some found =>
          simp only [hf]
          refine ⟨hopens, hfirst, fun name hmem => ?_⟩
          rcases List.mem_append.mp hmem with hmem | hmem
          · exact hsent name hmem
          -- the directory of this entry was looked into
          · obtain ⟨rfl, rfl⟩ : i = s.pos ∧ name = found := by simpa using hmem
            obtain rfl := Option.some.inj (hw.symm.trans hw')
            have hkk : k = k' := by
              split at hk'
              · cases hk'
              · rw [hopens, hk] at hk'
                exact Option.some.inj hk'
            rw [findntfy, ← hkk, hfirst] at hf
            exact (Option.some.inj hf).symm
    · cases hnext
  | answer text =>
    obtain ⟨name, hname, h⟩ := Option.bind_eq_some_iff.mp hnext
    obtain ⟨w', hw', rfl⟩ := Option.map_eq_some_iff.mp h
    cases text with
    | none => exact ⟨hopens, hfirst, hsent⟩
    | some text =>
      have hgot : ∀ name, .sent i name ∈ s.log ++ [.got text] →
          name = strcpySec e.name nameMax := fun name hmem =>
        hsent name (by simpa using hmem)
      by_cases hend : cmdtoupper text = lit "END"
      · simpa only [hend, if_true] using ⟨hopens, hfirst, hgot⟩
      · by_cases hdel : cmdtoupper text = lit "DEL"
        · simp only [if_neg hend, if_pos hdel]
          refine ⟨?_, s.fs.unlink_find hdir hfirst, fun name hmem => hgot name ?_⟩
          · rw [← hopens]
            unfold NtFs.unlink
            split <;> rfl
          · simpa using hmem
        · simpa only [if_neg hend, if_neg hdel] using ⟨hopens, hfirst, hgot⟩
  | turn alive =>
    rw [ntNext] at hnext
    split at hnext
    · obtain rfl := Option.some.inj hnext
      exact ⟨hopens, hfirst, hsent⟩
    · cases hnext

/-- **A subdirectory hides what is behind it.**  If the first match of an entry of the list is a
subdirectory, then as long as nobody else touches the directories, nothing else is ever reported
for this entry, whatever the client answers, and the subdirectory stays. -/
theorem ntfy_blocked {i k : ℕ} {w : Watch} {e : DirEnt} (hw : ws[i]? = some w)
    (hk : f.opens w.path = some k)
    (hfind : (f.ents k).find? (fun e => symMatches w.sym e.name) = some e)
    (hdir : e.isDir = true) {acts : List NtAct} (hacts : ∀ fs, .others fs ∉ acts)
    (hrun : Runs.run (ntNext ws) (.start f n) acts = some t) :
    e ∈ t.fs.ents k ∧ ∀ name, .sent i name ∈ t.log → name = strcpySec e.name nameMax := by
  have hmeets : Runs.Meets (ntNext ws) (fun _ a => ∀ fs, a ≠ .others fs) (.start f n) acts :=
    Runs.meets_of_forall fun before a after u has _ fs h => hacts fs (has ▸ h ▸ by simp)
  have hstart : Blocked f i k w.sym e (.start f n) := ⟨rfl, hfind, by simp [Nt.start]⟩
  have ht := Runs.inv_of_run (fun _ _ _ h ha hnext => ntNext_blocked hw hk hdir h ha hnext)
    hstart hmeets hrun
  exact ⟨List.mem_of_find?_eq_some ht.first, ht.sent⟩

/-- A subdirectory that starts with `!`. -/
def exampleSubdir : DirEnt := ⟨lit "!d", true, by decide⟩

/-- The file `!a` is behind it. -/
def exampleBlocked : NtFs :=
  { exampleNtFs with ents := fun _ => [exampleSubdir, exampleFile] }

/-- The client answers `DEL` and is told of the subdirectory once more. -/
theorem ntfy_blocked_again :
    exampleSubdir ∈ (exampleBlocked.unlink (lit "/srv/in/") (lit "!d")).ents 0 ∧
      ∀ name, NtEv.sent 0 name ∈ [NtEv.sent 0 (lit "!d"), .got (lit "DEL"),
        .unlink (lit "/srv/in/!d"), .sent 0 (lit "!d")] → name = strcpySec (lit "!d") nameMax := by
  have hrun : Runs.run (ntNext [exampleWatch]) (.start exampleBlocked 2)
      [.look, .answer (some (lit "DEL")), .turn true, .look]
      = some ⟨exampleBlocked.unlink (lit "/srv/in/") (lit "!d"), 0, some (lit "!d"), true, false, 0,
        [.sent 0 (lit "!d"), .got (lit "DEL"), .unlink (lit "/srv/in/!d"), .sent 0 (lit "!d")]⟩ :=
    rfl
  have hw : [exampleWatch][0]? = some exampleWatch := rfl
  have hfind : (exampleBlocked.ents 0).find? (fun e => symMatches exampleWatch.sym e.name)
      = some exampleSubdir := rfl
  exact ntfy_blocked hw rfl hfind rfl (by simp) hrun

end TFProtocol
