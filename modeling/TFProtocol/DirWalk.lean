import TFProtocol.Lib.StackWalk
import TFProtocol.Listing
import TFProtocol.TreeRemove

/-!
# The two traversals of a directory

`listdir` goes through a directory by calling itself; `lsr_iter` keeps the open directories
in an array that grows by 32 places at a time, and the path of the innermost one in
`pathcp`, which it writes on when it opens a directory and cuts when it closes one.  Both
see the directories through `opendir`, `readdir` and `stat` only.  The buffers are long
enough here, and memory does not run out.

## Main definitions

* `DirFs` — the answers of these calls, with the directories read in a fixed order.
* `DirFs.listdir`, `DirFs.lsrIter` — the two functions; `LsrIter`, `DirFs.lsrStep` — the
  loops of the second, from one `readdir` to the next.
* `DirFs.Below` — the entries below a directory.
* `Agree` — what it means that the traversals agree.
* `treeDirs` — a file tree, with some directories that cannot be read.

## Main results

* `lsr_iter_agrees` — they agree on every finite tree.
* `listdir_treeDirs`, `agree_treeDirs` — on a file tree they give the lists the commands are
  modelled with.
-/

namespace TFProtocol

open Bytes CStr StackWalk

/-! ### The calls -/

/-- `enum DTYPE`. -/
inductive DType
  | chr
  | blk
  | dir
  | reg
  | fifo
  | lnk
  | sock
  | unknown
  deriving DecidableEq

/-- Directories and files, as the traversals see them. -/
structure DirFs where
  /-- The names `readdir` gives one after the other, `.` and `..` among them, if the directory
  can be opened. -/
  opendir : List Byte → Option (List (List Byte))
  /-- `stat`, as far as the type goes. -/
  stat : List Byte → Option DType
  nodup : ∀ p l, opendir p = some l → l.Nodup
  comp : ∀ p l, opendir p = some l → ∀ n ∈ l, n ≠ [] ∧ slash ∉ n

namespace DirFs

variable (fs : DirFs)

/-- `gdt(bname, fname)`; `none` for `-1`. -/
def gdt (bname fname : List Byte) : Option DType := fs.stat (bname ++ [slash] ++ fname)

/-! ### The recursive traversal -/

/-- The body of the loop of `listdir`, with the call it makes of itself. -/
def listdirEntry (recur : Bool)
    (self : List Byte → List (List Byte) → Option (List (List Byte))) (path : List Byte)
    (dl : List (List Byte)) (den : List Byte) : Option (List (List Byte)) :=
  match fs.gdt path den with
  | none => some dl
  | some dt =>
    if dt = .dir ∧ dt ≠ .lnk ∧ den ≠ [dot] ∧ den ≠ dotdot then
      let newp := path ++ [slash] ++ den
      if recur then self newp (dl ++ [newp]) else some (dl ++ [newp])
    else if dt ≠ .dir then some (dl ++ [path ++ [slash] ++ den])
    else some dl

/-- `listdir(path, dl, recur)`, to a depth. -/
def listdir (recur : Bool) : ℕ → List Byte → List (List Byte) → Option (List (List Byte))
  | 0, _, _ => none
  | k + 1, path, dl =>
    match fs.opendir path with
    | none => some dl
    | some dir => dir.foldlM (fs.listdirEntry recur (listdir recur k) path) dl

end DirFs

/-! ### The iterative traversal -/

/-- An open directory: what it was opened as, and the names that are left to read. -/
structure Dir where
  path : List Byte
  rest : List (List Byte)

/-- The variables of `lsr_iter`.  The array `dir` has `dirmax` places; a place without an open
directory has `NULL` in it, or nothing yet. -/
structure LsrIter where
  pathcp : List Byte
  lvl : ℤ
  dir : List (Option Dir)
  /-- The calls of the callback so far. -/
  calls : List (List Byte × Bool)

def diralloc : ℕ := 32

/-- A name behind the path of a directory. -/
def strcatName (path name : List Byte) : List Byte :=
  (if path ≠ [slash] then path ++ [slash] else path) ++ name

/-- The array, made longer if the level is not in it. -/
def growDir (lvl : ℕ) (dir : List (Option Dir)) : List (Option Dir) :=
  if lvl = dir.length then dir ++ List.replicate diralloc none else dir

namespace DirFs

variable (fs : DirFs)

/-- The body of the inner loop. -/
def lsrEntry (rec : Bool) (s : LsrIter) (den : List Byte) : LsrIter :=
  match fs.gdt s.pathcp den with
  | none => s
  | some dt =>
    if dt = .dir ∧ dt ≠ .lnk ∧ den ≠ [dot] ∧ den ≠ dotdot then
      if rec then
        let pathcp := strcatName s.pathcp den
        let lvl := s.lvl + 1
        let dir := growDir lvl.toNat s.dir
        let calls := s.calls ++ [(pathcp, true)]
        match fs.opendir pathcp with
        | none =>
          { pathcp := rmtrdir pathcp, lvl := lvl - 1, dir := dir.set lvl.toNat none, calls }
        | some names =>
          { pathcp, lvl, dir := dir.set lvl.toNat (some ⟨pathcp, names⟩), calls }
      else { s with calls := s.calls ++ [(strcatName s.pathcp den, true)] }
    else if dt ≠ .dir then { s with calls := s.calls ++ [(strcatName s.pathcp den, false)] }
    else s

/-- The loops from one `readdir` to the next; there is no next step behind the loops, and
none from a level without an open directory. -/
def lsrStep (rec : Bool) (s : LsrIter) : Option LsrIter :=
  if s.lvl > -1 then
    match s.dir[s.lvl.toNat]? with
    | some (some d) =>
      match d.rest with
      | den :: rest =>
        some (fs.lsrEntry rec { s with dir := s.dir.set s.lvl.toNat (some { d with rest }) } den)
      | [] =>
        let lvl := s.lvl - 1
        some { s with
          dir := s.dir.set s.lvl.toNat none
          lvl
          pathcp := if rec ∧ lvl > -1 then rmtrdir s.pathcp else s.pathcp }
    | _ => none
  else none

/-- The loops, for a number of steps. -/
def lsrLoop (rec : Bool) : ℕ → LsrIter → Option LsrIter
  | 0, s => if s.lvl > -1 then none else some s
  | n + 1, s => if s.lvl > -1 then (fs.lsrStep rec s).bind (lsrLoop rec n) else some s

/-- The variables before the loops. -/
def lsrInit (path : List Byte) (names : List (List Byte)) : LsrIter where
  pathcp := path
  lvl := 0
  dir := some ⟨path, names⟩ :: List.replicate (diralloc - 1) none
  calls := []

/-- `lsr_iter(path, rec, callback)`, for a number of steps: what it returns, and the calls of
the callback. -/
def lsrIter (rec : Bool) (n : ℕ) (path : List Byte) : Option (ℤ × List (List Byte × Bool)) :=
  match fs.opendir path with
  | none => some (-1, [])
  | some names => (fs.lsrLoop rec n (lsrInit path names)).map fun s => (0, s.calls)

/-- The states of the loops in a call. -/
def LsrReaches (rec : Bool) (path : List Byte) (s : LsrIter) : Prop :=
  ∃ names, fs.opendir path = some names ∧
    Relation.ReflTransGen (fun s s' => fs.lsrStep rec s = some s') (lsrInit path names) s

/-! ### Trees -/

/-- The entry is a directory other than `.` and `..`. -/
def subdir (path name : List Byte) : Prop :=
  fs.gdt path name = some .dir ∧ name ≠ [dot] ∧ name ≠ dotdot

instance (path name : List Byte) : Decidable (fs.subdir path name) :=
  inferInstanceAs (Decidable (_ ∧ _))

/-- The entry is one that a traversal reports. -/
def shown (path name : List Byte) : Prop :=
  fs.subdir path name ∨ ∃ dt, fs.gdt path name = some dt ∧ dt ≠ .dir

/-- The first path is that of a directory in the second one. -/
def SubdirOf (q p : List Byte) : Prop :=
  ∃ l, fs.opendir p = some l ∧ ∃ n ∈ l, fs.subdir p n ∧ q = p ++ [slash] ++ n

/-- There is no infinite way down from the directory. -/
def FiniteBelow (path : List Byte) : Prop := Acc fs.SubdirOf path

/-- The entries in a directory or, if `rec`, below it. -/
inductive Below (rec : Bool) : List Byte → List Byte → Prop
  | entry {p l n} : fs.opendir p = some l → n ∈ l → fs.shown p n → Below rec p (p ++ [slash] ++ n)
  | deep {p q r} : rec = true → fs.SubdirOf q p → Below rec q r → Below rec p r

end DirFs

/-- The traversals of a directory agree on a list of paths: `listdir` stores it, `lsr_iter`
gives it to the callback path by path, both come to an end, the list has every entry once and
a directory before what is in it, and `lsr_iter` always knows where it is. -/
structure Agree (fs : DirFs) (rec : Bool) (root : List Byte) (L : List (List Byte)) : Prop where
  listdir : ∃ K, ∀ k ≥ K, fs.listdir rec k root [] = some L
  lsr_iter : ∃ N calls, (∀ n ≥ N, fs.lsrIter rec n root =
      some (if (fs.opendir root).isSome then 0 else -1, calls)) ∧ calls.map Prod.fst = L
  entries : ∀ p, p ∈ L ↔ fs.Below rec root p
  order : L.Pairwise fun p q => p ≠ q ∧ ¬ q ++ [slash] <+: p
  pathcp : ∀ s, fs.LsrReaches rec root s → s.lvl > -1 →
    ∃ d, s.dir[s.lvl.toNat]? = some (some d) ∧ s.pathcp = d.path

/-! ### Both loops, entry by entry -/

section

variable (fs : DirFs) (rec : Bool)

/-- What both traversals do with an entry. -/
def DirFs.look (p n : List Byte) : Look (List Byte) (List Byte × Bool) :=
  match fs.gdt p n with
  | none => .skip
  | some .dir =>
    if n ≠ [dot] ∧ n ≠ dotdot then
      if rec then .node (p ++ [slash] ++ n, true) (p ++ [slash] ++ n)
      else .leaf (p ++ [slash] ++ n, true)
    else .skip
  | some _ => .leaf (p ++ [slash] ++ n, false)

variable {fs rec} {p n : List Byte}

theorem look_node {c : List Byte × Bool} {q : List Byte} (h : fs.look rec p n = .node c q) :
    rec = true ∧ fs.subdir p n ∧ q = p ++ [slash] ++ n ∧ c = (q, true) := by
  unfold DirFs.look at h
  split at h
  · cases h
  · next hdir =>
    split at h
    · next hdot =>
      split at h
      · next hrec =>
        cases h
        exact ⟨hrec, ⟨hdir, hdot⟩, rfl, rfl⟩
      · cases h
    · cases h
  · cases h

theorem look_leaf {c : List Byte × Bool} (h : fs.look rec p n = .leaf c) :
    c.1 = p ++ [slash] ++ n ∧ fs.shown p n := by
  unfold DirFs.look at h
  split at h
  · cases h
  · next hdir =>
    split at h
    · next hdot =>
      split at h
      · cases h
      · cases h
        exact ⟨rfl, .inl ⟨hdir, hdot⟩⟩
    · cases h
  · next dt hne hdt =>
    cases h
    exact ⟨rfl, .inr ⟨dt, hdt, hne⟩⟩

theorem look_skip (h : fs.look rec p n = .skip) : ¬ fs.shown p n := by
  unfold DirFs.look at h
  rintro (⟨hdir, hdot⟩ | ⟨dt, hdt, hne⟩)
  · rw [hdir] at h
    simp only [if_pos hdot] at h
    split at h <;> cases h
  · rw [hdt] at h
    cases dt <;> first | cases h | exact hne rfl

theorem listdirEntry_eq (self : List Byte → List (List Byte) → Option (List (List Byte)))
    (dl : List (List Byte)) :
    fs.listdirEntry rec self p dl n =
      match fs.look rec p n with
      | .skip => some dl
      | .leaf c => some (dl ++ [c.1])
      | .node c q => self q (dl ++ [c.1]) := by
  unfold DirFs.listdirEntry DirFs.look
  cases fs.gdt p n with
  | none => rfl
  | some dt =>
    by_cases hdot : n ≠ [dot] ∧ n ≠ dotdot
    · cases dt <;> cases rec <;> simp [hdot]
    · cases dt <;> simp [hdot]

/-- The body of the inner loop of `lsr_iter`, where `pathcp` is that of the open directory. -/
theorem lsrEntry_eq {s : LsrIter} (hp : s.pathcp ≠ [slash]) :
    fs.lsrEntry rec s n =
      match fs.look rec s.pathcp n with
      | .skip => s
      | .leaf c => { s with calls := s.calls ++ [c] }
      | .node c q =>
        match fs.opendir q with
        | none => ⟨rmtrdir q, s.lvl + 1 - 1,
            (growDir (s.lvl + 1).toNat s.dir).set (s.lvl + 1).toNat none, s.calls ++ [c]⟩
        | some names => ⟨q, s.lvl + 1,
            (growDir (s.lvl + 1).toNat s.dir).set (s.lvl + 1).toNat (some ⟨q, names⟩),
            s.calls ++ [c]⟩ := by
  unfold DirFs.lsrEntry DirFs.look strcatName
  rw [if_pos hp]
  cases fs.gdt s.pathcp n with
  | none => rfl
  | some dt =>
    by_cases hdot : n ≠ [dot] ∧ n ≠ dotdot
    · cases dt <;> cases rec <;> simp [hdot]
    · cases dt <;> simp [hdot]

end

/-! ### The lists -/

section

variable {fs : DirFs} {rec : Bool} {p : List Byte}

/-- **`listdir` stores the walk**, as soon as the depth is enough. -/
theorem foldlM_listdirEntry {l : List (List Byte)} {L : List (List Byte × Bool)}
    (h : Walk fs.opendir (fs.look rec) p l L) :
    ∃ K, ∀ k ≥ K, ∀ dl, l.foldlM (fs.listdirEntry rec (fs.listdir rec k) p) dl =
      some (dl ++ L.map Prod.fst) := by
  induction h with
  | nil p => exact ⟨0, fun k _ dl => by simp⟩
  | skip hlook _ ih =>
    obtain ⟨K, hK⟩ := ih
    refine ⟨K, fun k hk dl => ?_⟩
    rw [List.foldlM_cons, listdirEntry_eq, hlook]
    exact hK k hk dl
  | leaf hlook _ ih =>
    obtain ⟨K, hK⟩ := ih
    refine ⟨K, fun k hk dl => ?_⟩
    rw [List.foldlM_cons, listdirEntry_eq, hlook, List.map_cons, List.append_cons]
    exact hK k hk _
  | @shut p n l L c q hlook hq _ ih =>
    obtain ⟨K, hK⟩ := ih
    refine ⟨K + 1, fun k hk dl => ?_⟩
    obtain ⟨j, rfl⟩ : ∃ j, k = j + 1 := ⟨k - 1, by omega⟩
    have hself : fs.listdir rec (j + 1) q (dl ++ [c.1]) = some (dl ++ [c.1]) := by
      rw [DirFs.listdir, hq]
    rw [List.foldlM_cons, listdirEntry_eq, hlook, List.map_cons, List.append_cons]
    simp only [hself]
    exact hK (j + 1) (by omega) _
  | @node p n l L c q m M hlook hq _ _ ihq ih =>
    obtain ⟨K, hK⟩ := ih
    obtain ⟨K', hK'⟩ := ihq
    refine ⟨max K (K' + 1), fun k hk dl => ?_⟩
    obtain ⟨j, rfl⟩ : ∃ j, k = j + 1 := ⟨k - 1, by omega⟩
    have hself : fs.listdir rec (j + 1) q (dl ++ [c.1]) =
        some (dl ++ [c.1] ++ M.map Prod.fst) := by
      rw [DirFs.listdir, hq]
      exact hK' j (by omega) _
    rw [List.foldlM_cons, listdirEntry_eq, hlook, List.map_cons, List.map_append,
      List.append_cons, ← List.append_assoc]
    simp only [hself]
    exact hK (j + 1) (by omega) _

theorem look_finite (h : fs.FiniteBelow p) : Acc (StackWalk.Inside fs.opendir (fs.look rec)) p := by
  induction h with
  | intro p _ ih =>
    refine ⟨p, fun q hq => ih q ?_⟩
    obtain ⟨l, hl, n, hn, c, hlook⟩ := hq
    obtain ⟨-, hsub, hq, -⟩ := look_node hlook
    exact ⟨l, hl, n, hn, hsub, hq⟩

/-- What is found is below. -/
theorem below_of_found {c : List Byte × Bool} (h : Found fs.opendir (fs.look rec) p c) :
    fs.Below rec p c.1 := by
  induction h with
  | leaf hl hn hlook =>
    obtain ⟨hc, hshown⟩ := look_leaf hlook
    rw [hc]
    exact .entry hl hn hshown
  | node hl hn hlook =>
    obtain ⟨-, hsub, hq, rfl⟩ := look_node hlook
    rw [hq]
    exact .entry hl hn (.inl hsub)
  | deep hl hn hlook _ ih =>
    obtain ⟨hrec, hsub, hq, -⟩ := look_node hlook
    exact .deep hrec ⟨_, hl, _, hn, hsub, hq⟩ ih

theorem found_of_below {q : List Byte} (h : fs.Below rec p q) :
    ∃ b, Found fs.opendir (fs.look rec) p (q, b) := by
  induction h with
  | @entry p l n hl hn hshown =>
    cases hlook : fs.look rec p n with
    | skip => exact absurd hshown (look_skip hlook)
    | leaf c =>
      obtain ⟨hc, -⟩ := look_leaf hlook
      exact ⟨c.2, .leaf hl hn (by rw [hlook, ← hc])⟩
    | node c q =>
      obtain ⟨-, -, rfl, rfl⟩ := look_node hlook
      exact ⟨true, .node hl hn hlook⟩
  | @deep p q r hrec hsub _ ih =>
    obtain ⟨b, hb⟩ := ih
    obtain ⟨l, hl, n, hn, ⟨hdir, hdot⟩, rfl⟩ := hsub
    have hlook : fs.look rec p n = .node (p ++ [slash] ++ n, true) (p ++ [slash] ++ n) := by
      simp only [DirFs.look, hdir, if_pos hdot, if_pos hrec]
    exact ⟨b, .deep hl hn hlook hb⟩

/-- An entry below a directory has the path of the directory before its own. -/
theorem found_shape {c : List Byte × Bool} (h : Found fs.opendir (fs.look rec) p c) :
    ∃ z, c.1 = p ++ slash :: z := by
  induction h with
  | @leaf p l n c _ _ hlook =>
    refine ⟨n, ?_⟩
    rw [(look_leaf hlook).1, List.append_assoc, List.singleton_append]
  | @node p l n c q _ _ hlook =>
    obtain ⟨-, -, rfl, rfl⟩ := look_node hlook
    exact ⟨n, by rw [List.append_assoc, List.singleton_append]⟩
  | @deep p l n c q c' _ _ hlook _ ih =>
    obtain ⟨-, -, rfl, -⟩ := look_node hlook
    obtain ⟨z, hc⟩ := ih
    exact ⟨n ++ slash :: z, by simp [hc]⟩

theorem foundAt_shape {n : List Byte} {c : List Byte × Bool}
    (h : FoundAt fs.opendir (fs.look rec) p n c) :
    ∃ z, c.1 ++ [slash] = p ++ slash :: (n ++ slash :: z) := by
  unfold FoundAt at h
  split at h
  · exact h.elim
  · next d hlook =>
    subst h
    exact ⟨[], by simp [(look_leaf hlook).1]⟩
  · next d q hlook =>
    obtain ⟨-, -, rfl, rfl⟩ := look_node hlook
    rcases h with rfl | h
    · exact ⟨[], by simp⟩
    · obtain ⟨z, hc⟩ := found_shape h
      exact ⟨z ++ [slash], by simp [hc]⟩

/-- What is found at two names of a directory is apart. -/
theorem apart_of_foundAt {n m : List Byte} {c d : List Byte × Bool} (hn : slash ∉ n)
    (hm : slash ∉ m) (hne : n ≠ m) (hc : FoundAt fs.opendir (fs.look rec) p n c)
    (hd : FoundAt fs.opendir (fs.look rec) p m d) :
    c.1 ≠ d.1 ∧ ¬ d.1 ++ [slash] <+: c.1 := by
  have hpre : ¬ d.1 ++ [slash] <+: c.1 ++ [slash] := by
    rintro ⟨r, hr⟩
    obtain ⟨z, hz⟩ := foundAt_shape hc
    obtain ⟨w, hw⟩ := foundAt_shape hd
    rw [hz, hw, List.append_assoc, List.append_right_inj, List.cons_append, List.cons_inj_right,
      List.append_assoc, List.cons_append] at hr
    have hsplit := congrArg (List.splitOn slash) hr
    rw [List.splitOn_append_cons_self_of_not_mem hm,
      List.splitOn_append_cons_self_of_not_mem hn] at hsplit
    exact hne (List.cons.inj hsplit).1.symm
  constructor
  · intro h
    exact hpre (h ▸ List.prefix_rfl)
  · intro h
    exact hpre (h.trans (List.prefix_append _ _))

/-- What is found at a name is apart from the walk through other names. -/
theorem apart_of_walk {n : List Byte} {l : List (List Byte)} {L : List (List Byte × Bool)}
    {c : List Byte × Bool} (hL : Walk fs.opendir (fs.look rec) p l L) (hnodup : (n :: l).Nodup)
    (hcomp : ∀ m ∈ n :: l, slash ∉ m) (hc : FoundAt fs.opendir (fs.look rec) p n c) :
    ∀ d ∈ L, c.1 ≠ d.1 ∧ ¬ d.1 ++ [slash] <+: c.1 := by
  intro d hd
  obtain ⟨m, hm, hdm⟩ := hL.mem_iff.mp hd
  have hne : n ≠ m := by
    rintro rfl
    exact (List.nodup_cons.mp hnodup).1 hm
  exact apart_of_foundAt (hcomp n List.mem_cons_self) (hcomp m (List.mem_cons_of_mem _ hm)) hne hc
    hdm

/-- **The order of the walk.** -/
theorem pairwise_of_walk {l : List (List Byte)} {L : List (List Byte × Bool)}
    (h : Walk fs.opendir (fs.look rec) p l L) (hnodup : l.Nodup) (hcomp : ∀ n ∈ l, slash ∉ n) :
    L.Pairwise fun c d => c.1 ≠ d.1 ∧ ¬ d.1 ++ [slash] <+: c.1 := by
  induction h with
  | nil p => exact .nil
  | skip hlook _ ih => exact ih hnodup.of_cons fun n hn => hcomp n (List.mem_cons_of_mem _ hn)
  | @leaf p n l L c hlook hL ih =>
    have htail := ih hnodup.of_cons fun n hn => hcomp n (List.mem_cons_of_mem _ hn)
    refine List.pairwise_cons.mpr ⟨apart_of_walk hL hnodup hcomp ?_, htail⟩
    simp [FoundAt, hlook]
  | @shut p n l L c q hlook _ hL ih =>
    have htail := ih hnodup.of_cons fun n hn => hcomp n (List.mem_cons_of_mem _ hn)
    refine List.pairwise_cons.mpr ⟨apart_of_walk hL hnodup hcomp ?_, htail⟩
    simp [FoundAt, hlook]
  | @node p n l L c q m M hlook hq hM hL ihq ih =>
    have htail := ih hnodup.of_cons fun n hn => hcomp n (List.mem_cons_of_mem _ hn)
    have hinner := ihq (fs.nodup q m hq) fun x hx => (fs.comp q m hq x hx).2
    have hfound {d : List Byte × Bool} (hd : d ∈ M) : Found fs.opendir (fs.look rec) q d :=
      found_iff.mpr ⟨m, hq, hM.mem_iff.mp hd⟩
    rw [← List.cons_append, List.pairwise_append]
    refine ⟨List.pairwise_cons.mpr ⟨fun d hd => ?_, hinner⟩, htail, fun d hd => ?_⟩
    · -- what is found below the directory has a longer path
      obtain ⟨-, -, -, rfl⟩ := look_node hlook
      obtain ⟨z, hz⟩ := found_shape (hfound hd)
      have hlen := congrArg List.length hz
      simp only [List.length_append, List.length_cons] at hlen
      refine ⟨fun h => ?_, fun h => ?_⟩
      · have := congrArg List.length h
        simp only at this
        omega
      · have := h.length_le
        simp only [List.length_append, List.length_singleton] at this
        omega
    · apply apart_of_walk hL hnodup hcomp
      unfold FoundAt
      rw [hlook]
      rcases List.mem_cons.mp hd with rfl | hd
      · exact .inl rfl
      · exact .inr (hfound hd)

end

/-! ### The array and the path -/

section

variable {fs : DirFs} {rec : Bool}

/-- The variables of `lsr_iter` are those of the stack machine: the array holds the open
directories, the outermost first, and something behind them; `pathcp` is the path of the
innermost one, and every other one is opened as a name in the one before. -/
structure KeepsStep (fs : DirFs) (rec : Bool) (s : LsrIter)
    (a : State (List Byte) (List Byte) (List Byte × Bool)) : Prop where
  lvl : s.lvl = a.stack.length - 1
  dir : ∃ spare, s.dir = (a.stack.map fun x => some (Dir.mk x.1 x.2)).reverse ++ spare
  path : ∀ x ∈ a.stack.head?, s.pathcp = x.1
  chain : a.stack.IsChain fun x y => ∃ n : DirName, x.1 = y.1 ++ slash :: n.val
  not_root : ∀ x ∈ a.stack, x.1 ≠ [slash]
  names : ∀ x ∈ a.stack, ∀ n ∈ x.2, n ≠ [] ∧ slash ∉ n
  flat : rec = false → a.stack.length ≤ 1
  calls : s.calls = a.out

variable {s : LsrIter} {p : List Byte} {l : List (List Byte)}
  {st : List (List Byte × List (List Byte))} {out : List (List Byte × Bool)}

theorem KeepsStep.lvl_cons (h : KeepsStep fs rec s ⟨(p, l) :: st, out⟩) : s.lvl = st.length := by
  have := h.lvl
  simp only [List.length_cons] at this
  omega

/-- The place of the innermost directory in the array. -/
theorem KeepsStep.exists_dir (h : KeepsStep fs rec s ⟨(p, l) :: st, out⟩) :
    ∃ spare, s.dir = (st.map fun x => some (Dir.mk x.1 x.2)).reverse ++ some ⟨p, l⟩ :: spare := by
  obtain ⟨spare, hspare⟩ := h.dir
  exact ⟨spare, by simp [hspare]⟩

theorem KeepsStep.getElem?_dir (h : KeepsStep fs rec s ⟨(p, l) :: st, out⟩) :
    s.dir[s.lvl.toNat]? = some (some ⟨p, l⟩) := by
  obtain ⟨spare, hspare⟩ := h.exists_dir
  rw [hspare, h.lvl_cons, Int.toNat_natCast, List.getElem?_append_right (by simp)]
  simp

theorem KeepsStep.set_dir (h : KeepsStep fs rec s ⟨(p, l) :: st, out⟩) (v : Option Dir) :
    ∃ spare, s.dir.set s.lvl.toNat v =
      (st.map fun x => some (Dir.mk x.1 x.2)).reverse ++ v :: spare := by
  obtain ⟨spare, hspare⟩ := h.exists_dir
  refine ⟨spare, ?_⟩
  rw [hspare, h.lvl_cons, Int.toNat_natCast, List.set_append_right _ _ (by simp)]
  simp

/-- There is a place for one more directory in the array. -/
theorem set_growDir {A spare : List (Option Dir)} (v : Option Dir) :
    ∃ spare', (growDir A.length (A ++ spare)).set A.length v = A ++ v :: spare' := by
  have hset (x : Option Dir) (rest : List (Option Dir)) :
      (A ++ x :: rest).set A.length v = A ++ v :: rest := by
    rw [List.set_append_right _ _ le_rfl, Nat.sub_self, List.set_cons_zero]
  unfold growDir
  cases spare with
  | nil =>
    rw [List.append_nil, if_pos rfl]
    exact ⟨List.replicate 31 none, hset none (List.replicate 31 none)⟩
  | cons x rest =>
    rw [if_neg (by simp)]
    exact ⟨rest, hset x rest⟩

theorem KeepsStep.set_growDir (h : KeepsStep fs rec s ⟨(p, l) :: st, out⟩) (v : Option Dir) :
    ∃ spare, (growDir (s.lvl + 1).toNat s.dir).set (s.lvl + 1).toNat v =
      (((p, l) :: st).map fun x => some (Dir.mk x.1 x.2)).reverse ++ v :: spare := by
  obtain ⟨spare, hspare⟩ := h.dir
  have hlen : (s.lvl + 1).toNat =
      (((p, l) :: st).map fun x => some (Dir.mk x.1 x.2)).reverse.length := by
    have := h.lvl_cons
    simp only [List.length_reverse, List.length_map, List.length_cons]
    omega
  rw [hlen, hspare]
  exact TFProtocol.set_growDir v

/-- Closing a directory. -/
theorem KeepsStep.close (h : KeepsStep fs rec s ⟨(p, []) :: st, out⟩) :
    ∃ s', fs.lsrStep rec s = some s' ∧ KeepsStep fs rec s' ⟨st, out⟩ := by
  have hlvl := h.lvl_cons
  have hstep : fs.lsrStep rec s = some { s with
      dir := s.dir.set s.lvl.toNat none
      lvl := s.lvl - 1
      pathcp := if rec ∧ s.lvl - 1 > -1 then rmtrdir s.pathcp else s.pathcp } := by
    rw [DirFs.lsrStep, if_pos (by omega), h.getElem?_dir]
  refine ⟨_, hstep, ?_⟩
  obtain ⟨spare, hset⟩ := h.set_dir none
  refine ⟨?_, ⟨none :: spare, hset⟩, ?_, h.chain.of_cons,
    fun x hx => h.not_root x (List.mem_cons_of_mem _ hx),
    fun x hx => h.names x (List.mem_cons_of_mem _ hx), ?_, h.calls⟩
  · show s.lvl - 1 = st.length - 1
    omega
  · intro x hx
    cases st with
    | nil => cases hx
    | cons y st =>
      cases hx
      -- the directory was opened as a name in this one
      obtain ⟨n, hn⟩ := (List.isChain_cons_cons.mp h.chain).1
      have hrec : rec = true := by
        by_contra hrec
        have := h.flat (Bool.not_eq_true _ ▸ hrec)
        simp at this
      have hpath : s.pathcp = p := h.path (p, []) rfl
      simp only [List.length_cons] at hlvl
      show (if rec = true ∧ s.lvl - 1 > -1 then rmtrdir s.pathcp else s.pathcp) = _
      rw [if_pos ⟨hrec, by omega⟩, hpath]
      rw [show p = x.1 ++ slash :: n.val from hn, rmtrdir_append]
  · intro hrec
    have := h.flat hrec
    simp only [List.length_cons] at this
    show st.length ≤ 1
    omega

/-- Reading an entry that is reported as it is, or passed over. -/
theorem KeepsStep.read {n : List Byte} (h : KeepsStep fs rec s ⟨(p, n :: l) :: st, out⟩)
    (cs : List (List Byte × Bool)) (dir : List (Option Dir))
    (hdir : ∃ spare, dir = (st.map fun x => some (Dir.mk x.1 x.2)).reverse ++
      some ⟨p, l⟩ :: spare) :
    KeepsStep fs rec { s with dir, calls := s.calls ++ cs } ⟨(p, l) :: st, out ++ cs⟩ where
  lvl := h.lvl_cons.trans (by simp)
  dir := by
    obtain ⟨spare, rfl⟩ := hdir
    exact ⟨spare, by simp⟩
  path := by
    intro x hx
    cases hx
    exact h.path (p, n :: l) rfl
  chain := by
    have := h.chain
    cases st with
    | nil => exact .singleton _
    | cons y st =>
      obtain ⟨hy, hst⟩ := List.isChain_cons_cons.mp this
      exact List.isChain_cons_cons.mpr ⟨hy, hst⟩
  not_root := by
    intro x hx
    rcases List.mem_cons.mp hx with rfl | hx
    · exact h.not_root (p, n :: l) (List.mem_cons_self ..)
    · exact h.not_root x (List.mem_cons_of_mem _ hx)
  names := by
    intro x hx
    rcases List.mem_cons.mp hx with rfl | hx
    · exact fun m hm => h.names (p, n :: l) (List.mem_cons_self ..) m (List.mem_cons_of_mem _ hm)
    · exact h.names x (List.mem_cons_of_mem _ hx)
  flat := h.flat
  calls := congrArg (· ++ cs) h.calls

/-- Opening a directory. -/
theorem KeepsStep.push {n : DirName} {m : List (List Byte)}
    (h : KeepsStep fs rec s ⟨(p, l) :: st, out⟩) (hrec : rec = true)
    (hm : ∀ x ∈ m, x ≠ [] ∧ slash ∉ x) (dir : List (Option Dir))
    (hdir : ∃ spare, dir = (((p, l) :: st).map fun x => some (Dir.mk x.1 x.2)).reverse ++
      some ⟨p ++ slash :: n.val, m⟩ :: spare) :
    KeepsStep fs rec ⟨p ++ slash :: n.val, s.lvl + 1, dir, s.calls⟩
      ⟨(p ++ slash :: n.val, m) :: (p, l) :: st, out⟩ where
  lvl := by
    have := h.lvl_cons
    show s.lvl + 1 = _
    simp only [List.length_cons]
    omega
  dir := by
    obtain ⟨spare, rfl⟩ := hdir
    exact ⟨spare, by simp⟩
  path := by
    intro x hx
    cases hx
    rfl
  chain := List.isChain_cons_cons.mpr ⟨⟨n, rfl⟩, h.chain⟩
  not_root := by
    intro x hx
    rcases List.mem_cons.mp hx with rfl | hx
    · -- there is a name behind the separator
      intro heq
      have := congrArg List.length heq
      have := List.length_pos_iff.mpr n.nonempty
      simp only [List.length_append, List.length_cons, List.length_nil] at *
      omega
    · exact h.not_root x hx
  names := by
    intro x hx
    rcases List.mem_cons.mp hx with rfl | hx
    · exact hm
    · exact h.names x hx
  flat := by
    intro hf
    rw [hrec] at hf
    cases hf
  calls := h.calls

/-- **`lsr_iter` keeps step with the stack machine.** -/
theorem KeepsStep.step {a a' : State (List Byte) (List Byte) (List Byte × Bool)}
    (h : KeepsStep fs rec s a) (hnext : next fs.opendir (fs.look rec) a = some a') :
    ∃ s', fs.lsrStep rec s = some s' ∧ KeepsStep fs rec s' a' := by
  obtain ⟨stack, out⟩ := a
  cases stack with
  | nil => cases hnext
  | cons x st =>
    obtain ⟨p, l⟩ := x
    cases l with
    | nil =>
      obtain rfl : ⟨st, out⟩ = a' := Option.some.inj hnext
      exact h.close
    | cons n l =>
      have hpath : s.pathcp = p := h.path (p, n :: l) rfl
      have hp : p ≠ [slash] := h.not_root _ (List.mem_cons_self ..)
      have hset := h.set_dir (some ⟨p, l⟩)
      generalize hdir : s.dir.set s.lvl.toNat (some ⟨p, l⟩) = dir at hset
      have hstep : fs.lsrStep rec s = some (fs.lsrEntry rec { s with dir } n) := by
        rw [DirFs.lsrStep, if_pos (by have := h.lvl_cons; omega), h.getElem?_dir, ← hdir]
      refine ⟨_, hstep, ?_⟩
      rw [lsrEntry_eq (s := { s with dir }) (show s.pathcp ≠ _ from hpath ▸ hp)]
      simp only [hpath]
      simp only [next] at hnext
      split at hnext
      · next hlook =>
        cases hnext
        rw [hlook]
        simpa [hpath] using h.read [] dir hset
      · next c hlook =>
        cases hnext
        rw [hlook]
        simpa [hpath] using h.read [c] dir hset
      · next c q hlook =>
        rw [hlook]
        obtain ⟨hrec, hsub, hq, -⟩ := look_node hlook
        obtain ⟨hne, hslash⟩ := h.names (p, n :: l) (List.mem_cons_self ..) n (List.mem_cons_self ..)
        obtain ⟨d, hd⟩ : ∃ d : DirName, d.val = n := ⟨⟨n, hne, hslash, hsub.2.1, hsub.2.2⟩, rfl⟩
        rw [← hd, List.append_assoc, List.singleton_append] at hq
        have hread := h.read [c] dir hset
        cases hopen : fs.opendir q with
        | none =>
          simp only [hopen] at hnext ⊢
          cases hnext
          obtain ⟨spare, hspare⟩ := hread.set_growDir none
          have hshut := h.read [c] _ ⟨none :: spare, hspare.trans (by simp)⟩
          rw [hpath] at hshut
          rwa [hq, rmtrdir_append, add_sub_cancel_right]
        | some m =>
          simp only [hopen] at hnext ⊢
          cases hnext
          subst hq
          exact hread.push hrec (fs.comp _ m hopen) _ (hread.set_growDir _)

/-- The variables before the loops. -/
theorem keepsStep_init {root : List Byte} {names : List (List Byte)} (hroot : root ≠ [slash])
    (hopen : fs.opendir root = some names) :
    KeepsStep fs rec (DirFs.lsrInit root names) ⟨[(root, names)], []⟩ where
  lvl := rfl
  dir := ⟨List.replicate (diralloc - 1) none, rfl⟩
  path := by
    intro x hx
    cases hx
    rfl
  chain := .singleton _
  not_root := by
    intro x hx
    rwa [List.mem_singleton.mp hx]
  names := by
    intro x hx
    rw [List.mem_singleton.mp hx]
    exact fs.comp root names hopen
  flat := fun _ => le_rfl
  calls := rfl

theorem KeepsStep.lsrStep_eq_none {a : State (List Byte) (List Byte) (List Byte × Bool)}
    (h : KeepsStep fs rec s a) (ha : a.stack = []) : fs.lsrStep rec s = none := by
  have hlvl := h.lvl
  rw [ha] at hlvl
  rw [DirFs.lsrStep, if_neg (by simp [hlvl])]

/-- The loops end where no directory is open any more. -/
theorem exists_lsrLoop {s s' : LsrIter}
    (h : Relation.ReflTransGen (fun s s' => fs.lsrStep rec s = some s') s s')
    (hend : s'.lvl = -1) : ∃ N, ∀ n ≥ N, fs.lsrLoop rec n s = some s' := by
  induction h using Relation.ReflTransGen.head_induction_on with
  | refl =>
    refine ⟨0, fun n _ => ?_⟩
    cases n <;> rw [DirFs.lsrLoop, if_neg (by omega)]
  | @head s u hstep _ ih =>
    obtain ⟨N, hN⟩ := ih
    refine ⟨N + 1, fun n hn => ?_⟩
    obtain ⟨m, rfl⟩ : ∃ m, n = m + 1 := ⟨n - 1, by omega⟩
    have hlvl : s.lvl > -1 := by
      by_contra hlvl
      rw [DirFs.lsrStep, if_neg hlvl] at hstep
      cases hstep
    rw [DirFs.lsrLoop, if_pos hlvl, hstep]
    exact hN m (by omega)

end

/-! ### The traversals agree -/

/-- The traversals of a directory that cannot be opened. -/
theorem agree_of_shut {fs : DirFs} {rec : Bool} {root : List Byte} (hopen : fs.opendir root = none) :
    Agree fs rec root [] := by
  refine ⟨⟨1, fun k hk => ?_⟩, ⟨0, [], fun n _ => ?_, rfl⟩, fun p => ?_, .nil, ?_⟩
  · obtain ⟨j, rfl⟩ : ∃ j, k = j + 1 := ⟨k - 1, by omega⟩
    rw [DirFs.listdir, hopen]
  · simp [DirFs.lsrIter, hopen]
  · refine iff_of_false (by simp) fun h => ?_
    cases h with
    | entry hl => simp [hopen] at hl
    | deep _ hq =>
      obtain ⟨l, hl, -⟩ := hq
      simp [hopen] at hl
  · rintro s ⟨names, hnames, -⟩
    simp [hopen] at hnames

/-- The traversals of a directory that can be opened, from the walk. -/
theorem agree_of_walk {fs : DirFs} {rec : Bool} {root : List Byte} {names : List (List Byte)}
    {L : List (List Byte × Bool)} (hroot : root ≠ [slash]) (hopen : fs.opendir root = some names)
    (hL : Walk fs.opendir (fs.look rec) root names L) : Agree fs rec root (L.map Prod.fst) := by
  have hinit : KeepsStep fs rec _ _ := keepsStep_init hroot hopen
  refine ⟨?_, ?_, fun p => ?_, ?_, ?_⟩
  · obtain ⟨K, hK⟩ := foldlM_listdirEntry hL
    refine ⟨K + 1, fun k hk => ?_⟩
    obtain ⟨j, rfl⟩ : ∃ j, k = j + 1 := ⟨k - 1, by omega⟩
    rw [DirFs.listdir, hopen]
    exact hK j (by omega) []
  · obtain ⟨s, hreach, hs⟩ := follow (fun _ _ _ h => h.step) (hL.reaches [] []) hinit
    obtain ⟨N, hN⟩ := exists_lsrLoop hreach hs.lvl
    refine ⟨N, L, fun n hn => ?_, rfl⟩
    rw [DirFs.lsrIter, hopen]
    simp [hN n hn, hs.calls]
  · rw [List.mem_map]
    constructor
    · rintro ⟨c, hc, rfl⟩
      exact below_of_found (found_iff.mpr ⟨names, hopen, hL.mem_iff.mp hc⟩)
    · intro h
      obtain ⟨b, hb⟩ := found_of_below h
      obtain ⟨l, hl, hx⟩ := found_iff.mp hb
      obtain rfl : names = l := Option.some.inj (hopen.symm.trans hl)
      exact ⟨(p, b), hL.mem_iff.mpr hx, rfl⟩
  · exact List.pairwise_map.mpr (pairwise_of_walk hL (fs.nodup root names hopen)
      fun n hn => (fs.comp root names hopen n hn).2)
  · rintro s ⟨l, hl, hreach⟩ hlvl
    obtain rfl : names = l := Option.some.inj (hopen.symm.trans hl)
    obtain ⟨⟨stack, out⟩, -, hs⟩ := follow_back (fun _ _ _ h => h.step)
      (fun _ _ h => h.lsrStep_eq_none) hreach hinit
    cases stack with
    | nil =>
      have hend : s.lvl = -1 := hs.lvl
      omega
    | cons x st => exact ⟨⟨x.1, x.2⟩, hs.getElem?_dir, hs.path x rfl⟩

/-- **Both traversals agree on every finite tree**, of any depth and shape and with any
directories that cannot be opened, from every path other than `/`. -/
theorem lsr_iter_agrees (fs : DirFs) {root : List Byte} (hroot : root ≠ [slash])
    (hfin : fs.FiniteBelow root) (rec : Bool) : ∃ L, Agree fs rec root L := by
  cases hopen : fs.opendir root with
  | none => exact ⟨[], agree_of_shut hopen⟩
  | some names =>
    obtain ⟨L, hL⟩ := exists_walk (look_finite hfin) hopen
    exact ⟨_, agree_of_walk hroot hopen hL⟩

/-! ### File trees -/

section

variable {t : FileTree} {e : ℕ} {p : List Byte}

/-- What `readdir` gives for a directory of a tree. -/
def dirNames (t : FileTree) (e : ℕ) : List (List Byte) :=
  [dot] :: dotdot :: (t.dir e).map (·.1.val)

theorem dirNames_nodup (h : Inodes.Proper t) (e : ℕ) : (dirNames t e).Nodup := by
  have hval : ((t.dir e).map (·.1.val)).Nodup := by
    have := (h.names e).map_on (f := DirName.val) fun _ _ _ _ => DirName.ext
    rwa [List.map_map] at this
  refine List.nodup_cons.mpr ⟨?_, List.nodup_cons.mpr ⟨?_, hval⟩⟩
  · rw [List.mem_cons, not_or]
    refine ⟨by decide, fun hmem => ?_⟩
    obtain ⟨x, -, hx⟩ := List.mem_map.mp hmem
    exact x.1.not_dot hx
  · intro hmem
    obtain ⟨x, -, hx⟩ := List.mem_map.mp hmem
    exact x.1.not_dotdot hx

theorem dirNames_comp (t : FileTree) (e : ℕ) : ∀ n ∈ dirNames t e, n ≠ [] ∧ slash ∉ n := by
  intro n hn
  rcases List.mem_cons.mp hn with rfl | hn
  · exact ⟨by decide, by decide⟩
  · rcases List.mem_cons.mp hn with rfl | hn
    · exact ⟨by decide, by decide⟩
    · obtain ⟨x, -, rfl⟩ := List.mem_map.mp hn
      exact ⟨x.1.nonempty, x.1.single⟩

/-- The calls on a file tree; `shut` are the directories that cannot be read. -/
def treeDirs (t : FileTree) (h : Inodes.Proper t) (shut : ℕ → Bool) : DirFs where
  opendir p := (dirAt t p).bind fun e => if shut e then none else some (dirNames t e)
  stat p := (node t p).map fun i => if t.isDir i then .dir else .reg
  nodup p l hl := by
    obtain ⟨e, -, hl⟩ := Option.bind_eq_some_iff.mp hl
    split at hl
    · cases hl
    · cases hl
      exact dirNames_nodup h e
  comp p l hl := by
    obtain ⟨e, -, hl⟩ := Option.bind_eq_some_iff.mp hl
    split at hl
    · cases hl
    · cases hl
      exact dirNames_comp t e

variable {h : Inodes.Proper t} {shut : ℕ → Bool}

/-- The way from a directory over one of its entries. -/
theorem find_entry (h : Inodes.Proper t) (hp : dirAt t p = some e) {x : DirName × ℕ}
    (hx : x ∈ t.dir e) (ns : List DirName) : t.find e (x.1 :: ns) = t.find x.2 ns := by
  rw [Inodes.find_cons (isDir_of_dirAt hp), h.entry_eq.mpr hx, Option.bind_some]

theorem gdt_treeDirs (hp : dirAt t p = some e) {x : DirName × ℕ} (hx : x ∈ t.dir e) :
    (treeDirs t h shut).gdt p x.1.val = some (if t.isDir x.2 then .dir else .reg) := by
  have hnode : node t (below p [x.1]) = some x.2 := by
    rw [node_below_eq hp, find_entry h hp hx]
    rfl
  have hpath : below p [x.1] = p ++ [slash] ++ x.1.val := by simp [below]
  show (node t (p ++ [slash] ++ x.1.val)).map _ = _
  rw [← hpath, hnode]
  rfl

/-- A directory in a directory, as a path. -/
theorem dirAt_entry (hp : dirAt t p = some e) {x : DirName × ℕ} (h : Inodes.Proper t)
    (hx : x ∈ t.dir e) (hdir : t.isDir x.2 = true) :
    dirAt t (p ++ [slash] ++ x.1.val) = some x.2 := by
  rw [List.append_assoc, List.singleton_append, dirAt_concat_name hp, h.entry_eq.mpr hx]
  simp [hdir]

/-- The dots of a directory are passed over. -/
theorem look_dots (rec : Bool) (p : List Byte) {n : List Byte}
    (hn : n = [dot] ∨ n = dotdot) : (treeDirs t h shut).look rec p n = .skip := by
  have hnot : ¬ (n ≠ [dot] ∧ n ≠ dotdot) := fun hne => hn.elim hne.1 hne.2
  have hdir {i : ℕ} (hi : node t (p ++ [slash] ++ n) = some i) : t.isDir i = true := by
    unfold node at hi
    split at hi
    · next hf =>
      cases hi
      exact isDir_of_dirAt hf
    · -- a path that ends in dots is not that of a file
      obtain ⟨⟨f, m⟩, hm, -⟩ := Option.bind_eq_some_iff.mp hi
      obtain ⟨a, ha, -⟩ := fileSlot_eq_some hm
      have hslash : slash ∉ n := by
        rcases hn with rfl | rfl <;> decide
      have hlast := congrArg (fun q => (List.splitOn slash q).getLast?) ha
      simp only [List.append_assoc, List.singleton_append, List.splitOn_append_cons_self,
        List.splitOn_eq_singleton m.single, List.splitOn_eq_singleton hslash,
        List.getLast?_concat, Option.some.injEq] at hlast
      exact absurd ⟨hlast ▸ m.not_dot, hlast ▸ m.not_dotdot⟩ hnot
  have hgdt : (treeDirs t h shut).gdt p n =
      (node t (p ++ [slash] ++ n)).map fun i => if t.isDir i then .dir else .reg := rfl
  unfold DirFs.look
  rw [hgdt]
  cases hnode : node t (p ++ [slash] ++ n) with
  | none => rfl
  | some i => simp [hdir hnode, hnot]

/-- The directories in a directory. -/
theorem exists_of_subdirOf {q : List Byte} (hp : dirAt t p = some e)
    (hq : (treeDirs t h shut).SubdirOf q p) :
    ∃ x ∈ t.dir e, t.isDir x.2 = true ∧ q = p ++ [slash] ++ x.1.val := by
  obtain ⟨l, hl, n, hn, ⟨hdir, hdot, hdotdot⟩, rfl⟩ := hq
  obtain ⟨f, hf, hl⟩ := Option.bind_eq_some_iff.mp hl
  obtain rfl : e = f := Option.some.inj (hp.symm.trans hf)
  split at hl
  · cases hl
  · cases hl
    obtain ⟨x, hx, rfl⟩ : ∃ x ∈ t.dir e, x.1.val = n := by
      simpa [dirNames, hdot, hdotdot] using hn
    refine ⟨x, hx, ?_, rfl⟩
    rw [gdt_treeDirs hp hx] at hdir
    by_contra hreg
    simp [hreg] at hdir

/-- The way down is finite in the directories the calls show, too. -/
theorem finiteBelow_treeDirs (hp : dirAt t p = some e) (hfin : Inodes.FiniteAt t e) :
    (treeDirs t h shut).FiniteBelow p := by
  obtain ⟨k, hk⟩ := hfin
  induction k generalizing e p with
  | zero =>
    refine ⟨p, fun q hq => ?_⟩
    obtain ⟨x, hx, -, -⟩ := exists_of_subdirOf hp hq
    have hlen := hk [x.1] (by rw [find_entry h hp hx]; nofun)
    exact absurd hlen (by simp)
  | succ k ih =>
    refine ⟨p, fun q hq => ?_⟩
    obtain ⟨x, hx, hdir, rfl⟩ := exists_of_subdirOf hp hq
    refine ih (dirAt_entry hp h hx hdir) fun ns hns => ?_
    have hlen := hk (x.1 :: ns) (by rwa [find_entry h hp hx])
    simpa using hlen

theorem opendir_treeDirs (hp : dirAt t p = some e) :
    (treeDirs t h fun _ => false).opendir p = some (dirNames t e) := by
  show (dirAt t p).bind _ = _
  rw [hp]
  rfl

/-- The walk through the entries of a directory, given the walks through the directories in
it. -/
theorem walk_entries {rec : Bool} (hp : dirAt t p = some e) {deep : ℕ → List (List DirName)}
    (hdeep : rec = true → ∀ x ∈ t.dir e, t.isDir x.2 = true → ∃ M,
      Walk (treeDirs t h fun _ => false).opendir ((treeDirs t h fun _ => false).look rec)
        (p ++ [slash] ++ x.1.val) (dirNames t x.2) M ∧
      M.map Prod.fst = (deep x.2).map (below (p ++ [slash] ++ x.1.val))) :
    ∀ m ⊆ t.dir e, ∃ L,
      Walk (treeDirs t h fun _ => false).opendir ((treeDirs t h fun _ => false).look rec) p
        (m.map (·.1.val)) L ∧
      L.map Prod.fst = (m.flatMap fun x =>
        [x.1] :: if rec && t.isDir x.2 then (deep x.2).map (x.1 :: ·) else []).map (below p) := by
  intro m
  induction m with
  | nil => exact fun _ => ⟨[], .nil p, rfl⟩
  | cons x m ih =>
    intro hm
    obtain ⟨hx, hm⟩ := List.cons_subset.mp hm
    obtain ⟨L, hL, hfst⟩ := ih hm
    have hgdt : (treeDirs t h fun _ => false).gdt p x.1.val = _ := gdt_treeDirs hp hx
    have hone : below p [x.1] = p ++ [slash] ++ x.1.val := by simp [below]
    have hnot : x.1.val ≠ [dot] ∧ x.1.val ≠ dotdot := ⟨x.1.not_dot, x.1.not_dotdot⟩
    cases hdir : t.isDir x.2 with
    | false =>
      refine ⟨(p ++ [slash] ++ x.1.val, false) :: L, .leaf ?_ hL, ?_⟩
      · simp only [DirFs.look, hgdt, hdir, Bool.false_eq_true, if_false]
      · simp [hdir, hfst, hone]
    | true =>
      cases hrec : rec with
      | false =>
        subst hrec
        refine ⟨(p ++ [slash] ++ x.1.val, true) :: L, .leaf ?_ hL, ?_⟩
        · simp only [DirFs.look, hgdt, hdir, if_true, if_pos hnot, Bool.false_eq_true, if_false]
        · simp [hfst, hone]
      | true =>
        obtain ⟨M, hM, hfstM⟩ := hdeep hrec x hx hdir
        subst hrec
        refine ⟨(p ++ [slash] ++ x.1.val, true) :: (M ++ L),
          .node ?_ (opendir_treeDirs (dirAt_entry hp h hx hdir)) hM hL, ?_⟩
        · simp only [DirFs.look, hgdt, hdir, if_true, if_pos hnot]
        · have hbelow : below p ∘ (x.1 :: ·) = below (p ++ [slash] ++ x.1.val) := by
            funext ns
            simp [below]
          simp [hdir, hfst, hfstM, hone, hbelow]

/-- The walk through a directory whose ways down are not longer than `k`. -/
theorem exists_walk_treeDirs (h : Inodes.Proper t) (rec : Bool) {k : ℕ} (hp : dirAt t p = some e)
    (hk : ∀ ns, t.find e ns ≠ none → ns.length ≤ k) :
    ∃ L, Walk (treeDirs t h fun _ => false).opendir ((treeDirs t h fun _ => false).look rec) p
        (dirNames t e) L ∧
      L.map Prod.fst =
        (if rec then t.below k e else (t.dir e).map fun x => [x.1]).map (below p) := by
  -- the dots come first and are passed over
  suffices ∃ L, Walk (treeDirs t h fun _ => false).opendir
      ((treeDirs t h fun _ => false).look rec) p ((t.dir e).map (·.1.val)) L ∧
      L.map Prod.fst =
        (if rec then t.below k e else (t.dir e).map fun x => [x.1]).map (below p) by
    obtain ⟨L, hL, hfst⟩ := this
    exact ⟨L, .skip (look_dots rec p (.inl rfl)) (.skip (look_dots rec p (.inr rfl)) hL), hfst⟩
  induction k generalizing e p with
  | zero =>
    have hnil : t.dir e = [] := by
      refine List.eq_nil_iff_forall_not_mem.mpr fun x hx => ?_
      have hlen := hk [x.1] (by rw [find_entry h hp hx]; nofun)
      exact absurd hlen (by simp)
    rw [hnil]
    exact ⟨[], .nil p, by cases rec <;> rfl⟩
  | succ k ih =>
    have hdeep : rec = true → ∀ x ∈ t.dir e, t.isDir x.2 = true → ∃ M,
        Walk (treeDirs t h fun _ => false).opendir ((treeDirs t h fun _ => false).look rec)
          (p ++ [slash] ++ x.1.val) (dirNames t x.2) M ∧
        M.map Prod.fst = (t.below k x.2).map (below (p ++ [slash] ++ x.1.val)) := by
      intro hrec x hx hdir
      obtain ⟨M, hM, hfst⟩ := ih (dirAt_entry hp h hx hdir) fun ns hns => by
        have hlen := hk (x.1 :: ns) (by rwa [find_entry h hp hx])
        simpa using hlen
      rw [if_pos hrec] at hfst
      exact ⟨M, .skip (look_dots rec _ (.inl rfl)) (.skip (look_dots rec _ (.inr rfl)) hM), hfst⟩
    obtain ⟨L, hL, hfst⟩ := walk_entries hp hdeep (t.dir e) (List.Subset.refl _)
    refine ⟨L, hL, hfst.trans (congrArg _ ?_)⟩
    cases rec with
    | false => simp [List.map_eq_flatMap]
    | true => simp [Inodes.Tree.below]

/-- **The lists of `rmr`, `cpr` and the patterns.**  On a finite file tree whose directories
can all be read `listdir` comes to its end with the paths these commands go through. -/
theorem listdir_treeDirs (h : Inodes.Proper t) (hp : dirAt t p = some e)
    (hfin : Inodes.FiniteAt t e) :
    ∃ K, ∀ k ≥ K, (treeDirs t h fun _ => false).listdir true k p [] = some (listdir t p) := by
  obtain ⟨L, hL, hfst⟩ := exists_walk_treeDirs h true hp fun ns hns => by
    obtain ⟨i, hi⟩ := Option.ne_none_iff_exists'.mp hns
    exact hfin.length_le (dirAt_lt hp) hi
  obtain ⟨K, hK⟩ := foldlM_listdirEntry hL
  refine ⟨K + 1, fun k hk => ?_⟩
  obtain ⟨j, rfl⟩ : ∃ j, k = j + 1 := ⟨k - 1, by omega⟩
  rw [DirFs.listdir, opendir_treeDirs hp]
  apply (hK j (by omega) []).trans
  rw [hfst, listdir, found, hp]
  rfl

/-- **The lists of the listings.**  From a path other than `/` both traversals give the entries
the listings are modelled with. -/
theorem agree_treeDirs (h : Inodes.Proper t) {root : List Byte} (hroot : root ≠ [slash])
    (hdir : dirAt t root = some e) (hfin : Inodes.FiniteAt t e) (rec : Bool) :
    Agree (treeDirs t h fun _ => false) rec root ((lsrEntries t rec e).map (lsrName root)) := by
  obtain ⟨L, hL, hfst⟩ := exists_walk_treeDirs h rec hdir fun ns hns => by
    obtain ⟨i, hi⟩ := Option.ne_none_iff_exists'.mp hns
    exact hfin.length_le (dirAt_lt hdir) hi
  have hname : lsrName root = below root := by
    funext ns
    rw [lsrName, if_neg hroot]
  rw [hname]
  exact hfst ▸ agree_of_walk hroot (opendir_treeDirs hdir) hL

end

/-- A directory that cannot be read, beside a file. -/
theorem lsr_iter_agrees_shut :
    (treeDirs nestedTree nestedTree_proper (· = 2)).opendir (lit "/srv/a") = none ∧
      ∃ L, Agree (treeDirs nestedTree nestedTree_proper (· = 2)) true (lit "/srv") L :=
  ⟨by decide, lsr_iter_agrees _ (by decide)
    (finiteBelow_treeDirs (show dirAt nestedTree (lit "/srv") = some 1 by decide)
      (nestedTree_finite 1)) true⟩

end TFProtocol
