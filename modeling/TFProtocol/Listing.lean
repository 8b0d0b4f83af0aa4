import TFProtocol.Lib.TextLines
import TFProtocol.SecfsRuns

/-!
# Listings

`LSV2` and `LSRV2` write the entries of a directory to a file, one in a line, and
`LSV2DOWN` and `LSRV2DOWN` send the same lines.

The callback cuts runs of slashes in the path of an entry to one slash each and then takes
`strlen(tfproto.dbdir)` characters away from the front.  It is the root only where the root
itself has no run of slashes.

## Main definitions

* `normpath`, `lsrRoot`, `lsrName`, `lsrCallback` — the functions of the source.
* `lsrv2` — the entries of a listing with their lines.
* `Printed`, `printedLine` — an entry that is listed, and its line.

## Main results

* `mem_lsrv2` — what a listing has.
* `comps_below`, `normpath_lsrName` — where the path of an entry leads.
-/

namespace TFProtocol

open Bytes CStr

/-! ### The functions -/

/-- `normpath`. -/
def normpath (p : List Byte) : List Byte := LexPath.squeeze slash false p

/-- The directory of a listing, from the checked path. -/
def lsrRoot (path : List Byte) : List Byte :=
  normpath (if trailing path then path else path ++ [slash])

/-- The entries `lsr_iter` finds in a directory, or below it. -/
def lsrEntries (t : FileTree) (rec : Bool) (e : ℕ) : List (List DirName) :=
  if rec then t.below t.next e else (t.dir e).map fun x => [x.1]

/-- The file name `lsr_iter` gives to the callback: it adds a separator to a directory
other than `/`, also where there is one. -/
def lsrName (root : List Byte) (ns : List DirName) : List Byte :=
  below (if root = [slash] then [] else root) ns

/-- The line that `lsr_callback` writes and `lsrdown_callback` sends for an entry, unless it
passes over it.  Where the root is longer than the path, `junk` is what lies behind it. -/
def lsrCallback (dbdir root junk filename : List Byte) (isdir : Bool) : Option (List Byte) :=
  let stdpath := normpath filename
  if fsmeta <:+: stdpath then none
  else
    let stdpath := if isdir then stdpath ++ [slash] else stdpath
    if sdext <:+: stdpath.drop root.length then none
    else
      let text := stdpath ++ [newline]
      some (if dbdir.length ≤ text.length then text.drop dbdir.length else junk)

/-- A listing: the entries that are not passed over, with their lines. -/
def lsrv2 (t : FileTree) (dbdir path : List Byte) (rec : Bool) (junk : List Byte) :
    List (List DirName × List Byte) :=
  let root := lsrRoot path
  match dirAt t root with
  | none => []
  | some e => (lsrEntries t rec e).filterMap fun ns =>
      (lsrCallback dbdir root junk (lsrName root ns) (dirAt t (lsrName root ns)).isSome).map
        fun line => (ns, line)

/-- The lines of a listing. -/
def lsrLines (l : List (List DirName × List Byte)) : List (List Byte) := l.map Prod.snd

/-- The names in the tree are free of newlines. -/
def NewlineFree (t : FileTree) : Prop := ∀ e, ∀ x ∈ t.dir e, newline ∉ x.1.val

/-- What the callback writes behind the path of an entry. -/
def entrySfx (t : FileTree) (root : List Byte) (ns : List DirName) : List Byte :=
  if (dirAt t (lsrName root ns)).isSome then [slash] else []

/-- The path of an entry, as the callback writes it. -/
def entryPath (t : FileTree) (root : List Byte) (ns : List DirName) : List Byte :=
  normpath (lsrName root ns) ++ entrySfx t root ns

/-- An entry below a path that is not passed over. -/
structure Printed (t : FileTree) (path : List Byte) (rec : Bool) (ns : List DirName) : Prop where
  found : ∃ e, dirAt t (lsrRoot path) = some e ∧ ns ∈ lsrEntries t rec e
  no_meta : ¬ fsmeta <:+: normpath (lsrName (lsrRoot path) ns)
  no_sd : ¬ sdext <:+: (entryPath t (lsrRoot path) ns).drop (lsrRoot path).length

/-- The line of an entry. -/
def printedLine (t : FileTree) (dbdir root junk : List Byte) (ns : List DirName) : List Byte :=
  if dbdir.length ≤ (entryPath t root ns ++ [newline]).length then
    (entryPath t root ns ++ [newline]).drop dbdir.length
  else junk

variable {t : FileTree}

theorem lsrCallback_eq (t : FileTree) (dbdir root junk : List Byte) (ns : List DirName) :
    lsrCallback dbdir root junk (lsrName root ns) (dirAt t (lsrName root ns)).isSome =
      if fsmeta <:+: normpath (lsrName root ns) ∨ sdext <:+: (entryPath t root ns).drop root.length
      then none else some (printedLine t dbdir root junk ns) := by
  have hent : (if (dirAt t (lsrName root ns)).isSome then normpath (lsrName root ns) ++ [slash]
      else normpath (lsrName root ns)) = entryPath t root ns := by
    unfold entryPath entrySfx
    split <;> simp
  simp only [lsrCallback, hent]
  by_cases hmeta : fsmeta <:+: normpath (lsrName root ns)
  · rw [if_pos hmeta, if_pos (Or.inl hmeta)]
  · rw [if_neg hmeta]
    by_cases hsd : sdext <:+: (entryPath t root ns).drop root.length
    · rw [if_pos hsd, if_pos (Or.inr hsd)]
    · rw [if_neg hsd, if_neg (not_or.mpr ⟨hmeta, hsd⟩)]
      rfl

/-- A listing has the entries that are not passed over, with their lines. -/
theorem mem_lsrv2 {dbdir path junk : List Byte} {rec : Bool} {x : List DirName × List Byte} :
    x ∈ lsrv2 t dbdir path rec junk ↔
      Printed t path rec x.1 ∧ x.2 = printedLine t dbdir (lsrRoot path) junk x.1 := by
  unfold lsrv2
  rcases hroot : dirAt t (lsrRoot path) with _ | e
  · refine ⟨fun h => absurd h (by simp [hroot]), ?_⟩
    rintro ⟨⟨⟨e, he, -⟩, -, -⟩, -⟩
    rw [hroot] at he
    cases he
  · simp only [hroot, lsrCallback_eq, List.mem_filterMap]
    constructor
    · rintro ⟨ns, hns, hx⟩
      obtain ⟨line, hcall, rfl⟩ := Option.map_eq_some_iff.mp hx
      rw [Option.ite_none_left_eq_some, not_or] at hcall
      obtain ⟨⟨hmeta, hsd⟩, hline⟩ := hcall
      exact ⟨⟨⟨e, hroot, hns⟩, hmeta, hsd⟩, (Option.some.inj hline).symm⟩
    · rintro ⟨⟨⟨e', he', hns⟩, hmeta, hsd⟩, hline⟩
      obtain rfl : e = e' := Option.some.inj (hroot.symm.trans he')
      refine ⟨x.1, hns, ?_⟩
      rw [if_neg (not_or.mpr ⟨hmeta, hsd⟩), Option.map_some, ← hline]

theorem Printed.mem_lsrv2 {path : List Byte} {rec : Bool} {ns : List DirName}
    (h : Printed t path rec ns) (dbdir junk : List Byte) :
    (ns, printedLine t dbdir (lsrRoot path) junk ns) ∈ lsrv2 t dbdir path rec junk :=
  TFProtocol.mem_lsrv2.mpr ⟨h, rfl⟩

/-! ### Components and places -/

/-- Components that stay do not matter for a walk. -/
theorem walk_compSteps_filter (e : ℕ) (cs : List (List Byte)) :
    t.walk e (cs.map compStep) =
      t.walk e ((cs.filter fun c => decide (c ≠ []) && decide (c ≠ [dot])).map compStep) := by
  induction cs generalizing e with
  | nil => rfl
  | cons c cs ih =>
    by_cases hc : c = [] ∨ c = [dot]
    · have hstay : compStep c = .stay := by
        rcases hc with rfl | rfl <;> rfl
      rw [List.filter_cons_of_neg (by rcases hc with rfl | rfl <;> simp), ← ih, List.map_cons,
        hstay]
      rfl
    · rw [not_or] at hc
      rw [List.filter_cons_of_pos (by simpa using hc), List.map_cons, List.map_cons]
      simp only [Inodes.Tree.walk]
      exact Option.bind_congr fun f _ => ih f

/-- The directory a path leads to depends on its components only. -/
theorem dirAt_of_comps {p q : List Byte} (h : comps p = comps q) : dirAt t p = dirAt t q := by
  unfold dirAt compSteps
  rw [walk_compSteps_filter, walk_compSteps_filter 0 (q.splitOn slash)]
  exact congrArg (fun cs => t.walk 0 (List.map compStep cs)) h

/-- The separator that is last in a path with something behind a directory. -/
theorem lastSlash_append_cons (a x : List Byte) :
    lastSlash (a ++ slash :: x) =
      match lastSlash x with
      | none => some (a, x)
      | some (y, z) => some (a ++ slash :: y, z) := by
  unfold lastSlash
  rw [List.reverse_append, List.reverse_cons, List.append_assoc, List.singleton_append,
    List.dropWhile_append, List.takeWhile_append]
  have hsplit := List.takeWhile_append_dropWhile (p := (· ≠ slash)) (l := x.reverse)
  cases hdrop : x.reverse.dropWhile (· ≠ slash) with
  | nil =>
    have htake : x.reverse.takeWhile (· ≠ slash) = x.reverse := by
      rwa [hdrop, List.append_nil] at hsplit
    rw [htake, List.takeWhile_cons_of_neg (by simp), List.dropWhile_cons_of_neg (by simp)]
    simp
  | cons b y =>
    have hlen : (x.reverse.takeWhile (· ≠ slash)).length ≠ x.reverse.length := by
      intro h
      have := congrArg List.length hsplit
      rw [List.length_append, h, hdrop, List.length_cons] at this
      omega
    rw [if_neg hlen]
    simp

/-- What a path leads to depends on the directory before the rest only. -/
theorem node_append_of_dirAt {a b : List Byte} (h : dirAt t a = dirAt t b) (x : List Byte) :
    node t (a ++ slash :: x) = node t (b ++ slash :: x) := by
  have hdir (y : List Byte) : dirAt t (a ++ slash :: y) = dirAt t (b ++ slash :: y) := by
    rw [dirAt_append, dirAt_append, h]
  have htr (c : List Byte) : trailing (c ++ slash :: x) = trailing (slash :: x) := by
    unfold trailing
    rw [List.getLast?_append_of_ne_nil _ (List.cons_ne_nil _ _)]
  have hslot : fileSlot t (a ++ slash :: x) = fileSlot t (b ++ slash :: x) := by
    unfold fileSlot
    rw [htr a, htr b]
    split
    · rfl
    · next hfree =>
      have hfree' (c : List Byte) : trailing (c ++ slash :: x) = false := by
        rw [htr c]
        simpa using hfree
      unfold slot
      rw [stripSlashes_of_not_trailing (hfree' a), stripSlashes_of_not_trailing (hfree' b),
        lastSlash_append_cons, lastSlash_append_cons]
      cases lastSlash x with
      | none => simp only [h]
      | some yz => simp only [hdir]
  unfold node
  rw [hdir, hslot]

/-- Names below a path are its components from there on. -/
theorem comps_below (p : List Byte) (ns : List DirName) :
    comps (below p ns) = comps p ++ ns.map DirName.val := by
  have hnames : (ns.map DirName.val).flatMap (LexPath.comps slash dot) = ns.map DirName.val := by
    induction ns with
    | nil => rfl
    | cons n ns ih =>
      rw [List.map_cons, List.flatMap_cons, ih, LexPath.comps_of_not_mem n.single]
      simp [n.nonempty, n.not_dot]
  have h : comps (p ++ (ns.map DirName.val).flatMap fun c => slash :: c) =
      comps p ++ (ns.map DirName.val).flatMap (LexPath.comps slash dot) :=
    LexPath.comps_append_flatMap _ _
  rwa [List.flatMap_map, hnames] at h

/-- The name of the metadata is in a path if it is in one of the components. -/
theorem fsmeta_infix_iff (p : List Byte) : fsmeta <:+: p ↔ ∃ c ∈ comps p, fsmeta <:+: c := by
  have hfree : slash ∉ fsmeta := by decide
  rw [infix_iff_splitOn hfree]
  constructor
  · rintro ⟨c, hc, hin⟩
    refine ⟨c, List.mem_filter.mpr ⟨hc, ?_⟩, hin⟩
    have hlen : 18 ≤ c.length := hin.length_le
    have hnil : c ≠ [] := by
      rintro rfl
      exact absurd hlen (by decide)
    have hdot : c ≠ [dot] := by
      rintro rfl
      exact absurd hlen (by decide)
    simp [hnil, hdot]
  · rintro ⟨c, hc, hin⟩
    exact ⟨c, List.mem_of_mem_filter hc, hin⟩

/-! ### The paths of a listing -/

/-- Names one behind the other, with separators between them. -/
def rel (ns : List DirName) : List Byte := (ns.flatMap fun n => slash :: n.val).tail

theorem cons_rel {ns : List DirName} (hne : ns ≠ []) :
    slash :: rel ns = ns.flatMap fun n => slash :: n.val := by
  obtain ⟨n, ms, rfl⟩ := List.exists_cons_of_ne_nil hne
  rfl

/-- Names have no runs of separators between them. -/
theorem squeeze_names (ns : List DirName) :
    LexPath.squeeze slash false (ns.flatMap fun n => slash :: n.val) =
      ns.flatMap fun n => slash :: n.val := by
  induction ns with
  | nil => rfl
  | cons n ns ih =>
    obtain ⟨m, b, hn, -, hb⟩ := n.exists_concat
    have hends : LexPath.endsSep slash true n.val = false := by
      rw [hn]
      simpa [LexPath.endsSep] using hb
    rw [List.flatMap_cons, List.cons_append, LexPath.squeeze, if_pos rfl, if_neg (by simp),
      LexPath.squeeze_append, LexPath.squeeze_of_not_mem _ n.single, hends, ih]

theorem squeeze_rel {ns : List DirName} (hne : ns ≠ []) :
    LexPath.squeeze slash true (ns.flatMap fun n => slash :: n.val) = rel ns := by
  have h := squeeze_names ns
  rw [← cons_rel hne, LexPath.squeeze, if_pos rfl, if_neg (by simp)] at h
  rw [← cons_rel hne, LexPath.squeeze, if_pos rfl, if_pos rfl]
  exact (List.cons.inj h).2

/-- The directory of a listing ends in a separator, and has no runs of them. -/
structure IsLsrRoot (root : List Byte) : Prop where
  closed : root.getLast? = some slash
  normal : normpath root = root

theorem lsrRoot_isLsrRoot (path : List Byte) : IsLsrRoot (lsrRoot path) := by
  refine ⟨?_, LexPath.squeeze_squeeze false _⟩
  rw [← LexPath.endsSep_false_iff, lsrRoot, normpath, LexPath.endsSep_squeeze,
    LexPath.endsSep_false_iff]
  split
  next h => exact of_decide_eq_true h
  next => exact List.getLast?_concat

/-- **The path of an entry is the directory and the names.** -/
theorem normpath_lsrName {root : List Byte} (h : IsLsrRoot root) {ns : List DirName}
    (hne : ns ≠ []) : normpath (lsrName root ns) = root ++ rel ns := by
  unfold lsrName below normpath
  split
  next hroot =>
    rw [List.nil_append, squeeze_names, ← cons_rel hne, hroot]
    rfl
  next =>
    rw [LexPath.squeeze_append, LexPath.endsSep_false_iff.mpr h.closed, squeeze_rel hne]
    exact congrArg (· ++ rel ns) h.normal

theorem entryPath_eq {root : List Byte} (h : IsLsrRoot root) {ns : List DirName}
    (hne : ns ≠ []) : entryPath t root ns = root ++ (rel ns ++ entrySfx t root ns) := by
  unfold entryPath
  rw [normpath_lsrName h hne, List.append_assoc]

theorem comps_lsrRoot (path : List Byte) : comps (lsrRoot path) = comps path := by
  unfold lsrRoot normpath
  rw [show comps _ = comps _ from LexPath.comps_squeeze false _]
  split
  · rfl
  · exact LexPath.comps_concat_sep _

theorem comps_lsrName (root : List Byte) (ns : List DirName) :
    comps (lsrName root ns) = comps root ++ ns.map DirName.val := by
  unfold lsrName
  rw [comps_below]
  split
  next h =>
    subst h
    rfl
  next => rfl

/-! ### Newlines -/

/-- A path to a directory has no newline in it. -/
theorem NewlineFree.dirAt (ht : NewlineFree t) {p : List Byte} {e : ℕ} (h : dirAt t p = some e) :
    newline ∉ p := by
  intro hmem
  obtain ⟨c, hc, hnl⟩ : ∃ c ∈ p.splitOn slash, newline ∈ c :=
    LexPath.exists_mem_splitOn (by decide) hmem
  rcases hn : dirName? c with _ | n
  · -- such a component is empty, or made of dots
    unfold dirName? at hn
    split at hn
    next => cases hn
    next hspecial =>
      have hsl : c.contains slash = false := by
        simpa using LexPath.not_mem_of_mem_splitOn hc
      have : c = [] ∨ c = [dot] ∨ c = dotdot := by
        by_contra hall
        rw [not_or, not_or] at hall
        exact hspecial ⟨hall.1, hsl, hall.2⟩
      rcases this with rfl | rfl | rfl <;> exact absurd hnl (by decide)
  · have hstep : compStep c = .name n := by
      unfold compStep
      rw [hn]
    have hwalked : Inodes.Step.name n ∈ compSteps p := hstep ▸ List.mem_map_of_mem hc
    obtain ⟨d, i, hentry⟩ := Inodes.mem_dir_of_walk h hwalked
    rw [← val_of_dirName? hn] at hnl
    exact ht d _ hentry hnl

theorem NewlineFree.lsrEntries (ht : NewlineFree t) {rec : Bool} {e : ℕ} {ns : List DirName}
    (h : ns ∈ lsrEntries t rec e) : ∀ n ∈ ns, newline ∉ n.val := by
  have hbelow : ∀ k e ns, ns ∈ t.below k e → ∀ n ∈ ns, newline ∉ n.val := by
    intro k
    induction k with
    | zero => intro e ns h; cases h
    | succ k ih =>
      intro e ns h n hn
      obtain ⟨x, hx, h⟩ := List.mem_flatMap.mp h
      rcases List.mem_cons.mp h with rfl | h
      · rw [List.mem_singleton.mp hn]
        exact ht e x hx
      · split at h
        · obtain ⟨ms, hms, rfl⟩ := List.mem_map.mp h
          rcases List.mem_cons.mp hn with rfl | hn
          · exact ht e x hx
          · exact ih _ ms hms n hn
        · cases h
  unfold TFProtocol.lsrEntries at h
  split at h
  · exact hbelow _ e ns h
  · obtain ⟨x, hx, rfl⟩ := List.mem_map.mp h
    intro n hn
    rw [List.mem_singleton.mp hn]
    exact ht e x hx

theorem Printed.ne_nil {path : List Byte} {rec : Bool} {ns : List DirName}
    (h : Printed t path rec ns) : ns ≠ [] := by
  obtain ⟨e, -, hns⟩ := h.found
  unfold lsrEntries at hns
  split at hns
  · exact Inodes.ne_nil_of_mem_below hns
  · obtain ⟨x, -, rfl⟩ := List.mem_map.mp hns
    exact List.cons_ne_nil _ _

theorem Printed.newline_not_mem (ht : NewlineFree t) {path : List Byte} {rec : Bool}
    {ns : List DirName} (h : Printed t path rec ns) :
    newline ∉ entryPath t (lsrRoot path) ns := by
  obtain ⟨e, hroot, hns⟩ := h.found
  have hrel : newline ∉ slash :: rel ns := by
    rw [cons_rel h.ne_nil]
    intro hmem
    obtain ⟨n, hn, hmem⟩ := List.mem_flatMap.mp hmem
    rcases List.mem_cons.mp hmem with hsl | hmem
    · exact absurd hsl (by decide)
    · exact ht.lsrEntries hns n hn hmem
  rw [entryPath_eq (lsrRoot_isLsrRoot path) h.ne_nil, List.mem_append, List.mem_append, not_or,
    not_or]
  refine ⟨ht.dirAt hroot, fun hmem => hrel (List.mem_cons_of_mem _ hmem), ?_⟩
  unfold entrySfx
  split <;> decide

end TFProtocol
