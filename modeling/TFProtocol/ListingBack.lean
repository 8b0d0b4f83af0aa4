import TFProtocol.Listing
import TFProtocol.Lib.InodeTrees

/-!
# What is made of a listing

A line of a listing is meant to be a path for the client: `FSIZELS`, `FTYPELS` and
`FSTATLS` read such a file and pass each line to `jaildir`.

The callback takes as many characters away from the path of an entry as the root has.  A root
with runs of slashes is longer than what it became in that path, so that characters of the
argument, or of the name, are lost.  The line leads back only where they do not matter.

## Main definitions

* `statls` — what `FSIZELS`, `FTYPELS` and `FSTATLS` find.
* `LeadsBack`, `FedBack` — a line that `jaildir` takes back to its entry, and a listing whose
  lines it does.
* `RootFits`, `DotFits` — the root and the argument lose nothing that matters.
* `LinesFit`, `Readable` — the lines are short, and the identity may ask for the attributes.
* `Back` — the paths the lines make go by way of one path to the directory of the listing.

## Main results

* `fits_of_placedBack` — lines that lead back need a root that fits.
* `listings_fed_back` — exactly when a listing can be fed back.
-/

namespace TFProtocol

open Bytes CStr

/-! ### Feeding a listing back -/

/-- What `jaildir` makes of a line for the commands that read a list.  All three ask for the
same permission. -/
def lineCheck (t : FileTree) (j : Jail) (line : List Byte) : JailRes :=
  jaildir (treeFs t) (Site.fsizelsLine.arm j) (chop line) []

/-- The loops of `cmd_fsizels`, `cmd_ftypels` and `cmd_fstatls`: for each line the inode whose
attributes are sent, if `jaildir` accepts the line. -/
def statLoop (t : FileTree) : Jail → List (List Byte) → List (Option ℕ)
  | _, [] => []
  | j, line :: ls =>
    let c := lineCheck t j line
    (if c.ok then node t c.dst else none) :: statLoop t c.jail ls

/-- What these commands answer to a list. -/
def statls (t : FileTree) (j : Jail) (file : List Byte) : List (Option ℕ) :=
  statLoop t j (lines newline lineMax file)

/-- An argument a listing is made for: `jaildir` accepts it, and it leads to a directory. -/
structure Listable (t : FileTree) (j : Jail) (arg : List Byte) : Prop where
  short : arg.length < pathMax
  ok : ∃ flags beyond, (jaildir (treeFs t) { j with fsop := flags } arg beyond).ok = true
  dir : (dirAt t (j.dbdir ++ arg)).isSome = true

/-- A line leads back to its entry: `jaildir` accepts it, and makes a path to the same place
and the same inode of it. -/
structure LeadsBack (t : FileTree) (j : Jail) (root : List Byte) (ns : List DirName)
    (line : List Byte) : Prop where
  ok : (lineCheck t j line).ok = true
  place : LexPath.resolve slash dot (lineCheck t j line).dst =
    LexPath.resolve slash dot (lsrName root ns)
  node : node t (lineCheck t j line).dst = node t (lsrName root ns)

/-- A listing can be fed back: it is read line by line, every line leads back to its entry,
and the attributes found are those of the entries in their order. -/
structure FedBack (t : FileTree) (j : Jail) (arg : List Byte) (rec : Bool) (junk : List Byte) :
    Prop where
  whole : lines newline lineMax (lsrLines (lsrv2 t j.dbdir (j.dbdir ++ arg) rec junk)).flatten =
    lsrLines (lsrv2 t j.dbdir (j.dbdir ++ arg) rec junk)
  leads : ∀ x ∈ lsrv2 t j.dbdir (j.dbdir ++ arg) rec junk,
    LeadsBack t j (lsrRoot (j.dbdir ++ arg)) x.1 x.2
  attrs : statls t j (lsrLines (lsrv2 t j.dbdir (j.dbdir ++ arg) rec junk)).flatten =
    (lsrv2 t j.dbdir (j.dbdir ++ arg) rec junk).map fun x =>
      node t (lsrName (lsrRoot (j.dbdir ++ arg)) x.1)

/-! ### The conditions -/

/-- The root, and what is left of the path of a listing behind as many characters. -/
def lsrBack (dbdir path : List Byte) : List Byte := dbdir ++ (lsrRoot path).drop dbdir.length

/-- What is lost at the front of the argument does not matter: with the rest of it behind the
root, the path still leads to the directory of the listing. -/
structure RootFits (dbdir path : List Byte) : Prop where
  long : dbdir.length ≤ (lsrRoot path).length
  closed : Closed (lsrBack dbdir path)
  below_root : ¬ pdir <:+: lsrBack dbdir path
  place : LexPath.resolve slash dot (lsrBack dbdir path) = LexPath.resolve slash dot path

/-- The root ends in `.` or `..` without a separator, and lends to each line what its name has
lost: all names begin with these dots. -/
def DotFits (t : FileTree) (dbdir path : List Byte) (rec : Bool) : Prop :=
  ∃ a c, (c = [dot] ∨ c = dotdot) ∧ dbdir = a ++ slash :: c ∧
    dbdir.length = (lsrRoot path).length + c.length ∧
    LexPath.resolve slash dot a = LexPath.resolve slash dot path ∧
    ∀ ns, Printed t path rec ns → ∀ n ∈ ns.head?, c <+: n.val

/-- The lines of a listing fit the buffer they are read into. -/
def LinesFit (t : FileTree) (dbdir path : List Byte) (rec : Bool) : Prop :=
  ∀ ns, Printed t path rec ns →
    (entryPath t (lsrRoot path) ns).length + 1 < dbdir.length + lineMax

/-- The metadata of a directory let an identity do something. -/
def Permits (t : FileTree) (d : ℕ) (id : List Byte) (op : BitVec 32) : Prop :=
  t.entry d metaRd = none ∨ ∃ file ∈ t.files d metaRd, effPerm file id &&& op = op

/-- The directory whose metadata govern an entry: the entry, or the directory it is in. -/
def govDir (t : FileTree) (root : List Byte) (ns : List DirName) : Option ℕ :=
  match dirAt t (lsrName root ns) with
  | some e => some e
  | none => dirAt t (lsrName root ns.dropLast)

/-- The identity may ask for the attributes of everything that is listed. -/
def Readable (t : FileTree) (id path : List Byte) (rec : Bool) : Prop :=
  ∀ ns, Printed t path rec ns → ∀ d ∈ govDir t (lsrRoot path) ns, Permits t d id Secfs.stat.bit

/-- What it takes to feed a listing back, unless it is empty. -/
def FitsBack (t : FileTree) (j : Jail) (path : List Byte) (rec : Bool) : Prop :=
  (∃ ns, Printed t path rec ns) →
    (RootFits j.dbdir path ∨ DotFits t j.dbdir path rec) ∧ LinesFit t j.dbdir path rec ∧
      Readable t j.fsid path rec

variable {t : FileTree} {j : Jail}

/-! ### Names that have lost their front -/

theorem rel_cons {ns : List DirName} (hne : ns ≠ []) (n : DirName) :
    rel (n :: ns) = n.val ++ slash :: rel ns := by
  rw [cons_rel hne]
  rfl

/-- What follows the first name is nothing, or starts with a separator, and is the other names. -/
theorem exists_rel_tail (n : DirName) (ns : List DirName) {sfx : List Byte}
    (hsfx : sfx = [] ∨ sfx = [slash]) :
    ∃ tail, rel (n :: ns) ++ sfx = n.val ++ tail ∧
      (tail = [] ∨ ∃ z, tail = slash :: z) ∧ comps tail = ns.map DirName.val := by
  rcases List.eq_nil_or_concat' ns with rfl | ⟨ms, m', rfl⟩
  · refine ⟨sfx, by simp [rel], ?_, ?_⟩
    · rcases hsfx with rfl | rfl
      · exact .inl rfl
      · exact .inr ⟨[], rfl⟩
    · rcases hsfx with rfl | rfl <;> rfl
  · refine ⟨slash :: rel (ms ++ [m']) ++ sfx, ?_, .inr ⟨_, rfl⟩, ?_⟩
    · rw [rel_cons (by simp), List.append_assoc]
    · have hbelow : comps (below [] (ms ++ [m'])) = (ms ++ [m']).map DirName.val := by
        rw [comps_below]
        rfl
      have heq : slash :: rel (ms ++ [m']) = below [] (ms ++ [m']) := cons_rel (by simp)
      rw [heq]
      rcases hsfx with rfl | rfl
      · rw [List.append_nil, hbelow]
      · rw [show comps (below [] (ms ++ [m']) ++ [slash]) = comps (below [] (ms ++ [m'])) from
          LexPath.comps_concat_sep _, hbelow]

/-- What is left of some names: the end of one of them, and the names behind it. -/
theorem exists_drop_rel : ∀ {ns : List DirName}, ns ≠ [] → ∀ {sfx : List Byte},
    sfx = [] ∨ sfx = [slash] → ∀ m : ℕ, ∃ i y tail, i < ns.length ∧
      (rel ns ++ sfx).drop m = y ++ tail ∧ slash ∉ y ∧ (tail = [] ∨ ∃ z, tail = slash :: z) ∧
      comps tail = (ns.map DirName.val).drop (i + 1) ∧
      (i = 0 → ∃ n ∈ ns.head?, y = n.val.drop m) ∧ (m = 0 → i = 0) := by
  intro ns
  induction ns with
  | nil => exact fun h => absurd rfl h
  | cons n ns ih =>
    intro _ sfx hsfx m
    obtain ⟨tail, hrel, htail, hcomps⟩ := exists_rel_tail n ns hsfx
    by_cases hm : m ≤ n.val.length
    · refine ⟨0, n.val.drop m, tail, Nat.succ_pos _, ?_, fun h => n.single (List.mem_of_mem_drop h),
        htail, hcomps, fun _ => ⟨n, rfl, rfl⟩, fun _ => rfl⟩
      rw [hrel, List.drop_append_of_le_length hm]
    · obtain ⟨k, rfl⟩ : ∃ k, m = n.val.length + (k + 1) := ⟨m - n.val.length - 1, by omega⟩
      rw [hrel, List.drop_append, Nat.add_sub_cancel_left,
        List.drop_eq_nil_of_le (Nat.le_add_right _ _), List.nil_append]
      by_cases hne : ns = []
      · subst hne
        refine ⟨0, [], [], Nat.succ_pos _, ?_, List.not_mem_nil, .inl rfl, rfl,
          fun _ => ⟨n, rfl, ?_⟩, fun _ => rfl⟩
        · have hlen : tail.length ≤ 1 := by
            have : (rel [n] ++ sfx).length = (n.val ++ tail).length := congrArg _ hrel
            have hone : sfx.length ≤ 1 := by rcases hsfx with rfl | rfl <;> simp
            simp [rel] at this
            omega
          rw [List.drop_eq_nil_of_le (by omega)]
          rfl
        · rw [List.drop_eq_nil_of_le (by omega)]
      · obtain ⟨i, y, tail', hi, hdrop, hy, htail', hcomps', -, -⟩ := ih hne hsfx k
        refine ⟨i + 1, y, tail', Nat.succ_lt_succ hi, ?_, hy, htail', hcomps',
          fun h => absurd h (by omega), fun h => absurd h (by omega)⟩
        have hslash : tail = slash :: (rel ns ++ sfx) := by
          rw [rel_cons hne, List.append_assoc] at hrel
          exact (List.append_cancel_left hrel).symm
        rw [hslash, List.drop_succ_cons, hdrop]

/-- A piece of a path is nothing to follow, or leads up, or is a component. -/
theorem comps_piece {x : List Byte} (h : slash ∉ x) :
    (x = [] ∨ x = [dot]) ∧ comps x = [] ∨ x = dotdot ∧ comps x = [dotdot] ∨
      x ≠ dotdot ∧ comps x = [x] := by
  have hx : comps x = [x].filter fun c => decide (c ≠ []) && decide (c ≠ [dot]) :=
    LexPath.comps_of_not_mem h
  by_cases hnil : x = []
  · subst hnil
    exact .inl ⟨.inl rfl, hx⟩
  · by_cases hdot : x = [dot]
    · subst hdot
      exact .inl ⟨.inr rfl, hx⟩
    · have hone : comps x = [x] := by simp [hx, hnil, hdot]
      by_cases hup : x = dotdot
      · exact .inr (.inl ⟨hup, hup ▸ hone⟩)
      · exact .inr (.inr ⟨hup, hone⟩)

/-- What ends in a name does not stay, and does not lead up. -/
theorem DirName.append_ne (n : DirName) (c : List Byte) :
    c ++ n.val ≠ [dot] ∧ c ++ n.val ≠ dotdot := by
  have hdot := n.not_dot
  have hnil := n.nonempty
  constructor
  · intro heq
    rcases List.append_eq_singleton_iff.mp heq with ⟨-, h⟩ | ⟨-, h⟩
    · exact hdot h
    · exact hnil h
  · intro heq
    rcases List.append_eq_cons_iff.mp heq with ⟨-, h⟩ | ⟨c', -, h⟩
    · exact n.not_dotdot h
    · rcases List.append_eq_singleton_iff.mp h.symm with ⟨-, h⟩ | ⟨-, h⟩
      · exact hdot h
      · exact hnil h

theorem dotdot_not_mem_names (ns : List DirName) : dotdot ∉ ns.map DirName.val := by
  intro hmem
  obtain ⟨n, -, hn⟩ := List.mem_map.mp hmem
  exact n.not_dotdot hn

/-- **Where names lead that have lost their front.**  Behind the last separator of a root
stands `c`, and what is left of some names follows it.  If this leads to the names below some
place, nothing was there to follow but the names that are whole, or it was a step up, or the
two pieces together are the name that was cut. -/
theorem exists_name_of_place {a c : List Byte} {base : List (List Byte)} {ns : List DirName}
    (hne : ns ≠ []) {sfx : List Byte} (hsfx : sfx = [] ∨ sfx = [slash]) {m : ℕ}
    (ha : dotdot ∉ comps a) (hc : slash ∉ c)
    (hpd : ¬ pdir <:+: a ++ slash :: (c ++ (rel ns ++ sfx).drop m))
    (hplace : LexPath.resolve slash dot (a ++ slash :: (c ++ (rel ns ++ sfx).drop m)) =
      base ++ ns.map DirName.val) :
    ∃ i y, i < ns.length ∧ (i = 0 → ∃ n ∈ ns.head?, y = n.val.drop m) ∧ (m = 0 → i = 0) ∧
      ((c ++ y = [] ∨ c ++ y = [dot]) ∧
          comps a ++ (ns.map DirName.val).drop (i + 1) = base ++ ns.map DirName.val ∨
        c ++ y = dotdot ∧ (comps a).dropLast = base ++ ns.map DirName.val ∨
        comps a = base ++ (ns.map DirName.val).take i ∧
          (ns.map DirName.val)[i]? = some (c ++ y)) := by
  obtain ⟨i, y, tail, hi, hdrop, hy, htail, hcomps, hzero, hfirst⟩ := exists_drop_rel hne hsfx m
  have hcy : slash ∉ c ++ y := by
    rw [List.mem_append, not_or]
    exact ⟨hc, hy⟩
  have hrest : comps (c ++ y ++ tail) = comps (c ++ y) ++ (ns.map DirName.val).drop (i + 1) := by
    rw [← hcomps]
    rcases htail with rfl | ⟨z, rfl⟩
    · rw [List.append_nil, show comps [] = [] from rfl, List.append_nil]
    · rw [show comps (slash :: z) = comps z from LexPath.comps_cons_sep z]
      exact LexPath.comps_append_sep _ _
  have hbase : LexPath.resolve slash dot a = comps a := LexPath.resolve_of_not_mem ha
  have hup : dotdot ∉ (ns.map DirName.val).drop (i + 1) := fun h =>
    dotdot_not_mem_names ns (List.mem_of_mem_drop h)
  rw [hdrop, ← List.append_assoc] at hpd hplace
  rw [LexPath.resolve_append_sep, hbase] at hplace
  rw [show LexPath.comps slash dot (c ++ y ++ tail) = _ from hrest, LexPath.walk_append,
    LexPath.walk_of_not_mem _ _ hup] at hplace
  refine ⟨i, y, hi, hzero, hfirst, ?_⟩
  rcases comps_piece hcy with ⟨hnil, hpiece⟩ | ⟨heq, hpiece⟩ | ⟨hno, hpiece⟩
  · rw [hpiece, LexPath.walk_nil] at hplace
    exact .inl ⟨hnil, hplace⟩
  · -- a step up is the end of the path
    obtain rfl : tail = [] := by
      rcases htail with rfl | ⟨z, rfl⟩
      · rfl
      · exact absurd ⟨a, z, by simp [pdir, heq, dotdot]⟩ hpd
    rw [← hcomps, show comps [] = [] from rfl, List.append_nil, hpiece, LexPath.walk_cons,
      LexPath.walk_nil, LexPath.step, if_pos (show dotdot = [dot, dot] from rfl)] at hplace
    exact .inr (.inl ⟨heq, hplace⟩)
  · rw [hpiece, LexPath.walk_cons, LexPath.walk_nil, LexPath.step,
      if_neg (show ¬ c ++ y = [dot, dot] from hno)] at hplace
    right
    right
    -- compared from the last name on
    have hlt : i < (ns.map DirName.val).length := by rwa [List.length_map]
    have hsplit : ns.map DirName.val = (ns.map DirName.val).take i ++
        ((ns.map DirName.val)[i] :: (ns.map DirName.val).drop (i + 1)) := by
      rw [List.getElem_cons_drop, List.take_append_drop]
    have hplace' : comps a ++ [c ++ y] ++ (ns.map DirName.val).drop (i + 1) =
        base ++ (ns.map DirName.val).take i ++ [(ns.map DirName.val)[i]] ++
          (ns.map DirName.val).drop (i + 1) := by
      rw [hplace]
      conv_lhs => rw [hsplit]
      simp
    have hinit := List.append_cancel_right hplace'
    obtain ⟨hcomp, hname⟩ := List.append_inj' hinit rfl
    refine ⟨hcomp, ?_⟩
    rw [List.getElem?_eq_getElem hlt, (List.cons.inj hname).1]

/-! ### Roots -/

/-- An absolute path is something, a separator and a last piece. -/
theorem exists_last_piece {p : List Byte} (habs : p.head? = some slash) :
    ∃ a c, p = a ++ slash :: c ∧ slash ∉ c := by
  have hmem : slash ∈ p.reverse := List.mem_reverse.mpr (List.mem_of_mem_head? habs)
  obtain ⟨c, a, hp, hc⟩ := List.eq_append_cons_of_mem hmem
  refine ⟨a.reverse, c.reverse, ?_, fun h => hc (List.mem_reverse.mp h)⟩
  rw [← List.reverse_reverse p, hp]
  simp

theorem head?_concat_of_append {a c : List Byte} (h : (a ++ slash :: c).head? = some slash) :
    (a ++ [slash]).head? = some slash := by
  cases a with
  | nil => rfl
  | cons x a => exact h

/-- An absolute path that ends in a separator and does not show `/../` has no component
`..`. -/
theorem dotdot_not_mem_of_closed {p : List Byte} (habs : p.head? = some slash) (hp : Closed p)
    (h : ¬ pdir <:+: p) : dotdot ∉ comps p := by
  obtain ⟨q, rfl⟩ := List.head?_eq_some_iff.mp habs
  obtain ⟨a, ha⟩ := hp
  cases a with
  | nil =>
    obtain rfl : q = [] := (List.cons.inj ha).2
    decide
  | cons x c =>
    obtain ⟨rfl, rfl⟩ : slash = x ∧ q = c ++ [slash] := by simpa using ha
    rw [show comps (slash :: (c ++ [slash])) = comps (c ++ [slash]) from LexPath.comps_cons_sep _]
    exact LexPath.dotdot_not_mem_comps_concat h

/-- What stands before the last separator of such a path. -/
theorem dotdot_not_mem_init {a c : List Byte} (habs : (a ++ slash :: c).head? = some slash)
    (h : ¬ pdir <:+: a ++ slash :: c) : dotdot ∉ comps a := by
  have hpre : a ++ [slash] <+: a ++ slash :: c := ⟨c, by simp⟩
  rw [← show comps (a ++ [slash]) = comps a from LexPath.comps_concat_sep a]
  exact dotdot_not_mem_of_closed (head?_concat_of_append habs) ⟨a, rfl⟩
    fun hp => h (hp.trans hpre.isInfix)

theorem resolve_lsrRoot (path : List Byte) :
    LexPath.resolve slash dot (lsrRoot path) = LexPath.resolve slash dot path :=
  congrArg (LexPath.walk dot []) (comps_lsrRoot path)

/-- An entry is at the place of its directory, under its name. -/
theorem resolve_lsrName (path : List Byte) (ns : List DirName) :
    LexPath.resolve slash dot (lsrName (lsrRoot path) ns) =
      LexPath.resolve slash dot path ++ ns.map DirName.val := by
  have h : comps (lsrName (lsrRoot path) ns) = comps path ++ ns.map DirName.val := by
    rw [comps_lsrName, comps_lsrRoot]
  unfold LexPath.resolve
  rw [show LexPath.comps slash dot (lsrName (lsrRoot path) ns) = _ from h, LexPath.walk_append,
    LexPath.walk_of_not_mem _ _ (dotdot_not_mem_names ns)]

theorem entrySfx_cases (t : FileTree) (root : List Byte) (ns : List DirName) :
    entrySfx t root ns = [] ∨ entrySfx t root ns = [slash] := by
  unfold entrySfx
  split
  · exact .inr rfl
  · exact .inl rfl

/-! ### Lines that lead back need a root that fits -/

/-- The path a line makes is accepted, as far as its text goes, and leads to the place of the
entry. -/
def PlacedBack (t : FileTree) (dbdir path : List Byte) (ns : List DirName) : Prop :=
  ¬ pdir <:+: dbdir ++ (entryPath t (lsrRoot path) ns).drop dbdir.length ∧
    LexPath.resolve slash dot (dbdir ++ (entryPath t (lsrRoot path) ns).drop dbdir.length) =
      LexPath.resolve slash dot path ++ ns.map DirName.val

theorem PlacedBack.rootFits {dbdir path : List Byte} (habs : dbdir.head? = some slash)
    (hlong : dbdir.length ≤ (lsrRoot path).length) {ns : List DirName} (hne : ns ≠ [])
    (h : PlacedBack t dbdir path ns) : RootFits dbdir path := by
  obtain ⟨hpd, hplace⟩ := h
  have hp : dbdir ++ (entryPath t (lsrRoot path) ns).drop dbdir.length =
      lsrBack dbdir path ++ (rel ns ++ entrySfx t (lsrRoot path) ns) := by
    rw [entryPath_eq (lsrRoot_isLsrRoot path) hne, List.drop_append_of_le_length hlong, lsrBack,
      List.append_assoc]
  rw [hp] at hpd hplace
  have hback : (lsrBack dbdir path).head? = some slash := by
    rw [lsrBack, List.head?_append, habs]
    rfl
  obtain ⟨a, c, hac, hc⟩ := exists_last_piece hback
  have hbelow : ¬ pdir <:+: lsrBack dbdir path := fun hp =>
    hpd (hp.trans (List.prefix_append _ _).isInfix)
  have ha : dotdot ∉ comps a := dotdot_not_mem_init (hac ▸ hback) (hac ▸ hbelow)
  rw [hac, List.append_assoc, List.cons_append,
    ← List.drop_zero (l := rel ns ++ entrySfx t (lsrRoot path) ns)] at hpd hplace
  obtain ⟨i, y, hi, hzero, hfirst, hcases⟩ :=
    exists_name_of_place hne (entrySfx_cases t _ ns) ha hc hpd hplace
  obtain rfl : i = 0 := hfirst rfl
  obtain ⟨n, hn, rfl⟩ := hzero rfl
  obtain ⟨ms, rfl⟩ := List.head?_eq_some_iff.mp hn
  rw [List.drop_zero] at hcases
  have hnone := n.append_ne c
  rcases hcases with ⟨hnil | hdot, -⟩ | ⟨hup, -⟩ | ⟨hbase, hname⟩
  · exact absurd (List.append_eq_nil_iff.mp hnil).2 n.nonempty
  · exact absurd hdot hnone.1
  · exact absurd hup hnone.2
  · obtain rfl : c = [] := by
      have hlen := congrArg List.length (Option.some.inj hname)
      rw [List.length_append] at hlen
      exact List.eq_nil_of_length_eq_zero (by omega)
    refine ⟨hlong, ⟨a, hac⟩, hbelow, ?_⟩
    rw [hac, LexPath.resolve_concat_sep, LexPath.resolve_of_not_mem ha]
    simpa using hbase

/-- What is below a directory that is listed is listed behind it. -/
theorem Printed.head {path : List Byte} {rec : Bool} {n : DirName} {ns : List DirName}
    (h : Printed t path rec (n :: ns)) : Printed t path rec [n] := by
  by_cases hns : ns = []
  · exact hns ▸ h
  obtain ⟨⟨e, he, hmem⟩, hmeta, hsd⟩ := h
  have hroot := lsrRoot_isLsrRoot path
  have hrel := rel_cons hns n
  cases rec with
  | false =>
    obtain ⟨x, -, hx⟩ := List.mem_map.mp (show n :: ns ∈ (t.dir e).map fun x => [x.1] from hmem)
    exact absurd (List.cons.inj hx).2.symm hns
  | true =>
    refine ⟨⟨e, he, ?_⟩, fun hp => hmeta ?_, fun hp => hsd ?_⟩
    · have hbelow : ∀ k e, n :: ns ∈ t.below k e → [n] ∈ t.below k e := by
        intro k e hm
        cases k with
        | zero => cases hm
        | succ k =>
          obtain ⟨x, hx, hm⟩ := List.mem_flatMap.mp hm
          refine List.mem_flatMap.mpr ⟨x, hx, ?_⟩
          rcases List.mem_cons.mp hm with heq | hm
          · exact absurd (List.cons.inj heq).2 hns
          · split at hm
            · obtain ⟨ms, -, heq⟩ := List.mem_map.mp hm
              rw [(List.cons.inj heq).1]
              exact List.mem_cons_self
            · cases hm
      exact hbelow _ _ hmem
    · rw [normpath_lsrName hroot (List.cons_ne_nil _ _)] at hp ⊢
      rw [hrel]
      refine hp.trans (List.IsPrefix.isInfix ?_)
      exact (List.prefix_append_right_inj _).mpr ⟨slash :: rel ns, by simp [rel]⟩
    · rw [entryPath_eq hroot (List.cons_ne_nil _ _), List.drop_left] at hp ⊢
      rw [hrel]
      refine hp.trans (List.IsPrefix.isInfix ?_)
      -- what is below it makes it a directory
      rcases entrySfx_cases t (lsrRoot path) [n] with hsfx | hsfx
      · exact ⟨slash :: rel ns ++ entrySfx t (lsrRoot path) (n :: ns), by simp [hsfx, rel]⟩
      · exact ⟨rel ns ++ entrySfx t (lsrRoot path) (n :: ns), by simp [hsfx, rel]⟩

section

variable {a c path : List Byte}

/-- The root is not deeper than the directory of the listing. -/
theorem depth_le (ha : dotdot ∉ comps a)
    (hin : LexPath.Inside slash dot (a ++ slash :: c) path) :
    (LexPath.walk dot (comps a) (comps c)).length ≤ (LexPath.resolve slash dot path).length := by
  have hle := hin.length_le
  rwa [LexPath.resolve_append_sep, LexPath.resolve_of_not_mem ha] at hle

/-- With a component behind its last separator it is deeper than what stands before that. -/
theorem depth_lt_of_name (ha : dotdot ∉ comps a)
    (hin : LexPath.Inside slash dot (a ++ slash :: c) path) (hno : c ≠ dotdot)
    (hpiece : comps c = [c]) :
    (comps a).length < (LexPath.resolve slash dot path).length := by
  have hle := depth_le ha hin
  rw [hpiece, LexPath.walk_cons, LexPath.walk_nil, LexPath.step,
    if_neg (show ¬ c = [dot, dot] from hno), List.length_append] at hle
  exact hle

theorem depth_le_of_stay (ha : dotdot ∉ comps a)
    (hin : LexPath.Inside slash dot (a ++ slash :: c) path) (hc : c = [] ∨ c = [dot]) :
    (comps a).length ≤ (LexPath.resolve slash dot path).length := by
  have hle := depth_le ha hin
  rcases hc with rfl | rfl
  · exact hle
  · exact hle

theorem depth_pred_le (ha : dotdot ∉ comps a)
    (hin : LexPath.Inside slash dot (a ++ slash :: c) path) (hc : slash ∉ c) :
    (comps a).length - 1 ≤ (LexPath.resolve slash dot path).length := by
  rcases comps_piece hc with ⟨hstay, -⟩ | ⟨-, hpiece⟩ | ⟨hno, hpiece⟩
  · have hle := depth_le_of_stay ha hin hstay
    omega
  · have hle := depth_le ha hin
    rw [hpiece] at hle
    simpa [LexPath.step, dotdot] using hle
  · have hlt := depth_lt_of_name ha hin hno hpiece
    omega

end

/-- Where a root that is too long for a listing stands to an entry whose line leads back. -/
theorem PlacedBack.cut {a c path : List Byte} (ha : dotdot ∉ comps a) (hc : slash ∉ c)
    (hlong : (lsrRoot path).length < (a ++ slash :: c).length)
    (hin : LexPath.Inside slash dot (a ++ slash :: c) path) {ns : List DirName} (hne : ns ≠ [])
    (h : PlacedBack t (a ++ slash :: c) path ns) :
    ∃ i, i < ns.length ∧ comps a = LexPath.resolve slash dot path ++ (ns.map DirName.val).take i ∧
      (i = 0 → (c = [dot] ∨ c = dotdot) ∧
        (a ++ slash :: c).length = (lsrRoot path).length + c.length ∧
          ∀ n ∈ ns.head?, c <+: n.val) := by
  obtain ⟨hpd, hplace⟩ := h
  obtain ⟨m, hm⟩ : ∃ m, (a ++ slash :: c).length = (lsrRoot path).length + (m + 1) :=
    ⟨(a ++ slash :: c).length - (lsrRoot path).length - 1, by omega⟩
  have hp : (entryPath t (lsrRoot path) ns).drop (a ++ slash :: c).length =
      (rel ns ++ entrySfx t (lsrRoot path) ns).drop (m + 1) := by
    rw [entryPath_eq (lsrRoot_isLsrRoot path) hne, hm, List.drop_append,
      List.drop_eq_nil_of_le (Nat.le_add_right _ _), List.nil_append, Nat.add_sub_cancel_left]
  rw [hp, List.append_assoc, List.cons_append] at hpd hplace
  obtain ⟨i, y, hi, hzero, -, hcases⟩ :=
    exists_name_of_place hne (entrySfx_cases t _ ns) ha hc hpd hplace
  have hlen : (ns.map DirName.val).length = ns.length := List.length_map ..
  rcases hcases with ⟨hnil, heq⟩ | ⟨-, heq⟩ | ⟨heq, hname⟩
  · -- nothing but whole names
    have hc' : c = [] ∨ c = [dot] := by
      rcases hnil with hnil | hone
      · exact .inl (List.append_eq_nil_iff.mp hnil).1
      · rcases List.append_eq_singleton_iff.mp hone with ⟨hc, -⟩ | ⟨hc, -⟩
        · exact .inl hc
        · exact .inr hc
    have hle := depth_le_of_stay ha hin hc'
    have := congrArg List.length heq
    rw [List.length_append, List.length_append, List.length_drop, hlen] at this
    omega
  · -- a step up
    have hle := depth_pred_le ha hin hc
    have := congrArg List.length heq
    rw [List.length_dropLast, List.length_append, hlen] at this
    omega
  · refine ⟨i, hi, heq, ?_⟩
    rintro rfl
    obtain ⟨n, hn, rfl⟩ := hzero rfl
    obtain ⟨ms, rfl⟩ := List.head?_eq_some_iff.mp hn
    have hname : n.val = c ++ n.val.drop (m + 1) := by simpa using hname
    have hsum := congrArg List.length hname
    rw [List.length_append, List.length_drop] at hsum
    have hpos : 0 < n.val.length := List.length_pos_iff.mpr n.nonempty
    -- no component stands behind the last separator of the root
    have hpieceless : c ≠ dotdot → comps c ≠ [c] := by
      intro hno hpiece
      have hlt := depth_lt_of_name ha hin hno hpiece
      rw [heq] at hlt
      simp at hlt
    have hle : m + 1 ≤ n.val.length := by
      by_contra hlt
      -- then the last piece is the name, and the root is deeper
      have hcn : n.val = c := by
        rw [List.drop_eq_nil_of_le (by omega), List.append_nil] at hname
        exact hname
      apply hpieceless (hcn ▸ n.not_dotdot)
      rw [← hcn]
      exact (LexPath.comps_of_not_mem n.single).trans (by simp [n.nonempty, n.not_dot])
    refine ⟨?_, by omega, ?_⟩
    · rcases comps_piece hc with ⟨rfl | rfl, -⟩ | ⟨rfl, -⟩ | ⟨hno, hpiece⟩
      · simp at hsum
        omega
      · exact .inl rfl
      · exact .inr rfl
      · exact absurd hpiece (hpieceless hno)
    · intro n' hn'
      obtain rfl : n = n' := Option.some.inj hn'
      exact ⟨_, hname.symm⟩

/-- **A listing whose lines lead back needs a root that fits.** -/
theorem fits_of_placedBack {dbdir arg : List Byte} (habs : dbdir.head? = some slash)
    (hpd : ¬ pdir <:+: dbdir ++ arg)
    (hkind : Inside dbdir (dbdir ++ arg) ∨ dbdir.length ≤ (lsrRoot (dbdir ++ arg)).length)
    {rec : Bool}
    (hall : ∀ ns, Printed t (dbdir ++ arg) rec ns → PlacedBack t dbdir (dbdir ++ arg) ns)
    {ns : List DirName} (hp : Printed t (dbdir ++ arg) rec ns) :
    RootFits dbdir (dbdir ++ arg) ∨ DotFits t dbdir (dbdir ++ arg) rec := by
  rcases Nat.lt_or_ge (lsrRoot (dbdir ++ arg)).length dbdir.length with hlt | hlong
  · right
    obtain ⟨a, c, rfl, hc⟩ := exists_last_piece habs
    have hin := hkind.resolve_right (by omega)
    have ha : dotdot ∉ comps a :=
      dotdot_not_mem_init habs fun h => hpd (h.trans (List.prefix_append _ _).isInfix)
    have hcut : ∀ ns, Printed t (a ++ slash :: c ++ arg) rec ns → _ := fun ns hp =>
      PlacedBack.cut ha hc hlt hin hp.ne_nil (hall ns hp)
    obtain ⟨n, ms, rfl⟩ := List.exists_cons_of_ne_nil hp.ne_nil
    -- the first name alone settles where the last piece of the root is
    obtain ⟨i, hi, hbase, hdots⟩ := hcut [n] hp.head
    obtain rfl : i = 0 := by
      rw [List.length_singleton] at hi
      omega
    rw [List.take_zero, List.append_nil] at hbase
    obtain ⟨hc', hlen, -⟩ := hdots rfl
    refine ⟨a, c, hc', rfl, hlen, ?_, fun ns hp => ?_⟩
    · rw [LexPath.resolve_of_not_mem ha]
      exact hbase
    · obtain ⟨i, hi, heq, hdots⟩ := hcut ns hp
      have hzero := congrArg List.length heq
      rw [hbase, List.length_append, List.length_take, List.length_map] at hzero
      exact (hdots (by omega)).2.2
  · exact .inl ((hall ns hp).rootFits habs hlong hp.ne_nil)

/-! ### Where the lines lead under a root that fits -/

/-- A path that shows `/../` has a component `..`. -/
theorem dotdot_mem_of_pdir {p : List Byte} (h : pdir <:+: p) : dotdot ∈ comps p := by
  obtain ⟨a, b, rfl⟩ := h
  have hsplit : a ++ pdir ++ b = a ++ slash :: (dotdot ++ slash :: b) := by simp [pdir, dotdot]
  rw [hsplit, comps, LexPath.comps_append_sep, LexPath.comps_append_sep]
  exact List.mem_append_right _ (List.mem_append_left _ (by decide))

/-- One level up from the place that some names are is the place without the last of them. -/
theorem walk_dropLast (ht : Inodes.Proper t) {pos : List (List Byte)} {f g : ℕ}
    (hnames : ∀ c ∈ pos, ∃ n : DirName, c = n.val)
    (hpos : t.walk 0 (pos.map compStep) = some f) (hup : t.step f .up = some g) :
    t.walk 0 (pos.dropLast.map compStep) = some g := by
  rcases List.eq_nil_or_concat' pos with rfl | ⟨init, c, rfl⟩
  · -- the root is above itself
    obtain rfl : 0 = f := Option.some.inj hpos
    have hroot : t.step 0 .up = some 0 := by
      simp [Inodes.Tree.step, ht.top, Inodes.Tree.isDir, t.root_dir]
    exact hroot.symm.trans hup
  · obtain ⟨n, rfl⟩ := hnames c (List.mem_append_right _ (List.mem_singleton_self c))
    rw [List.map_append, Inodes.walk_append] at hpos
    obtain ⟨d, hd, hf⟩ := Option.bind_eq_some_iff.mp hpos
    have hname : compStep n.val = .name n := by
      unfold compStep
      rw [dirName?_val]
    rw [List.map_singleton, hname] at hf
    obtain ⟨f', hdf, hf'⟩ := Option.bind_eq_some_iff.mp hf
    obtain rfl : f' = f := Option.some.inj hf'
    have hdir : t.isDir d = true := by
      simp [Inodes.Tree.isDir, (Inodes.walk_lt t.root_lt t.root_dir hd).2]
    rw [List.dropLast_concat, hd]
    exact (ht.step_up hdir hdf).symm.trans hup

/-- The components of a path lead, from the inode at some place, to the inode at the place they
resolve to from there. -/
theorem walk_lexWalk (ht : Inodes.Proper t) {e : ℕ} : ∀ (cs pos : List (List Byte)) {f : ℕ},
    (∀ c ∈ cs, c ≠ [] ∧ c ≠ [dot] ∧ slash ∉ c) → (∀ c ∈ pos, ∃ n : DirName, c = n.val) →
      t.walk 0 (pos.map compStep) = some f → t.walk f (cs.map compStep) = some e →
        t.walk 0 ((LexPath.walk dot pos cs).map compStep) = some e := by
  intro cs
  induction cs with
  | nil =>
    intro pos f _ _ hpos hf
    obtain rfl : f = e := Option.some.inj hf
    exact hpos
  | cons c cs ih =>
    intro pos f hcs hnames hpos hf
    obtain ⟨⟨hnil, hdot, hsl⟩, hrest⟩ := List.forall_mem_cons.mp hcs
    obtain ⟨g, hstep, hg⟩ := Option.bind_eq_some_iff.mp hf
    rw [LexPath.walk_cons]
    by_cases hup : c = dotdot
    · subst hup
      have hdrop : LexPath.step dot pos dotdot = pos.dropLast := if_pos rfl
      rw [hdrop]
      exact ih _ hrest (fun c hc => hnames c (List.mem_of_mem_dropLast hc))
        (walk_dropLast ht hnames hpos hstep) hg
    · have hpush : LexPath.step dot pos c = pos ++ [c] := if_neg hup
      rw [hpush]
      refine ih _ hrest ?_ ?_ hg
      · intro c' hc'
        rcases List.mem_append.mp hc' with hc' | hc'
        · exact hnames c' hc'
        · exact ⟨⟨c, hnil, hsl, hdot, hup⟩, List.mem_singleton.mp hc'⟩
      · rw [List.map_append, Inodes.walk_append, hpos]
        show (t.step f (compStep c)).bind _ = _
        rw [hstep]
        rfl

/-- A directory that a path leads to is at the place the path resolves to. -/
theorem walk_resolve (ht : Inodes.Proper t) {p : List Byte} {e : ℕ} (h : dirAt t p = some e) :
    t.walk 0 ((LexPath.resolve slash dot p).map compStep) = some e := by
  unfold dirAt compSteps at h
  rw [walk_compSteps_filter] at h
  refine walk_lexWalk ht _ [] ?_ (fun c hc => by cases hc) rfl h
  intro c hc
  obtain ⟨hc, hne⟩ := List.mem_filter.mp hc
  have hne : c ≠ [] ∧ c ≠ [dot] := by simpa using hne
  exact ⟨hne.1, hne.2, LexPath.not_mem_of_mem_splitOn hc⟩

/-- Another path to that place leads to the directory, too. -/
theorem dirAt_of_resolve (ht : Inodes.Proper t) {p b : List Byte} {e : ℕ}
    (h : dirAt t p = some e) (hb : dotdot ∉ comps b)
    (hplace : LexPath.resolve slash dot b = LexPath.resolve slash dot p) : dirAt t b = some e := by
  have hwalk := walk_resolve ht h
  rw [← hplace, LexPath.resolve_of_not_mem hb] at hwalk
  unfold dirAt compSteps
  rw [walk_compSteps_filter]
  exact hwalk

theorem below_eq {ns : List DirName} (hne : ns ≠ []) (b : List Byte) :
    below b ns = b ++ slash :: rel ns := by
  rw [cons_rel hne]
  rfl

theorem comps_below_append {b sfx : List Byte} (hsfx : sfx = [] ∨ sfx = [slash])
    (ns : List DirName) : comps (below b ns ++ sfx) = comps b ++ ns.map DirName.val := by
  rw [← comps_below]
  rcases hsfx with rfl | rfl
  · rw [List.append_nil]
  · exact LexPath.comps_concat_sep _

/-- The path that a line makes: some path to the directory of the listing, and the names. -/
structure Back (t : FileTree) (dbdir path : List Byte) (rec : Bool) (b : List Byte) : Prop where
  absolute : (b ++ [slash]).head? = some slash
  below_root : ¬ pdir <:+: b ++ [slash]
  place : LexPath.resolve slash dot b = LexPath.resolve slash dot path
  long : ∀ ns, Printed t path rec ns → dbdir.length ≤ (entryPath t (lsrRoot path) ns).length
  back : ∀ ns, Printed t path rec ns →
    dbdir ++ (entryPath t (lsrRoot path) ns).drop dbdir.length =
      below b ns ++ entrySfx t (lsrRoot path) ns

/-- Under a root that fits the lines make paths to the directory of the listing. -/
theorem RootFits.exists_back {dbdir path : List Byte} (h : RootFits dbdir path)
    (habs : dbdir.head? = some slash) (rec : Bool) : ∃ b, Back t dbdir path rec b := by
  obtain ⟨b, hb⟩ := h.closed
  have hback : (lsrBack dbdir path).head? = some slash := by
    rw [lsrBack, List.head?_append, habs]
    rfl
  refine ⟨b, hb ▸ hback, hb ▸ h.below_root, ?_, fun ns hp => ?_, fun ns hp => ?_⟩
  · rw [← h.place, hb, LexPath.resolve_concat_sep]
  · rw [entryPath_eq (lsrRoot_isLsrRoot path) hp.ne_nil, List.length_append]
    exact h.long.trans (Nat.le_add_right _ _)
  · rw [entryPath_eq (lsrRoot_isLsrRoot path) hp.ne_nil, List.drop_append_of_le_length h.long,
      ← List.append_assoc, ← lsrBack, hb, below_eq hp.ne_nil]
    simp

theorem DotFits.exists_back {dbdir arg : List Byte} {rec : Bool}
    (h : DotFits t dbdir (dbdir ++ arg) rec) (habs : dbdir.head? = some slash)
    (hpd : ¬ pdir <:+: dbdir ++ arg) : ∃ b, Back t dbdir (dbdir ++ arg) rec b := by
  obtain ⟨a, c, -, rfl, hlen, hplace, hnames⟩ := h
  have hpre : a ++ [slash] <+: a ++ slash :: c ++ arg := ⟨c ++ arg, by simp⟩
  -- the dots are at the front of the names
  have hrel : ∀ ns, Printed t (a ++ slash :: c ++ arg) rec ns → c <+: rel ns := by
    intro ns hp
    obtain ⟨n, ms, rfl⟩ := List.exists_cons_of_ne_nil hp.ne_nil
    exact (hnames _ hp n rfl).trans ⟨ms.flatMap fun n => slash :: n.val, rfl⟩
  have hdrop : ∀ ns, Printed t (a ++ slash :: c ++ arg) rec ns →
      (entryPath t (lsrRoot (a ++ slash :: c ++ arg)) ns).drop (a ++ slash :: c).length =
        (rel ns ++ entrySfx t (lsrRoot (a ++ slash :: c ++ arg)) ns).drop c.length := by
    intro ns hp
    rw [entryPath_eq (lsrRoot_isLsrRoot _) hp.ne_nil, hlen, List.drop_append,
      List.drop_eq_nil_of_le (Nat.le_add_right _ _), List.nil_append, Nat.add_sub_cancel_left]
  refine ⟨a, head?_concat_of_append habs, fun hp => hpd (hp.trans hpre.isInfix), hplace,
    fun ns hp => ?_, fun ns hp => ?_⟩
  · have := (hrel ns hp).length_le
    rw [entryPath_eq (lsrRoot_isLsrRoot _) hp.ne_nil, hlen, List.length_append, List.length_append]
    omega
  · obtain ⟨r, hr⟩ := hrel ns hp
    rw [hdrop ns hp, below_eq hp.ne_nil, ← hr, List.append_assoc c, List.drop_left]
    simp

section

variable {dbdir path b : List Byte} {rec : Bool} (h : Back t dbdir path rec b)

include h

theorem Back.dotdot_not_mem : dotdot ∉ comps b := by
  rw [← show comps (b ++ [slash]) = comps b from LexPath.comps_concat_sep b]
  exact dotdot_not_mem_of_closed h.absolute ⟨b, rfl⟩ h.below_root

theorem Back.dirAt (ht : Inodes.Proper t) {e : ℕ} (he : dirAt t (lsrRoot path) = some e) :
    TFProtocol.dirAt t b = some e :=
  dirAt_of_resolve ht he h.dotdot_not_mem (h.place.trans (resolve_lsrRoot path).symm)

theorem Back.dirAt_base (ht : Inodes.Proper t) {e : ℕ}
    (he : TFProtocol.dirAt t (lsrRoot path) = some e) :
    TFProtocol.dirAt t b =
      TFProtocol.dirAt t (if lsrRoot path = [slash] then [] else lsrRoot path) := by
  rw [h.dirAt ht he, ← he]
  split
  next hroot => rw [hroot]; rfl
  next => rfl

/-- Both ways to the directory of the listing lead to the same directories below it. -/
theorem Back.dirAt_below (ht : Inodes.Proper t) {e : ℕ}
    (he : TFProtocol.dirAt t (lsrRoot path) = some e) (ns : List DirName) :
    TFProtocol.dirAt t (below b ns) = TFProtocol.dirAt t (lsrName (lsrRoot path) ns) := by
  have hbase := h.dirAt_base ht he
  unfold lsrName
  by_cases hne : ns = []
  · subst hne
    simpa [below] using hbase
  · rw [below_eq hne, below_eq hne, dirAt_append, dirAt_append, hbase]

theorem Back.dirAt_sfx (ht : Inodes.Proper t) {e : ℕ}
    (he : TFProtocol.dirAt t (lsrRoot path) = some e) (ns : List DirName) :
    TFProtocol.dirAt t (below b ns ++ entrySfx t (lsrRoot path) ns) =
      TFProtocol.dirAt t (lsrName (lsrRoot path) ns) := by
  rw [← h.dirAt_below ht he]
  rcases entrySfx_cases t (lsrRoot path) ns with hsfx | hsfx
  · rw [hsfx, List.append_nil]
  · rw [hsfx, dirAt_concat_slash]

/-- They lead to the same inodes. -/
theorem Back.node_eq (ht : Inodes.Proper t) {e : ℕ}
    (he : TFProtocol.dirAt t (lsrRoot path) = some e) {ns : List DirName} (hne : ns ≠ []) :
    node t (below b ns ++ entrySfx t (lsrRoot path) ns) = node t (lsrName (lsrRoot path) ns) := by
  by_cases hdir : (TFProtocol.dirAt t (lsrName (lsrRoot path) ns)).isSome = true
  · obtain ⟨f, hf⟩ := Option.isSome_iff_exists.mp hdir
    unfold node
    rw [h.dirAt_sfx ht he, hf]
  · have hsfx : entrySfx t (lsrRoot path) ns = [] := if_neg hdir
    rw [hsfx, List.append_nil]
    unfold lsrName
    rw [below_eq hne, below_eq hne]
    exact node_append_of_dirAt (h.dirAt_base ht he) _

/-- The metadata that govern what the line leads to. -/
theorem Back.metaOf_eq (ht : Inodes.Proper t) {e : ℕ}
    (he : TFProtocol.dirAt t (lsrRoot path) = some e) {ns : List DirName} (hne : ns ≠ []) :
    ∃ g, metaOf (treeFs t) (below b ns ++ entrySfx t (lsrRoot path) ns) =
        g ++ slash :: metaRd.val ∧ TFProtocol.dirAt t g = govDir t (lsrRoot path) ns := by
  have hdir := h.dirAt_sfx ht he ns
  unfold metaOf govDir
  cases hat : TFProtocol.dirAt t (lsrName (lsrRoot path) ns) with
  | some f =>
    rw [hat] at hdir
    refine ⟨_, ?_, hdir⟩
    have hisdir : (treeFs t).isDir (below b ns ++ entrySfx t (lsrRoot path) ns) = true :=
      Option.isSome_iff_exists.mpr ⟨f, hdir⟩
    rw [if_pos hisdir]
    simp [metaRd]
  | none =>
    obtain ⟨ms, n, rfl⟩ := (List.eq_nil_or_concat' ns).resolve_left hne
    have hsfx : entrySfx t (lsrRoot path) (ms ++ [n]) = [] := if_neg (by simp [hat])
    have hsplit : below b (ms ++ [n]) = below b ms ++ slash :: n.val := by simp [below]
    rw [hat] at hdir
    refine ⟨below b ms, ?_, ?_⟩
    · rw [if_neg (fun hsome => by simp [treeFs, hdir] at hsome), hsfx, List.append_nil, hsplit,
        rmtrdir_append]
      simp [metaRd]
    · rw [List.dropLast_concat]
      exact h.dirAt_below ht he ms

/-- The names of the metadata are in no line that is written. -/
theorem Back.not_fsmeta {ns : List DirName} (hp : Printed t path rec ns) :
    ¬ fsmeta <:+: below b ns ++ entrySfx t (lsrRoot path) ns := by
  intro hin
  apply hp.no_meta
  rw [fsmeta_infix_iff, comps_below_append (entrySfx_cases t _ ns)] at hin
  obtain ⟨c, hc, hin⟩ := hin
  rw [fsmeta_infix_iff]
  refine ⟨c, ?_, hin⟩
  have hcomps : comps (normpath (lsrName (lsrRoot path) ns)) =
      comps path ++ ns.map DirName.val := by
    rw [normpath, comps, LexPath.comps_squeeze]
    rw [← comps_lsrRoot]
    exact comps_lsrName _ _
  rw [hcomps]
  rcases List.mem_append.mp hc with hc | hc
  · -- the place of the directory has no other components than a path to it
    by_contra hno
    have hout : c ∉ comps path := fun hmem => hno (List.mem_append_left _ hmem)
    have hplace : comps b = LexPath.resolve slash dot path :=
      (LexPath.resolve_of_not_mem h.dotdot_not_mem).symm.trans h.place
    rw [hplace] at hc
    exact LexPath.not_mem_walk (comps path) [] hout List.not_mem_nil hc
  · exact List.mem_append_right _ hc

/-- A line does not lead out of the root. -/
theorem Back.not_pdir (ns : List DirName) :
    ¬ pdir <:+: below b ns ++ entrySfx t (lsrRoot path) ns := by
  intro hin
  have hmem := dotdot_mem_of_pdir hin
  rw [comps_below_append (entrySfx_cases t _ ns)] at hmem
  rcases List.mem_append.mp hmem with hmem | hmem
  · exact h.dotdot_not_mem hmem
  · exact dotdot_not_mem_names ns hmem

/-- It leads to the place of the entry. -/
theorem Back.resolve_eq (ns : List DirName) :
    LexPath.resolve slash dot (below b ns ++ entrySfx t (lsrRoot path) ns) =
      LexPath.resolve slash dot (lsrName (lsrRoot path) ns) := by
  have hcomps := comps_below_append (b := b) (entrySfx_cases t (lsrRoot path) ns) ns
  rw [resolve_lsrName, ← h.place, LexPath.resolve_of_not_mem h.dotdot_not_mem,
    LexPath.resolve_of_not_mem]
  · exact hcomps
  · rw [show LexPath.comps slash dot _ = _ from hcomps]
    exact fun hmem => (List.mem_append.mp hmem).elim h.dotdot_not_mem (dotdot_not_mem_names ns)

end

/-! ### Permissions -/

/-- What a name in a directory leads to. -/
theorem node_append_name (a : List Byte) (n : DirName) :
    node t (a ++ slash :: n.val) = (dirAt t a).bind fun e => t.entry e n := by
  cases ha : dirAt t a with
  | none =>
    have htr := trailing_append a n
    unfold node fileSlot slot
    rw [dirAt_append, ha, htr, stripSlashes_of_not_trailing htr, lastSlash_append]
    simp [dirName?_val, ha]
  | some e =>
    unfold node
    rw [fileSlot_append ha n, dirAt_concat_name ha n]
    cases hi : t.entry e n with
    | none => simp [hi]
    | some i =>
      by_cases hdir : t.isDir i = true
      · simp [Option.filter, hdir, hi]
      · simp [Option.filter, hdir, hi]

/-- **The metadata of a directory decide.** -/
theorem secfsProc_iff {j : Jail} {p g : List Byte}
    (hmeta : metaOf (treeFs t) p = g ++ slash :: metaRd.val) (hin : ¬ fsmeta <:+: p)
    (hovrr : j.fsopOvrr = 0) (hop : j.fsop ≠ 0) :
    (secfsProc (treeFs t) j p).1 = true ↔ ∀ d ∈ dirAt t g, Permits t d j.fsid j.fsop := by
  have hnode := node_append_name (t := t) g metaRd
  have hacc : (treeFs t).access (g ++ slash :: metaRd.val) =
      ((dirAt t g).bind fun e => t.entry e metaRd).isSome := congrArg Option.isSome hnode
  have hread : (treeFs t).read (g ++ slash :: metaRd.val) =
      ((dirAt t g).bind fun e => t.entry e metaRd).bind t.data :=
    congrArg (Option.bind · t.data) hnode
  have hperm (id : List Byte) : getfsidperm (treeFs t) (g ++ slash :: metaRd.val) id =
      ((((dirAt t g).bind fun e => t.entry e metaRd).bind t.data).map fun file =>
        permOf id (lines newline lineMax file)).getD 0 := by
    unfold getfsidperm
    rw [hread]
    cases ((dirAt t g).bind fun e => t.entry e metaRd).bind t.data <;> rfl
  simp only [secfsProc, if_neg hin, hovrr, ne_eq, not_true_eq_false, if_false, hmeta, hacc, hperm,
    hop]
  cases hg : dirAt t g with
  | none => simp
  | some d =>
    cases hentry : t.entry d metaRd with
    | none => simp [hentry, Permits]
    | some i =>
      have hfiles : t.files d metaRd = t.data i := by
        simp [Inodes.Tree.files, hentry]
      cases hdata : t.data i with
      | none =>
        have hzero : 0#32 ≠ j.fsop := Ne.symm hop
        simp [hentry, hdata, hfiles, Permits, hzero]
      | some file => simp [hentry, hdata, hfiles, Permits, effPerm]

/-! ### The lines -/

theorem chop_concat {text : List Byte} (h : newline ∉ text) : chop (text ++ [newline]) = text := by
  unfold chop
  rw [strchr_append h]

/-- The line of an entry whose path is as long as the root. -/
theorem printedLine_of_le {dbdir root : List Byte} {ns : List DirName}
    (h : dbdir.length ≤ (entryPath t root ns).length) (junk : List Byte) :
    printedLine t dbdir root junk ns = (entryPath t root ns).drop dbdir.length ++ [newline] := by
  unfold printedLine
  rw [if_pos (by rw [List.length_append]; omega), List.drop_append_of_le_length h]

/-- Without its newline a line is what the path of the entry has behind the root. -/
theorem Printed.chop_line (ht : NewlineFree t) (dbdir : List Byte) {path : List Byte} {rec : Bool}
    {ns : List DirName} (hp : Printed t path rec ns) :
    chop (printedLine t dbdir (lsrRoot path) [] ns) =
      (entryPath t (lsrRoot path) ns).drop dbdir.length := by
  rcases Nat.lt_or_ge (entryPath t (lsrRoot path) ns).length dbdir.length with hlt | hle
  · have hnil : printedLine t dbdir (lsrRoot path) [] ns = [] := by
      unfold printedLine
      split
      · exact List.drop_eq_nil_of_le (by rw [List.length_append, List.length_singleton]; omega)
      · rfl
    rw [hnil, List.drop_eq_nil_of_le hlt.le]
    rfl
  · rw [printedLine_of_le hle]
    exact chop_concat fun hmem => hp.newline_not_mem ht (List.mem_of_mem_drop hmem)

/-- Lines that are read whole fit the buffer. -/
theorem FedBack.linesFit {arg : List Byte} {rec : Bool} (h : FedBack t j arg rec []) :
    LinesFit t j.dbdir (j.dbdir ++ arg) rec := by
  intro ns hp
  have hmem : printedLine t j.dbdir (lsrRoot (j.dbdir ++ arg)) [] ns ∈
      lsrLines (lsrv2 t j.dbdir (j.dbdir ++ arg) rec []) :=
    List.mem_map_of_mem (hp.mem_lsrv2 j.dbdir [])
  rw [← h.whole] at hmem
  have hlen := length_lt_of_mem_lines (by decide) hmem
  rcases Nat.lt_or_ge (entryPath t (lsrRoot (j.dbdir ++ arg)) ns).length j.dbdir.length
    with hlt | hle
  · have hmax : 1 < lineMax := by decide
    omega
  · rw [printedLine_of_le hle, List.length_append, List.length_drop, List.length_singleton] at hlen
    omega

theorem lineCheck_dst {line : List Byte} (h : (chop line).length < pathMax) :
    (lineCheck t j line).dst = j.dbdir ++ chop line := by
  rw [lineCheck, jaildir_dst]
  exact jailed_of_lt h []

/-- Lines that fit are short enough to be a path. -/
theorem LinesFit.drop_length_lt {dbdir path : List Byte} {rec : Bool}
    (h : LinesFit t dbdir path rec) {ns : List DirName} (hp : Printed t path rec ns) :
    ((entryPath t (lsrRoot path) ns).drop dbdir.length).length < pathMax := by
  have hlen := h ns hp
  have hmax : 0 < lineMax ∧ lineMax ≤ pathMax := by decide
  rw [List.length_drop]
  omega

/-- A line that leads back is accepted by its text, and leads to the place. -/
theorem FedBack.placedBack (ht : NewlineFree t) {arg : List Byte} {rec : Bool}
    (h : FedBack t j arg rec []) {ns : List DirName} (hp : Printed t (j.dbdir ++ arg) rec ns) :
    PlacedBack t j.dbdir (j.dbdir ++ arg) ns := by
  have hleads := h.leads _ (hp.mem_lsrv2 j.dbdir [])
  have hchop := hp.chop_line ht j.dbdir
  have hshort := h.linesFit.drop_length_lt hp
  have hdst := lineCheck_dst (t := t) (j := j) (hchop ▸ hshort)
  rw [hchop] at hdst
  obtain ⟨hpd, -, -⟩ := jaildir_ok_iff.mp hleads.ok
  have hplace := hleads.place
  rw [← jaildir_dst (treeFs t)] at hpd
  rw [hdst, resolve_lsrName] at hplace
  exact ⟨fun hin => hpd (hdst.symm ▸ hin), hplace⟩

/-- Whether `jaildir` accepts the path a line makes. -/
theorem Back.ok_iff (ht : Inodes.Proper t) {path b : List Byte} {rec : Bool}
    (h : Back t j.dbdir path rec b) (hclear : j.Clear) (hacc : (treeFs t).access j.dbdir = true)
    {ns : List DirName} (hp : Printed t path rec ns) {line : List Byte}
    (hline : chop line = (entryPath t (lsrRoot path) ns).drop j.dbdir.length)
    (hshort : (chop line).length < pathMax) :
    (lineCheck t j line).ok = true ↔
      ∀ d ∈ govDir t (lsrRoot path) ns, Permits t d j.fsid Secfs.stat.bit := by
  obtain ⟨e, he, -⟩ := hp.found
  obtain ⟨g, hmeta, hgov⟩ := h.metaOf_eq ht he hp.ne_nil
  have hdst : jailed (Site.fsizelsLine.arm j).dbdir (chop line) [] =
      below b ns ++ entrySfx t (lsrRoot path) ns := by
    rw [jailed_of_lt hshort, hline]
    exact h.back ns hp
  unfold lineCheck
  rw [jaildir_ok_iff, hdst,
    secfsProc_iff (j := Site.fsizelsLine.arm j) hmeta (h.not_fsmeta hp) hclear.2
      (show Secfs.stat.bit ≠ 0 by decide), hgov]
  exact ⟨fun hok => hok.2.1, fun hperm => ⟨h.not_pdir ns, hperm, hacc⟩⟩

/-- Nothing is left behind between the lines. -/
theorem statLoop_eq_map (hclear : j.Clear) (ls : List (List Byte)) :
    statLoop t j ls = ls.map fun line =>
      if (lineCheck t j line).ok then node t (lineCheck t j line).dst else none := by
  induction ls with
  | nil => rfl
  | cons line ls ih =>
    have hjail : (lineCheck t j line).jail = j :=
      jaildir_jail_of_clear hclear .fsizelsLine (not_leaks_of_clear hclear rfl _ _)
    simp only [statLoop, hjail, ih, List.map_cons]

/-- A file of short lines is read line by line. -/
theorem lines_flatten {ls : List (List Byte)}
    (h : ∀ l ∈ ls, ∃ text, l = text ++ [newline] ∧ newline ∉ text ∧ text.length + 1 < lineMax) :
    lines newline lineMax ls.flatten = ls := by
  have hchop : ls.map (fun l => chop l ++ [newline]) = ls := by
    conv_rhs => rw [← List.map_id ls]
    apply List.map_congr_left
    intro l hl
    obtain ⟨text, rfl, hnl, -⟩ := h l hl
    rw [chop_concat hnl]
    rfl
  have hfile : ls.flatten = unlines newline (ls.map chop) := by
    unfold unlines
    rw [List.flatMap_map, List.flatMap_def, hchop]
  rw [hfile, lines_unlines, List.map_map]
  · exact hchop
  · intro l hl
    obtain ⟨l, hmem, rfl⟩ := List.mem_map.mp hl
    obtain ⟨text, rfl, hnl, hlen⟩ := h l hmem
    rw [chop_concat hnl]
    exact ⟨hnl, hlen⟩

/-! ### Every reachable root -/

/-- **Under a root that fits the lines lead back**, as far as they are short and the identity
may ask for the attributes. -/
theorem Back.fedBack (ht : NewlineFree t) (hproper : Inodes.Proper t) (hclear : j.Clear)
    (hacc : (treeFs t).access j.dbdir = true) {arg b : List Byte} {rec : Bool}
    (h : Back t j.dbdir (j.dbdir ++ arg) rec b) (hfits : LinesFit t j.dbdir (j.dbdir ++ arg) rec)
    (hread : Readable t j.fsid (j.dbdir ++ arg) rec) (junk : List Byte) :
    FedBack t j arg rec junk := by
  have hwhole : lines newline lineMax
      (lsrLines (lsrv2 t j.dbdir (j.dbdir ++ arg) rec junk)).flatten =
        lsrLines (lsrv2 t j.dbdir (j.dbdir ++ arg) rec junk) := by
    apply lines_flatten
    intro l hl
    obtain ⟨x, hx, rfl⟩ := List.mem_map.mp hl
    obtain ⟨hp, hline⟩ := mem_lsrv2.mp hx
    have hlong := h.long _ hp
    have hlen := hfits _ hp
    refine ⟨_, hline.trans (printedLine_of_le hlong junk), ?_, ?_⟩
    · exact fun hmem => hp.newline_not_mem ht (List.mem_of_mem_drop hmem)
    · rw [List.length_drop]
      omega
  have hleads : ∀ x ∈ lsrv2 t j.dbdir (j.dbdir ++ arg) rec junk,
      LeadsBack t j (lsrRoot (j.dbdir ++ arg)) x.1 x.2 := by
    intro x hx
    obtain ⟨hp, hline⟩ := mem_lsrv2.mp hx
    obtain ⟨e, he, -⟩ := hp.found
    have hchop : chop x.2 = (entryPath t (lsrRoot (j.dbdir ++ arg)) x.1).drop j.dbdir.length := by
      rw [hline, printedLine_of_le (h.long _ hp)]
      exact chop_concat fun hmem => hp.newline_not_mem ht (List.mem_of_mem_drop hmem)
    have hshort : (chop x.2).length < pathMax := hchop ▸ hfits.drop_length_lt hp
    have hdst : (lineCheck t j x.2).dst =
        below b x.1 ++ entrySfx t (lsrRoot (j.dbdir ++ arg)) x.1 := by
      rw [lineCheck_dst hshort, hchop]
      exact h.back _ hp
    refine ⟨(h.ok_iff hproper hclear hacc hp hchop hshort).mpr (hread _ hp), ?_, ?_⟩
    · rw [hdst]
      exact h.resolve_eq _
    · rw [hdst]
      exact h.node_eq hproper he hp.ne_nil
  refine ⟨hwhole, hleads, ?_⟩
  unfold statls lsrLines
  rw [← lsrLines, hwhole, statLoop_eq_map hclear, lsrLines, List.map_map]
  apply List.map_congr_left
  intro x hx
  have hl := hleads x hx
  simp only [Function.comp_apply, hl.ok, if_true, hl.node]

/-- A listing without lines can be fed back. -/
theorem fedBack_of_empty {arg junk : List Byte} {rec : Bool}
    (h : ¬ ∃ ns, Printed t (j.dbdir ++ arg) rec ns) : FedBack t j arg rec junk := by
  have hnil : lsrv2 t j.dbdir (j.dbdir ++ arg) rec junk = [] := by
    apply List.eq_nil_iff_forall_not_mem.mpr
    intro x hx
    exact h ⟨x.1, (mem_lsrv2.mp hx).1⟩
  constructor
  · rw [hnil]
    rfl
  · rw [hnil]
    intro x hx
    cases hx
  · rw [hnil]
    rfl

/-- A root stays absolute, whatever moves it. -/
theorem rootRun_absolute : ∀ (cmds : List RootCmd) {r : Roots},
    r.jail.dbdir.head? = some slash → (rootRun r cmds).jail.dbdir.head? = some slash := by
  intro cmds
  induction cmds with
  | nil => intro r h; exact h
  | cons cmd cmds ih =>
    intro r h
    apply ih
    rcases rootStep_dbdir r cmd with hsame | hmove
    · rwa [hsame]
    · cases cmd with
      | injail fs arg beyond =>
        obtain ⟨sectok, dstp, -, hmove⟩ := hmove
        rw [hmove, jailed]
        split <;> simp [List.head?_append, h]
      | locksys fs arg =>
        rw [show _ = _ from hmove]
        simp [List.head?_append, h]
      | flycontext fs fs' arg beyond =>
        rw [show _ = _ from hmove]
        rfl

/-- The flags stay clear. -/
theorem rootRun_clear : ∀ (cmds : List RootCmd) {r : Roots}, r.jail.Clear →
    (rootRun r cmds).jail.Clear := by
  intro cmds
  induction cmds with
  | nil => intro r h; exact h
  | cons cmd cmds ih =>
    intro r h
    exact ih (rootStep_flags h cmd).1

/-- **When a listing can be fed back.**  The root lends to each line what the line has lost, the
lines are short, and the identity may ask for the attributes.  There is no other way for a
directory below the root, or where the root is not longer than the path. -/
theorem listings_fed_back {r : Roots} (hr : r.jail.dbdir.head? = some slash)
    (hclear : r.jail.Clear) (cmds : List RootCmd) {t : FileTree} (ht : NewlineFree t)
    (hproper : Inodes.Proper t) {arg : List Byte} (rec : Bool) :
    let j := (rootRun r cmds).jail
    let path := j.dbdir ++ arg
    Listable t j arg →
      (FitsBack t j path rec → ∀ junk, FedBack t j arg rec junk) ∧
      (Inside j.dbdir path ∨ j.dbdir.length ≤ (lsrRoot path).length →
        (∀ junk, FedBack t j arg rec junk) → FitsBack t j path rec) := by
  intro j path harg
  have habs : j.dbdir.head? = some slash := rootRun_absolute cmds hr
  have hclear : j.Clear := rootRun_clear cmds hclear
  obtain ⟨flags, beyond, hok⟩ := harg.ok
  obtain ⟨hpd, -, hacc⟩ := jaildir_ok_iff.mp hok
  rw [jailed_of_lt harg.short] at hpd
  have hback : RootFits j.dbdir path ∨ DotFits t j.dbdir path rec →
      ∃ b, Back t j.dbdir path rec b := fun h =>
    h.elim (fun h => h.exists_back habs rec) (fun h => h.exists_back habs hpd)
  constructor
  · intro h junk
    by_cases hlist : ∃ ns, Printed t path rec ns
    · obtain ⟨hroot, hfits, hread⟩ := h hlist
      obtain ⟨b, hb⟩ := hback hroot
      exact hb.fedBack ht hproper hclear hacc hfits hread junk
    · exact fedBack_of_empty hlist
  · rintro hkind h ⟨ns, hp⟩
    have hall : ∀ ns, Printed t path rec ns → PlacedBack t j.dbdir path ns :=
      fun _ hp => (h []).placedBack ht hp
    have hroot := fits_of_placedBack habs hpd hkind hall hp
    refine ⟨hroot, (h []).linesFit, fun ns hp => ?_⟩
    obtain ⟨b, hb⟩ := hback hroot
    have hchop := hp.chop_line ht j.dbdir
    exact (hb.ok_iff hproper hclear hacc hp hchop
      (hchop ▸ (h []).linesFit.drop_length_lt hp)).mp ((h []).leads _ (hp.mem_lsrv2 j.dbdir [])).ok

/-- A tree in which everybody may list `/srv/d`, and ask for the attributes of what is in it. -/
def statTree : FileTree := exampleTree.write 3 (lit ":272\n")

theorem statTree_newlineFree : NewlineFree statTree := by
  intro e x hx
  have he : e < 5 := by
    by_contra hge
    rw [statTree.fresh e (show 5 ≤ e by omega)] at hx
    cases hx
  have hall : ∀ e < 5, ∀ x ∈ statTree.dir e, newline ∉ x.1.val := by decide +kernel
  exact hall e he x hx

theorem statTree_proper : Inodes.Proper statTree := .of_forall (by decide +kernel) rfl

/-- After `LOCKSYS d/` the root is `/srv//d/`.  For the argument `./` the line of `f` has lost
its dot, which does not matter. -/
theorem listings_fed_back_example :
    statls statTree { exampleJail with dbdir := lit "/srv//d/" } (lit "/f\n") = [some 4] ∧
      ∀ junk,
        FedBack statTree { exampleJail with dbdir := lit "/srv//d/" } (lit "./") false junk := by
  refine ⟨by decide +kernel, ?_⟩
  apply (@listings_fed_back exampleRoots rfl ⟨rfl, rfl⟩ [.locksys (treeFs statTree) (lit "d/")]
    statTree statTree_newlineFree statTree_proper (lit "./") false
    ⟨by decide +kernel, ⟨Secfs.ldir.bit, [], by decide +kernel⟩, by decide +kernel⟩).1
  rintro -
  have hall : ∀ ns ∈ lsrEntries statTree false 2,
      (entryPath statTree (lsrRoot (lit "/srv//d/./")) ns).length + 1 < 8 + lineMax ∧
        govDir statTree (lsrRoot (lit "/srv//d/./")) ns = some 2 := by
    decide +kernel
  have hmem {ns : List DirName} (hp : Printed statTree (lit "/srv//d/./") false ns) :
      ns ∈ lsrEntries statTree false 2 := by
    obtain ⟨e, he, hns⟩ := hp.found
    obtain rfl : 2 = e := Option.some.inj
      ((show dirAt statTree (lsrRoot (lit "/srv//d/./")) = some 2 by decide +kernel).symm.trans he)
    exact hns
  refine ⟨.inl ⟨by decide +kernel, ⟨lit "/srv//d/", by decide +kernel⟩, by decide +kernel,
    by decide +kernel⟩, fun ns hp => (hall ns (hmem hp)).1, fun ns hp d hd => ?_⟩
  obtain rfl : 2 = d := Option.some.inj ((hall ns (hmem hp)).2.symm.trans hd)
  exact .inr ⟨lit ":272\n", by decide +kernel, by decide +kernel⟩

/-- **A listing that leads elsewhere.**  `FLYCONTEXT .` makes the root `//srv/./`; the line for
the directory `d` in it is `/`, which leads to the root itself. -/
theorem listings_not_fed_back : ¬ ∀ (r : Roots) (cmds : List RootCmd) (t : FileTree)
    (arg : List Byte) (rec : Bool) (junk : List Byte), IsRoot r.jail.dbdir → r.jail.Clear →
    NewlineFree t → Inodes.Proper t → Listable t (rootRun r cmds).jail arg →
      FedBack t (rootRun r cmds).jail arg rec junk := by
  intro h
  have hfed := h exampleRoots
    [.flycontext (treeFs statTree) (treeFs statTree) (lit ".") []] statTree [] false []
    exampleJail_isRoot ⟨rfl, rfl⟩ statTree_newlineFree statTree_proper
    ⟨by decide, ⟨0, [], by decide +kernel⟩, by decide +kernel⟩
  have hplace := (hfed.leads ([exampleName "d"], lit "/\n") (by decide +kernel)).place
  exact absurd hplace (by decide +kernel)

end TFProtocol
