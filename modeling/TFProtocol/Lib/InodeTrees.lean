import Mathlib.Data.Fintype.Card
import Mathlib.Data.List.Infix
import TFProtocol.Lib.Inodes

/-!
# What is below a directory

In a file system without links to directories every directory has one name.  What is below
it can be listed with every directory before its entries, and the list ends when no path
below it is longer than some bound.

## Main definitions

* `Tree.find` — the inode that names lead to from a directory.
* `Tree.place` — the directory and the name in it that names lead to.
* `Proper` — names are unique, and a directory has one name and one parent.
* `FiniteAt` — the paths below a directory are bounded.
* `Tree.route` — the entries a path leads through.
* `Tree.removeAll` — the tree without some entries.

## Main results

* `mem_below_next` — everything below a directory is listed.
* `below_pairwise` — no directory is listed behind its entries, and nothing twice.
* `Proper.place_inj` — an entry is reached by one list of names.
* `walk_removeAll` — a path leads where it led unless one of its entries is gone.
-/

namespace Inodes

variable {ν β : Type*} [DecidableEq ν]

/-- The entry that one component leads through. -/
def Step.through (e : ℕ) : Step ν → List (ℕ × ν)
  | .stay => []
  | .up => []
  | .name n => [(e, n)]

namespace Tree

variable (t : Tree ν β)

/-- The inode that names lead to from a directory. -/
def find : ℕ → List ν → Option ℕ
  | e, [] => some e
  | e, n :: ns => if t.isDir e then (t.entry e n).bind fun i => find i ns else none

/-- The directory that names lead to before the last of them, and that name. -/
def place (e : ℕ) (ns : List ν) : Option (ℕ × ν) :=
  (t.walk e (ns.dropLast.map .name)).bind fun f => ns.getLast?.map fun n => (f, n)

/-- The entries a path leads through. -/
def route : ℕ → List (Step ν) → List (ℕ × ν)
  | _, [] => []
  | e, c :: cs => c.through e ++ ((t.step e c).map fun f => route f cs).getD []

/-- One entry is taken away if it can be: a file, or a directory that is empty. -/
def dropAt (e : ℕ) (ns : List ν) : Tree ν β :=
  match t.place e ns with
  | none => t
  | some (f, n) =>
    match t.entry f n with
    | none => t
    | some i => if t.isDir i && !(t.dir i).isEmpty then t else t.remove f n

/-- Some entries are taken away. -/
def removeAll (l : List (ℕ × ν)) : Tree ν β := l.foldr (fun x u => u.remove x.1 x.2) t

end Tree

/-- Names are unique in a directory; a directory has one name, and the directory that has it
is its parent; the root has none. -/
structure Proper (t : Tree ν β) : Prop where
  names : ∀ e, ((t.dir e).map Prod.fst).Nodup
  parent : ∀ e n i, t.entry e n = some i → t.isDir i = true → t.parent i = e
  single : ∀ e n m i, t.entry e n = some i → t.entry e m = some i → t.isDir i = true → n = m
  root : ∀ e n, t.entry e n ≠ some 0
  top : t.parent 0 = 0

/-- No list of names that leads somewhere from a directory is longer than some bound. -/
def FiniteAt (t : Tree ν β) (e : ℕ) : Prop := ∃ k, ∀ ns, t.find e ns ≠ none → ns.length ≤ k

/-- Names that have something to be spared at them or below. -/
def kept (l : List (List ν)) (spared : List ν → Bool) (ns : List ν) : Bool :=
  l.any fun ms => decide (ns <+: ms) && spared ms

/-- The places of the names that are not kept. -/
def goners (t : Tree ν β) (e : ℕ) (spared : List ν → Bool) (all l : List (List ν)) :
    List (ℕ × ν) :=
  l.filterMap fun ns => if kept all spared ns then none else t.place e ns

variable {t : Tree ν β} {e f i : ℕ} {n : ν} {ns ms : List ν}

/-! ### Names -/

theorem find_cons (he : t.isDir e = true) (n : ν) (ns : List ν) :
    t.find e (n :: ns) = (t.entry e n).bind fun i => t.find i ns := by
  rw [Tree.find, if_pos he]

theorem find_append (ms ns : List ν) :
    ∀ e, t.find e (ms ++ ns) = (t.find e ms).bind fun f => t.find f ns := by
  induction ms with
  | nil => intro e; rfl
  | cons m ms ih =>
    intro e
    rw [List.cons_append, Tree.find, Tree.find]
    split
    · rw [Option.bind_assoc]
      exact Option.bind_congr fun i _ => ih i
    · rfl

theorem find_singleton (he : t.isDir e = true) (n : ν) : t.find e [n] = t.entry e n := by
  rw [find_cons he]
  exact Option.bind_fun_some _

/-- Names lead through directories. -/
theorem isDir_of_find_cons (h : t.find e (n :: ns) ≠ none) : t.isDir e = true := by
  by_contra hdir
  rw [Tree.find, if_neg hdir] at h
  exact h rfl

/-- The directory that names lead to, as a walk. -/
theorem walk_names : ∀ (ns : List ν) {e : ℕ}, t.isDir e = true →
    t.walk e (ns.map .name) = (t.find e ns).filter t.isDir := by
  intro ns
  induction ns with
  | nil =>
    intro e he
    simp [Tree.walk, Tree.find, Option.filter, he]
  | cons n ns ih =>
    intro e he
    rw [find_cons he]
    show ((t.entry e n).filter t.isDir).bind (fun f => t.walk f (ns.map .name)) = _
    cases hentry : t.entry e n with
    | none => rfl
    | some i =>
      by_cases hi : t.isDir i = true
      · rw [Option.filter_some_pos hi]
        exact ih hi
      · rw [Option.filter_some_neg (by simpa using hi)]
        cases ns with
        | nil => simp [Tree.find, Option.filter, hi]
        | cons m ms => simp [Tree.find, hi]

theorem find_of_walk (he : t.isDir e = true) (h : t.walk e (ns.map .name) = some f) :
    t.find e ns = some f ∧ t.isDir f = true := by
  rw [walk_names ns he] at h
  exact Option.filter_eq_some_iff.mp h

theorem walk_of_find (he : t.isDir e = true) (h : t.find e ns = some f) (hf : t.isDir f = true) :
    t.walk e (ns.map .name) = some f := by
  rw [walk_names ns he, h, Option.filter_some_pos hf]

/-- The last name is that of an entry in the directory before it. -/
theorem find_concat_iff (he : t.isDir e = true) :
    t.find e (ms ++ [n]) = some i ↔
      ∃ f, t.walk e (ms.map .name) = some f ∧ t.entry f n = some i := by
  rw [find_append, Option.bind_eq_some_iff]
  constructor
  · rintro ⟨f, hf, hi⟩
    have hdir : t.isDir f = true := isDir_of_find_cons (show t.find f [n] ≠ none by simp [hi])
    exact ⟨f, walk_of_find he hf hdir, by rwa [find_singleton hdir] at hi⟩
  · rintro ⟨f, hf, hi⟩
    obtain ⟨hf, hdir⟩ := find_of_walk he hf
    exact ⟨f, hf, by rwa [find_singleton hdir]⟩

theorem place_concat (e : ℕ) (ms : List ν) (n : ν) :
    t.place e (ms ++ [n]) = (t.walk e (ms.map .name)).map fun f => (f, n) := by
  rw [Tree.place, List.dropLast_concat, List.getLast?_concat]
  cases t.walk e (ms.map .name) <;> rfl

/-! ### Finite trees -/

/-- Names that lead back to where they start. -/
theorem find_replicate {cs : List ν} (h : t.find f cs = some f) :
    ∀ k, t.find f (List.replicate k cs).flatten = some f := by
  intro k
  induction k with
  | zero => rfl
  | succ k ih =>
    rw [List.replicate_succ, List.flatten_cons, find_append, h]
    exact ih

/-- Nothing below a directory leads back to itself. -/
theorem FiniteAt.no_cycle {cs : List ν} (h : FiniteAt t e) (hf : t.find e ms = some f)
    (hc : t.find f cs = some f) : cs = [] := by
  obtain ⟨k, hk⟩ := h
  by_contra hne
  have hlen := hk (ms ++ (List.replicate (k + 1) cs).flatten) (by
    rw [find_append, hf]
    exact Option.ne_none_iff_exists'.mpr ⟨f, find_replicate hc (k + 1)⟩)
  rw [List.length_append, List.length_flatten, List.map_replicate,
    List.sum_replicate_nat] at hlen
  have hpos := List.length_pos_of_ne_nil hne
  have := Nat.le_mul_of_pos_right (k + 1) hpos
  omega

theorem find_lt : ∀ {ns : List ν} {e i : ℕ}, e < t.next → t.find e ns = some i → i < t.next := by
  intro ns
  induction ns with
  | nil =>
    intro e i he h
    obtain rfl : e = i := Option.some.inj h
    exact he
  | cons n ns ih =>
    intro e i he h
    have hdir : t.isDir e = true := isDir_of_find_cons (show t.find e (n :: ns) ≠ none by simp [h])
    rw [find_cons hdir] at h
    obtain ⟨j, hj, h⟩ := Option.bind_eq_some_iff.mp h
    exact ih (entry_lt hj).2 h

/-- The inodes on the way. -/
theorem find_take (h : t.find e ns = some i) (k : ℕ) : ∃ f, t.find e (ns.take k) = some f := by
  rw [← List.take_append_drop k ns, find_append] at h
  obtain ⟨f, hf, -⟩ := Option.bind_eq_some_iff.mp h
  exact ⟨f, hf⟩

/-- Where the numbers get larger on the way down, every directory has finitely many below it. -/
theorem finiteAt_of_lt (h : ∀ e, ∀ x ∈ t.dir e, e < x.2) (e : ℕ) : FiniteAt t e := by
  have hlen : ∀ (ns : List ν) {e i : ℕ}, t.find e ns = some i → ns.length + e ≤ max e t.next := by
    intro ns
    induction ns with
    | nil =>
      intro e i _
      simp
    | cons n ns ih =>
      intro e i hi
      rw [find_cons (isDir_of_find_cons (by rw [hi]; nofun))] at hi
      obtain ⟨j, hj, hi⟩ := Option.bind_eq_some_iff.mp hi
      have hlt : e < j := h e _ (mem_dir_of_entry hj)
      have hnext := (entry_lt hj).2
      have := ih hi
      simp only [List.length_cons]
      omega
  refine ⟨max e t.next, fun ns hns => ?_⟩
  obtain ⟨i, hi⟩ := Option.ne_none_iff_exists'.mp hns
  have := hlen ns hi
  omega

/-- A way below a directory is not longer than there are inodes, since it meets none of them
twice. -/
theorem FiniteAt.length_le (h : FiniteAt t e) (he : e < t.next) (hns : t.find e ns = some i) :
    ns.length ≤ t.next := by
  choose g hg using find_take hns
  have hlt (k : ℕ) : g k < t.next := find_lt he (hg k)
  have hne {j k : ℕ} (hjk : j < k) (hk : k ≤ ns.length) : g j ≠ g k := by
    intro heq
    have hsplit : ns.take k = ns.take j ++ (ns.drop j).take (k - j) := by
      rw [List.take_drop, Nat.add_sub_of_le hjk.le]
      conv_lhs => rw [← List.take_append_drop j (ns.take k), List.take_take, Nat.min_eq_left hjk.le]
    have hcycle : t.find (g j) ((ns.drop j).take (k - j)) = some (g j) := by
      have hk' := hg k
      rw [hsplit, find_append, hg j] at hk'
      rw [heq] at hk' ⊢
      exact hk'
    have hnil := h.no_cycle (hg j) hcycle
    have hlen := congrArg List.length hnil
    rw [List.length_take, List.length_drop, List.length_nil] at hlen
    omega
  have hinj : Function.Injective fun k : Fin ns.length => (⟨g k, hlt k⟩ : Fin t.next) := by
    intro j k hjk
    have hjk : g j = g k := congrArg Fin.val hjk
    rcases lt_trichotomy j k with hlt | heq | hlt
    · exact absurd hjk (hne hlt (by omega))
    · exact heq
    · exact absurd hjk.symm (hne hlt (by omega))
  simpa using Fintype.card_le_of_injective _ hinj

/-! ### Listing -/

omit [DecidableEq ν] in
theorem mem_below_cons {k : ℕ} {n : ν} {ns : List ν} :
    n :: ns ∈ t.below (k + 1) e ↔ ∃ i, (n, i) ∈ t.dir e ∧
      (ns = [] ∨ t.isDir i = true ∧ ns ∈ t.below k i) := by
  rw [Tree.below, List.mem_flatMap]
  constructor
  · rintro ⟨x, hx, hmem⟩
    rcases List.mem_cons.mp hmem with heq | hmem
    · obtain ⟨rfl, rfl⟩ : n = x.1 ∧ ns = [] := by simpa using heq
      exact ⟨x.2, hx, Or.inl rfl⟩
    · split at hmem
      · next hdir =>
        obtain ⟨ms, hms, heq⟩ := List.mem_map.mp hmem
        obtain ⟨rfl, rfl⟩ : x.1 = n ∧ ms = ns := by simpa using heq
        exact ⟨x.2, hx, Or.inr ⟨hdir, hms⟩⟩
      · cases hmem
  · rintro ⟨i, hi, rfl | ⟨hdir, hns⟩⟩
    · exact ⟨(n, i), hi, List.mem_cons_self⟩
    · refine ⟨(n, i), hi, List.mem_cons_of_mem _ ?_⟩
      rw [if_pos hdir]
      exact List.mem_map_of_mem hns

theorem Proper.entry_eq (h : Proper t) : t.entry e n = some i ↔ (n, i) ∈ t.dir e := by
  refine ⟨mem_dir_of_entry, fun hmem => ?_⟩
  have hnames := h.names e
  unfold Tree.entry
  revert hnames hmem
  induction t.dir e with
  | nil => intro hmem; cases hmem
  | cons x l ih =>
    intro hmem hnames
    rw [List.map_cons, List.nodup_cons] at hnames
    rcases List.mem_cons.mp hmem with rfl | hmem
    · rw [List.lookup_cons_self]
    · have hne : (n == x.1) = false := by
        simp only [beq_eq_false_iff_ne]
        rintro rfl
        exact hnames.1 (List.mem_map.mpr ⟨_, hmem, rfl⟩)
      rw [List.lookup_cons, hne]
      exact ih hmem hnames.2

/-- What makes a tree proper, looked up directory by directory. -/
theorem Proper.of_forall (h : ∀ e < t.next, ((t.dir e).map Prod.fst).Nodup ∧ ∀ x ∈ t.dir e,
    (t.isDir x.2 = true → t.parent x.2 = e) ∧ x.2 ≠ 0 ∧ ∀ y ∈ t.dir e, x.2 = y.2 → x.1 = y.1)
    (htop : t.parent 0 = 0) : Proper t := by
  have hmem {e i : ℕ} {n : ν} (hentry : t.entry e n = some i) : e < t.next ∧ (n, i) ∈ t.dir e :=
    ⟨(entry_lt hentry).1, mem_dir_of_entry hentry⟩
  refine ⟨fun e => ?_, fun e n i hi hdir => ?_, fun e n m i hn hm _ => ?_, fun e n hi => ?_, htop⟩
  · by_cases he : e < t.next
    · exact (h e he).1
    · rw [t.fresh e (by omega)]
      exact List.nodup_nil
  · obtain ⟨he, hx⟩ := hmem hi
    exact ((h e he).2 _ hx).1 hdir
  · obtain ⟨he, hx⟩ := hmem hn
    exact ((h e he).2 _ hx).2.2 _ (hmem hm).2 rfl
  · obtain ⟨he, hx⟩ := hmem hi
    exact ((h e he).2 _ hx).2.1 rfl

/-- A step down and a step up lead back. -/
theorem Proper.step_up (h : Proper t) (he : t.isDir e = true)
    (hstep : t.step e (.name n) = some i) : t.step i .up = some e := by
  obtain ⟨hentry, hdir⟩ := Option.filter_eq_some_iff.mp hstep
  have hparent : t.parent i = e := h.parent e n i hentry hdir
  simp only [Tree.step, hparent, he, if_true]

/-- What is listed is what names lead to. -/
theorem mem_below_iff (h : Proper t) : ∀ (k : ℕ) {e : ℕ} {ns : List ν}, t.isDir e = true →
    (ns ∈ t.below k e ↔ ns ≠ [] ∧ ns.length ≤ k ∧ t.find e ns ≠ none) := by
  intro k
  induction k with
  | zero =>
    intro e ns _
    refine iff_of_false (fun hmem => by cases hmem) fun ⟨hne, hlen, _⟩ => hne ?_
    exact List.eq_nil_of_length_eq_zero (Nat.le_zero.mp hlen)
  | succ k ih =>
    intro e ns he
    cases ns with
    | nil => exact iff_of_false (fun hmem => ne_nil_of_mem_below hmem rfl) fun h => h.1 rfl
    | cons n ns =>
      rw [mem_below_cons, find_cons he]
      simp only [← h.entry_eq, ne_eq, reduceCtorEq, not_false_eq_true, true_and, List.length_cons,
        Nat.add_le_add_iff_right]
      constructor
      · rintro ⟨i, hi, rfl | ⟨hdir, hmem⟩⟩
        · exact ⟨Nat.zero_le _, by simp [hi, Tree.find]⟩
        · obtain ⟨-, hlen, hfind⟩ := (ih hdir).mp hmem
          exact ⟨hlen, by simpa [hi] using hfind⟩
      · rintro ⟨hlen, hfind⟩
        obtain ⟨j, hj⟩ := Option.ne_none_iff_exists'.mp hfind
        obtain ⟨i, hi, hj⟩ := Option.bind_eq_some_iff.mp hj
        refine ⟨i, hi, ?_⟩
        cases ns with
        | nil => exact Or.inl rfl
        | cons m ms =>
          have hdir : t.isDir i = true :=
            isDir_of_find_cons (show t.find i (m :: ms) ≠ none by simp [hj])
          exact Or.inr ⟨hdir, (ih hdir).mpr ⟨List.cons_ne_nil _ _, hlen, by simp [hj]⟩⟩

/-- **Everything below a directory is listed.** -/
theorem mem_below_next (h : Proper t) (hfin : FiniteAt t e) (he : e < t.next)
    (hdir : t.isDir e = true) : ns ∈ t.below t.next e ↔ ns ≠ [] ∧ t.find e ns ≠ none := by
  rw [mem_below_iff h _ hdir]
  refine and_congr_right fun _ => and_iff_right_of_imp fun hfind => ?_
  obtain ⟨i, hi⟩ := Option.ne_none_iff_exists'.mp hfind
  exact hfin.length_le he hi

omit [DecidableEq ν] in
/-- **No directory is listed behind its entries, and nothing twice.** -/
theorem below_pairwise (h : ∀ e, ((t.dir e).map Prod.fst).Nodup) :
    ∀ (k e : ℕ), (t.below k e).Pairwise fun ms ns => ¬ ns <+: ms := by
  intro k
  induction k with
  | zero => exact fun e => List.Pairwise.nil
  | succ k ih =>
    intro e
    rw [Tree.below, List.pairwise_flatMap]
    refine ⟨fun x _ => List.pairwise_cons.mpr ⟨fun ns hns => ?_, ?_⟩, ?_⟩
    · split at hns
      · obtain ⟨ms, hms, rfl⟩ := List.mem_map.mp hns
        simpa using ne_nil_of_mem_below hms
      · cases hns
    · split
      · exact List.pairwise_map.mpr ((ih x.2).imp fun hms => by simpa using hms)
      · exact List.Pairwise.nil
    · have hnames : (t.dir e).Pairwise fun x y => x.1 ≠ y.1 := List.pairwise_map.mp (h e)
      -- names of different entries begin differently
      refine hnames.imp fun {x y} hxy ms hms ns hns hpre => hxy ?_
      have hhead {z : ν × ℕ} {l : List ν}
          (hl : l ∈ [z.1] :: if t.isDir z.2 then (t.below k z.2).map (z.1 :: ·) else []) :
          ∃ l', l = z.1 :: l' := by
        rcases List.mem_cons.mp hl with rfl | hl
        · exact ⟨[], rfl⟩
        · split at hl
          · obtain ⟨l', -, rfl⟩ := List.mem_map.mp hl
            exact ⟨l', rfl⟩
          · cases hl
      obtain ⟨ms', rfl⟩ := hhead hms
      obtain ⟨ns', rfl⟩ := hhead hns
      exact (List.cons_prefix_cons.mp hpre).1.symm

/-! ### Places -/

/-- A directory is reached by one list of names. -/
theorem Proper.find_inj (h : Proper t) (hfin : FiniteAt t e) (he : t.isDir e = true)
    (hf : t.isDir f = true) : ∀ {ms ns : List ν}, t.find e ms = some f → t.find e ns = some f →
      ms = ns := by
  intro ms
  induction ms using List.reverseRecOn generalizing f with
  | nil =>
    intro ns hms hns
    obtain rfl : e = f := Option.some.inj hms
    exact (hfin.no_cycle hms hns).symm
  | append_singleton ms m ih =>
    intro ns hms hns
    induction ns using List.reverseRecOn with
    | nil =>
      obtain rfl : e = f := Option.some.inj hns
      exact hfin.no_cycle hns hms
    | append_singleton ns n _ =>
      obtain ⟨g, hg, hm⟩ := (find_concat_iff he).mp hms
      obtain ⟨g', hg', hn⟩ := (find_concat_iff he).mp hns
      obtain rfl : g = g' := (h.parent g m f hm hf).symm.trans (h.parent g' n f hn hf)
      obtain ⟨hgf, hgd⟩ := find_of_walk he hg
      rw [ih hgd hgf (find_of_walk he hg').1, h.single g m n f hm hn hf]

/-- A directory that a path leads to is reached by names from the root. -/
theorem Proper.exists_find (h : Proper t) : ∀ {cs : List (Step ν)} {e f : ℕ} {ns : List ν},
    t.find 0 ns = some e → t.isDir e = true → t.walk e cs = some f →
      ∃ ms, t.find 0 ms = some f := by
  have hroot : t.isDir 0 = true := Option.isNone_iff_eq_none.mpr t.root_dir
  intro cs
  induction cs with
  | nil =>
    intro e f ns hns _ hw
    obtain rfl : e = f := Option.some.inj hw
    exact ⟨ns, hns⟩
  | cons c cs ih =>
    intro e f ns hns he hw
    obtain ⟨g, hg, hrest⟩ := Option.bind_eq_some_iff.mp hw
    cases c with
    | stay =>
      obtain rfl : e = g := Option.some.inj hg
      exact ih hns he hrest
    | up =>
      simp only [Tree.step] at hg
      split at hg
      · next hup =>
        obtain rfl := Option.some.inj hg
        rcases List.eq_nil_or_concat' ns with rfl | ⟨ms, m, rfl⟩
        · obtain rfl : 0 = e := Option.some.inj hns
          rw [h.top] at hrest
          exact ih (show t.find 0 [] = some 0 from rfl) hroot hrest
        · obtain ⟨g, hg, hm⟩ := (find_concat_iff hroot).mp hns
          rw [h.parent g m e hm he] at hrest hup
          exact ih (find_of_walk hroot hg).1 hup hrest
      · cases hg
    | name n =>
      obtain ⟨hentry, hdir⟩ := Option.filter_eq_some_iff.mp hg
      have hnext : t.find 0 (ns ++ [n]) = some g := by
        rw [find_append, hns, Option.bind_some, find_singleton he, hentry]
      exact ih hnext hdir hrest

/-- A directory that a path leads to has a name, unless it is the root. -/
theorem Proper.exists_entry (h : Proper t) {cs : List (Step ν)} (hw : t.walk 0 cs = some e)
    (hne : e ≠ 0) : ∃ f n, t.entry f n = some e := by
  have hroot : t.isDir 0 = true := Option.isNone_iff_eq_none.mpr t.root_dir
  obtain ⟨ms, hms⟩ := h.exists_find (show t.find 0 [] = some 0 from rfl) hroot hw
  rcases List.eq_nil_or_concat' ms with rfl | ⟨ms, m, rfl⟩
  · exact absurd (Option.some.inj hms).symm hne
  · obtain ⟨f, -, hm⟩ := (find_concat_iff hroot).mp hms
    exact ⟨f, m, hm⟩

/-- **An entry is reached by one list of names.** -/
theorem Proper.place_inj (h : Proper t) (hfin : FiniteAt t e) (he : t.isDir e = true)
    {x : ℕ × ν} (hms : t.place e ms = some x) (hns : t.place e ns = some x) : ms = ns := by
  have hsplit {l : List ν} (hl : t.place e l = some x) :
      ∃ l', l = l' ++ [x.2] ∧ t.walk e (l'.map .name) = some x.1 := by
    rcases List.eq_nil_or_concat' l with rfl | ⟨l', n, rfl⟩
    · obtain ⟨f, -, hf⟩ := Option.bind_eq_some_iff.mp hl
      cases hf
    · rw [place_concat] at hl
      obtain ⟨f, hf, rfl⟩ := Option.map_eq_some_iff.mp hl
      exact ⟨l', rfl, hf⟩
  obtain ⟨ms, rfl, hms'⟩ := hsplit hms
  obtain ⟨ns, rfl, hns'⟩ := hsplit hns
  obtain ⟨hfind, hdir⟩ := find_of_walk he hms'
  rw [h.find_inj hfin he hdir hfind (find_of_walk he hns').1]

/-! ### Taking entries away -/

@[simp] theorem data_removeAll (l : List (ℕ × ν)) : (t.removeAll l).data = t.data := by
  induction l with
  | nil => rfl
  | cons x l ih => exact ih

theorem isDir_removeAll (l : List (ℕ × ν)) (i : ℕ) : (t.removeAll l).isDir i = t.isDir i := by
  unfold Tree.isDir
  rw [data_removeAll]

@[simp] theorem parent_removeAll (l : List (ℕ × ν)) : (t.removeAll l).parent = t.parent := by
  induction l with
  | nil => rfl
  | cons x l ih => exact ih

theorem entry_removeAll (l : List (ℕ × ν)) (e : ℕ) (n : ν) :
    (t.removeAll l).entry e n = if (e, n) ∈ l then none else t.entry e n := by
  induction l with
  | nil => simp [Tree.removeAll]
  | cons x l ih =>
    show ((t.removeAll l).remove x.1 x.2).entry e n = _
    rw [entry_remove, ih]
    by_cases hx : (e, n) = x
    · subst hx
      simp
    · have hx' : ¬ (e = x.1 ∧ n = x.2) := fun h => hx (Prod.ext h.1 h.2)
      rw [if_neg hx']
      exact if_congr (by rw [List.mem_cons, or_iff_right hx]) rfl rfl

theorem mem_dir_removeAll (l : List (ℕ × ν)) (e : ℕ) (y : ν × ℕ) :
    y ∈ (t.removeAll l).dir e ↔ y ∈ t.dir e ∧ (e, y.1) ∉ l := by
  induction l with
  | nil => simp [Tree.removeAll]
  | cons x l ih =>
    have hdir : ((t.removeAll (x :: l)).dir e) =
        if e = x.1 then ((t.removeAll l).dir e).filter (·.1 ≠ x.2) else (t.removeAll l).dir e := by
      show Function.update (t.removeAll l).dir x.1 _ e = _
      by_cases he : e = x.1
      · subst he
        rw [Function.update_self, if_pos rfl]
        rfl
      · rw [Function.update_of_ne he, if_neg he]
    rw [hdir, List.mem_cons, not_or]
    by_cases he : e = x.1
    · rw [if_pos he, List.mem_filter, ih]
      have hne : (e, y.1) ≠ x ↔ y.1 ≠ x.2 := by
        rw [ne_eq, ne_eq, Prod.ext_iff]
        simp [he]
      simp only [ne_eq, decide_eq_true_eq] at hne ⊢
      tauto
    · have hne : (e, y.1) ≠ x := fun h => he (congrArg Prod.fst h)
      rw [if_neg he, ih]
      tauto

theorem sub_removeAll (l : List (ℕ × ν)) : Sub (t.removeAll l) t := by
  induction l with
  | nil => exact .refl t
  | cons x l ih => exact (sub_remove x.1 x.2).trans ih

variable {u : Tree ν β}

theorem Sub.isDir_eq (h : Sub u t) (i : ℕ) : u.isDir i = t.isDir i := by
  unfold Tree.isDir
  rw [h.data]

theorem Sub.step (h : Sub u t) {c : Step ν} (hs : u.step e c = some f) : t.step e c = some f := by
  cases c with
  | stay => exact hs
  | up => simpa only [Tree.step, h.isDir_eq, h.parent] using hs
  | name n =>
    obtain ⟨hentry, hdir⟩ := Option.filter_eq_some_iff.mp hs
    exact Option.filter_eq_some_iff.mpr ⟨h.entry _ _ _ hentry, by rwa [← h.isDir_eq]⟩

/-- A path that leads somewhere in a smaller tree leads there in the larger one, through
entries that the smaller one has. -/
theorem Sub.walk (h : Sub u t) : ∀ {cs : List (Step ν)} {e f : ℕ}, u.walk e cs = some f →
    t.walk e cs = some f ∧ ∀ x ∈ t.route e cs, u.entry x.1 x.2 ≠ none := by
  intro cs
  induction cs with
  | nil => exact fun hw => ⟨hw, fun x hx => by cases hx⟩
  | cons c cs ih =>
    intro e f hw
    obtain ⟨g, hg, hw⟩ := Option.bind_eq_some_iff.mp hw
    obtain ⟨hwalk, hroute⟩ := ih hw
    have hstep := h.step hg
    refine ⟨Option.bind_eq_some_iff.mpr ⟨g, hstep, hwalk⟩, fun x hx => ?_⟩
    rw [Tree.route, hstep, List.mem_append] at hx
    rcases hx with hx | hx
    · cases c with
      | stay => cases hx
      | up => cases hx
      | name n =>
        obtain rfl := List.mem_singleton.mp hx
        rw [(Option.filter_eq_some_iff.mp hg).1]
        exact Option.some_ne_none g
    · exact hroute x hx

theorem step_removeAll (l : List (ℕ × ν)) (e : ℕ) (c : Step ν) :
    (t.removeAll l).step e c = if ∀ x ∈ c.through e, x ∉ l then t.step e c else none := by
  cases c with
  | stay =>
    rw [if_pos fun x hx => by cases hx]
    rfl
  | up =>
    rw [if_pos fun x hx => by cases hx]
    simp only [Tree.step, isDir_removeAll, parent_removeAll]
  | name n =>
    show ((t.removeAll l).entry e n).filter _ = _
    rw [entry_removeAll]
    by_cases hmem : (e, n) ∈ l
    · rw [if_pos hmem, if_neg fun h => h (e, n) (List.mem_singleton_self _) hmem]
      rfl
    · rw [if_neg hmem, if_pos fun x hx => List.mem_singleton.mp hx ▸ hmem]
      exact congrArg (Option.filter · (t.entry e n)) (funext (isDir_removeAll l))

/-- **A path leads where it led unless one of its entries is gone.** -/
theorem walk_removeAll (l : List (ℕ × ν)) : ∀ {cs : List (Step ν)} {e f : ℕ},
    t.walk e cs = some f →
      (t.removeAll l).walk e cs = if ∀ x ∈ t.route e cs, x ∉ l then some f else none := by
  intro cs
  induction cs with
  | nil =>
    intro e f h
    rw [if_pos fun x hx => by cases hx]
    exact h
  | cons c cs ih =>
    intro e f h
    obtain ⟨g, hstep, h⟩ := Option.bind_eq_some_iff.mp h
    have hroute : t.route e (c :: cs) = c.through e ++ t.route g cs := by
      rw [Tree.route, hstep]
      rfl
    show ((t.removeAll l).step e c).bind _ = _
    rw [step_removeAll]
    by_cases hc : ∀ x ∈ c.through e, x ∉ l
    · rw [if_pos hc, hstep, Option.bind_some, ih h]
      refine if_congr ?_ rfl rfl
      rw [hroute, List.forall_mem_append, and_iff_right hc]
    · rw [if_neg hc, if_neg fun hall => hc ?_]
      · rfl
      · rw [hroute, List.forall_mem_append] at hall
        exact hall.1

/-! ### From the last entry to the first -/

/-- The entries that names lead through are places of their initial parts. -/
theorem exists_place_of_route : ∀ {ms : List ν} {e : ℕ} {x : ℕ × ν},
    x ∈ t.route e (ms.map .name) → ∃ ps, ps ≠ [] ∧ ps <+: ms ∧ t.place e ps = some x := by
  intro ms
  induction ms with
  | nil => intro e x hx; cases hx
  | cons m ms ih =>
    intro e x hx
    rw [List.map_cons, Tree.route, List.mem_append] at hx
    rcases hx with hx | hx
    · obtain rfl := List.mem_singleton.mp hx
      exact ⟨[m], List.cons_ne_nil _ _, List.prefix_append [m] ms, rfl⟩
    · cases hstep : t.step e (.name m) with
      | none => rw [hstep] at hx; cases hx
      | some g =>
        rw [hstep] at hx
        obtain ⟨ps, hne, hpre, hps⟩ := ih hx
        refine ⟨m :: ps, List.cons_ne_nil _ _, (List.prefix_cons_inj m).mpr hpre, ?_⟩
        obtain ⟨ps', p, rfl⟩ := (List.eq_nil_or_concat' ps).resolve_left hne
        rw [place_concat] at hps
        rw [← List.cons_append, place_concat]
        show ((t.step e (.name m)).bind fun f => t.walk f (ps'.map .name)).map _ = _
        rw [hstep]
        exact hps

/-- Names lead where they led as long as the entries on the way are there. -/
theorem find_removeAll {l : List (ℕ × ν)} (he : t.isDir e = true)
    (hl : ∀ ps, ps <+: ns → ∀ x, t.place e ps = some x → x ∉ l) :
    (t.removeAll l).find e ns = t.find e ns := by
  have he' : (t.removeAll l).isDir e = true := by rwa [isDir_removeAll]
  rcases List.eq_nil_or_concat' ns with rfl | ⟨ms, n, rfl⟩
  · rfl
  · have hwalk {f : ℕ} (hf : t.walk e (ms.map .name) = some f) :
        (t.removeAll l).walk e (ms.map .name) = some f := by
      rw [walk_removeAll _ hf, if_pos]
      intro x hx
      obtain ⟨ps, -, hpre, hps⟩ := exists_place_of_route hx
      exact hl ps (hpre.trans (List.prefix_append _ _)) x hps
    have hentry {f : ℕ} (hf : t.walk e (ms.map .name) = some f) :
        (t.removeAll l).entry f n = t.entry f n := by
      rw [entry_removeAll, if_neg]
      exact hl _ List.prefix_rfl (f, n) (by rw [place_concat, hf]; rfl)
    refine Option.ext fun i => ?_
    rw [find_concat_iff he', find_concat_iff he]
    constructor
    · rintro ⟨f, hf, hi⟩
      have hsub := sub_removeAll (t := t) l
      exact ⟨f, (hsub.walk hf).1, hsub.entry f n i hi⟩
    · rintro ⟨f, hf, hi⟩
      exact ⟨f, hwalk hf, (hentry hf).trans hi⟩

section Prune

variable {spared : List ν → Bool} {A B : List (List ν)} {all : List (List ν)}

theorem kept_iff : kept all spared ns = true ↔ ∃ ms ∈ all, ns <+: ms ∧ spared ms = true := by
  simp [kept]

theorem mem_goners {x : ℕ × ν} : x ∈ goners t e spared all B ↔
    ∃ ns ∈ B, kept all spared ns = false ∧ t.place e ns = some x := by
  simp only [goners, List.mem_filterMap]
  refine exists_congr fun ns => and_congr_right fun _ => ?_
  cases kept all spared ns <;> simp

theorem goners_cons {x : ℕ × ν} (hx : t.place e ns = some x) :
    goners t e spared all (ns :: B) =
      if kept all spared ns then goners t e spared all B else x :: goners t e spared all B := by
  unfold goners
  rw [List.filterMap_cons, hx]
  cases kept all spared ns <;> rfl

variable (h : Proper t) (hfin : FiniteAt t e) (hlt : e < t.next) (he : t.isDir e = true)

include h hfin he in
theorem place_mem_goners {x : ℕ × ν} (hx : t.place e ns = some x) :
    x ∈ goners t e spared all B ↔ ns ∈ B ∧ kept all spared ns = false := by
  rw [mem_goners]
  constructor
  · rintro ⟨ms, hms, hkept, hplace⟩
    obtain rfl := h.place_inj hfin he hplace hx
    exact ⟨hms, hkept⟩
  · rintro ⟨hns, hkept⟩
    exact ⟨ns, hns, hkept, hx⟩

include h hfin hlt he in
/-- A directory with nothing to be spared in its own path is kept for one of its entries. -/
theorem kept_dir_iff (hns : t.find e ns = some i) (hdir : t.isDir i = true)
    (hspared : spared ns = false) :
    kept (t.below t.next e) spared ns = true ↔
      ∃ y ∈ t.dir i, kept (t.below t.next e) spared (ns ++ [y.1]) = true := by
  simp only [kept_iff]
  constructor
  · rintro ⟨ms, hms, ⟨r, rfl⟩, hspr⟩
    cases r with
    | nil =>
      rw [List.append_nil, hspared] at hspr
      cases hspr
    | cons m r =>
      have hfind := ((mem_below_next h hfin hlt he).mp hms).2
      rw [find_append, hns, Option.bind_some, find_cons hdir] at hfind
      obtain ⟨j, hj⟩ : ∃ j, t.entry i m = some j := by
        refine Option.ne_none_iff_exists'.mp fun hnone => hfind ?_
        rw [hnone]
        rfl
      exact ⟨(m, j), mem_dir_of_entry hj, ns ++ m :: r, hms, ⟨r, by simp⟩, hspr⟩
  · rintro ⟨y, -, ms, hms, hpre, hspr⟩
    exact ⟨ms, hms, (List.prefix_append _ _).trans hpre, hspr⟩

include h hfin hlt he in
/-- A file is kept for itself only. -/
theorem kept_file_iff (hns : t.find e ns = some i) (hdir : t.isDir i = false)
    (hne : ns ≠ []) :
    kept (t.below t.next e) spared ns = true ↔ spared ns = true := by
  simp only [kept_iff]
  constructor
  · rintro ⟨ms, hms, ⟨r, rfl⟩, hspr⟩
    cases r with
    | nil => rwa [List.append_nil] at hspr
    | cons m r =>
      have hfind := ((mem_below_next h hfin hlt he).mp hms).2
      rw [find_append, hns, Option.bind_some, Tree.find, hdir] at hfind
      exact absurd rfl hfind
  · intro hspr
    refine ⟨ns, (mem_below_next h hfin hlt he).mpr ⟨hne, ?_⟩, List.prefix_rfl, hspr⟩
    rw [hns]
    exact Option.some_ne_none i

/-- What stands before some names in the listing, and what behind. -/
theorem prefix_of_split (hsplit : t.below t.next e = A ++ ns :: B) (h : Proper t) :
    (∀ ps, ps <+: ns → ps ∉ B) ∧ ∀ ms, ns <+: ms → ms ≠ ns → ms ∉ A := by
  have hpair := below_pairwise h.names t.next e
  rw [hsplit, List.pairwise_append, List.pairwise_cons] at hpair
  obtain ⟨-, ⟨hB, -⟩, hA⟩ := hpair
  exact ⟨fun ps hpre hmem => hB ps hmem hpre,
    fun ms hpre _ hmem => hA ms hmem ns List.mem_cons_self hpre⟩

include h hfin hlt he in
/-- One turn of the removal: an entry that is not kept can be taken away when its turn comes. -/
theorem dropAt_removeAll (hsplit : t.below t.next e = A ++ ns :: B) (hspared : spared ns = false) :
    (t.removeAll (goners t e spared (t.below t.next e) B)).dropAt e ns =
      t.removeAll (goners t e spared (t.below t.next e) (ns :: B)) := by
  have hmem : ns ∈ t.below t.next e := by
    rw [hsplit]
    exact List.mem_append_right _ List.mem_cons_self
  obtain ⟨hne, hfind⟩ := (mem_below_next h hfin hlt he).mp hmem
  obtain ⟨i, hi⟩ := Option.ne_none_iff_exists'.mp hfind
  obtain ⟨ms, n, rfl⟩ := (List.eq_nil_or_concat' ns).resolve_left hne
  obtain ⟨f, hf, hn⟩ := (find_concat_iff he).mp hi
  have hplace : t.place e (ms ++ [n]) = some (f, n) := by
    rw [place_concat, hf]
    rfl
  obtain ⟨hbefore, hbehind⟩ := prefix_of_split hsplit h
  -- the directories above are still there
  have hwalk : (t.removeAll (goners t e spared (t.below t.next e) B)).walk e (ms.map .name)
      = some f := by
    rw [walk_removeAll _ hf, if_pos]
    intro x hx hgone
    obtain ⟨ps, -, hpre, hps⟩ := exists_place_of_route hx
    have := ((place_mem_goners h hfin he hps).mp hgone).1
    exact hbefore ps (hpre.trans (List.prefix_append _ _)) this
  have hentry : (t.removeAll (goners t e spared (t.below t.next e) B)).entry f n = some i := by
    rw [entry_removeAll, if_neg, hn]
    intro hgone
    exact hbefore _ List.prefix_rfl ((place_mem_goners h hfin he hplace).mp hgone).1
  have hkept : kept (t.below t.next e) spared (ms ++ [n]) =
      (t.isDir i && !((t.removeAll (goners t e spared (t.below t.next e) B)).dir i).isEmpty) := by
    cases hdir : t.isDir i with
    | false =>
      rw [Bool.false_and, Bool.eq_false_iff, ne_eq, kept_file_iff h hfin hlt he hi hdir hne, hspared]
      exact Bool.false_ne_true
    | true =>
      rw [Bool.true_and, Bool.eq_iff_iff, kept_dir_iff h hfin hlt he hi hdir hspared,
        Bool.not_eq_true', List.isEmpty_eq_false_iff_exists_mem]
      refine exists_congr fun y => ?_
      rw [mem_dir_removeAll]
      refine and_congr_right fun hy => ?_
      have hj : t.find e (ms ++ [n] ++ [y.1]) = some y.2 := by
        rw [find_append, hi, Option.bind_some, find_singleton hdir]
        exact h.entry_eq.mpr hy
      have hchild : t.place e (ms ++ [n] ++ [y.1]) = some (i, y.1) := by
        rw [place_concat, walk_of_find he hi hdir]
        rfl
      have hin : ms ++ [n] ++ [y.1] ∈ B := by
        have hall : ms ++ [n] ++ [y.1] ∈ t.below t.next e :=
          (mem_below_next h hfin hlt he).mpr ⟨by simp, Option.ne_none_iff_exists'.mpr ⟨_, hj⟩⟩
        rw [hsplit, List.mem_append, List.mem_cons] at hall
        rcases hall with hA | heq | hB
        · exact absurd hA (hbehind _ (List.prefix_append _ _) (by simp))
        · simp at heq
        · exact hB
      rw [place_mem_goners h hfin he hchild, and_iff_right hin, Bool.not_eq_false]
  rw [Tree.dropAt, place_concat, hwalk]
  simp only [Option.map_some, hentry, isDir_removeAll, ← hkept]
  rw [goners_cons hplace]
  cases kept (t.below t.next e) spared (ms ++ [n]) <;> rfl

include h hfin hlt he in
/-- **What is taken away from the last entry to the first.**  Everything goes that has nothing
to be spared at it or below. -/
theorem foldr_dropAt : ∀ (B : List (List ν)) {A : List (List ν)}, t.below t.next e = A ++ B →
    B.foldr (fun ns u => if spared ns then u else u.dropAt e ns) t =
      t.removeAll (goners t e spared (t.below t.next e) B) := by
  intro B
  induction B with
  | nil => intro A _; rfl
  | cons ns B ih =>
    intro A hsplit
    have hB : t.below t.next e = (A ++ [ns]) ++ B := by simpa using hsplit
    rw [List.foldr_cons, ih hB]
    split
    · next hspr =>
      have hkept : kept (t.below t.next e) spared ns = true := by
        refine kept_iff.mpr ⟨ns, ?_, List.prefix_rfl, hspr⟩
        rw [hsplit]
        exact List.mem_append_right _ List.mem_cons_self
      rw [goners, goners, List.filterMap_cons, if_pos hkept]
    · next hspr => exact dropAt_removeAll h hfin hlt he hsplit (by simpa using hspr)

end Prune

end Inodes
