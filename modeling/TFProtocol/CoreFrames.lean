import TFProtocol.CoreCmds

/-!
# What the handlers leave as it is

When the parts the handlers are made of keep the regular files of a directory.  Removing
and linking follow paths that were listed before, in a tree that has changed since; the
trees in between have no directory the first one did not have.

## Main definitions

* `Harmless` — a change that stays outside a directory, and gives no second name to its
  files.
* `Beside` — one more file in the directory, which can be taken away again.
* `WatchAway` — what a watched directory has to report are not files of the directory.

## Main results

* `noneMade_mkdir`, `noneMade_link`, `noneMade_rename` — calls that make no file anywhere.
* `rmr_sub`, `files_mkdirs`, `cprTree_spec` — removing and copying directories.
* `store_harmless`, `files_store_gone` — storing a file, for good or for a while.
* `setfspermIn_harmless`, `remfspermIn_harmless` — permissions of another directory.
* `files_setfspermIn`, `files_remfspermIn` — permissions of the directory itself, for an
  identity that may not change them.
* `files_xcopy`, `files_xcpdir`, `files_xdel`, `xrmdir_sub` — the loops over what is found.
* `ntfyLoop_sub` — the loop of notifications.
-/

namespace TFProtocol

open Bytes CStr

/-- A check of a path leaves the root of the session. -/
theorem dbdir_check (w : CoreEnv) (s : CoreSt) (site : Site) (arg : List Byte) :
    (check w s site arg).jail.dbdir = s.jail.dbdir := by
  rw [check, jaildir_jail]
  rfl

variable {t t' : FileTree} {p : List Byte} {d e : ℕ} {n : DirName} {deny : List Byte → Bool}

/-! ### Calls that make no file -/

theorem noneMade_mkdir (d : ℕ) (p : List Byte) : Inodes.NoneMade d t (mkdir deny t p).1 := by
  rcases mkdir_cases deny t p with heq | ⟨e, n, -, heq, hslot⟩
  · rw [heq]
    exact .refl d t
  · obtain ⟨a, -, he⟩ := slot_eq_some hslot
    rw [heq]
    exact (Inodes.noneMade_alloc (dirAt_lt he) fun h => absurd rfl h).trans
      (Inodes.noneMade_insert ..)

theorem noneMade_link (d : ℕ) (src dst : List Byte) :
    Inodes.NoneMade d t (link deny t src dst).1 := by
  rcases link_cases deny t src dst with heq | ⟨i, e, n, -, -, -, heq⟩
  · rw [heq]
    exact .refl d t
  · rw [heq]
    exact Inodes.noneMade_insert ..

theorem noneMade_rename (d : ℕ) (src dst : List Byte) :
    Inodes.NoneMade d t (rename deny t src dst).1 := by
  have hmove : ∀ e n f m i, Inodes.NoneMade d t ((t.remove e n).insert f m i) :=
    fun e n f m i => ((Inodes.sub_remove e n).noneMade d).trans (Inodes.noneMade_insert ..)
  rcases rename_cases deny t src dst with heq |
    ⟨e, n, f, m, i, -, hdir, -, heq, -⟩ | ⟨e, n, f, m, i, -, -, -, -, -, heq⟩
  · rw [heq]
    exact .refl d t
  · rw [heq]
    refine (hmove e n f m i).trans (Inodes.noneMade_setParent d f ?_)
    rw [Inodes.data_insert]
    exact hdir
  · rw [heq]
    exact hmove e n f m i

/-- A loop of such calls. -/
theorem noneMade_foldl {α : Type} {f : FileTree → α → FileTree}
    (hf : ∀ u x, Inodes.NoneMade d u (f u x)) (l : List α) :
    Inodes.NoneMade d t (l.foldl f t) :=
  List.foldlRecOn l f (.refl d t) fun _ hu x _ => hu.trans (hf _ x)

/-! ### Removing -/

theorem sub_rmdir (p : List Byte) : Inodes.Sub (rmdir deny t p) t := by
  rcases rmdir_cases deny t p with heq | ⟨e, n, i, -, -, heq⟩
  · rw [heq]
    exact .refl t
  · rw [heq]
    exact Inodes.sub_remove e n

theorem sub_unlink (p : List Byte) : Inodes.Sub (unlink deny t p) t := by
  rcases unlink_cases deny t p with heq | ⟨e, n, i, -, -, -, heq⟩
  · rw [heq]
    exact .refl t
  · rw [heq]
    exact Inodes.sub_remove e n

theorem fileIn_of_sub (h : Inodes.Sub t' t) (hp : fileIn t d p = false) :
    fileIn t' d p = false := by
  refine fileIn_mono h.dirsIn (fun n hn => ?_) hp
  obtain ⟨c, hc⟩ := Option.ne_none_iff_exists'.mp hn
  rw [h.files hc]
  exact Option.some_ne_none _

theorem listdir_of_sub (h : Inodes.Sub t' t) {path q : List Byte} (hq : q ∈ listdir t' path) :
    q ∈ listdir t path := by
  obtain ⟨ns, hns, rfl⟩ := List.mem_map.mp hq
  refine List.mem_map.mpr ⟨ns, ?_, rfl⟩
  unfold found at hns ⊢
  split at hns
  · cases hns
  · next e he =>
    rw [dirAt_of_dirsIn h.dirsIn he]
    rw [h.next] at hns
    exact h.below _ _ _ hns

/-- A loop that only takes entries away, none of them a file of the directory. -/
theorem foldl_sub {f : FileTree → List Byte → FileTree} {l : List (List Byte)}
    (hf : ∀ u q, q ∈ l → Inodes.Sub u t → u.files d = t.files d →
      Inodes.Sub (f u q) u ∧ (f u q).files d = u.files d) :
    Inodes.Sub (l.foldl f t) t ∧ (l.foldl f t).files d = t.files d := by
  refine List.foldlRecOn (motive := fun u => Inodes.Sub u t ∧ u.files d = t.files d) l f
    ⟨.refl t, rfl⟩ fun u hu q hq => ?_
  obtain ⟨hsub, hfiles⟩ := hf u q hq hu.1 hu.2
  exact ⟨hsub.trans hu.1, hfiles.trans hu.2⟩

theorem rmr_sub {excl : Option (List Byte)} {path : List Byte}
    (h : ∀ q ∈ path :: listdir t path, ¬ spared excl q → fileIn t d q = false) :
    Inodes.Sub (rmr deny excl t path) t ∧ (rmr deny excl t path).files d = t.files d := by
  refine foldl_sub fun u q hq hu _ => ?_
  unfold rmrStep
  split
  · exact ⟨.refl u, rfl⟩
  · next hs =>
    have hq : fileIn u d q = false := fileIn_of_sub hu (h q (List.mem_reverse.mp hq) hs)
    have hrm : Inodes.Sub (rmdir deny u (q ++ [slash])) u := sub_rmdir _
    refine ⟨(sub_unlink q).trans hrm, ?_⟩
    rw [files_unlink (fileIn_of_sub hrm hq), files_rmdir]

/-! ### Directories -/

theorem files_mkdirs (d : ℕ) : ∀ (cs : List (List Byte)) (t : FileTree) (dir : List Byte),
    (mkdirs deny t dir cs).files d = t.files d := by
  intro cs
  induction cs with
  | nil => intro t dir; rfl
  | cons c cs ih =>
    intro t dir
    rw [mkdirs, ih, files_mkdir]

theorem noneMade_mkdirs (d : ℕ) : ∀ (cs : List (List Byte)) (t : FileTree) (dir : List Byte),
    Inodes.NoneMade d t (mkdirs deny t dir cs) := by
  intro cs
  induction cs with
  | nil => intro t dir; exact .refl d t
  | cons c cs ih =>
    intro t dir
    exact (noneMade_mkdir d _).trans (ih _ _)

/-! ### Copies of directories -/

theorem noneMade_cprTreeLoop (d : ℕ) (srcp dstp : List Byte) :
    ∀ (list : List (List DirName)) (t : FileTree),
      Inodes.NoneMade d t (cprTreeLoop deny srcp dstp t list) := by
  intro list
  induction list with
  | nil => exact fun t => .refl d t
  | cons ns list ih =>
    intro t
    obtain ⟨r, hr, hmade⟩ : ∃ r, (if (treeFs t).isDir (below srcp ns) then
          mkdir deny t (below dstp ns)
        else link deny t (below srcp ns) (below dstp ns)) = r ∧ Inodes.NoneMade d t r.1 := by
      refine ⟨_, rfl, ?_⟩
      split
      · exact noneMade_mkdir d _
      · exact noneMade_link d _ _
    unfold cprTreeLoop
    rw [hr]
    show Inodes.NoneMade d t (if r.2 = true then cprTreeLoop deny srcp dstp r.1 list else r.1)
    split
    · exact hmade.trans (ih r.1)
    · exact hmade

theorem noneMade_cprTree (d : ℕ) (srcp dstp : List Byte) :
    Inodes.NoneMade d t (cprTree deny t srcp dstp) := by
  unfold cprTree
  dsimp only
  split
  · exact (noneMade_mkdir d _).trans (noneMade_cprTreeLoop d _ _ _ _)
  · exact noneMade_mkdir d _

theorem dirAt_below (t : FileTree) : ∀ (ns : List DirName) (p : List Byte),
    dirAt t (below p ns) = (dirAt t p).bind fun e => t.walk e (ns.map .name) := by
  intro ns
  induction ns with
  | nil =>
    intro p
    show dirAt t (p ++ []) = (dirAt t p).bind some
    rw [List.append_nil, Option.bind_fun_some]
  | cons n ns ih =>
    intro p
    have hb : below p (n :: ns) = below (p ++ slash :: n.val) ns := by simp [below]
    rw [hb, ih, dirAt_append, compSteps_name, Option.bind_assoc]
    congr 1
    funext e
    show (((t.step e (.name n)).bind some).bind fun e => t.walk e (ns.map .name)) = _
    rw [Option.bind_fun_some]
    rfl

/-- The place of a path below a directory. -/
theorem fileSlot_below {ns : List DirName} (hne : ns ≠ [])
    (h : fileSlot t (below p ns) = some (e, n)) : ∃ ms, dirAt t (below p ms) = some e := by
  obtain ⟨ms, m, rfl⟩ := (List.eq_nil_or_concat' ns).resolve_left hne
  have hb : below p (ms ++ [m]) = below p ms ++ slash :: m.val := by simp [below]
  obtain ⟨a, ha, hdir⟩ := fileSlot_eq_some h
  have hlast := lastSlash_append a n
  rw [← ha, hb, lastSlash_append] at hlast
  obtain ⟨rfl, -⟩ : below p ms = a ∧ m.val = n.val := by simpa using hlast
  exact ⟨ms, hdir⟩

/-- What `cpr` keeps while it copies into the new directory `k`. -/
structure Copying (d k : ℕ) (dstp : List Byte) (t u : FileTree) : Prop where
  files : u.files d = t.files d
  apart : Inodes.NewApart k u
  dst : dirAt u dstp = some k
  le : k ≤ u.next

theorem Copying.mkdir {k : ℕ} {dstp : List Byte} {u : FileTree} (h : Copying d k dstp t u)
    (p : List Byte) : Copying d k dstp t (mkdir deny u p).1 := by
  have hfiles : (TFProtocol.mkdir deny u p).1.files d = t.files d := by
    rw [files_mkdir, h.files]
  rcases mkdir_cases deny u p with heq | ⟨e, n, hnone, heq, -⟩
  · rw [heq]
    exact h
  · rw [heq] at hfiles ⊢
    refine ⟨hfiles, h.apart.alloc.insert fun _ => h.le, ?_, ?_⟩
    · exact dirAt_of_dirsIn ((Inodes.dirsIn_alloc _ _).trans (Inodes.dirsIn_insert_new hnone)) h.dst
    · rw [Inodes.next_insert]
      exact Nat.le_succ_of_le h.le

theorem Copying.link {k : ℕ} {srcp dstp : List Byte} {u : FileTree} (h : Copying d k dstp t u)
    (hdk : d < k) {ns : List DirName} (hne : ns ≠ []) :
    Copying d k dstp t (link deny u srcp (below dstp ns)).1 := by
  -- the directory of the place is one of the new ones
  have hnew : ∀ e n, fileSlot u (below dstp ns) = some (e, n) → k ≤ e := by
    intro e n hslot
    obtain ⟨ms, hms⟩ := fileSlot_below hne hslot
    rw [dirAt_below, h.dst] at hms
    exact h.apart.walk (le_refl k) hms
  rcases link_cases deny u srcp (below dstp ns) with heq |
    ⟨i, e, n, hslot, hdata, hnone, heq⟩
  · rw [heq]
    exact h
  · rw [heq]
    have hek := hnew e n hslot
    refine ⟨?_, h.apart.insert fun hnil => absurd hnil hdata, ?_, ?_⟩
    · rw [Inodes.files_insert (fun hed => by omega), h.files]
    · exact dirAt_of_dirsIn (Inodes.dirsIn_insert_new hnone) h.dst
    · rw [Inodes.next_insert]
      exact h.le

theorem Copying.loop {k : ℕ} {srcp dstp : List Byte} (hdk : d < k) :
    ∀ (list : List (List DirName)) (u : FileTree), (∀ ns ∈ list, ns ≠ []) → Copying d k dstp t u →
      Copying d k dstp t (cprTreeLoop deny srcp dstp u list) := by
  intro list
  induction list with
  | nil => intro u _ h; exact h
  | cons ns list ih =>
    intro u hne h
    obtain ⟨r, hr, hstep⟩ : ∃ r, (if (treeFs u).isDir (below srcp ns) then
          TFProtocol.mkdir deny u (below dstp ns)
        else TFProtocol.link deny u (below srcp ns) (below dstp ns)) = r ∧
        Copying d k dstp t r.1 := by
      refine ⟨_, rfl, ?_⟩
      split
      · exact h.mkdir _
      · exact h.link hdk (hne ns List.mem_cons_self)
    unfold cprTreeLoop
    rw [hr]
    show Copying d k dstp t (if r.2 = true then cprTreeLoop deny srcp dstp r.1 list else r.1)
    split
    · exact ih _ (fun ns' hns' => hne ns' (List.mem_cons_of_mem _ hns')) hstep
    · exact hstep

/-- A directory that was made is there. -/
theorem dirAt_mkdir (hslot : slot t p = some (e, n)) (hnone : t.entry e n = none) :
    dirAt ((t.alloc none e).insert e n t.next) p = some t.next := by
  obtain ⟨a, ha, he⟩ := slot_eq_some hslot
  have he' : dirAt ((t.alloc none e).insert e n t.next) a = some e :=
    dirAt_of_dirsIn ((Inodes.dirsIn_alloc _ _).trans (Inodes.dirsIn_insert_new hnone)) he
  have hlt : e < (t.alloc none e).next := Nat.lt_succ_of_lt (dirAt_lt he)
  rw [← dirAt_stripSlashes, ha, dirAt_concat_name he',
    Inodes.entry_insert hlt (Nat.lt_succ_self _), if_pos ⟨rfl, rfl⟩]
  refine Option.filter_eq_some_iff.mpr ⟨rfl, ?_⟩
  show (((t.alloc none e).insert e n t.next).data t.next).isNone = true
  rw [Inodes.data_insert]
  exact Option.isNone_iff_eq_none.mpr (Function.update_self ..)

/-- A copy of a directory tree puts no file into a directory that was there before, and takes
no inode away. -/
theorem cprTree_spec (hd : d < t.next) (srcp dstp : List Byte) :
    (cprTree deny t srcp dstp).files d = t.files d ∧ t.next ≤ (cprTree deny t srcp dstp).next := by
  have hne : ∀ ns ∈ found t srcp, ns ≠ [] := by
    intro ns hns
    unfold found at hns
    split at hns
    · cases hns
    · exact Inodes.ne_nil_of_mem_below hns
  unfold cprTree
  dsimp only
  rcases mkdir_cases deny t dstp with heq | ⟨e, n, hnone, heq, hslot⟩
  · rw [heq]
    exact ⟨rfl, le_refl _⟩
  · rw [heq, if_pos rfl]
    have hcopy : Copying d t.next dstp t
        (cprTreeLoop deny srcp dstp ((t.alloc none e).insert e n t.next) (found t srcp)) := by
      refine Copying.loop hd _ _ hne ⟨?_, ?_, ?_, ?_⟩
      · have hfiles : (mkdir deny t dstp).1.files d = t.files d := files_mkdir d dstp
        rwa [heq] at hfiles
      · exact (Inodes.newApart_next t).alloc.insert fun _ => le_refl _
      · exact dirAt_mkdir hslot hnone
      · rw [Inodes.next_insert]
        exact Nat.le_succ _
    exact ⟨hcopy.files, hcopy.le⟩

/-! ### Changes outside a directory -/

/-- A change that stays outside the directory, and gives no second name to its files. -/
structure Harmless (d : ℕ) (t t' : FileTree) : Prop where
  files : t'.files d = t.files d
  made : Inodes.NoneMade d t t'
  dirs : Inodes.DirsIn t' t
  own : ∀ n, t'.entry d n = t.entry d n
  names : ∀ e n i, t'.entry e n = some i → t.entry e n = some i ∨ ∀ m, t.entry d m ≠ some i

theorem Harmless.refl (d : ℕ) (t : FileTree) : Harmless d t t :=
  ⟨rfl, .refl d t, .refl t, fun _ => rfl, fun _ _ _ h => .inl h⟩

theorem Harmless.trans {t'' : FileTree} (h : Harmless d t t') (h' : Harmless d t' t'') :
    Harmless d t t'' := by
  refine ⟨h'.files.trans h.files, h.made.trans h'.made, h'.dirs.trans h.dirs,
    fun n => (h'.own n).trans (h.own n), ?_⟩
  intro e n i hi
  rcases h'.names e n i hi with hi | hno
  · exact h.names e n i hi
  · exact .inr fun m => h.own m ▸ hno m

theorem Harmless.dirAt_ne (h : Harmless d t t') (hp : dirAt t p ≠ some d) : dirAt t' p ≠ some d :=
  fun hp' => hp (dirAt_of_dirsIn h.dirs hp')

theorem Harmless.dirAt_eq_none (h : Harmless d t t') (hp : dirAt t p = none) :
    dirAt t' p = none := by
  by_contra hne
  obtain ⟨e, he⟩ := Option.ne_none_iff_exists'.mp hne
  rw [dirAt_of_dirsIn h.dirs he] at hp
  cases hp

/-- A file without a second name in the directory gets none. -/
theorem Harmless.otherName_eq (h : Harmless d t t') (hp : otherName t d p = false) :
    otherName t' d p = false := by
  by_contra hne
  obtain ⟨e, n, i, m, hslot, hi, hed, hm⟩ := otherName_iff.mp (by simpa using hne)
  rw [h.own] at hm
  rcases h.names e n i hi with hi | hno
  · rw [otherName_iff.mpr ⟨e, n, i, m, fileSlot_of_dirsIn h.dirs hslot, hi, hed, hm⟩] at hp
    cases hp
  · exact hno m hm

/-- A path that is no place in the directory does not become one. -/
theorem Harmless.placeIn_eq (h : Harmless d t t') (hp : placeIn t d p = false) :
    placeIn t' d p = false := by
  by_contra hne
  obtain ⟨n, hdir, hslot⟩ := placeIn_iff.mp (by simpa using hne)
  have hslot' := fileSlot_of_dirsIn h.dirs hslot
  have hsome : dirAt t p ≠ none := fun hnone => by
    rw [placeIn_iff.mpr ⟨n, hnone, hslot'⟩] at hp
    cases hp
  obtain ⟨i, hi⟩ := Option.ne_none_iff_exists'.mp hsome
  rw [dirAt_of_fileSlot hslot'] at hi
  obtain ⟨hentry, hd⟩ := Option.filter_eq_some_iff.mp hi
  -- it is no regular file before, so it is none afterwards
  have hfiles : t'.files d n = none := by
    rw [h.files]
    show (t.entry d n).bind t.data = none
    rw [hentry]
    exact Option.isNone_iff_eq_none.mp hd
  have hdata : t'.data i = none := by
    have hb : (t'.entry d n).bind t'.data = none := hfiles
    rwa [h.own, hentry] at hb
  rw [dirAt_of_fileSlot hslot, h.own, hentry, Option.filter_eq_none_iff] at hdir
  exact hdir i rfl (Option.isNone_iff_eq_none.mpr hdata)

section

variable {creat excl : Bool} {i : ℕ}

theorem openFile_harmless (hplace : placeIn t d p = false)
    (h : openFile deny t creat excl p = some (t', i)) : Harmless d t t' := by
  obtain ⟨e, n, hslot, ⟨rfl, -, -⟩ | ⟨hnone, rfl, rfl⟩⟩ := openFile_cases h
  · exact .refl d _
  · have hed : e ≠ d := ne_of_placeIn hplace hslot (by rw [hnone]; nofun)
    have hlt : e < (t.alloc (some []) e).next := Nat.lt_succ_of_lt (fileSlot_lt hslot)
    refine ⟨?_, ?_, ?_, fun m => Inodes.entry_insert_of_ne hed.symm, fun f m j hj => ?_⟩
    · rw [Inodes.files_insert (fun he => absurd he hed), Inodes.files_alloc]
    · exact (Inodes.noneMade_alloc (fileSlot_lt hslot) fun _ => hed).trans
        (Inodes.noneMade_insert ..)
    · refine (Inodes.dirsIn_insert_file ?_).trans (Inodes.dirsIn_alloc_file _ _)
      show Function.update t.data t.next (some []) t.next ≠ none
      rw [Function.update_self]
      exact Option.some_ne_none _
    · rw [Inodes.entry_insert hlt (Nat.lt_succ_self _)] at hj
      split at hj
      · obtain rfl := Option.some.inj hj
        exact .inr fun k hk => absurd (Inodes.entry_lt hk).2 (lt_irrefl _)
      · exact .inl hj

/-- The file that was opened is not one of the directory. -/
theorem openFile_apart (hplace : placeIn t d p = false) (hother : otherName t d p = false)
    (h : openFile deny t creat excl p = some (t', i)) (m : DirName) : t'.entry d m ≠ some i := by
  intro hm
  obtain ⟨e, n, hslot, ⟨rfl, hi, hdata⟩ | ⟨hnone, rfl, rfl⟩⟩ := openFile_cases h
  · have hed : e ≠ d := ne_of_placeIn hplace hslot (by rw [hi]; rintro j ⟨⟩; exact hdata)
    rw [otherName_iff.mpr ⟨e, n, i, m, hslot, hi, hed, hm⟩] at hother
    cases hother
  · -- the new inode has no name in the directory
    have hed : e ≠ d := ne_of_placeIn hplace hslot (by rw [hnone]; nofun)
    rw [Inodes.entry_insert_of_ne hed.symm] at hm
    exact absurd (Inodes.entry_lt (t := t) hm).2 (lt_irrefl _)

theorem dirAt_openFile (h : openFile deny t creat excl p = some (t', i)) : dirAt t' p = none := by
  obtain ⟨e, n, hslot, ⟨rfl, hi, hdata⟩ | ⟨hnone, rfl, rfl⟩⟩ := openFile_cases h
  · rw [dirAt_of_fileSlot hslot, hi, Option.filter_eq_none_iff]
    rintro j ⟨⟩
    simpa [Inodes.Tree.isDir] using hdata
  · have hnew : Inodes.DirsIn ((t.alloc (some []) e).insert e n t.next) t := by
      refine (Inodes.dirsIn_insert_file ?_).trans (Inodes.dirsIn_alloc_file _ _)
      show Function.update t.data t.next (some []) t.next ≠ none
      rw [Function.update_self]
      exact Option.some_ne_none _
    by_contra hne
    obtain ⟨f, hf⟩ := Option.ne_none_iff_exists'.mp hne
    have := dirAt_of_dirsIn hnew hf
    rw [dirAt_of_fileSlot hslot, hnone] at this
    cases this

end

theorem write_harmless {i : ℕ} (h : ∀ m, t.entry d m ≠ some i) (c : List Byte) :
    Harmless d t (t.write i c) :=
  ⟨Inodes.files_write h, Inodes.noneMade_write d i c, Inodes.dirsIn_write i c,
    fun _ => Inodes.entry_write ..,
    fun e n j hj => .inl (by rwa [Inodes.entry_write] at hj)⟩

theorem unlink_harmless (hplace : placeIn t d p = false) : Harmless d t (unlink deny t p) := by
  have hfiles : (unlink deny t p).files d = t.files d := files_unlink (fileIn_of_placeIn hplace)
  have hsub : Inodes.Sub (unlink deny t p) t := sub_unlink p
  refine ⟨hfiles, hsub.noneMade d, hsub.dirsIn, fun m => ?_,
    fun e n i hi => .inl (hsub.entry e n i hi)⟩
  rcases unlink_cases deny t p with heq | ⟨e, n, i, hslot, hi, hdata, heq⟩
  · rw [heq]
  · have hed : e ≠ d := ne_of_placeIn hplace hslot (by rw [hi]; rintro j ⟨⟩; exact hdata)
    rw [heq, Inodes.entry_remove, if_neg fun h => hed h.1.symm]

/-- A regular file is moved outside the directory. -/
theorem rename_harmless {src dst : List Byte} (hfile : dirAt t src = none)
    (hsrc : placeIn t d src = false) (hother : otherName t d src = false)
    (hdst : placeIn t d dst = false) : Harmless d t (rename deny t src dst).1 := by
  have hfiles : (rename deny t src dst).1.files d = t.files d :=
    files_rename (fileIn_of_placeIn hsrc) fun _ => hdst
  have hmade : Inodes.NoneMade d t (rename deny t src dst).1 := noneMade_rename d src dst
  rcases rename_cases deny t src dst with heq |
    ⟨e, n, f, m, i, hi, hdir, -, -, hs⟩ | ⟨e, n, f, m, i, hs, hd, hi, hdata, hj, heq⟩
  · rw [heq]
    exact .refl d t
  · -- the source is no directory
    obtain ⟨a, ha, he⟩ := slot_eq_some hs
    rw [← dirAt_stripSlashes, ha, dirAt_concat_name he, hi, Option.filter_eq_none_iff] at hfile
    exact absurd (Option.isNone_iff_eq_none.mpr hdir) (hfile i rfl)
  · have hed : e ≠ d := ne_of_placeIn hsrc hs (by rw [hi]; rintro j ⟨⟩; exact hdata)
    have hfd : f ≠ d := ne_of_placeIn hdst hd hj
    have hlt : f < t.next := fileSlot_lt hd
    have hi' : i < t.next := (Inodes.entry_lt hi).2
    rw [heq] at hfiles hmade ⊢
    refine ⟨hfiles, hmade, ?_, fun k => ?_, fun g k j hentry => ?_⟩
    · exact (Inodes.dirsIn_insert_file (t := t.remove e n) hdata).trans
        (Inodes.sub_remove e n).dirsIn
    · rw [Inodes.entry_insert_of_ne hfd.symm, Inodes.entry_remove, if_neg fun h => hed h.1.symm]
    · rw [Inodes.entry_insert (t := t.remove e n) hlt hi'] at hentry
      split at hentry
      · obtain rfl := Option.some.inj hentry
        refine .inr fun k hk => ?_
        rw [otherName_iff.mpr ⟨e, n, i, k, hs, hi, hed, hk⟩] at hother
        cases hother
      · exact .inl ((Inodes.sub_remove e n).entry g k j hentry)

/-! ### Files that are stored -/

/-- **A file that is stored elsewhere** leaves the directory alone, unless its content goes to
a file with a second name there. -/
theorem store_harmless {creat excl gone : Bool} {content : Option (List Byte)}
    (hplace : placeIn t d p = false) (hother : content ≠ none → otherName t d p = false) :
    Harmless d t (store deny creat excl t p content gone) := by
  unfold store
  split
  · exact .refl d t
  · next t' i hopen =>
    have h : Harmless d t t' := openFile_harmless hplace hopen
    have hgone : ∀ u, Harmless d t u →
        Harmless d t (if gone = true then unlink deny u p else u) := by
      intro u hu
      split
      · exact hu.trans (unlink_harmless (hu.placeIn_eq hplace))
      · exact hu
    cases content with
    | none => exact hgone t' h
    | some c =>
      have hapart := openFile_apart hplace (hother (Option.some_ne_none c)) hopen
      exact hgone _ (h.trans (write_harmless hapart c))

theorem cpfile_harmless {good : Bool} {src dst : List Byte} (hplace : placeIn t d dst = false)
    (hother : otherName t d dst = false) : Harmless d t (cpfile deny good t src dst).1 := by
  unfold cpfile
  split
  · exact .refl d t
  · next t' i hopen =>
    have hapart : ∀ m, t'.entry d m ≠ some i := openFile_apart hplace hother hopen
    have h : Harmless d t (t'.write i []) :=
      (openFile_harmless hplace hopen).trans (write_harmless hapart [])
    dsimp only
    split
    · exact h
    · next c hread =>
      split
      · exact h.trans (write_harmless (fun m => by rw [Inodes.entry_write]; exact hapart m) c)
      · exact h.trans (unlink_harmless (h.placeIn_eq hplace))

theorem dirAt_write {i : ℕ} {c : List Byte} (h : dirAt t p = none) :
    dirAt (t.write i c) p = none := by
  by_contra hne
  obtain ⟨e, he⟩ := Option.ne_none_iff_exists'.mp hne
  rw [dirAt_of_dirsIn (Inodes.dirsIn_write i c) he] at h
  cases h

/-- What was copied is a file. -/
theorem dirAt_cpfile {good : Bool} {src dst : List Byte}
    (h : (cpfile deny good t src dst).2 = true) :
    dirAt (cpfile deny good t src dst).1 dst = none := by
  unfold cpfile at h ⊢
  split
  · next hopen =>
    rw [hopen] at h
    cases h
  · next t' i hopen =>
    rw [hopen] at h
    dsimp only at h ⊢
    split at h
    · cases h
    · split at h
      · next hgood =>
        rw [if_pos hgood]
        exact dirAt_write (dirAt_write (dirAt_openFile hopen))
      · cases h

/-! ### Permissions of another directory -/

/-- The names of the metadata, of its lock and of the place where it is prepared. -/
def metaName : DirName := ⟨fsmeta, by decide, by decide, by decide, by decide⟩

def lckName : DirName := ⟨fsmeta ++ lit ".lck", by decide, by decide, by decide, by decide⟩

def swpName : DirName := ⟨fsmeta ++ lit ".swp", by decide, by decide, by decide, by decide⟩

theorem metaFile_eq (dir : List Byte) : metaFile dir = dir ++ slash :: metaName.val := by
  simp [metaFile, metaName]

theorem lckFile_eq (dir : List Byte) : lckFile dir = dir ++ slash :: lckName.val := by
  simp [lckFile, metaFile, lckName]

theorem swpFile_eq (dir : List Byte) : swpFile dir = dir ++ slash :: swpName.val := by
  simp [swpFile, metaFile, swpName]

theorem rdFile_eq (dir : List Byte) : rdFile dir = dir ++ slash :: metaRd.val := by
  simp [rdFile, metaFile, metaRd]

theorem placeIn_append {a : List Byte} (ha : dirAt t a ≠ some d) (n : DirName) :
    placeIn t d (a ++ slash :: n.val) = false := by
  by_contra hne
  obtain ⟨m, -, hslot⟩ := placeIn_iff.mp (by simpa using hne)
  obtain ⟨b, hb, hdir⟩ := fileSlot_eq_some hslot
  have hlast := lastSlash_append b m
  rw [← hb, lastSlash_append] at hlast
  obtain ⟨rfl, -⟩ : a = b ∧ n.val = m.val := by simpa using hlast
  exact ha hdir

section

variable {w : CoreEnv} {dir : List Byte} (hdir : dirAt t dir ≠ some d)

include hdir

theorem placeIn_swpFile : placeIn t d (swpFile dir) = false :=
  swpFile_eq dir ▸ placeIn_append hdir _

theorem placeIn_metaFile : placeIn t d (metaFile dir) = false :=
  metaFile_eq dir ▸ placeIn_append hdir _

theorem placeIn_rdFile : placeIn t d (rdFile dir) = false :=
  rdFile_eq dir ▸ placeIn_append hdir _

theorem placeIn_lckFile : placeIn t d (lckFile dir) = false :=
  lckFile_eq dir ▸ placeIn_append hdir _

theorem metaReplace_harmless {good : Bool} (hother : otherName t d (swpFile dir) = false)
    (hfile : dirAt t (swpFile dir) = none) : Harmless d t (metaReplace w good t dir) := by
  have hren : Harmless d t (rename w.deny t (swpFile dir) (metaFile dir)).1 :=
    rename_harmless hfile (placeIn_swpFile hdir) hother (placeIn_metaFile hdir)
  unfold metaReplace
  dsimp only
  split
  · exact hren.trans (unlink_harmless (placeIn_swpFile (hren.dirAt_ne hdir)))
  · have hcp : Harmless d t (cpfile w.deny good _ (metaFile dir) (swpFile dir)).1 :=
      hren.trans (cpfile_harmless (placeIn_swpFile (hren.dirAt_ne hdir)) (hren.otherName_eq hother))
    split
    · exact hcp
    · next hgood =>
      have hdir' := hcp.dirAt_ne hdir
      have hren' : Harmless d t (rename w.deny _ (swpFile dir) (rdFile dir)).1 :=
        hcp.trans (rename_harmless (dirAt_cpfile (by simpa using hgood)) (placeIn_swpFile hdir')
          (hcp.otherName_eq hother) (placeIn_rdFile hdir'))
      split
      · exact hren'
      · exact hren'.trans (unlink_harmless (placeIn_swpFile (hren'.dirAt_ne hdir)))

/-- **Permissions that are set in another directory** leave the directory alone. -/
theorem setfspermIn_harmless {io : MetaIo} {fsid tok : List Byte}
    (hother : otherName t d (swpFile dir) = false) :
    Harmless d t (setfspermIn w io fsid tok dir t) := by
  have hlck : Harmless d t (store w.deny true false t (lckFile dir) none false) :=
    store_harmless (placeIn_lckFile hdir) (fun h => absurd rfl h)
  unfold setfspermIn
  dsimp only
  split
  · exact hlck
  · next u i hopen =>
    have hu := hlck.trans (openFile_harmless (placeIn_metaFile (hlck.dirAt_ne hdir)) hopen)
    have hcp : Harmless d t (cpfile w.deny io.openSwap _ (metaFile dir) (swpFile dir)).1 :=
      hu.trans (cpfile_harmless (placeIn_swpFile (hu.dirAt_ne hdir)) (hu.otherName_eq hother))
    have hplace := placeIn_swpFile (hcp.dirAt_ne hdir)
    split
    · exact hcp
    · next hgood =>
      split
      · exact hcp.trans (unlink_harmless hplace)
      · have hst : ∀ c, Harmless d _ (store w.deny false false _ (swpFile dir) (some c) false) :=
          fun c => store_harmless hplace fun _ => hcp.otherName_eq hother
        refine (hcp.trans (hst _)).trans (metaReplace_harmless ((hcp.trans (hst _)).dirAt_ne hdir)
          ((hcp.trans (hst _)).otherName_eq hother) ((hst _).dirAt_eq_none (dirAt_cpfile ?_)))
        simpa using hgood

/-- **Permissions that are taken away in another directory** leave the directory alone. -/
theorem remfspermIn_harmless {io : MetaIo} {fsid tok : List Byte}
    (hother : otherName t d (swpFile dir) = false) :
    Harmless d t (remfspermIn w io fsid tok dir t) := by
  have hlck : Harmless d t (store w.deny true false t (lckFile dir) none false) :=
    store_harmless (placeIn_lckFile hdir) (fun h => absurd rfl h)
  unfold remfspermIn
  dsimp only
  split
  · exact hlck
  · split
    · exact hlck
    · next u i hopen =>
      have hplace := placeIn_swpFile (hlck.dirAt_ne hdir)
      have hapart : ∀ m, u.entry d m ≠ some i :=
        openFile_apart hplace (hlck.otherName_eq hother) hopen
      have hu := (hlck.trans (openFile_harmless hplace hopen)).trans (write_harmless hapart [])
      split
      · exact hu
      · split
        · exact hu
        · next kept _ =>
          split
          · exact hu.trans (unlink_harmless (hu.placeIn_eq (placeIn_swpFile hdir)))
          · have hw := hu.trans
              (write_harmless (fun m => by rw [Inodes.entry_write]; exact hapart m) kept)
            exact hw.trans (metaReplace_harmless (hw.dirAt_ne hdir) (hw.otherName_eq hother)
              (dirAt_write (dirAt_write (dirAt_openFile hopen))))

end

/-! ### A file that is made and taken away again -/

/-- The tree with one more file, `i`, in the directory. -/
structure Beside (d : ℕ) (n : DirName) (i : ℕ) (t u : FileTree) : Prop where
  dirs : Inodes.DirsIn t u
  files : ∀ m, m ≠ n → u.files d m = t.files d m
  new : t.files d n = none
  entry : u.entry d n = some i
  data : u.data i ≠ none
  apart : ∀ m, m ≠ n → u.entry d m ≠ some i

/-- What is opened at a place that is taken. -/
theorem openFile_taken {creat excl : Bool} {i : ℕ} (hslot : fileSlot t p = some (e, n))
    (htaken : t.entry e n ≠ none) (h : openFile deny t creat excl p = some (t', i)) :
    t' = t ∧ t.entry e n = some i ∧ t.data i ≠ none := by
  obtain ⟨e', n', hslot', h⟩ := openFile_cases h
  obtain ⟨rfl, rfl⟩ : e = e' ∧ n = n' := by simpa [hslot] using hslot'
  rcases h with ⟨rfl, hi, hdata⟩ | ⟨hnone, -, -⟩
  · exact ⟨rfl, hi, hdata⟩
  · exact absurd hnone htaken

theorem store_taken {creat excl : Bool} (hslot : fileSlot t p = some (e, n))
    (htaken : t.entry e n ≠ none) : store deny creat excl t p none false = t := by
  unfold store
  split
  · rfl
  · next t' i hopen => exact (openFile_taken hslot htaken hopen).1

theorem Beside.of_openFile {creat excl : Bool} {i : ℕ} (hslot : fileSlot t p = some (d, n))
    (hnone : t.files d n = none) (h : openFile deny t creat excl p = some (t', i)) :
    Beside d n i t t' := by
  obtain ⟨e, m, hslot', h⟩ := openFile_cases h
  obtain ⟨rfl, rfl⟩ : d = e ∧ n = m := by simpa [hslot] using hslot'
  rcases h with ⟨rfl, hi, hdata⟩ | ⟨hfree, rfl, rfl⟩
  · have : (t'.entry d n).bind t'.data = none := hnone
    rw [hi] at this
    exact absurd this hdata
  · have hlt : d < (t.alloc (some []) d).next := Nat.lt_succ_of_lt (fileSlot_lt hslot)
    have hentry : ∀ m, ((t.alloc (some []) d).insert d n t.next).entry d m
        = if m = n then some t.next else t.entry d m := by
      intro m
      rw [Inodes.entry_insert hlt (Nat.lt_succ_self _)]
      simp only [true_and]
      rfl
    refine ⟨?_, fun m hm => ?_, hnone, ?_, ?_, fun m hm => ?_⟩
    · exact (Inodes.dirsIn_alloc _ _).trans (Inodes.dirsIn_insert_new hfree)
    · have halloc : (t.alloc (some []) d).files d m = t.files d m := by rw [Inodes.files_alloc]
      rw [← halloc]
      show (((t.alloc (some []) d).insert d n t.next).entry d m).bind _ = (t.entry d m).bind _
      rw [hentry, if_neg hm, Inodes.data_insert]
    · rw [hentry, if_pos rfl]
    · rw [Inodes.data_insert]
      show Function.update t.data t.next (some []) t.next ≠ none
      rw [Function.update_self]
      exact Option.some_ne_none _
    · rw [hentry, if_neg hm]
      exact fun hm => absurd (Inodes.entry_lt hm).2 (lt_irrefl _)

section

variable {i : ℕ} {u : FileTree} (h : Beside d n i t u)

include h

theorem Beside.write (c : List Byte) : Beside d n i t (u.write i c) := by
  refine ⟨h.dirs.trans (Inodes.dirsIn_of_write i c), fun m hm => ?_, h.new, ?_, ?_, fun m hm => ?_⟩
  · rw [Inodes.files_write_of_ne (h.apart m hm), h.files m hm]
  · rw [Inodes.entry_write, h.entry]
  · exact fun hnone => h.data ((Inodes.data_write i c i).mp hnone)
  · rw [Inodes.entry_write]
    exact h.apart m hm

/-- The file has the content that was written. -/
theorem Beside.files_write (c : List Byte) : (u.write i c).files d n = some c := by
  show ((u.write i c).entry d n).bind (u.write i c).data = some c
  rw [Inodes.entry_write, h.entry]
  exact Inodes.data_write_self h.data

theorem Beside.files_unlink (hslot : fileSlot t p = some (d, n)) (hdeny : deny p = false) :
    (unlink deny u p).files d = t.files d := by
  have heq : unlink deny u p = u.remove d n := by
    have hdir : u.isDir i = false :=
      Option.isNone_eq_false_iff.mpr (Option.isSome_iff_ne_none.mpr h.data)
    unfold unlink
    rw [fileSlot_of_dirsIn h.dirs hslot]
    dsimp only
    rw [h.entry]
    simp [hdeny, hdir]
  funext m
  rw [heq]
  show ((u.remove d n).entry d m).bind u.data = _
  rw [Inodes.entry_remove]
  by_cases hm : m = n
  · subst hm
    rw [if_pos ⟨rfl, rfl⟩]
    exact h.new.symm
  · rw [if_neg fun hmn => hm hmn.2]
    exact h.files m hm

end

theorem openFile_deny {creat excl : Bool} {x : FileTree × ℕ}
    (h : openFile deny t creat excl p = some x) : deny p = false := by
  by_contra hne
  have hdeny : deny p = true := by simpa using hne
  unfold openFile at h
  split at h
  · cases h
  · rw [if_pos hdeny] at h
    cases h

/-- **A file that is stored and taken away again** leaves the directory as it was, even if it
was stored there. -/
theorem files_store_gone {creat excl : Bool} {c : List Byte} (hfile : fileIn t d p = false)
    (hother : otherName t d p = false) :
    (store deny creat excl t p (some c) true).files d = t.files d := by
  by_cases hplace : placeIn t d p = true
  · obtain ⟨n, -, hslot⟩ := placeIn_iff.mp hplace
    have hnone : t.files d n = none := fileIn_eq_false hfile hslot rfl
    unfold store
    split
    · rfl
    · next t' i hopen =>
      have hnew := (Beside.of_openFile hslot hnone hopen).write c
      exact hnew.files_unlink hslot (openFile_deny hopen)
  · exact (store_harmless (by simpa using hplace) fun _ => hother).files

/-! ### Permissions of the directory itself -/

section

variable {w : CoreEnv} {dir : List Byte} (hdir : dirAt t dir = some d)

include hdir

/-- A copy of a file of the directory, beside it. -/
theorem Beside.cpfile_cases (deny : List Byte → Bool) (good : Bool) {m : DirName}
    {file : List Byte} (hne : m ≠ n)
    (hnone : t.files d n = none) (hfile : t.files d m = some file) :
    cpfile deny good t (dir ++ slash :: m.val) (dir ++ slash :: n.val) = (t, false) ∨
    ∃ i u, Beside d n i t u ∧ deny (dir ++ slash :: n.val) = false ∧
      (cpfile deny good t (dir ++ slash :: m.val) (dir ++ slash :: n.val)
          = (unlink deny u (dir ++ slash :: n.val), false) ∨
        cpfile deny good t (dir ++ slash :: m.val) (dir ++ slash :: n.val)
          = (u.write i file, true)) := by
  have hslot : fileSlot t (dir ++ slash :: n.val) = some (d, n) := fileSlot_append hdir n
  unfold cpfile
  split
  · exact .inl rfl
  · next t' i hopen =>
    have hu : Beside d n i t (t'.write i []) := (Beside.of_openFile hslot hnone hopen).write []
    have hread : (treeFs (t'.write i [])).read (dir ++ slash :: m.val) = some file := by
      refine (read_append (dirAt_of_dirsIn hu.dirs hdir) ?_).2
      rw [hu.files m hne, hfile]
    refine .inr ⟨i, t'.write i [], hu, openFile_deny hopen, ?_⟩
    dsimp only
    rw [hread]
    cases good with
    | false => exact .inl rfl
    | true => exact .inr rfl

/-- **Permissions that may not be set** leave the directory as it is, once the files that
`cmd_setfsperm` makes on its way are there. -/
theorem files_setfspermIn {io : MetaIo} {fsid tok : List Byte} (hlck : t.entry d lckName ≠ none)
    (hmeta : t.entry d metaName ≠ none) (hswp : t.files d swpName = none)
    (hset : ∀ file ∈ t.files d metaName,
      file ≠ [] ∧ maySet fsid (lines newline lineMax file) = false) :
    (setfspermIn w io fsid tok dir t).files d = t.files d := by
  have hswps : fileSlot t (dir ++ slash :: swpName.val) = some (d, swpName) :=
    fileSlot_append hdir _
  unfold setfspermIn
  rw [lckFile_eq, metaFile_eq, swpFile_eq, store_taken (fileSlot_append hdir _) hlck]
  dsimp only
  split
  · rfl
  · next u i hopen =>
    obtain ⟨rfl, hi, hdata⟩ := openFile_taken (fileSlot_append hdir _) hmeta hopen
    obtain ⟨file, hfile⟩ := Option.ne_none_iff_exists'.mp hdata
    have hfile : u.files d metaName = some file := by
      show (u.entry d metaName).bind u.data = some file
      rw [hi]
      exact hfile
    obtain ⟨hne, hset⟩ := hset file hfile
    rcases Beside.cpfile_cases hdir w.deny io.openSwap
      (show metaName ≠ swpName by decide) hswp hfile with heq | ⟨j, v, hv, hdeny, heq | heq⟩
    · rw [heq]
      rfl
    · rw [heq]
      exact hv.files_unlink hswps hdeny
    · have hread : (treeFs (v.write j file)).read (dir ++ slash :: swpName.val) = some file :=
        (read_append (dirAt_of_dirsIn (hv.write file).dirs hdir) (hv.files_write file)).2
      rw [heq, hread]
      simp only [Option.getD_some, Bool.not_true, Bool.false_eq_true, if_false]
      rw [if_pos (.inl ⟨hne, by rw [hset]; rfl⟩)]
      exact (hv.write file).files_unlink hswps hdeny

/-- **Permissions that may not be taken away** leave the directory as it is. -/
theorem files_remfspermIn {io : MetaIo} {fsid tok : List Byte} (hlck : t.entry d lckName ≠ none)
    (hperm : getfsidperm (treeFs t) (rdFile dir) fsid &&& Secfs.remperm.bit = 0) :
    (remfspermIn w io fsid tok dir t).files d = t.files d := by
  unfold remfspermIn
  rw [lckFile_eq, store_taken (fileSlot_append hdir _) hlck]
  dsimp only
  rw [if_pos hperm]

end

/-! ### The loops of the commands that look for names -/

/-- What the loop of `cmd_xcopy` keeps. -/
structure Linking (d : ℕ) (t u : FileTree) : Prop where
  files : u.files d = t.files d
  dirs : Inodes.DirsIn u t
  taken : ∀ n, t.entry d n ≠ none → u.entry d n ≠ none

theorem Linking.link {src dst : List Byte} {u : FileTree} (h : Linking d t u)
    (hnew : newIn t d dst = false) : Linking d t (link deny u src dst).1 := by
  rcases link_cases deny u src dst with heq | ⟨i, e, n, hslot, hdata, hnone, heq⟩
  · rw [heq]
    exact h
  · have hed : e ≠ d := by
      rintro rfl
      exact h.taken n (newIn_eq_false hnew (fileSlot_of_dirsIn h.dirs hslot)) hnone
    rw [heq]
    refine ⟨?_, (Inodes.dirsIn_insert_file hdata).trans h.dirs, fun m hm => ?_⟩
    · rw [Inodes.files_insert fun he => absurd he hed, h.files]
    · rw [Inodes.entry_insert_of_ne hed.symm]
      exact h.taken m hm

/-- **Links that are made in many directories**, none of them at a free place in this one. -/
theorem files_xcopy {lcknam newn dstpat src : List Byte} {l : List (List Byte)}
    (h : ∀ q ∈ l, endsIn dstpat q = true → newIn t d (q ++ [slash] ++ newn) = false) :
    (l.foldl (crossStep lcknam newn dstpat fun t dst => (link deny t src dst).1) t).files d
      = t.files d := by
  suffices hlinked : Linking d t
      (l.foldl (crossStep lcknam newn dstpat fun t dst => (link deny t src dst).1) t) from
    hlinked.files
  refine List.foldlRecOn l _ ⟨rfl, .refl t, fun _ hn => hn⟩ fun u hu q hq => ?_
  unfold crossStep
  split
  · next hmatch =>
    rw [Bool.and_eq_true] at hmatch
    exact hu.link (h q hq hmatch.1)
  · exact hu

/-- Directories that are copied in many places. -/
theorem files_xcpdir {lcknam newn dstpat src : List Byte} {l : List (List Byte)} (hd : d < t.next) :
    (l.foldl (crossStep lcknam newn dstpat fun t dst => cprTree deny t src dst) t).files d
      = t.files d := by
  suffices hkept : (l.foldl (crossStep lcknam newn dstpat fun t dst => cprTree deny t src dst)
      t).files d = t.files d ∧ t.next ≤ (l.foldl (crossStep lcknam newn dstpat
        fun t dst => cprTree deny t src dst) t).next from hkept.1
  refine List.foldlRecOn (motive := fun u : FileTree => u.files d = t.files d ∧ t.next ≤ u.next) l
    _ ⟨rfl, le_refl _⟩ fun u hu q hq => ?_
  unfold crossStep
  split
  · obtain ⟨hfiles, hnext⟩ : (cprTree deny u src (q ++ [slash] ++ newn)).files d = u.files d ∧
        u.next ≤ (cprTree deny u src (q ++ [slash] ++ newn)).next :=
      cprTree_spec (Nat.lt_of_lt_of_le hd hu.2) _ _
    exact ⟨hfiles.trans hu.1, Nat.le_trans hu.2 hnext⟩
  · exact hu

theorem files_xdel {lcknam nam : List Byte} {l : List (List Byte)}
    (h : ∀ q ∈ l, endsIn nam q = true → fileIn t d q = false) :
    (l.foldl (fun t q => if endsIn nam q then
        if trylck t lcknam q true then unlink deny t q else t else t) t).files d = t.files d := by
  refine (foldl_sub fun u q hq hu _ => ?_).2
  split
  · next hmatch =>
    split
    · exact ⟨sub_unlink q, files_unlink (fileIn_of_sub hu (h q hq hmatch))⟩
    · exact ⟨.refl u, rfl⟩
  · exact ⟨.refl u, rfl⟩

theorem xrmdir_sub {lcknam nam : List Byte} {excl : Option (List Byte)} {l : List (List Byte)}
    (h : ∀ q ∈ l, endsIn nam q = true → (treeFs t).isDir q = true →
      ∀ r ∈ q :: listdir t q, ¬ spared excl r → fileIn t d r = false) :
    let t' := l.foldl (fun t q => if endsIn nam q then
      if (treeFs t).isDir q && trylck t lcknam q false then rmr deny excl t q else t else t) t
    Inodes.Sub t' t ∧ t'.files d = t.files d := by
  refine foldl_sub fun u q hq hu _ => ?_
  split
  · next hmatch =>
    split
    · next hdir =>
      rw [Bool.and_eq_true] at hdir
      have hdir : (treeFs t).isDir q = true := by
        obtain ⟨e, he⟩ := Option.isSome_iff_exists.mp hdir.1
        exact Option.isSome_iff_exists.mpr ⟨e, dirAt_of_dirsIn hu.dirsIn he⟩
      refine rmr_sub fun r hr hs => fileIn_of_sub hu (h q hq hmatch hdir r ?_ hs)
      rcases List.mem_cons.mp hr with rfl | hr
      · exact List.mem_cons_self
      · exact List.mem_cons_of_mem _ (listdir_of_sub hu hr)
    · exact ⟨.refl u, rfl⟩
  · exact ⟨.refl u, rfl⟩

/-! ### Notifications -/

/-- What `findntfy` reports stands for an entry that starts with the symbol. -/
theorem findntfyTree_eq_some {sym name : List Byte} (h : findntfyTree t e sym = some name) :
    ∃ x ∈ t.dir e, symMatches sym x.1.val = true ∧ strcpySec x.1.val nameMax = name := by
  obtain ⟨x, hx, rfl⟩ := Option.map_eq_some_iff.mp h
  exact ⟨x, List.mem_of_find?_eq_some hx,
    List.find?_some (p := fun x : DirName × ℕ => symMatches sym x.1.val) hx, rfl⟩

/-- What is removed for a watched directory are not files of this one. -/
def WatchAway (d : ℕ) (t : FileTree) (x : Watch) : Prop :=
  ∀ e ∈ dirAt t x.path, ∀ y ∈ t.dir e, symMatches x.sym y.1.val = true →
    fileIn t d (x.path ++ strcpySec y.1.val nameMax) = false

/-- The first tree has some entries less than the second, none of them a file of the
directory. -/
def Rid (d : ℕ) (t' t : FileTree) : Prop := Inodes.Sub t' t ∧ t'.files d = t.files d

theorem chkact_sub (d : ℕ) (t : FileTree) : ∀ (ws : List Watch) (answers : List (List Byte))
    (u : FileTree), (∀ x ∈ ws.zip answers, cmdtoupper x.2 = lit "DEL" → WatchAway d t x.1) →
      Rid d u t → Rid d (chkact deny u ws answers).1 t := by
  intro ws
  induction ws with
  | nil => exact fun _ _ _ hu => hu
  | cons x ws ih =>
    intro answers u haway hu
    have hrest : ∀ y ∈ ws.zip answers.tail, cmdtoupper y.2 = lit "DEL" → WatchAway d t y.1 := by
      intro y hy
      cases answers with
      | nil => simp at hy
      | cons a answers => exact haway y (List.mem_cons_of_mem _ hy)
    unfold chkact
    split
    · exact hu
    · next e he =>
      split
      · exact ih _ u hrest hu
      · next name hname =>
        cases answers with
        | nil => exact hu
        | cons a answers =>
          show Rid d (if cmdtoupper a = lit "END" then (u, false)
            else if cmdtoupper a = lit "DEL" then
              chkact deny (unlink deny u (x.path ++ name)) ws answers
            else chkact deny u ws answers).1 t
          split
          · exact hu
          · split
            · next hdel =>
              obtain ⟨y, hy, hmatch, rfl⟩ := findntfyTree_eq_some hname
              have hfile : fileIn u d (x.path ++ strcpySec y.1.val nameMax) = false :=
                fileIn_of_sub hu.1 (haway (x, a) List.mem_cons_self hdel e
                  (dirAt_of_dirsIn hu.1.dirsIn he) y (hu.1.dir e y hy) hmatch)
              exact ih _ _ hrest ⟨(sub_unlink _).trans hu.1, (files_unlink hfile).trans hu.2⟩
            · exact ih _ u hrest hu

/-- **The loop of notifications** only takes away what was reported before an answer `DEL`. -/
theorem ntfyLoop_sub {ws : List Watch} : ∀ (turns : List (List (List Byte))) (u : FileTree),
    (∀ answers ∈ turns, ∀ x ∈ ws.zip answers, cmdtoupper x.2 = lit "DEL" → WatchAway d t x.1) →
      Rid d u t → Rid d (ntfyLoop deny ws u turns) t := by
  intro turns
  induction turns with
  | nil => exact fun _ _ hu => hu
  | cons answers turns ih =>
    intro u haway hu
    have hturn : Rid d (chkact deny u ws answers).1 t :=
      chkact_sub d t ws answers u (haway answers List.mem_cons_self) hu
    unfold ntfyLoop
    dsimp only
    split
    · exact ih _ (fun a ha => haway a (List.mem_cons_of_mem _ ha)) hturn
    · exact hturn

end TFProtocol
