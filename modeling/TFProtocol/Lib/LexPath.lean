import Mathlib.Data.List.Basic
import Mathlib.Data.List.SplitBy
import Mathlib.Data.List.TakeWhile

/-!
# Lexical path resolution

A path is a list of characters; a separator cuts it into components.  Resolution
drops the empty components and the component `.`, and lets `..` remove the
component before it.  Nothing is looked up in a file system: this is what a string
can say about where a path leads.

## Main definitions

* `comps` — the components of a path that resolution looks at.
* `walk`, `resolve` — following components from a position, and from the root.
* `Inside root p` — `p` resolves to `root` or to something below it.
* `Descends` — following the components never leaves the starting position.
* `squeeze` — a path with each run of separators cut to one.
* `runsOf` — a path cut into its runs of separators and its other characters.

## Main results

* `comps_append_sep` — the components of two paths joined by a separator.
* `inside_append` — joining a path that descends stays inside.
* `descends_iff_forall_inside` — a path that climbs leaves some directory.
* `dotdot_not_mem_dropLast` — a path without `/../` has `..` as its last component
  at most.
* `squeeze_eq_runs` — what cutting runs of separators keeps of each of them.
* `comps_squeeze` — cutting runs of separators keeps the components.
* `isPrefix_walk_iff` — when a path whose only `..` is its last component leaves.
-/

namespace LexPath

variable {α : Type*} [DecidableEq α]

section

variable (sep dot : α)

/-- The components resolution looks at: neither empty nor `.`. -/
def comps (p : List α) : List (List α) :=
  (p.splitOn sep).filter fun c => decide (c ≠ []) && decide (c ≠ [dot])

/-- Following one component. -/
def step (pos : List (List α)) (c : List α) : List (List α) :=
  if c = [dot, dot] then pos.dropLast else pos ++ [c]

/-- Following a list of components from a position. -/
def walk (pos : List (List α)) (cs : List (List α)) : List (List α) := cs.foldl (step dot) pos

/-- Where a path leads from the root. -/
def resolve (p : List α) : List (List α) := walk dot [] (comps sep dot p)

/-- A path leads to the root given or below it. -/
def Inside (root p : List α) : Prop := resolve sep dot root <+: resolve sep dot p

instance (root p : List α) : Decidable (Inside sep dot root p) :=
  inferInstanceAs (Decidable (_ <+: _))

/-- A path with each run of separators cut to one; `b` if the path follows a separator. -/
def squeeze : Bool → List α → List α
  | _, [] => []
  | b, x :: xs =>
    if x = sep then if b then squeeze true xs else sep :: squeeze true xs
    else x :: squeeze false xs

example : squeeze '/' false ['/', '/', 'a'] = ['/', 'a'] := by simp [squeeze]

/-- A path cut into its runs of separators and its other characters. -/
def runsOf (p : List α) : List (List α) := p.splitBy fun a b => a = sep && b = sep

/-- A path that follows a separator if `b` ends in one. -/
def endsSep (b : Bool) (p : List α) : Bool := (p.getLast?.map fun x => decide (x = sep)).getD b

/-- Following the components from a position `n` levels deep never goes above
level zero. -/
def descends : ℕ → List (List α) → Bool
  | _, [] => true
  | n, c :: cs =>
    if c = [dot, dot] then
      match n with
      | 0 => false
      | n + 1 => descends n cs
    else descends (n + 1) cs

example : descends '.' 1 [['.', '.'], ['a']] = true := by simp [descends]

/-- The path never leaves the position it starts from. -/
def Descends (p : List α) : Prop := descends dot 0 (comps sep dot p) = true

instance (p : List α) : Decidable (Descends sep dot p) :=
  inferInstanceAs (Decidable (_ = true))

end

/-! ### Components -/

section

variable {sep dot : α}

theorem comps_append_sep (a b : List α) :
    comps sep dot (a ++ sep :: b) = comps sep dot a ++ comps sep dot b := by
  rw [comps, List.splitOn_append_cons_self, List.filter_append]
  rfl

@[simp] theorem comps_nil : comps sep dot ([] : List α) = [] := rfl

/-- A trailing separator adds nothing. -/
theorem comps_concat_sep (a : List α) : comps sep dot (a ++ [sep]) = comps sep dot a := by
  rw [comps_append_sep, comps_nil, List.append_nil]

/-- A leading separator adds nothing. -/
theorem comps_cons_sep (a : List α) : comps sep dot (sep :: a) = comps sep dot a := by
  rw [← List.nil_append (sep :: a), comps_append_sep, comps_nil, List.nil_append]

/-- No piece of a split contains the separator. -/
theorem not_mem_of_mem_splitOn : ∀ {p c : List α}, c ∈ p.splitOn sep → sep ∉ c := by
  intro p
  induction p with
  | nil =>
    intro c hc
    simp only [List.splitOn_nil, List.mem_singleton] at hc
    simp [hc]
  | cons x xs ih =>
    intro c hc
    rw [List.splitOn_cons_eq_if_modifyHead] at hc
    split at hc
    · obtain rfl | hc := List.mem_cons.mp hc
      · simp
      · exact ih hc
    · rename_i hx
      obtain ⟨hd, tl, hsplit⟩ := List.exists_cons_of_ne_nil (List.splitOn_ne_nil sep xs)
      rw [hsplit, List.modifyHead_cons] at hc
      have hne : sep ≠ x := fun h => hx (by simp [h])
      obtain rfl | hc := List.mem_cons.mp hc
      · rw [List.mem_cons, not_or]
        exact ⟨hne, ih (hsplit ▸ List.mem_cons_self)⟩
      · exact ih (hsplit ▸ List.mem_cons_of_mem _ hc)

/-- A piece of a split is part of the whole. -/
theorem sublist_of_mem_splitOn : ∀ {p c : List α}, c ∈ p.splitOn sep → c.Sublist p := by
  intro p
  induction p with
  | nil =>
    intro c hc
    simp only [List.splitOn_nil, List.mem_singleton] at hc
    simp [hc]
  | cons x xs ih =>
    intro c hc
    rw [List.splitOn_cons_eq_if_modifyHead] at hc
    split at hc
    · obtain rfl | hc := List.mem_cons.mp hc
      · exact List.nil_sublist _
      · exact (ih hc).cons x
    · obtain ⟨hd, tl, hsplit⟩ := List.exists_cons_of_ne_nil (List.splitOn_ne_nil sep xs)
      rw [hsplit, List.modifyHead_cons] at hc
      obtain rfl | hc := List.mem_cons.mp hc
      · exact (ih (hsplit ▸ List.mem_cons_self)).cons_cons x
      · exact (ih (hsplit ▸ List.mem_cons_of_mem _ hc)).cons x

/-- No piece of a split is longer than the whole. -/
theorem length_le_of_mem_splitOn {p c : List α} (h : c ∈ p.splitOn sep) : c.length ≤ p.length :=
  (sublist_of_mem_splitOn h).length_le

/-- What stands in a path is a separator or stands in one of its pieces. -/
theorem exists_mem_splitOn {x : α} (hx : x ≠ sep) : ∀ {p : List α}, x ∈ p →
    ∃ c ∈ p.splitOn sep, x ∈ c := by
  intro p
  induction p with
  | nil => intro h; cases h
  | cons y p ih =>
    intro h
    rw [List.splitOn_cons_eq_if_modifyHead]
    obtain ⟨hd, tl, hsplit⟩ := List.exists_cons_of_ne_nil (List.splitOn_ne_nil sep p)
    rw [hsplit] at ih ⊢
    by_cases hy : y = sep
    · obtain ⟨c, hc, hxc⟩ := ih (List.mem_of_ne_of_mem (fun heq => hx (heq.trans hy)) h)
      exact ⟨c, by simp [hy, hc], hxc⟩
    · refine (List.mem_cons.mp h).elim (fun heq => ⟨x :: hd, by simp [heq, hy], by simp⟩) fun h => ?_
      obtain ⟨c, hc, hxc⟩ := ih h
      rcases List.mem_cons.mp hc with rfl | hc
      · exact ⟨y :: c, by simp [hy], List.mem_cons_of_mem _ hxc⟩
      · exact ⟨c, by simp [hy, hc], hxc⟩

/-- A path without separators is its only component. -/
theorem comps_of_not_mem {c : List α} (h : sep ∉ c) :
    comps sep dot c = [c].filter fun c => decide (c ≠ []) && decide (c ≠ [dot]) := by
  rw [comps, List.splitOn_eq_singleton h]

/-- Components written one behind the other, each with a separator in front. -/
theorem comps_append_flatMap : ∀ (cs : List (List α)) (a : List α),
    comps sep dot (a ++ cs.flatMap fun c => sep :: c)
      = comps sep dot a ++ cs.flatMap (comps sep dot) := by
  intro cs
  induction cs with
  | nil => intro a; simp
  | cons c cs ih =>
    intro a
    rw [List.flatMap_cons, ← List.append_assoc, ih, comps_append_sep, List.flatMap_cons,
      List.append_assoc]

/-- Taking a path apart at its separators keeps its components. -/
theorem flatMap_comps_splitOn (p : List α) :
    ((p.splitOn sep).filter fun c => decide (c ≠ [])).flatMap (comps sep dot)
      = comps sep dot p := by
  have hpieces : ∀ cs : List (List α), (∀ c ∈ cs, sep ∉ c) →
      (cs.filter fun c => decide (c ≠ [])).flatMap (comps sep dot)
        = cs.filter fun c => decide (c ≠ []) && decide (c ≠ [dot]) := by
    intro cs
    induction cs with
    | nil => intro _; rfl
    | cons c cs ih =>
      intro h
      have htail := ih fun c hc => h c (List.mem_cons_of_mem _ hc)
      by_cases hc : c = []
      · simpa [hc] using htail
      · rw [List.filter_cons_of_pos (by simpa using hc), List.flatMap_cons, htail,
          comps_of_not_mem (h c List.mem_cons_self), List.filter_cons, List.filter_nil,
          List.filter_cons]
        split <;> rfl
  exact hpieces _ fun c hc => not_mem_of_mem_splitOn hc

/-! ### Walking -/

@[simp] theorem walk_nil (pos : List (List α)) : walk dot pos [] = pos := rfl

@[simp] theorem walk_cons (pos : List (List α)) (c : List α) (cs : List (List α)) :
    walk dot pos (c :: cs) = walk dot (step dot pos c) cs := rfl

theorem walk_append (pos : List (List α)) (cs ds : List (List α)) :
    walk dot pos (cs ++ ds) = walk dot (walk dot pos cs) ds := List.foldl_append

/-- Without `..` the components just add up. -/
theorem walk_of_not_mem : ∀ (cs : List (List α)) (pos : List (List α)), [dot, dot] ∉ cs →
    walk dot pos cs = pos ++ cs := by
  intro cs
  induction cs with
  | nil => intro pos _; simp
  | cons c cs ih =>
    intro pos h
    have hc : c ≠ [dot, dot] := fun hc => h (hc ▸ List.mem_cons_self)
    rw [walk_cons, step, if_neg hc, ih _ fun hm => h (List.mem_cons_of_mem _ hm),
      List.append_assoc, List.singleton_append]

theorem resolve_of_not_mem {p : List α} (h : [dot, dot] ∉ comps sep dot p) :
    resolve sep dot p = comps sep dot p := by
  rw [resolve, walk_of_not_mem _ _ h, List.nil_append]

/-- Joining two paths by a separator: the second is followed from where the
first leads. -/
theorem resolve_append_sep (a b : List α) :
    resolve sep dot (a ++ sep :: b) = walk dot (resolve sep dot a) (comps sep dot b) := by
  rw [resolve, comps_append_sep, walk_append]
  rfl

/-- A walk that never goes above level zero keeps everything below its base. -/
theorem isPrefix_walk_of_descends (base : List (List α)) : ∀ (cs extra : List (List α)),
    descends dot extra.length cs = true → base <+: walk dot (base ++ extra) cs := by
  intro cs
  induction cs with
  | nil => intro extra _; exact List.prefix_append _ _
  | cons c cs ih =>
    intro extra h
    by_cases hc : c = [dot, dot]
    · obtain rfl | ⟨init, last, rfl⟩ := List.eq_nil_or_concat' extra
      · simp [descends, hc] at h
      · rw [walk_cons, step, if_pos hc, ← List.append_assoc, List.dropLast_concat]
        apply ih
        simpa [descends, hc] using h
    · rw [walk_cons, step, if_neg hc, List.append_assoc]
      apply ih
      simpa [descends, hc] using h

theorem descends_of_not_mem : ∀ (cs : List (List α)) (n : ℕ), [dot, dot] ∉ cs →
    descends dot n cs = true := by
  intro cs
  induction cs with
  | nil => intro n _; rfl
  | cons c cs ih =>
    intro n h
    have hc : c ≠ [dot, dot] := fun hc => h (hc ▸ List.mem_cons_self)
    simp only [descends, hc, if_false]
    exact ih _ fun hm => h (List.mem_cons_of_mem _ hm)

/-- More room below does no harm. -/
theorem descends_mono : ∀ (cs : List (List α)) {n m : ℕ}, n ≤ m → descends dot n cs = true →
    descends dot m cs = true := by
  intro cs
  induction cs with
  | nil => intro n m _ _; rfl
  | cons c cs ih =>
    intro n m hnm h
    by_cases hc : c = [dot, dot]
    · obtain ⟨n, rfl⟩ : ∃ k, n = k + 1 := by
        cases n with
        | zero => simp [descends, hc] at h
        | succ n => exact ⟨n, rfl⟩
      obtain ⟨m, rfl⟩ : ∃ k, m = k + 1 := ⟨m - 1, by omega⟩
      simp only [descends, hc, if_true] at h ⊢
      exact ih (by omega) h
    · simp only [descends, hc, if_false] at h ⊢
      exact ih (by omega) h

theorem descends_append {ds : List (List α)} (hds : descends dot 0 ds = true) :
    ∀ (cs : List (List α)) {n : ℕ}, descends dot n cs = true →
      descends dot n (cs ++ ds) = true := by
  intro cs
  induction cs with
  | nil => intro n _; exact descends_mono ds (Nat.zero_le n) hds
  | cons c cs ih =>
    intro n h
    by_cases hc : c = [dot, dot]
    · cases n with
      | zero => simp [descends, hc] at h
      | succ n =>
        simp only [List.cons_append, descends, hc, if_true] at h ⊢
        exact ih h
    · simp only [List.cons_append, descends, hc, if_false] at h ⊢
      exact ih h

/-- The first components of a walk that never goes above level zero. -/
theorem descends_of_append (ds : List (List α)) : ∀ (cs : List (List α)) {n : ℕ},
    descends dot n (cs ++ ds) = true → descends dot n cs = true := by
  intro cs
  induction cs with
  | nil => intro n _; rfl
  | cons x cs ih =>
    intro n h
    by_cases hx : x = [dot, dot]
    · cases n with
      | zero => simp [descends, hx] at h
      | succ n =>
        simp only [List.cons_append, descends, hx, if_true] at h ⊢
        exact ih h
    · simp only [List.cons_append, descends, hx, if_false] at h ⊢
      exact ih h

/-- One more component needs at most one more level. -/
theorem descends_concat (c : List α) : ∀ (cs : List (List α)) {n : ℕ}, descends dot n cs = true →
    descends dot (n + 1) (cs ++ [c]) = true := by
  intro cs
  induction cs with
  | nil =>
    intro n _
    simp only [List.nil_append, descends]
    split <;> rfl
  | cons x cs ih =>
    intro n h
    by_cases hx : x = [dot, dot]
    · cases n with
      | zero => simp [descends, hx] at h
      | succ n =>
        simp only [List.cons_append, descends, hx, if_true] at h ⊢
        exact ih h
    · simp only [List.cons_append, descends, hx, if_false] at h ⊢
      exact ih h

/-- Paths that descend can be joined. -/
theorem Descends.append_sep {a b : List α} (ha : Descends sep dot a) (hb : Descends sep dot b) :
    Descends sep dot (a ++ sep :: b) := by
  unfold Descends
  rw [comps_append_sep]
  exact descends_append hb _ ha

/-! ### Inside -/

theorem Inside.refl (p : List α) : Inside sep dot p p := List.prefix_rfl

theorem Inside.trans {a b c : List α} (h : Inside sep dot a b) (h' : Inside sep dot b c) :
    Inside sep dot a c := List.IsPrefix.trans h h'

/-- **Joining a path that descends stays inside.** -/
theorem inside_append (a : List α) {b : List α} (h : Descends sep dot b) :
    Inside sep dot a (a ++ sep :: b) := by
  unfold Inside
  rw [resolve_append_sep]
  simpa using isPrefix_walk_of_descends (resolve sep dot a) (comps sep dot b) [] h

/-- A trailing separator does not change where a path leads. -/
theorem resolve_concat_sep (a : List α) : resolve sep dot (a ++ [sep]) = resolve sep dot a := by
  rw [resolve, comps_concat_sep]
  rfl

/-- Joining below a directory that ends in a separator: what the components of
the second path do to where the first leads. -/
theorem inside_iff_walk (a b : List α) :
    Inside sep dot (a ++ [sep]) (a ++ sep :: b) ↔
      resolve sep dot a <+: walk dot (resolve sep dot a) (comps sep dot b) := by
  unfold Inside
  rw [resolve_concat_sep, resolve_append_sep]

/-! ### The substring `/../` -/

omit [DecidableEq α] in
/-- Behind a separator, a component `..` that is not the last one shows as the
substring `/../`. -/
theorem isInfix_intercalate (pre post : List (List α)) (hpost : post ≠ []) :
    [sep, dot, dot, sep] <:+: sep :: [sep].intercalate (pre ++ [dot, dot] :: post) := by
  induction pre with
  | nil =>
    rw [List.nil_append, List.intercalate_cons_of_ne_nil hpost]
    exact List.IsPrefix.isInfix ⟨[sep].intercalate post, by simp⟩
  | cons x pre ih =>
    rw [List.cons_append, List.intercalate_cons_of_ne_nil (by simp)]
    refine ih.trans ?_
    exact List.IsSuffix.isInfix ⟨sep :: x, by simp⟩

/-- **A path without `/../` has `..` at most as its last component.** -/
theorem dotdot_not_mem_dropLast {b : List α} (h : ¬ [sep, dot, dot, sep] <:+: sep :: b) :
    [dot, dot] ∉ (b.splitOn sep).dropLast := by
  intro hmem
  obtain ⟨pre, post, hsplit⟩ := List.append_of_mem hmem
  have hne : b.splitOn sep ≠ [] := List.splitOn_ne_nil _ _
  have hall : b.splitOn sep
      = pre ++ [dot, dot] :: (post ++ [(b.splitOn sep).getLast hne]) := by
    conv_lhs => rw [← List.dropLast_append_getLast hne, hsplit]
    simp
  apply h
  have hinfix : [sep, dot, dot, sep] <:+:
      sep :: [sep].intercalate (pre ++ [dot, dot] :: (post ++ [(b.splitOn sep).getLast hne])) :=
    isInfix_intercalate pre _ (by simp)
  rwa [← hall, List.intercalate_splitOn] at hinfix

/-- A path without `/../` that ends in a separator has no component `..`. -/
theorem dotdot_not_mem_comps_concat {a : List α}
    (h : ¬ [sep, dot, dot, sep] <:+: sep :: (a ++ [sep])) :
    [dot, dot] ∉ comps sep dot (a ++ [sep]) := by
  have hinit := dotdot_not_mem_dropLast h
  rw [List.splitOn_append_cons_self, List.splitOn_nil, List.dropLast_concat] at hinit
  rw [comps_concat_sep]
  exact fun hm => hinit (List.mem_of_mem_filter hm)

/-- The components of such a path: either none of them is `..`, or only the
last one is. -/
theorem comps_cases {b : List α} (h : ¬ [sep, dot, dot, sep] <:+: sep :: b) :
    [dot, dot] ∉ comps sep dot b ∨
      ∃ ns, [dot, dot] ∉ ns ∧ comps sep dot b = ns ++ [[dot, dot]] := by
  have hinit := dotdot_not_mem_dropLast h
  have hsplit := List.dropLast_append_getLast (List.splitOn_ne_nil sep b)
  have hcomps : comps sep dot b
      = (b.splitOn sep).dropLast.filter (fun c => decide (c ≠ []) && decide (c ≠ [dot])) ++
        [(b.splitOn sep).getLast (List.splitOn_ne_nil sep b)].filter
          (fun c => decide (c ≠ []) && decide (c ≠ [dot])) := by
    rw [← List.filter_append, hsplit]
    rfl
  have hinit' : [dot, dot] ∉
      (b.splitOn sep).dropLast.filter (fun c => decide (c ≠ []) && decide (c ≠ [dot])) :=
    fun hm => hinit (List.mem_of_mem_filter hm)
  by_cases hlast : (b.splitOn sep).getLast (List.splitOn_ne_nil sep b) = [dot, dot]
  · right
    refine ⟨_, hinit', ?_⟩
    rw [hcomps, hlast]
    simp
  · left
    rw [hcomps, List.mem_append]
    rintro (hm | hm)
    · exact hinit' hm
    · have := List.mem_of_mem_filter hm
      rw [List.mem_singleton] at this
      exact hlast this.symm

/-- **When a trailing `..` leaves the base**: only when there is nothing before
it to remove, and the base is not the root of everything. -/
theorem isPrefix_walk_iff (base : List (List α)) {ns : List (List α)} (h : [dot, dot] ∉ ns) :
    base <+: walk dot base (ns ++ [[dot, dot]]) ↔ base = [] ∨ ns ≠ [] := by
  rw [walk_append, walk_of_not_mem _ _ h, walk_cons, step, if_pos rfl, walk_nil]
  obtain rfl | ⟨init, last, rfl⟩ := List.eq_nil_or_concat' ns
  · rw [List.append_nil]
    constructor
    · intro hp
      left
      have hlen := hp.length_le
      rw [List.length_dropLast] at hlen
      exact List.eq_nil_of_length_eq_zero (by omega)
    · rintro (rfl | hns)
      · exact List.prefix_rfl
      · exact absurd rfl hns
  · rw [← List.append_assoc, List.dropLast_concat]
    simp

/-! ### Paths that climb -/

/-- A walk keeps away from a name it never pushes. -/
theorem not_mem_walk {x : List α} : ∀ (cs pos : List (List α)), x ∉ cs → x ∉ pos →
    x ∉ walk dot pos cs := by
  intro cs
  induction cs with
  | nil => intro pos _ hpos; exact hpos
  | cons c cs ih =>
    intro pos hcs hpos
    rw [walk_cons]
    apply ih _ fun h => hcs (List.mem_cons_of_mem _ h)
    unfold step
    split
    · exact fun h => hpos ((List.dropLast_sublist pos).subset h)
    · rw [List.mem_append, List.mem_singleton]
      rintro (h | h)
      · exact hpos h
      · exact hcs (h ▸ List.mem_cons_self)

/-- A walk that goes above level zero leaves a position whose name it does not
know for good. -/
theorem not_mem_walk_of_climbs {x : List α} : ∀ (cs extra : List (List α)), x ∉ cs → x ∉ extra →
    descends dot extra.length cs = false → x ∉ walk dot (x :: extra) cs := by
  intro cs
  induction cs with
  | nil => intro extra _ _ h; simp [descends] at h
  | cons c cs ih =>
    intro extra hcs hextra h
    have hcs' : x ∉ cs := fun hm => hcs (List.mem_cons_of_mem _ hm)
    rw [walk_cons, step]
    by_cases hc : c = [dot, dot]
    · rw [if_pos hc]
      obtain rfl | ⟨init, last, rfl⟩ := List.eq_nil_or_concat' extra
      · exact not_mem_walk cs _ hcs' (by simp)
      · rw [← List.cons_append, List.dropLast_concat]
        apply ih init hcs' fun hm => hextra (List.mem_append_left _ hm)
        simpa [descends, hc] using h
    · rw [if_neg hc, List.cons_append]
      apply ih (extra ++ [c]) hcs'
      · rw [List.mem_append, List.mem_singleton, not_or]
        exact ⟨hextra, fun hx => hcs (hx ▸ List.mem_cons_self)⟩
      · simpa [descends, hc] using h

/-- **Descending is exactly staying inside wherever one starts**: a path that
climbs leaves some directory it is appended to. -/
theorem descends_iff_forall_inside (hne : dot ≠ sep) (p : List α) :
    Descends sep dot p ↔
      ∀ a : List α, [dot, dot] ∉ comps sep dot (sep :: a) →
        Inside sep dot (sep :: a ++ [sep]) (sep :: a ++ sep :: p) := by
  constructor
  · intro h a _
    rw [inside_iff_walk]
    simpa using isPrefix_walk_of_descends (resolve sep dot (sep :: a)) (comps sep dot p) [] h
  · intro h
    by_contra hp
    -- a directory whose name is longer than every component of the path
    have hsep : sep ∉ List.replicate (p.length + 3) dot :=
      fun hm => hne (List.eq_of_mem_replicate hm).symm
    have hfresh : List.replicate (p.length + 3) dot ∉ comps sep dot p := by
      intro hmem
      have := length_le_of_mem_splitOn (List.mem_of_mem_filter hmem)
      rw [List.length_replicate] at this
      omega
    have hcomps : comps sep dot (sep :: List.replicate (p.length + 3) dot)
        = [List.replicate (p.length + 3) dot] := by
      rw [comps_cons_sep, comps_of_not_mem hsep, List.filter_cons_of_pos]
      · rfl
      · simp [List.replicate_succ]
    have hproper : [dot, dot] ∉ comps sep dot (sep :: List.replicate (p.length + 3) dot) := by
      rw [hcomps]
      simp [List.replicate_succ]
    have hin := h (List.replicate (p.length + 3) dot) hproper
    rw [inside_iff_walk, resolve_of_not_mem hproper, hcomps] at hin
    -- the climb removes that name for good, so the result cannot be below it
    refine not_mem_walk_of_climbs (comps sep dot p) [] hfresh (by simp) ?_
      (hin.subset (List.mem_singleton_self _))
    simpa [Descends] using hp

/-! ### Names with text around them -/

/-- Text in front of a path goes to its first piece. -/
theorem splitOn_append_left {pre : List α} (hpre : sep ∉ pre) (p : List α) :
    (pre ++ p).splitOn sep = (p.splitOn sep).modifyHead (pre ++ ·) := by
  induction pre with
  | nil =>
    obtain ⟨hd, tl, hsplit⟩ := List.exists_cons_of_ne_nil (List.splitOn_ne_nil sep p)
    simp [hsplit]
  | cons x pre ih =>
    have hx : (x == sep) = false := by
      simpa using fun h : x = sep => hpre (h ▸ List.mem_cons_self)
    obtain ⟨hd, tl, hsplit⟩ := List.exists_cons_of_ne_nil (List.splitOn_ne_nil sep p)
    rw [List.cons_append, List.splitOn_cons_eq_if_modifyHead, hx,
      ih fun h => hpre (List.mem_cons_of_mem _ h), hsplit]
    simp

/-- Text behind a path goes to its last piece. -/
theorem splitOn_append_right {suf : List α} (hsuf : sep ∉ suf) (p : List α) :
    (p ++ suf).splitOn sep
      = (p.splitOn sep).dropLast ++ [(p.splitOn sep).getLast (List.splitOn_ne_nil sep p) ++ suf] := by
  induction p with
  | nil => simp [List.splitOn_eq_singleton hsuf]
  | cons x p ih =>
    rw [List.cons_append, List.splitOn_cons_eq_if_modifyHead, ih]
    obtain ⟨hd, tl, hsplit⟩ := List.exists_cons_of_ne_nil (List.splitOn_ne_nil sep p)
    simp only [List.splitOn_cons_eq_if_modifyHead, hsplit]
    split
    · simp
    · cases tl with
      | nil => simp
      | cons t tl => simp

/-- All pieces of an initial part of a path but the last are pieces of the path. -/
theorem dropLast_splitOn_isPrefix : ∀ (q t : List α),
    (q.splitOn sep).dropLast <+: (q ++ t).splitOn sep := by
  intro q
  induction q with
  | nil => intro t; simp
  | cons x q ih =>
    intro t
    rw [List.cons_append, List.splitOn_cons_eq_if_modifyHead, List.splitOn_cons_eq_if_modifyHead]
    obtain ⟨hd, tl, hsplit⟩ := List.exists_cons_of_ne_nil (List.splitOn_ne_nil sep q)
    have htail := ih t
    rw [hsplit] at htail ⊢
    split
    · rw [List.dropLast_cons_of_ne_nil (by simp)]
      exact List.prefix_cons_inj _ |>.mpr htail
    · cases tl with
      | nil => simp
      | cons t' tl =>
        obtain ⟨hd', tl', hsplit'⟩ :=
          List.exists_cons_of_ne_nil (List.splitOn_ne_nil sep (q ++ t))
        rw [hsplit'] at htail ⊢
        rw [List.dropLast_cons_of_ne_nil (by simp), List.cons_prefix_cons] at htail
        rw [List.modifyHead_cons, List.modifyHead_cons, List.dropLast_cons_of_ne_nil (by simp),
          List.cons_prefix_cons, htail.1]
        exact ⟨rfl, htail.2⟩

/-- Cutting a path that descends short costs at most one level. -/
theorem Descends.descends_isPrefix {p q : List α} (hp : Descends sep dot p) (hq : q <+: p) :
    descends dot 1 (comps sep dot q) = true := by
  obtain ⟨t, rfl⟩ := hq
  obtain ⟨ds, hds⟩ : (q.splitOn sep).dropLast <+: (q ++ t).splitOn sep :=
    dropLast_splitOn_isPrefix q t
  unfold Descends comps at hp
  rw [← hds, List.filter_append] at hp
  have hinit := descends_of_append _ _ hp
  unfold comps
  rw [← List.dropLast_append_getLast (List.splitOn_ne_nil sep q), List.filter_append,
    List.filter_cons]
  split
  · exact descends_concat _ _ hinit
  · rw [List.filter_nil, List.append_nil]
    exact descends_mono _ (Nat.zero_le 1) hinit

/-- Text in front of a path that descends turns its first piece into a name. -/
theorem Descends.append_left {pre p : List α} (hp : Descends sep dot p) (hpre : sep ∉ pre)
    (hhead : ∃ x xs, pre = x :: xs ∧ x ≠ dot) : Descends sep dot (pre ++ p) := by
  obtain ⟨x, xs, rfl, hx⟩ := hhead
  obtain ⟨hd, tl, hsplit⟩ := List.exists_cons_of_ne_nil (List.splitOn_ne_nil sep p)
  unfold Descends comps at hp ⊢
  rw [splitOn_append_left hpre, hsplit, List.modifyHead_cons]
  rw [hsplit] at hp
  have hname : (x :: xs ++ hd) ≠ [dot, dot] := by
    intro h
    exact hx (by simpa using congrArg List.head? h)
  rw [List.filter_cons_of_pos (by simp [hx])]
  simp only [descends, hname, if_false]
  rw [List.filter_cons] at hp
  split at hp
  · by_cases hd' : hd = [dot, dot]
    · simp [descends, hd'] at hp
    · simpa only [descends, hd', if_false] using hp
  · exact descends_mono _ (Nat.zero_le 1) hp

/-- Text of some length behind a path that descends turns its last piece into a
name. -/
theorem Descends.append_right {p suf : List α} (hp : Descends sep dot p) (hsuf : sep ∉ suf)
    (hlen : 2 < suf.length) : Descends sep dot (p ++ suf) := by
  have hname : (p.splitOn sep).getLast (List.splitOn_ne_nil sep p) ++ suf ≠ [dot, dot] := by
    intro h
    have := congrArg List.length h
    simp at this
    omega
  unfold Descends comps at hp ⊢
  rw [splitOn_append_right hsuf, List.filter_append]
  rw [← List.dropLast_append_getLast (List.splitOn_ne_nil sep p), List.filter_append] at hp
  refine descends_append ?_ _ (descends_of_append _ _ hp)
  apply descends_of_not_mem
  intro hmem
  have := List.mem_of_mem_filter hmem
  rw [List.mem_singleton] at this
  exact hname this.symm

/-! ### Runs of separators -/

theorem endsSep_cons (b : Bool) (x : α) (p : List α) :
    endsSep sep b (x :: p) = endsSep sep (decide (x = sep)) p := by
  unfold endsSep
  rw [List.getLast?_cons]
  cases p.getLast? <;> rfl

theorem endsSep_false_iff {p : List α} : endsSep sep false p = true ↔ p.getLast? = some sep := by
  unfold endsSep
  cases p.getLast? <;> simp

theorem squeeze_append (b : Bool) (p q : List α) :
    squeeze sep b (p ++ q) = squeeze sep b p ++ squeeze sep (endsSep sep b p) q := by
  induction p generalizing b with
  | nil => rfl
  | cons x p ih =>
    rw [endsSep_cons]
    by_cases hx : x = sep
    · cases b <;> simp [squeeze, hx, ih]
    · simp [squeeze, hx, ih]

/-- A path keeps a separator at its end. -/
theorem endsSep_squeeze (b : Bool) (p : List α) :
    endsSep sep b (squeeze sep b p) = endsSep sep b p := by
  fun_induction squeeze sep b p with
  | case1 => rfl
  | case2 xs ih => rw [ih, endsSep_cons, decide_eq_true rfl]
  | case3 b xs hb ih => rw [endsSep_cons, endsSep_cons, decide_eq_true rfl, ih]
  | case4 b x xs hx ih => rw [endsSep_cons, endsSep_cons, decide_eq_false hx, ih]

theorem squeeze_sublist (b : Bool) (p : List α) : (squeeze sep b p).Sublist p := by
  fun_induction squeeze sep b p with
  | case1 => exact List.Sublist.refl _
  | case2 xs ih => exact ih.cons _
  | case3 b xs hb ih => exact ih.cons_cons _
  | case4 b x xs hx ih => exact ih.cons_cons _

/-- A path without separators is left as it is. -/
theorem squeeze_of_not_mem {p : List α} (b : Bool) (h : sep ∉ p) : squeeze sep b p = p := by
  induction p generalizing b with
  | nil => rfl
  | cons x p ih =>
    have hx : x ≠ sep := fun heq => h (heq ▸ List.mem_cons_self)
    rw [squeeze, if_neg hx, ih false fun hm => h (List.mem_cons_of_mem _ hm)]

theorem squeeze_squeeze (b : Bool) (p : List α) : squeeze sep b (squeeze sep b p) = squeeze sep b p := by
  fun_induction squeeze sep b p with
  | case1 => rfl
  | case2 xs ih => exact ih
  | case3 b xs hb ih => simp [squeeze, hb, ih]
  | case4 b x xs hx ih => simp [squeeze, hx, ih]

theorem squeeze_replicate (k : ℕ) (q : List α) :
    squeeze sep true (List.replicate k sep ++ q) = squeeze sep true q := by
  induction k with
  | zero => rfl
  | succ k ih => rw [List.replicate_succ, List.cons_append, squeeze, if_pos rfl, if_pos rfl, ih]

theorem squeeze_true_of_head {q : List α} (h : q.head? ≠ some sep) :
    squeeze sep true q = squeeze sep false q := by
  cases q with
  | nil => rfl
  | cons x q =>
    have hx : x ≠ sep := by simpa using h
    rw [squeeze, squeeze, if_neg hx, if_neg hx]

/-- **Cutting runs to one**: the first element of every run. -/
theorem squeeze_eq_runs : ∀ p : List α, squeeze sep false p = (runsOf sep p).flatMap (List.take 1) := by
  intro p
  induction hn : p.length using Nat.strong_induction_on generalizing p with
  | _ n ih =>
    subst hn
    cases p with
    | nil => rfl
    | cons x xs =>
      by_cases hx : x = sep
      · subst hx
        -- the run ends where `q` starts
        obtain ⟨k, q, hxs, hq⟩ : ∃ k q, xs = List.replicate k x ++ q ∧ q.head? ≠ some x := by
          refine ⟨(xs.takeWhile (· = x)).length, xs.dropWhile (· = x), ?_, ?_⟩
          · conv_lhs => rw [← List.takeWhile_append_dropWhile (p := (· = x)) (l := xs)]
            congr 1
            rw [List.eq_replicate_iff]
            exact ⟨rfl, fun b hb => by simpa using List.mem_takeWhile_imp hb⟩
          · have := List.head?_dropWhile_not (· = x) xs
            intro h
            rw [h] at this
            simp at this
        have hcut : runsOf x (List.replicate (k + 1) x ++ q) =
            List.replicate (k + 1) x :: runsOf x q := by
          unfold runsOf
          rw [List.splitBy_append, List.splitBy_of_isChain, List.singleton_append]
          · simp
          · exact List.isChain_replicate_of_rel _ (by simp)
          · intro a _ b hb
            have hbx : b ≠ x := fun h => hq (h ▸ hb)
            simp [hbx]
        have hlen : q.length < (x :: xs).length := by
          rw [hxs, List.length_cons, List.length_append]
          omega
        rw [squeeze, if_pos rfl, if_neg (by simp), hxs, squeeze_replicate, squeeze_true_of_head hq,
          ← List.cons_append, ← List.replicate_succ, hcut, List.flatMap_cons, ← ih _ hlen q rfl]
        rfl
      · have hcut : runsOf sep (x :: xs) = [x] :: runsOf sep xs := by
          unfold runsOf
          rw [← List.singleton_append, List.splitBy_append, List.splitBy_of_isChain] <;> simp [hx]
        rw [squeeze, if_neg hx, hcut, List.flatMap_cons, ← ih _ (by simp) xs rfl]
        rfl
/-- **Cutting runs of separators keeps the components.** -/
theorem comps_squeeze (b : Bool) (p : List α) : comps sep dot (squeeze sep b p) = comps sep dot p := by
  -- without a separator before it, also the first piece is the same
  have h : ∀ p : List α, (∃ hd tl tl', p.splitOn sep = hd :: tl ∧
      (squeeze sep false p).splitOn sep = hd :: tl' ∧
      (tl'.filter fun c => decide (c ≠ []) && decide (c ≠ [dot]))
        = tl.filter fun c => decide (c ≠ []) && decide (c ≠ [dot])) ∧
      comps sep dot (squeeze sep true p) = comps sep dot p := by
    intro p
    induction p with
    | nil => exact ⟨⟨[], [], [], by simp, by simp [squeeze], rfl⟩, rfl⟩
    | cons x p ih =>
      obtain ⟨⟨hd, tl, tl', hp, hq, heq⟩, htrue⟩ := ih
      by_cases hx : x = sep
      · subst hx
        refine ⟨⟨[], p.splitOn x, (squeeze x true p).splitOn x, ?_, ?_, htrue⟩, ?_⟩
        · rw [List.splitOn_cons_eq_if_modifyHead]
          simp
        · rw [squeeze, if_pos rfl, if_neg (by simp), List.splitOn_cons_eq_if_modifyHead]
          simp
        · rw [squeeze, if_pos rfl, if_pos rfl, htrue, comps_cons_sep]
      · have hne : (x == sep) = false := by simpa using hx
        have hp' : (x :: p).splitOn sep = (x :: hd) :: tl := by
          rw [List.splitOn_cons_eq_if_modifyHead, hp]
          simp [hx]
        have hq' : (x :: squeeze sep false p).splitOn sep = (x :: hd) :: tl' := by
          rw [List.splitOn_cons_eq_if_modifyHead, hq]
          simp [hx]
        refine ⟨⟨x :: hd, tl, tl', hp', ?_, heq⟩, ?_⟩
        · rw [squeeze, if_neg hx, hq']
        · rw [squeeze, if_neg hx, comps, comps, hp', hq', List.filter_cons, List.filter_cons, heq]
  cases b with
  | true => exact (h p).2
  | false =>
    obtain ⟨⟨hd, tl, tl', hp, hq, heq⟩, -⟩ := h p
    rw [comps, comps, hp, hq, List.filter_cons, List.filter_cons, heq]

end

end LexPath
