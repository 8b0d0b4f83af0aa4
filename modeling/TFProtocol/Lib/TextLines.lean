import TFProtocol.Lib.CStr

/-!
# Lines of a file, and the pieces they are read in

A line of a file ends in a newline; the last one may have none.  `fgets` with a buffer that
is too small reads a line in pieces, and only the last piece of it ends in the newline.

## Main definitions

* `terminated`, `unterminated` — the lines with a newline, and the rest of the file.
* `fileLines` — the lines of a file.
* `pieces` — a text cut into pieces of one length, the last of which may be shorter.
* `lineStart` — the offset of a line.

## Main results

* `lines_eq_pieces` — what repeated calls of `fgets` return, line by line.
* `mem_lines_newline` — the pieces with a newline are the ends of the terminated lines.
-/

namespace CStr

variable {α : Type*} [DecidableEq α]

/-- The lines of a file that end in a newline. -/
def terminated (nl : α) (file : List α) : List (List α) := (file.splitOn nl).dropLast

/-- What stands behind the last newline. -/
def unterminated (nl : α) (file : List α) : List α := (file.splitOn nl).getLastD []

/-- The lines of a file; the last one may have no newline. -/
def fileLines (nl : α) (file : List α) : List (List α) :=
  terminated nl file ++ if unterminated nl file = [] then [] else [unterminated nl file]

omit [DecidableEq α] in
/-- The pieces of `n` characters a text is cut into. -/
def pieces (n : ℕ) (l : List α) : List (List α) :=
  (List.range ((l.length + (n - 1)) / n)).map fun k => (l.drop (k * n)).take n

/-! ### Lines -/

section

variable {nl : α}

theorem splitOn_of_not_mem {l : List α} (h : nl ∉ l) : l.splitOn nl = [l] :=
  List.splitOn_eq_singleton h

theorem splitOn_line {l : List α} (h : nl ∉ l) (rest : List α) :
    (l ++ nl :: rest).splitOn nl = l :: rest.splitOn nl := by
  rw [List.splitOn_append_cons_self, splitOn_of_not_mem h, List.singleton_append]

theorem terminated_line {l : List α} (h : nl ∉ l) (rest : List α) :
    terminated nl (l ++ nl :: rest) = l :: terminated nl rest := by
  rw [terminated, splitOn_line h, List.dropLast_cons_of_ne_nil (List.splitOn_ne_nil nl rest)]
  rfl

theorem unterminated_line {l : List α} (h : nl ∉ l) (rest : List α) :
    unterminated nl (l ++ nl :: rest) = unterminated nl rest := by
  obtain ⟨x, xs, hx⟩ := List.exists_cons_of_ne_nil (List.splitOn_ne_nil nl rest)
  rw [unterminated, unterminated, splitOn_line h, hx]
  rfl

theorem terminated_of_not_mem {l : List α} (h : nl ∉ l) : terminated nl l = [] := by
  rw [terminated, splitOn_of_not_mem h]
  rfl

theorem unterminated_of_not_mem {l : List α} (h : nl ∉ l) : unterminated nl l = l := by
  rw [unterminated, splitOn_of_not_mem h]
  rfl

/-- A file is taken apart line by line. -/
theorem lines_induction (nl : α) {motive : List α → Prop} (last : ∀ l, nl ∉ l → motive l)
    (line : ∀ l rest, nl ∉ l → motive rest → motive (l ++ nl :: rest)) : ∀ file, motive file := by
  intro file
  induction hn : file.length using Nat.strong_induction_on generalizing file with
  | _ n ih =>
    by_cases hmem : nl ∈ file
    · obtain ⟨l, rest, rfl, hl⟩ := List.eq_append_cons_of_mem hmem
      refine line l rest hl (ih rest.length ?_ rest rfl)
      rw [← hn, List.length_append, List.length_cons]
      omega
    · exact last file hmem

omit [DecidableEq α] in
/-- A text without a newline does not reach over one. -/
theorem infix_append_newline {x : List α} (hx : nl ∉ x) (a b : List α) :
    x <:+: a ++ nl :: b ↔ x <:+: a ∨ x <:+: b := by
  constructor
  · intro h
    rcases List.infix_append_iff_ne_nil.mp h with h | h | ⟨l, r, hl, hr, rfl, -, hpre⟩
    · exact Or.inl h
    · rcases List.infix_cons_iff.mp h with h | h
      · cases x with
        | nil => exact Or.inr (List.nil_infix)
        | cons y x =>
          obtain ⟨rfl, -⟩ := List.cons_prefix_cons.mp h
          exact absurd List.mem_cons_self hx
      · exact Or.inr h
    · obtain ⟨y, r, rfl⟩ := List.exists_cons_of_ne_nil hr
      obtain ⟨rfl, -⟩ := List.cons_prefix_cons.mp hpre
      exact absurd (List.mem_append_right _ List.mem_cons_self) hx
  · rintro (h | h)
    · exact h.trans (List.prefix_append _ _).isInfix
    · exact h.trans ((List.suffix_cons _ _).trans (List.suffix_append _ _)).isInfix

/-- A text without a newline is in a file if it is in one of the lines. -/
theorem infix_iff_splitOn {x : List α} (hx : nl ∉ x) (file : List α) :
    x <:+: file ↔ ∃ l ∈ file.splitOn nl, x <:+: l := by
  induction file using lines_induction nl with
  | last last hlast => simp [splitOn_of_not_mem hlast]
  | line l rest hl ih =>
    rw [infix_append_newline hx, ih, splitOn_line hl]
    simp

theorem newline_not_mem_terminated {file l : List α} (h : l ∈ terminated nl file) : nl ∉ l := by
  induction file using lines_induction nl with
  | last last hlast =>
    rw [terminated_of_not_mem hlast] at h
    cases h
  | line l' rest hl' ih =>
    rw [terminated_line hl'] at h
    rcases List.mem_cons.mp h with rfl | h
    · exact hl'
    · exact ih h

theorem newline_not_mem_unterminated (nl : α) (file : List α) : nl ∉ unterminated nl file := by
  induction file using lines_induction nl with
  | last last hlast => rwa [unterminated_of_not_mem hlast]
  | line l rest hl ih => rwa [unterminated_line hl]

theorem mem_fileLines {file l : List α} :
    l ∈ fileLines nl file ↔ l ∈ terminated nl file ∨ l = unterminated nl file ∧ l ≠ [] := by
  rw [fileLines, List.mem_append]
  apply or_congr_right
  split
  next h => simp [h]
  next h =>
    rw [List.mem_singleton]
    constructor
    · rintro rfl
      exact ⟨rfl, h⟩
    · exact And.left

end

/-! ### Pieces -/

section

variable {n : ℕ}

omit [DecidableEq α]

theorem mem_pieces (hn : 0 < n) {l p : List α} :
    p ∈ pieces n l ↔ ∃ k, k * n < l.length ∧ p = (l.drop (k * n)).take n := by
  simp only [pieces, List.mem_map, List.mem_range]
  constructor
  · rintro ⟨k, hk, rfl⟩
    refine ⟨k, ?_, rfl⟩
    have := (Nat.lt_div_iff_mul_lt hn).mp hk
    omega
  · rintro ⟨k, hk, rfl⟩
    refine ⟨k, ?_, rfl⟩
    have hmul : (k + 1) * n ≤ l.length + (n - 1) := by
      rw [Nat.add_mul, Nat.one_mul]
      omega
    exact (Nat.le_div_iff_mul_le hn).mpr hmul

theorem pieces_nil (hn : 0 < n) : pieces n ([] : List α) = [] := by
  rw [pieces, List.length_nil, Nat.zero_add, Nat.div_eq_of_lt (by omega)]
  rfl

/-- A text that fits is one piece. -/
theorem pieces_short {l : List α} (hne : l ≠ []) (hl : l.length ≤ n) : pieces n l = [l] := by
  have hpos : 0 < l.length := List.length_pos_of_ne_nil hne
  have hone : (l.length + (n - 1)) / n = 1 := by
    rw [Nat.div_eq_iff (by omega)]
    omega
  rw [pieces, hone, List.range_one, List.map_singleton, Nat.zero_mul, List.drop_zero,
    List.take_of_length_le hl]

/-- The first piece, and the others. -/
theorem pieces_append {a : List α} (hn : 0 < n) (ha : a.length = n) (b : List α) :
    pieces n (a ++ b) = a :: pieces n b := by
  have hcount : ((a ++ b).length + (n - 1)) / n = (b.length + (n - 1)) / n + 1 := by
    rw [List.length_append, ha, Nat.add_assoc, Nat.add_div_left _ hn]
  rw [pieces, hcount, List.range_succ_eq_map, List.map_cons, Nat.zero_mul, List.drop_zero,
    List.take_append_of_le_length ha.ge, List.take_of_length_le ha.le, List.map_map, pieces]
  congr 1
  refine List.map_congr_left fun k _ => ?_
  rw [Function.comp_apply, Nat.succ_mul, Nat.add_comm, ← List.drop_drop, ← ha, List.drop_left]

end

/-! ### What `fgets` returns -/

section

variable {nl : α} {n : ℕ}

theorem chunks_terminated (hn : 0 < n) (rest : List α) : ∀ (l cur : List α), nl ∉ l →
    cur.length < n →
    chunks nl n cur (l ++ nl :: rest) = pieces n (cur ++ l ++ [nl]) ++ chunks nl n [] rest := by
  intro l
  induction l with
  | nil =>
    intro cur _ hcur
    rw [List.append_nil, pieces_short (by simp) (by simp; omega), List.nil_append, chunks,
      if_pos (Or.inl rfl)]
    rfl
  | cons x l ih =>
    intro cur hnl hcur
    have hl : nl ∉ l := fun h => hnl (List.mem_cons_of_mem _ h)
    have hx : x ≠ nl := by
      rintro rfl
      exact hnl List.mem_cons_self
    have hsplit : cur ++ x :: l ++ [nl] = cur ++ [x] ++ (l ++ [nl]) := by simp
    rw [List.cons_append, chunks]
    by_cases hfull : cur.length + 1 = n
    · have hlen : (cur ++ [x]).length = n := by simpa using hfull
      rw [if_pos (Or.inr hfull), ih [] hl hn, hsplit, pieces_append hn hlen]
      rfl
    · rw [if_neg (not_or.mpr ⟨hx, hfull⟩), ih (cur ++ [x]) hl (by simp; omega), hsplit,
        List.append_assoc (cur ++ [x])]

theorem chunks_unterminated (hn : 0 < n) : ∀ (l cur : List α), nl ∉ l → cur.length < n →
    chunks nl n cur l = pieces n (cur ++ l) := by
  intro l
  induction l with
  | nil =>
    intro cur _ hcur
    rw [List.append_nil, chunks]
    split
    next h => rw [h, pieces_nil hn]
    next h => exact (pieces_short h hcur.le).symm
  | cons x l ih =>
    intro cur hnl hcur
    have hl : nl ∉ l := fun h => hnl (List.mem_cons_of_mem _ h)
    have hx : x ≠ nl := by
      rintro rfl
      exact hnl List.mem_cons_self
    have hsplit : cur ++ x :: l = cur ++ [x] ++ l := by simp
    rw [chunks]
    by_cases hfull : cur.length + 1 = n
    · have hlen : (cur ++ [x]).length = n := by simpa using hfull
      rw [if_pos (Or.inr hfull), ih [] hl hn, hsplit, pieces_append hn hlen]
      rfl
    · rw [if_neg (not_or.mpr ⟨hx, hfull⟩), ih (cur ++ [x]) hl (by simp; omega), hsplit]

/-- **What repeated calls of `fgets` return**: every line in its pieces. -/
theorem lines_eq_pieces {size : ℕ} (hsize : 1 < size) (file : List α) :
    lines nl size file =
      (terminated nl file).flatMap (fun l => pieces (size - 1) (l ++ [nl])) ++
        pieces (size - 1) (unterminated nl file) := by
  have hn : 0 < size - 1 := by omega
  induction file using lines_induction nl with
  | last last hlast =>
    rw [terminated_of_not_mem hlast, unterminated_of_not_mem hlast]
    exact chunks_unterminated hn last [] hlast hn
  | line l rest hl ih =>
    rw [terminated_line hl, unterminated_line hl, List.flatMap_cons, List.append_assoc, ← ih]
    exact chunks_terminated hn rest l [] hl hn

/-- The end of a line: what is left of it behind its whole pieces. -/
def lineEnd (n : ℕ) (l : List α) : List α := l.drop (l.length / n * n)

omit [DecidableEq α] in
theorem length_lineEnd (hn : 0 < n) (l : List α) : (lineEnd n l).length < n := by
  have hdiv := Nat.div_add_mod' l.length n
  have hmod := Nat.mod_lt l.length hn
  rw [lineEnd, List.length_drop]
  omega

omit [DecidableEq α] in
theorem lineEnd_of_length_lt {l : List α} (h : l.length < n) : lineEnd n l = l := by
  rw [lineEnd, Nat.div_eq_of_lt h, Nat.zero_mul, List.drop_zero]

/-- **The pieces with a newline are the ends of the terminated lines.** -/
theorem mem_lines_newline {size : ℕ} (hsize : 1 < size) {file p : List α} :
    p ∈ lines nl size file ∧ nl ∈ p ↔
      ∃ l ∈ terminated nl file, p = lineEnd (size - 1) l ++ [nl] := by
  have hn : 0 < size - 1 := by omega
  rw [lines_eq_pieces hsize, List.mem_append, List.mem_flatMap]
  constructor
  · rintro ⟨⟨l, hl, hp⟩ | hp, hnl⟩
    · refine ⟨l, hl, ?_⟩
      obtain ⟨k, hk, rfl⟩ := (mem_pieces hn).mp hp
      rw [List.length_append, List.length_singleton] at hk
      have hfree : nl ∉ l := newline_not_mem_terminated hl
      have hdrop : (l ++ [nl]).drop (k * (size - 1)) = l.drop (k * (size - 1)) ++ [nl] :=
        List.drop_append_of_le_length (by omega)
      rw [hdrop] at hnl ⊢
      -- a piece without the end of the line has no newline
      have hshort : (l.drop (k * (size - 1))).length < size - 1 := by
        by_contra hlong
        rw [List.take_append_of_le_length (by omega)] at hnl
        exact hfree (List.mem_of_mem_drop (List.mem_of_mem_take hnl))
      have hq : l.length / (size - 1) = k := by
        rw [List.length_drop] at hshort
        rw [Nat.div_eq_iff hn]
        omega
      rw [lineEnd, hq, List.take_of_length_le]
      rw [List.length_append, List.length_singleton]
      omega
    · obtain ⟨k, -, rfl⟩ := (mem_pieces hn).mp hp
      exact absurd (List.mem_of_mem_drop (List.mem_of_mem_take hnl))
        (newline_not_mem_unterminated nl file)
  · rintro ⟨l, hl, rfl⟩
    refine ⟨Or.inl ⟨l, hl, (mem_pieces hn).mpr ⟨l.length / (size - 1), ?_, ?_⟩⟩, by simp⟩
    · have := Nat.div_mul_le_self l.length (size - 1)
      rw [List.length_append, List.length_singleton]
      omega
    · have hend := length_lineEnd hn l
      rw [List.drop_append_of_le_length (Nat.div_mul_le_self _ _), List.take_of_length_le]
      · rfl
      · rw [List.length_append, List.length_singleton]
        exact hend
end

/-! ### Where lines start -/

section

variable {nl : α} {ls : List (List α)}

omit [DecidableEq α] in
/-- The offset of a line in a file written line by line. -/
def lineStart (nl : α) (ls : List (List α)) (k : ℕ) : ℕ := (unlines nl (ls.take k)).length

omit [DecidableEq α] in
@[simp] theorem lineStart_zero : lineStart nl ls 0 = 0 := rfl

omit [DecidableEq α] in
@[simp] theorem lineStart_length : lineStart nl ls ls.length = (unlines nl ls).length := by
  rw [lineStart, List.take_length]

omit [DecidableEq α] in
theorem unlines_append (as bs : List (List α)) :
    unlines nl (as ++ bs) = unlines nl as ++ unlines nl bs := List.flatMap_append

omit [DecidableEq α] in
/-- What stands behind the offset of a line. -/
theorem drop_lineStart (k : ℕ) :
    (unlines nl ls).drop (lineStart nl ls k) = unlines nl (ls.drop k) := by
  conv_lhs => rw [← List.take_append_drop k ls, unlines_append]
  rw [lineStart, List.take_append_drop, List.drop_left]

omit [DecidableEq α] in
theorem lineStart_succ {k : ℕ} {l : List α} (h : ls[k]? = some l) :
    lineStart nl ls (k + 1) = lineStart nl ls k + (l ++ [nl]).length := by
  rw [lineStart, List.take_add_one, h, unlines_append, List.length_append, lineStart]
  simp [unlines]

omit [DecidableEq α] in
/-- In front of the start of a line, other than the first, is a newline. -/
theorem getElem?_lineStart {k : ℕ} {l : List α} (h : ls[k]? = some l) :
    (unlines nl ls)[lineStart nl ls (k + 1) - 1]? = some nl := by
  have hsplit : ls = ls.take k ++ l :: ls.drop (k + 1) := by
    obtain ⟨hk, rfl⟩ := List.getElem?_eq_some_iff.mp h
    rw [← List.drop_eq_getElem_cons hk, List.take_append_drop]
  have hfile : unlines nl ls =
      (unlines nl (ls.take k) ++ l) ++ nl :: unlines nl (ls.drop (k + 1)) := by
    conv_lhs => rw [hsplit, unlines_append]
    simp [unlines]
  rw [lineStart_succ h, hfile, lineStart, List.getElem?_append_right (by simp)]
  simp

omit [DecidableEq α] in
theorem lineStart_lt {k : ℕ} (h : k < ls.length) : lineStart nl ls k < (unlines nl ls).length := by
  have hpos : 0 < (unlines nl (ls.drop k)).length := by
    rw [List.drop_eq_getElem_cons h, unlines, List.flatMap_cons]
    simp only [List.length_append, List.length_singleton]
    omega
  rw [← drop_lineStart, List.length_drop] at hpos
  omega

omit [DecidableEq α] in
/-- **A line starts behind every newline**, or the file ends there. -/
theorem exists_lineStart : ∀ {ls : List (List α)}, (∀ l ∈ ls, nl ∉ l) → ∀ {p : ℕ},
    (unlines nl ls)[p]? = some nl → ∃ k ≤ ls.length, p + 1 = lineStart nl ls k := by
  intro ls
  induction ls with
  | nil => intro _ p h; cases h
  | cons l ls ih =>
    intro hls p h
    have hfile : unlines nl (l :: ls) = l ++ nl :: unlines nl ls := by simp [unlines]
    have hstart : ∀ k, lineStart nl (l :: ls) (k + 1) = l.length + 1 + lineStart nl ls k := by
      intro k
      simp [lineStart, unlines, Nat.add_assoc, Nat.add_comm]
    rw [hfile] at h
    rcases Nat.lt_trichotomy p l.length with hp | rfl | hp
    · -- no newline inside of the line
      rw [List.getElem?_append_left hp] at h
      exact absurd (List.mem_of_getElem? h) (hls l List.mem_cons_self)
    · exact ⟨1, by simp, by rw [hstart 0, lineStart_zero]⟩
    · obtain ⟨q, rfl⟩ := Nat.exists_eq_add_of_lt hp
      rw [List.getElem?_append_right (by omega),
        show l.length + q + 1 - l.length = q + 1 by omega, List.getElem?_cons_succ] at h
      obtain ⟨k, hk, hq⟩ := ih (fun l hl => hls l (List.mem_cons_of_mem _ hl)) h
      exact ⟨k + 1, by simpa using hk, by rw [hstart k]; omega⟩

end

end CStr
