import Mathlib.Data.List.TakeWhile
import TFProtocol.Lib.Bytes

/-!
# C strings and text files

A C string is the list of its bytes without the terminator; the memory it lies in
may go on behind it.  The functions of `string.h` and `stdio.h` are given with what
a caller does with their result: a search returns the text before the match and
the text behind it.

## Main definitions

* `cstr`, `overlay` — the string in a piece of memory, and memory after a store.
* `strchr`, `strstr` — the first occurrence of a character and of a string.
* `lines` — what repeated calls of `fgets` return.
* `atoi`, `strtoull`, `udec` — the number at the start of a string, and a number as a string.

## Main results

* `strchr_eq_some_iff`, `eq_of_strstr` — what a search finds.
* `lines_unlines` — a file written line by line is read line by line.
* `atoi_digits`, `strtoull_udec` — reading back a number.
-/

namespace CStr

/-! ### Memory -/

/-- Memory after `stored` was written at its start. -/
def overlay (mem stored : List Byte) : List Byte := stored ++ mem.drop stored.length

/-- A C string in memory: the bytes before the first NUL. -/
def cstr (mem : List Byte) : List Byte := mem.takeWhile (· ≠ 0)

theorem overlay_of_length_eq {mem stored : List Byte} (h : stored.length = mem.length) :
    overlay mem stored = stored := by
  rw [overlay, h, List.drop_length, List.append_nil]

theorem cstr_of_not_mem {bs : List Byte} (h : 0 ∉ bs) (rest : List Byte) :
    cstr (bs ++ 0 :: rest) = bs := by
  unfold cstr
  rw [List.takeWhile_append_of_pos]
  · simp
  · intro b hb
    simpa using fun h0 : b = 0 => h (h0 ▸ hb)

theorem zero_not_mem_cstr (mem : List Byte) : 0 ∉ cstr mem := by
  intro h
  simpa using List.mem_takeWhile_imp h

/-- A string without a NUL is all of its memory. -/
theorem cstr_eq_self {bs : List Byte} (h : 0 ∉ bs) : cstr bs = bs := by
  unfold cstr
  rw [List.takeWhile_eq_self_iff]
  intro b hb
  simpa using fun h0 : b = 0 => h (h0 ▸ hb)

/-- A string ends at the latest where its memory holds a NUL or ends. -/
theorem length_cstr_le {mem : List Byte} {i : ℕ} (h : ∀ b, mem[i]? = some b → b = 0) :
    (cstr mem).length ≤ i := by
  by_contra hlt
  have hi : i < (cstr mem).length := by omega
  have hget : mem[i]? = (cstr mem)[i]? := by
    obtain ⟨t, ht⟩ := List.takeWhile_prefix (l := mem) (p := (· ≠ 0))
    conv_lhs => rw [← ht]
    exact List.getElem?_append_left hi
  rw [List.getElem?_eq_getElem hi] at hget
  exact zero_not_mem_cstr mem (h _ hget ▸ List.getElem_mem hi)

/-- A string ends in the first part of its memory exactly when there is a NUL in it. -/
theorem cstr_append_of_lt {bs rest : List Byte} :
    (cstr (bs ++ rest)).length < bs.length ↔ 0 ∈ bs := by
  constructor
  · intro h
    by_contra hno
    have hall : ∀ b ∈ bs, decide (b ≠ 0) = true := by
      intro b hb
      simpa using fun h0 : b = 0 => hno (h0 ▸ hb)
    rw [cstr, List.takeWhile_append_of_pos hall, List.length_append] at h
    omega
  · intro h
    obtain ⟨a, b, rfl, ha⟩ := List.eq_append_cons_of_mem h
    rw [List.append_assoc, List.cons_append, cstr_of_not_mem ha, List.length_append,
      List.length_cons]
    omega

theorem cstr_append_of_mem {bs : List Byte} (h : 0 ∈ bs) (rest : List Byte) :
    cstr (bs ++ rest) = cstr bs := by
  obtain ⟨a, b, rfl, ha⟩ := List.eq_append_cons_of_mem h
  rw [List.append_assoc, List.cons_append, cstr_of_not_mem ha, cstr_of_not_mem ha]

/-! ### Searching -/

section Search

variable {α : Type*} [DecidableEq α]

/-- The text before the first occurrence of `c` and the text behind it. -/
def strchr (c : α) : List α → Option (List α × List α)
  | [] => none
  | x :: xs => if x = c then some ([], xs) else (strchr c xs).map fun r => (x :: r.1, r.2)

theorem strchr_eq_some_iff {c : α} : ∀ {s a b : List α},
    strchr c s = some (a, b) ↔ s = a ++ c :: b ∧ c ∉ a := by
  intro s
  induction s with
  | nil => intro a b; simp [strchr]
  | cons x xs ih =>
    intro a b
    by_cases hx : x = c
    · subst hx
      cases a with
      | nil => simp [strchr]
      | cons y a =>
        constructor
        · intro h
          simp [strchr] at h
        · rintro ⟨heq, hmem⟩
          simp only [List.cons_append, List.cons.injEq] at heq
          exact absurd (heq.1 ▸ List.mem_cons_self) hmem
    · simp only [strchr, hx, if_false, Option.map_eq_some_iff, Prod.exists, Prod.mk.injEq]
      constructor
      · rintro ⟨a', b', h, rfl, rfl⟩
        obtain ⟨rfl, hmem⟩ := ih.mp h
        refine ⟨rfl, ?_⟩
        rintro (_ | ⟨_, hm⟩)
        · exact hx rfl
        · exact hmem hm
      · rintro ⟨heq, hmem⟩
        cases a with
        | nil => simp at heq; exact absurd heq.1 hx
        | cons y a =>
          simp only [List.cons_append, List.cons.injEq] at heq
          obtain ⟨rfl, rfl⟩ := heq
          exact ⟨a, b, ih.mpr ⟨rfl, fun hm => hmem (List.mem_cons_of_mem _ hm)⟩, rfl, rfl⟩

/-- A string is found at the first occurrence of a character it starts with. -/
theorem strchr_append {c : α} {a : List α} (h : c ∉ a) (b : List α) :
    strchr c (a ++ c :: b) = some (a, b) := strchr_eq_some_iff.mpr ⟨rfl, h⟩

/-- The text before the first occurrence of a string and the text behind it. -/
def strstr (needle : List α) : List α → Option (List α × List α)
  | [] => if needle = [] then some ([], []) else none
  | x :: xs =>
    if needle <+: x :: xs then some ([], (x :: xs).drop needle.length)
    else (strstr needle xs).map fun r => (x :: r.1, r.2)

/-- What a successful search returns. -/
theorem eq_of_strstr {needle : List α} : ∀ {s a b : List α},
    strstr needle s = some (a, b) → s = a ++ needle ++ b := by
  intro s
  induction s with
  | nil =>
    intro a b h
    by_cases hn : needle = []
    · simp only [strstr, hn, if_true, Option.some.injEq, Prod.mk.injEq] at h
      simp [← h.1, ← h.2, hn]
    · simp [strstr, hn] at h
  | cons x xs ih =>
    intro a b h
    by_cases hp : needle <+: x :: xs
    · simp only [strstr, hp, if_true, Option.some.injEq, Prod.mk.injEq] at h
      obtain ⟨t, ht⟩ := hp
      rw [← h.1, ← h.2, ← ht]
      simp
    · simp only [strstr, hp, if_false, Option.map_eq_some_iff, Prod.exists, Prod.mk.injEq] at h
      obtain ⟨a', b', h', rfl, rfl⟩ := h
      rw [ih h']
      simp

/-- A search succeeds exactly if the string occurs. -/
theorem strstr_isSome_iff {needle : List α} : ∀ {s : List α},
    (strstr needle s).isSome = true ↔ needle <:+: s := by
  intro s
  induction s with
  | nil =>
    rw [List.infix_nil]
    by_cases hn : needle = [] <;> simp [strstr, hn]
  | cons x xs ih =>
    rw [List.infix_cons_iff, ← ih]
    by_cases hp : needle <+: x :: xs <;> simp [strstr, hp]

theorem strstr_append_self (needle b : List α) : strstr needle (needle ++ b) = some ([], b) := by
  cases h : needle ++ b with
  | nil =>
    obtain ⟨rfl, rfl⟩ := List.append_eq_nil_iff.mp h
    rfl
  | cons x xs =>
    have hp : needle <+: x :: xs := ⟨b, h⟩
    have hdrop : (x :: xs).drop needle.length = b := by rw [← h, List.drop_left]
    rw [strstr, if_pos hp, hdrop]

omit [DecidableEq α] in
/-- A string without `sep` that starts a text with `sep` in it lies before `sep`. -/
theorem isPrefix_of_not_mem {needle a b : List α} {sep : α} (hsep : sep ∉ needle)
    (h : needle <+: a ++ sep :: b) : needle <+: a := by
  obtain hle | hlt := Nat.lt_or_ge a.length needle.length
  · have hpre : a ++ [sep] <+: needle :=
      List.prefix_of_prefix_length_le ⟨b, by simp⟩ h (by simp; omega)
    exact absurd (hpre.subset (by simp)) hsep
  · exact List.prefix_of_prefix_length_le h (List.prefix_append _ _) hlt

/-- A string without `sep` is found right behind a `sep`, if it does not occur
before. -/
theorem strstr_append_sep {needle : List α} {sep : α} (hne : needle ≠ []) (hsep : sep ∉ needle)
    (b : List α) : ∀ (a : List α), ¬ needle <:+: a →
      strstr needle (a ++ sep :: (needle ++ b)) = some (a ++ [sep], b) := by
  intro a
  induction a with
  | nil =>
    intro _
    have hp : ¬ needle <+: sep :: (needle ++ b) := by
      intro hp
      exact hne (List.prefix_nil.mp (isPrefix_of_not_mem (a := []) hsep hp))
    rw [List.nil_append, strstr, if_neg hp, strstr_append_self]
    rfl
  | cons x a ih =>
    intro ha
    have hp : ¬ needle <+: x :: a ++ sep :: (needle ++ b) := by
      intro hp
      exact ha (isPrefix_of_not_mem hsep hp).isInfix
    rw [List.cons_append] at hp ⊢
    rw [strstr, if_neg hp, ih fun h => ha (h.trans (List.suffix_cons x a).isInfix)]
    rfl

end Search

/-! ### Reading lines -/

section Lines

variable {α : Type*} [DecidableEq α]

/-- Chunks of a file, the current one so far in front: a chunk ends behind a
newline, or when it holds `n` characters. -/
def chunks (nl : α) (n : ℕ) : List α → List α → List (List α)
  | cur, [] => if cur = [] then [] else [cur]
  | cur, x :: xs =>
    if x = nl ∨ cur.length + 1 = n then (cur ++ [x]) :: chunks nl n [] xs
    else chunks nl n (cur ++ [x]) xs

/-- Only an empty file has no chunks. -/
theorem chunks_eq_nil {nl : α} {n : ℕ} : ∀ {file : List α}, chunks nl n [] file = [] → file = [] := by
  have hcur : ∀ (file cur : List α), cur ≠ [] → chunks nl n cur file ≠ [] := by
    intro file
    induction file with
    | nil => intro cur hcur; simp [chunks, hcur]
    | cons x xs ih =>
      intro cur _
      rw [chunks]
      split
      · simp
      · exact ih _ (by simp)
  intro file h
  cases file with
  | nil => rfl
  | cons x xs =>
    rw [chunks] at h
    split at h
    · cases h
    · exact absurd h (hcur xs _ (by simp))

/-- What repeated calls of `fgets` with a buffer of `size` characters return. -/
def lines (nl : α) (size : ℕ) (file : List α) : List (List α) := chunks nl (size - 1) [] file

/-- No line is longer than the buffer it is read into. -/
theorem length_lt_of_mem_lines {nl : α} {size : ℕ} (hsize : 1 < size) {file l : List α}
    (h : l ∈ lines nl size file) : l.length < size := by
  have hchunks : ∀ (file cur : List α), cur.length < size - 1 →
      ∀ l ∈ chunks nl (size - 1) cur file, l.length ≤ size - 1 := by
    intro file
    induction file with
    | nil =>
      intro cur hcur l hl
      rw [chunks] at hl
      split at hl
      · cases hl
      · rw [List.mem_singleton.mp hl]
        exact Nat.le_of_lt hcur
    | cons x file ih =>
      intro cur hcur l hl
      rw [chunks] at hl
      split at hl
      · rcases List.mem_cons.mp hl with rfl | hl
        · rw [List.length_append, List.length_singleton]
          omega
        · exact ih [] (by rw [List.length_nil]; omega) l hl
      next hx =>
        rw [not_or] at hx
        apply ih (cur ++ [x]) _ l hl
        rw [List.length_append, List.length_singleton]
        omega
  have := hchunks file [] (by rw [List.length_nil]; omega) l h
  omega

/-- A file written line by line. -/
def unlines (nl : α) (ls : List (List α)) : List α := ls.flatMap fun l => l ++ [nl]

theorem chunks_line {nl : α} {n : ℕ} (rest : List α) : ∀ (l cur : List α), nl ∉ l →
    cur.length + l.length < n →
    chunks nl n cur (l ++ nl :: rest) = (cur ++ l ++ [nl]) :: chunks nl n [] rest := by
  intro l
  induction l with
  | nil => intro cur _ _; simp [chunks]
  | cons x l ih =>
    intro cur hnl hlen
    rw [List.length_cons] at hlen
    have hx : ¬ (x = nl ∨ cur.length + 1 = n) := by
      rintro (rfl | h)
      · exact hnl List.mem_cons_self
      · omega
    rw [List.cons_append, chunks, if_neg hx,
      ih (cur ++ [x]) (fun h => hnl (List.mem_cons_of_mem _ h)) (by simp; omega)]
    simp

/-- **A file written line by line is read line by line**, if the lines fit the
buffer. -/
theorem lines_unlines {nl : α} {size : ℕ} : ∀ {ls : List (List α)},
    (∀ l ∈ ls, nl ∉ l ∧ l.length + 1 < size) →
    lines nl size (unlines nl ls) = ls.map fun l => l ++ [nl] := by
  intro ls
  induction ls with
  | nil => intro _; rfl
  | cons l ls ih =>
    intro h
    obtain ⟨hnl, hlen⟩ := h l List.mem_cons_self
    have htail := ih fun l hl => h l (List.mem_cons_of_mem _ hl)
    unfold lines unlines at htail ⊢
    rw [List.flatMap_cons, List.append_assoc, List.singleton_append,
      chunks_line _ l [] hnl (by simp; omega), htail]
    simp

end Lines

/-! ### Numbers -/

/-- `isspace` in the C locale. -/
def isSpace (b : Byte) : Bool := b = 32 || (9 ≤ b.toNat && b.toNat ≤ 13)

/-- `isdigit`. -/
def isDigit (b : Byte) : Bool := 48 ≤ b.toNat && b.toNat ≤ 57

/-- The value of a string of digits. -/
def digitsVal (ds : List Byte) : ℕ := ds.foldl (fun n d => 10 * n + (d.toNat - 48)) 0

/-- `strtol` in base ten, with its clamping to 64 bits. -/
def strtol (s : List Byte) : ℤ :=
  let s := s.dropWhile isSpace
  let neg := s.head? = some 45
  let s := if s.head? = some 45 ∨ s.head? = some 43 then s.tail else s
  let n : ℤ := digitsVal (s.takeWhile isDigit)
  if neg then max (-2 ^ 63) (-n) else min (2 ^ 63 - 1) n

/-- `atoi`: the result of `strtol` converted to an `int`. -/
def atoi (s : List Byte) : ℤ := Bytes.cint (strtol s)

theorem isDigit_not_isSpace {b : Byte} (h : isDigit b = true) : isSpace b = false := by
  simp only [isDigit, Bool.and_eq_true, decide_eq_true_eq] at h
  have hne : b ≠ 32 := by
    rintro rfl
    revert h
    decide
  simp only [isSpace, hne, decide_false, Bool.false_or, Bool.and_eq_false_iff,
    decide_eq_false_iff_not]
  omega

/-- **A decimal number**, whatever follows it, is clamped. -/
theorem strtol_digits {ds rest : List Byte} (hne : ds ≠ []) (hds : ∀ d ∈ ds, isDigit d = true)
    (hrest : ∀ b, rest.head? = some b → isDigit b = false) :
    strtol (ds ++ rest) = min (2 ^ 63 - 1) (digitsVal ds : ℤ) := by
  obtain ⟨d, ds', rfl⟩ := List.exists_cons_of_ne_nil hne
  have hd : isDigit d = true := hds d List.mem_cons_self
  have hspace : (d :: ds' ++ rest).dropWhile isSpace = d :: ds' ++ rest := by
    simp [isDigit_not_isSpace hd]
  have hsign : d ≠ 45 ∧ d ≠ 43 := by
    constructor <;> rintro rfl <;> exact absurd hd (by decide)
  have htake : (d :: ds' ++ rest).takeWhile isDigit = d :: ds' := by
    rw [List.takeWhile_append_of_pos hds]
    cases rest with
    | nil => simp
    | cons b rest => simp [hrest b rfl]
  rw [List.cons_append] at hspace htake ⊢
  have hneg : ¬ (some d = some (45 : Byte)) := by simpa using hsign.1
  have hpos : ¬ (some d = some (43 : Byte)) := by simpa using hsign.2
  simp only [strtol, hspace, List.head?_cons, hneg, hpos, or_self, if_false, htake]

/-- **Reading back a decimal number**, whatever follows it. -/
theorem atoi_digits {ds rest : List Byte} (hne : ds ≠ []) (hds : ∀ d ∈ ds, isDigit d = true)
    (hval : digitsVal ds < 2 ^ 31) (hrest : ∀ b, rest.head? = some b → isDigit b = false) :
    atoi (ds ++ rest) = digitsVal ds := by
  have hlt : (digitsVal ds : ℤ) < 2 ^ 31 := by exact_mod_cast hval
  rw [atoi, strtol_digits hne hds hrest, min_eq_right (by omega)]
  exact Bytes.cint_of_lt hval

/-- `sprintf` of an unsigned number with `%u`. -/
def udec (n : ℕ) : List Byte := (Nat.toDigits 10 n).map Bytes.ofChar

theorem toNat_ofChar_of_isDigit {c : Char} (h : c.isDigit = true) :
    (Bytes.ofChar c).toNat = c.toNat ∧ 48 ≤ c.toNat ∧ c.toNat ≤ 57 := by
  simp only [Char.isDigit, Bool.and_eq_true, decide_eq_true_eq, UInt32.le_iff_toNat_le] at h
  have hmin : 48 ≤ c.toNat := h.1
  have hmax : c.toNat ≤ 57 := h.2
  refine ⟨?_, hmin, hmax⟩
  rw [Bytes.ofChar, BitVec.toNat_ofNat, Nat.mod_eq_of_lt (by omega)]

theorem isDigit_of_mem_udec {n : ℕ} {b : Byte} (h : b ∈ udec n) : isDigit b = true := by
  obtain ⟨c, hc, rfl⟩ := List.mem_map.mp h
  obtain ⟨hb, hmin, hmax⟩ :=
    toNat_ofChar_of_isDigit (Nat.isDigit_of_mem_toDigits (by decide) (by decide) hc)
  simp [isDigit, hb, hmin, hmax]

/-- The digits of a number have its value. -/
theorem digitsVal_udec (n : ℕ) : digitsVal (udec n) = n := by
  have h : ∀ (l : List Char) (v : ℕ), (∀ c ∈ l, c.isDigit = true) →
      (l.map Bytes.ofChar).foldl (fun n d => 10 * n + (d.toNat - 48)) v = Nat.ofDigitChars 10 l v := by
    intro l
    induction l with
    | nil => intro v _; rfl
    | cons c l ih =>
      intro v hl
      rw [List.map_cons, List.foldl_cons, ih _ fun d hd => hl d (List.mem_cons_of_mem _ hd),
        (toNat_ofChar_of_isDigit (hl c List.mem_cons_self)).1]
      rfl
  rw [digitsVal, udec, h _ _ fun c hc => Nat.isDigit_of_mem_toDigits (by decide) (by decide) hc,
    Nat.ofDigitChars_ten_toDigits]

/-- Different numbers are written differently. -/
theorem udec_injective : Function.Injective udec :=
  Function.LeftInverse.injective digitsVal_udec

theorem udec_ne_nil (n : ℕ) : udec n ≠ [] := by
  intro h
  exact Nat.toDigits_ne_nil (List.map_eq_nil_iff.mp h)

/-- `strtoull` in base ten: the number is clamped, and a minus sign negates it modulo
`2 ^ 64`. -/
def strtoull (s : List Byte) : ℕ :=
  let s := s.dropWhile isSpace
  let neg := s.head? = some 45
  let s := if s.head? = some 45 ∨ s.head? = some 43 then s.tail else s
  let n := digitsVal (s.takeWhile isDigit)
  if 2 ^ 64 ≤ n then 2 ^ 64 - 1 else if neg then (2 ^ 64 - n) % 2 ^ 64 else n

/-- **Reading back a number**, whatever follows it. -/
theorem strtoull_udec {n : ℕ} (hn : n < 2 ^ 64) {rest : List Byte}
    (hrest : ∀ b, rest.head? = some b → isDigit b = false) : strtoull (udec n ++ rest) = n := by
  obtain ⟨d, ds, hcons⟩ := List.exists_cons_of_ne_nil (udec_ne_nil n)
  have hds : ∀ b ∈ d :: ds, isDigit b = true := fun b hb => isDigit_of_mem_udec (hcons ▸ hb)
  have hd : isDigit d = true := hds d List.mem_cons_self
  have hspace : (d :: ds ++ rest).dropWhile isSpace = d :: ds ++ rest := by
    simp [isDigit_not_isSpace hd]
  have hsign : d ≠ 45 ∧ d ≠ 43 := by
    constructor <;> rintro rfl <;> exact absurd hd (by decide)
  have htake : (d :: ds ++ rest).takeWhile isDigit = d :: ds := by
    rw [List.takeWhile_append_of_pos hds]
    cases rest with
    | nil => simp
    | cons b rest => simp [hrest b rfl]
  have hval : digitsVal (d :: ds) = n := hcons ▸ digitsVal_udec n
  rw [List.cons_append] at hspace htake
  have hneg : ¬ (some d = some (45 : Byte)) := by simpa using hsign.1
  have hpos : ¬ (some d = some (43 : Byte)) := by simpa using hsign.2
  rw [hcons, List.cons_append]
  simp only [strtoull, hspace, List.head?_cons, hneg, hpos, or_self, if_false, htake, hval]
  rw [if_neg (by omega)]

end CStr
