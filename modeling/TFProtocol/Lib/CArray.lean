import TFProtocol.Lib.CStr

/-!
# Arrays in memory

An array of a C program is some bytes of memory, and the memory goes on behind them.  A
store at an index that is too large goes through, and changes what lies there; the array
keeps whether all stores so far were its own.

## Main definitions

* `CArray`, `put`, `puts` — an array, one store, and the stores of a copy.
* `str`, `strcpy`, `strcat` — the string in an array, and the functions of `string.h`.

## Main results

* `inside_puts`, `mem_puts` — where the stores of a copy go, and what they leave.
* `str_strcpy`, `str_strcat` — the string after a copy that memory has room for.
-/

/-- An array: its size, the memory from its first byte on, and whether every store was
inside. -/
structure CArray where
  size : ℕ
  mem : List Byte
  inside : Bool
  deriving DecidableEq, Repr

namespace CArray

open CStr

/-- `a[i] = b`. -/
def put (a : CArray) (i : ℕ) (b : Byte) : CArray :=
  { a with mem := a.mem.set i b, inside := a.inside && decide (i < a.size) }

/-- Bytes are stored one after the other, from an index on. -/
def puts (a : CArray) (i : ℕ) : List Byte → CArray
  | [] => a
  | b :: bs => (a.put i b).puts (i + 1) bs

/-- A store before the first byte of the array. -/
def stray (a : CArray) : CArray := { a with inside := false }

/-- The string in the array. -/
def str (a : CArray) : List Byte := cstr a.mem

/-- `strcpy(a, s)`. -/
def strcpy (a : CArray) (s : List Byte) : CArray := a.puts 0 (s ++ [0])

/-- `strcat(a, s)`. -/
def strcat (a : CArray) (s : List Byte) : CArray := a.puts a.str.length (s ++ [0])

/-! ### Stores -/

@[simp] theorem size_put (a : CArray) (i : ℕ) (b : Byte) : (a.put i b).size = a.size := rfl

@[simp] theorem length_mem_put (a : CArray) (i : ℕ) (b : Byte) :
    (a.put i b).mem.length = a.mem.length := List.length_set

@[simp] theorem size_puts : ∀ (bs : List Byte) (a : CArray) (i : ℕ), (a.puts i bs).size = a.size := by
  intro bs
  induction bs with
  | nil => intro a i; rfl
  | cons b bs ih => intro a i; exact ih _ _

@[simp] theorem length_mem_puts : ∀ (bs : List Byte) (a : CArray) (i : ℕ),
    (a.puts i bs).mem.length = a.mem.length := by
  intro bs
  induction bs with
  | nil => intro a i; rfl
  | cons b bs ih =>
    intro a i
    rw [puts, ih, length_mem_put]

theorem puts_append : ∀ (bs cs : List Byte) (a : CArray) (i : ℕ),
    a.puts i (bs ++ cs) = (a.puts i bs).puts (i + bs.length) cs := by
  intro bs
  induction bs with
  | nil => intro cs a i; rfl
  | cons b bs ih =>
    intro cs a i
    rw [List.cons_append, puts, ih, puts, List.length_cons, Nat.add_assoc, Nat.add_comm 1]

theorem put_put (a : CArray) (i : ℕ) (b c : Byte) : (a.put i b).put i c = a.put i c := by
  simp only [put, List.set_set, Bool.and_assoc]
  congr 2
  exact Bool.and_self _

/-- A copy that starts over the last byte of the one before. -/
theorem puts_puts (a : CArray) (i : ℕ) (bs cs : List Byte) (b c : Byte) :
    (a.puts i (bs ++ [b])).puts (i + bs.length) (c :: cs) = a.puts i (bs ++ c :: cs) := by
  rw [puts_append, puts_append, puts, puts, puts, puts, put_put]

/-- **Where the stores of a copy go.** -/
theorem inside_puts : ∀ (bs : List Byte) (a : CArray) (i : ℕ),
    (a.puts i bs).inside = true ↔ a.inside = true ∧ (bs ≠ [] → i + bs.length ≤ a.size) := by
  intro bs
  induction bs with
  | nil => intro a i; simp [puts]
  | cons b bs ih =>
    intro a i
    have hput : (a.put i b).inside = true ↔ a.inside = true ∧ i < a.size := by simp [put]
    rw [puts, ih, hput, size_put, List.length_cons, and_assoc]
    refine and_congr_right fun _ => ?_
    constructor
    · rintro ⟨hlt, hle⟩ -
      rcases bs with _ | ⟨c, bs⟩
      · rw [List.length_nil]
        omega
      · have := hle (List.cons_ne_nil _ _)
        omega
    · intro h
      have := h (List.cons_ne_nil _ _)
      exact ⟨by omega, fun _ => by omega⟩

/-- **What the stores of a copy leave.** -/
theorem mem_puts : ∀ (bs : List Byte) (a : CArray) (i : ℕ), i + bs.length ≤ a.mem.length →
    (a.puts i bs).mem = a.mem.take i ++ bs ++ a.mem.drop (i + bs.length) := by
  intro bs
  induction bs with
  | nil => intro a i _; simp [puts]
  | cons b bs ih =>
    intro a i hlen
    rw [List.length_cons] at hlen
    have htake : (a.mem.set i b).take (i + 1) = a.mem.take i ++ [b] := by
      rw [List.take_set, List.take_succ_eq_append_getElem (by omega),
        List.set_append_right _ _ (by simp)]
      simp [List.length_take, Nat.min_eq_left (show i ≤ a.mem.length by omega)]
    have hdrop : (a.mem.set i b).drop (i + 1 + bs.length) = a.mem.drop (i + 1 + bs.length) :=
      List.drop_set_of_lt (by omega)
    rw [puts, ih _ _ (by rw [length_mem_put]; omega)]
    show (a.mem.set i b).take (i + 1) ++ bs ++ (a.mem.set i b).drop (i + 1 + bs.length) = _
    rw [htake, hdrop, List.length_cons, Nat.add_assoc i, Nat.add_comm 1]
    simp

/-! ### Strings -/

/-- The string after a terminated copy behind the start of a string. -/
theorem str_puts {a : CArray} {i : ℕ} {s : List Byte} (hs : 0 ∉ s) (hi : i ≤ a.str.length)
    (hlen : i + s.length < a.mem.length) : (a.puts i (s ++ [0])).str = a.str.take i ++ s := by
  have hprefix : a.str <+: a.mem := List.takeWhile_prefix _
  have htake : a.mem.take i = a.str.take i := by
    obtain ⟨t, ht⟩ := hprefix
    rw [← ht, List.take_append_of_le_length hi]
  have hfree : 0 ∉ a.str.take i ++ s := by
    rw [List.mem_append, not_or]
    exact ⟨fun h => zero_not_mem_cstr _ (List.mem_of_mem_take h), hs⟩
  rw [str, mem_puts _ _ _ (by rw [List.length_append, List.length_singleton]; omega), htake]
  rw [← List.append_assoc (a.str.take i), List.append_assoc (_ ++ _), List.singleton_append]
  exact cstr_of_not_mem hfree _

/-- A terminator inside the string cuts it. -/
theorem str_put_zero {a : CArray} {i : ℕ} (hi : i ≤ a.str.length) (hlen : i < a.mem.length) :
    (a.put i 0).str = a.str.take i := by
  have h := str_puts (s := []) List.not_mem_nil hi (by simpa using hlen)
  rwa [List.append_nil] at h

theorem str_strcpy {a : CArray} {s : List Byte} (hs : 0 ∉ s) (hlen : s.length < a.mem.length) :
    (a.strcpy s).str = s := by
  rw [strcpy, str_puts hs (Nat.zero_le _) (by omega), List.take_zero, List.nil_append]

theorem str_strcat {a : CArray} {s : List Byte} (hs : 0 ∉ s)
    (hlen : a.str.length + s.length < a.mem.length) : (a.strcat s).str = a.str ++ s := by
  rw [strcat, str_puts hs le_rfl hlen, List.take_length]

/-- The string ends in the first bytes of the memory exactly when there is a NUL in them. -/
theorem zero_mem_take {a : CArray} {n : ℕ} (hn : n ≤ a.mem.length) :
    0 ∈ a.mem.take n ↔ a.str.length < n := by
  have h : (cstr (a.mem.take n ++ a.mem.drop n)).length < (a.mem.take n).length ↔ 0 ∈ a.mem.take n :=
    cstr_append_of_lt
  rw [List.take_append_drop, List.length_take, Nat.min_eq_left hn] at h
  exact h.symm

theorem inside_strcpy {a : CArray} {s : List Byte} :
    (a.strcpy s).inside = true ↔ a.inside = true ∧ s.length < a.size := by
  have hne : s ++ [0] ≠ [] := by simp
  rw [strcpy, inside_puts, List.length_append, List.length_singleton, Nat.zero_add,
    Nat.succ_le_iff]
  exact and_congr_right fun _ => ⟨fun h => h hne, fun h _ => h⟩

theorem inside_strcat {a : CArray} {s : List Byte} :
    (a.strcat s).inside = true ↔ a.inside = true ∧ a.str.length + s.length < a.size := by
  have hne : s ++ [0] ≠ [] := by simp
  rw [strcat, inside_puts, List.length_append, List.length_singleton, ← Nat.add_assoc,
    Nat.succ_le_iff]
  exact and_congr_right fun _ => ⟨fun h => h hne, fun h _ => h⟩

@[simp] theorem size_strcpy (a : CArray) (s : List Byte) : (a.strcpy s).size = a.size :=
  size_puts _ _ _

@[simp] theorem size_strcat (a : CArray) (s : List Byte) : (a.strcat s).size = a.size :=
  size_puts _ _ _

@[simp] theorem length_mem_strcpy (a : CArray) (s : List Byte) :
    (a.strcpy s).mem.length = a.mem.length := length_mem_puts _ _ _

@[simp] theorem length_mem_strcat (a : CArray) (s : List Byte) :
    (a.strcat s).mem.length = a.mem.length := length_mem_puts _ _ _

/-! ### Several strings -/

/-- Strings that are appended one behind the other, where they have room. -/
theorem str_foldl_strcat : ∀ {ts : List (List Byte)} {a : CArray}, (∀ t ∈ ts, 0 ∉ t) →
    a.str.length + ts.flatten.length < a.mem.length →
    (ts.foldl strcat a).str = a.str ++ ts.flatten := by
  intro ts
  induction ts with
  | nil => intro a _ _; simp
  | cons t ts ih =>
    intro a hts hlen
    rw [List.flatten_cons, List.length_append] at hlen
    have hstr : (a.strcat t).str = a.str ++ t :=
      str_strcat (hts t List.mem_cons_self) (by omega)
    have hroom : (a.strcat t).str.length + ts.flatten.length < (a.strcat t).mem.length := by
      rw [hstr, length_mem_strcat, List.length_append]
      omega
    rw [List.foldl_cons, ih (fun u hu => hts u (List.mem_cons_of_mem _ hu)) hroom, hstr,
      List.flatten_cons, List.append_assoc]

/-- They stay inside if and only if all of them have room. -/
theorem inside_foldl_strcat : ∀ {ts : List (List Byte)} {a : CArray}, (∀ t ∈ ts, 0 ∉ t) →
    a.size ≤ a.mem.length →
    ((ts.foldl strcat a).inside = true ↔
      a.inside = true ∧ (ts = [] ∨ a.str.length + ts.flatten.length < a.size)) := by
  intro ts
  induction ts with
  | nil => intro a _ _; simp
  | cons t ts ih =>
    intro a hts hroom
    rw [List.foldl_cons, ih (fun u hu => hts u (List.mem_cons_of_mem _ hu)) (by simpa using hroom),
      inside_strcat, size_strcat, and_assoc, List.flatten_cons, List.length_append]
    refine and_congr_right fun _ => ?_
    have hstr : a.str.length + t.length < a.size → (a.strcat t).str = a.str ++ t :=
      fun hlt => str_strcat (hts t List.mem_cons_self) (by omega)
    constructor
    · rintro ⟨hlt, rfl | hall⟩
      · exact .inr (by simpa using hlt)
      · rw [hstr hlt, List.length_append] at hall
        exact .inr (by omega)
    · intro hall
      have hlt := hall.resolve_left (List.cons_ne_nil _ _)
      refine ⟨by omega, .inr ?_⟩
      rw [hstr (by omega), List.length_append]
      omega

end CArray
