import Mathlib.Logic.Function.Iterate
import Mathlib.Data.Int.Notation

/-!
# Object-like macros

The preprocessor of C puts the tokens of a macro where its name is, and the compiler reads
the result by the precedence of its operators.  A macro that is a sum is therefore not the
factor it seems to be in a product: only its last term is.

Expressions are numbers joined by the four operators, without parentheses.

## Main definitions

* `Tok`, `Defs`, `expand` — tokens, macros, and the expansion of all names.
* `parts`, `value` — an expression as a sum of its last term and what stands in front, and
  its value.

## Main results

* `value_times_plus` — an expression, with a factor and a summand behind it.
-/

namespace CMacro

variable {ι : Type*}

/-- A token of an expression. -/
inductive Tok (ι : Type*)
  | num (n : ℕ)
  | name (x : ι)
  | plus
  | minus
  | times
  | over
  deriving DecidableEq, Repr

/-- The macros, by their names. -/
abbrev Defs (ι : Type*) := ι → Option (List (Tok ι))

/-- Every name is replaced once. -/
def rescan (defs : Defs ι) (ts : List (Tok ι)) : List (Tok ι) :=
  ts.flatMap fun t =>
    match t with
    | .name x => (defs x).getD [.name x]
    | t => [t]

/-- Names are replaced, and the names in their places again, to a depth. -/
def expand (defs : Defs ι) (depth : ℕ) : List (Tok ι) → List (Tok ι) := (rescan defs)^[depth]

/-- The terms so far and the last term, behind further tokens. -/
def terms : ℤ × ℤ → List (Tok ι) → Option (ℤ × ℤ)
  | s, [] => some s
  | (a, p), .plus :: .num n :: ts => terms (a + p, n) ts
  | (a, p), .minus :: .num n :: ts => terms (a + p, -n) ts
  | (a, p), .times :: .num n :: ts => terms (a, p * n) ts
  | (a, p), .over :: .num n :: ts => if n = 0 then none else terms (a, p.tdiv n) ts
  | _, _ => none

/-- What stands in front of the last term of an expression, and that term. -/
def parts : List (Tok ι) → Option (ℤ × ℤ)
  | .num n :: ts => terms (0, n) ts
  | _ => none

/-- The value of an expression. -/
def value (ts : List (Tok ι)) : Option ℤ := (parts ts).map fun s => s.1 + s.2

theorem terms_append {ts us : List (Tok ι)} {s t : ℤ × ℤ} (h : terms s ts = some t) :
    terms s (ts ++ us) = terms t us := by
  fun_induction terms s ts with
  | case1 s =>
    obtain rfl := Option.some.inj h
    rfl
  | case2 a p n ts ih => exact ih h
  | case3 a p n ts ih => exact ih h
  | case4 a p n ts ih => exact ih h
  | case5 => cases h
  | case6 a p n ts hn ih =>
    rw [List.cons_append, List.cons_append, terms, if_neg hn]
    exact ih h
  | case7 => cases h

theorem parts_append {ts us : List (Tok ι)} {t : ℤ × ℤ} (h : parts ts = some t) :
    parts (ts ++ us) = terms t us := by
  unfold parts at h
  split at h
  · exact terms_append h
  · cases h

/-- **A factor takes hold of the last term only.** -/
theorem value_times_plus {ts : List (Tok ι)} {a p : ℤ} (h : parts ts = some (a, p)) (k m : ℕ) :
    value (ts ++ [.times, .num k, .plus, .num m]) = some (a + p * k + m) := by
  rw [value, parts_append h]
  rfl

end CMacro
