import TFProtocol.AccessKeys

/-!
# The access control list of `xs_ace`

The list of a key has two kinds of lines.  A line `*` and a path allows the binary with any
arguments; any other line is a path and its arguments with a blank before each, and allows
that binary with those arguments.  `chkacl` joins the request with blanks, in an array that
is only filled when arguments are set, and compares it with what `fgets` returns.

A line says which binary it means only as long as the path of the request has no blank: the
text of a line is the join of several requests.

## Main definitions

* `aceChkacl` — the function of the source; the content of the array before is an argument.
* `AceRequest` — a path and the arguments of `SETARGS`.
* `Named` — the list allows the request.
* `AclMeets` — `chkacl` decides as the list says.
* `AclExact` — the condition.

## Main results

* `splitOn_eq_iff` — the one request a line means.
* `mem_aclTexts` — a list whose lines fit the buffer is read line by line.
* `acl_meets_iff` — **when `chkacl` decides as the list says.**
* `acl_leftover` — a request without arguments, let through by what an earlier one left.
-/

namespace TFProtocol

open Bytes CStr

/-! ### The function -/

/-- `ANYARGCHR`. -/
def anyargchr : Byte := ofChar '*'

/-- An argument as `SETARGS` stores it. -/
structure AceArg where
  val : List Byte
  nonempty : val ≠ []
  no_blank : blank ∉ val
  no_nul : 0 ∉ val

/-- What a client asks to be run: a path, and the arguments if any are set. -/
structure AceRequest where
  path : List Byte
  no_nul : 0 ∉ path
  argls : Option (List AceArg)

/-- The arguments of a request. -/
def AceRequest.args (r : AceRequest) : List (List Byte) := (r.argls.getD []).map AceArg.val

/-- The array `args` of `chkacl`, which holds `junk` before.  It is only filled when there are
arguments; what does not fit has no defined outcome. -/
def aclArgs (junk path : List Byte) : Option (List (List Byte)) → Option (List Byte)
  | none => some junk
  | some as =>
    (strcpyTo lineMax (path ++ [blank] ++ as.flatMap fun a => a ++ [blank])).map List.dropLast

/-- What `fgets` put in the buffer, without the newline. -/
def aclText (buf : List Byte) : List Byte :=
  match strchr newline (cstr buf) with
  | some (l, _) => l
  | none => cstr buf

/-- The text allows a path with any arguments. -/
def starText (path l : List Byte) : Bool :=
  l.head? = some anyargchr && (l.takeWhile (· ≠ blank)).drop 1 = path

/-- The comparison in the loop of `chkacl`. -/
def aclLine (path args l : List Byte) : Bool :=
  if l.head? = some anyargchr then (l.takeWhile (· ≠ blank)).drop 1 = path else l = args

/-- `chkacl(binpath)`, where `seen` says that `access` found the list, and `acl` is what can be
read of it. -/
def aceChkacl (seen : Bool) (acl : Option (List Byte)) (junk : List Byte) (r : AceRequest) :
    Option Bool :=
  if !seen then some true
  else
    match acl with
    | none => some false
    | some file =>
      (aclArgs junk r.path (r.argls.map (·.map AceArg.val))).map fun args =>
        (lines newline lineMax file).any fun buf => aclLine r.path args (aclText buf)

/-- The arguments of `SETARGS` are such arguments. -/
theorem exists_aceArg {text a : List Byte} (h : a ∈ strtokArgs text) :
    ∃ arg : AceArg, arg.val = a := by
  obtain ⟨hmem, hne⟩ := List.mem_filter.mp h
  have hnul : 0 ∉ a := fun h0 =>
    zero_not_mem_cstr text ((LexPath.sublist_of_mem_splitOn hmem).subset h0)
  exact ⟨⟨a, of_decide_eq_true hne, LexPath.not_mem_of_mem_splitOn hmem, hnul⟩, rfl⟩

/-! ### What a list says -/

/-- A path, and each argument with a blank before it. -/
def joined (path : List Byte) (args : List (List Byte)) : List Byte :=
  path ++ args.flatMap fun a => blank :: a

/-- A line allows a request: it is `*` and the path, up to the first blank, or it is the path
and the arguments, and these are the fields of the line. -/
def LineNames (r : AceRequest) (l : List Byte) : Prop :=
  (∃ rest, l = anyargchr :: rest ∧ rest.takeWhile (· ≠ blank) = r.path) ∨
    l = joined r.path r.args ∧ l.splitOn blank = r.path :: r.args

/-- The list allows a request. -/
def Named (file : List Byte) (r : AceRequest) : Prop :=
  ∃ l ∈ fileLines newline file, LineNames r l

/-- `chkacl` decides as the list says, with `junk` in its array. -/
def AclMeets (file junk : List Byte) (r : AceRequest) : Prop :=
  ∃ b, aceChkacl true (some file) junk r = some b ∧ (b = true ↔ Named file r)

/-- What stands in the array when the lines are compared. -/
def argsText (junk : List Byte) (r : AceRequest) : List Byte :=
  if r.argls.isSome then joined r.path r.args else junk

/-- The texts the lines of a list are compared as. -/
def aclTexts (file : List Byte) : List (List Byte) := (lines newline lineMax file).map aclText

/-- The lines of a list fit the buffer they are read into, and hold no NUL. -/
def ListFits (file : List Byte) : Prop :=
  ∀ l ∈ fileLines newline file, 0 ∉ l ∧ l.length + 1 < lineMax

instance (file : List Byte) : Decidable (ListFits file) :=
  inferInstanceAs (Decidable (∀ l ∈ fileLines newline file, 0 ∉ l ∧ l.length + 1 < lineMax))

/-- The request fits the array.  Where the lines of the list fit the buffer: a line with `*`
allows the path; or, with arguments, the request is no line, or its path has a blank exactly
if it starts with `*`; or, without arguments, the path is a line and has no blank exactly if
what is left in the array is a line and does not start with `*`.  Where they do not fit: some
line is `*` and the path, or the request with no blank in its path, exactly if some piece, up
to its newline or NUL, is `*` and the path, or what is in the array and does not start with
`*`. -/
def AclExact (file junk : List Byte) (r : AceRequest) : Prop :=
  (r.argls.isSome = true → (joined r.path r.args).length + 1 < lineMax) ∧
    if ListFits file then
      (∃ l ∈ fileLines newline file, starText r.path l = true) ∨
        if r.argls.isSome then
          joined r.path r.args ∉ fileLines newline file ∨
            (blank ∈ r.path ↔ r.path.head? = some anyargchr)
        else
          (r.path ∈ fileLines newline file ∧ blank ∉ r.path ↔
            junk ∈ fileLines newline file ∧ junk.head? ≠ some anyargchr)
    else
      ((∃ l ∈ fileLines newline file, starText r.path l = true) ∨
          joined r.path r.args ∈ fileLines newline file ∧ blank ∉ r.path ↔
        (∃ l ∈ aclTexts file, starText r.path l = true) ∨
          argsText junk r ∈ aclTexts file ∧ (argsText junk r).head? ≠ some anyargchr)

/-! ### Requests and lines -/

theorem joined_nil (path : List Byte) : joined path [] = path := List.append_nil path

theorem joined_cons (path a : List Byte) (as : List (List Byte)) :
    joined path (a :: as) = path ++ blank :: joined a as := by
  rw [joined, List.flatMap_cons, List.cons_append]
  rfl

theorem blank_not_mem_args {r : AceRequest} {a : List Byte} (h : a ∈ r.args) : blank ∉ a := by
  obtain ⟨arg, -, rfl⟩ := List.mem_map.mp h
  exact arg.no_blank

/-- A request whose path has no blank is read back from its text. -/
theorem splitOn_joined : ∀ {path : List Byte} {args : List (List Byte)}, blank ∉ path →
    (∀ a ∈ args, blank ∉ a) → (joined path args).splitOn blank = path :: args := by
  intro path args
  induction args generalizing path with
  | nil =>
    intro hpath _
    rw [joined_nil, splitOn_of_not_mem hpath]
  | cons a as ih =>
    intro hpath has
    rw [joined_cons, splitOn_line hpath, ih (has a List.mem_cons_self) fun b hb =>
      has b (List.mem_cons_of_mem _ hb)]

/-- **The one request a line means**: the text of the request, if its path has no blank. -/
theorem splitOn_eq_iff {r : AceRequest} {l : List Byte} :
    l = joined r.path r.args ∧ l.splitOn blank = r.path :: r.args ↔
      l = joined r.path r.args ∧ blank ∉ r.path := by
  refine and_congr_right fun hl => ?_
  constructor
  · intro h
    have hmem : r.path ∈ l.splitOn blank := by
      rw [h]
      exact List.mem_cons_self
    exact LexPath.not_mem_of_mem_splitOn hmem
  · intro hpath
    rw [hl]
    exact splitOn_joined hpath fun a ha => blank_not_mem_args ha

theorem starText_iff {path l : List Byte} :
    starText path l = true ↔ ∃ rest, l = anyargchr :: rest ∧ rest.takeWhile (· ≠ blank) = path := by
  rw [starText, Bool.and_eq_true, decide_eq_true_eq, decide_eq_true_eq]
  constructor
  · rintro ⟨hhead, hpath⟩
    obtain ⟨rest, rfl⟩ : ∃ rest, l = anyargchr :: rest := List.head?_eq_some_iff.mp hhead
    refine ⟨rest, rfl, ?_⟩
    rwa [List.takeWhile_cons_of_pos (by decide), List.drop_succ_cons, List.drop_zero] at hpath
  · rintro ⟨rest, rfl, hpath⟩
    refine ⟨rfl, ?_⟩
    rwa [List.takeWhile_cons_of_pos (by decide), List.drop_succ_cons, List.drop_zero]

/-- What a list says of a request. -/
theorem named_iff {file : List Byte} {r : AceRequest} :
    Named file r ↔ (∃ l ∈ fileLines newline file, starText r.path l = true) ∨
      joined r.path r.args ∈ fileLines newline file ∧ blank ∉ r.path := by
  simp only [Named, LineNames, splitOn_eq_iff, ← starText_iff]
  constructor
  · rintro ⟨l, hl, hstar | ⟨rfl, hpath⟩⟩
    · exact .inl ⟨l, hl, hstar⟩
    · exact .inr ⟨hl, hpath⟩
  · rintro (⟨l, hl, hstar⟩ | ⟨hl, hpath⟩)
    · exact ⟨l, hl, .inl hstar⟩
    · exact ⟨_, hl, .inr ⟨rfl, hpath⟩⟩

/-! ### What `chkacl` compares -/

theorem aclLine_iff {path args l : List Byte} :
    aclLine path args l = true ↔
      starText path l = true ∨ l.head? ≠ some anyargchr ∧ l = args := by
  unfold aclLine starText
  by_cases h : l.head? = some anyargchr
  · simp [h]
  · simp [h]

/-- The blanks behind the arguments, and the one that is taken away again. -/
theorem aclArgs_text (path : List Byte) (as : List (List Byte)) :
    path ++ [blank] ++ (as.flatMap fun a => a ++ [blank]) = joined path as ++ [blank] := by
  induction as generalizing path with
  | nil => rw [joined_nil, List.flatMap_nil, List.append_nil]
  | cons a as ih =>
    rw [List.flatMap_cons, ← List.append_assoc, ← List.append_assoc, ih, joined, joined,
      List.flatMap_cons]
    simp

/-- The array when the lines are compared. -/
theorem aclArgs_eq (junk : List Byte) (r : AceRequest) :
    aclArgs junk r.path (r.argls.map (·.map AceArg.val)) =
      if r.argls.isSome = true → (joined r.path r.args).length + 1 < lineMax then
        some (argsText junk r)
      else none := by
  unfold argsText AceRequest.args
  cases r.argls with
  | none => rfl
  | some as =>
    simp only [Option.map_some, aclArgs, aclArgs_text, strcpyTo, List.length_append,
      List.length_singleton, Option.isSome_some, forall_true_left, if_true, Option.getD_some]
    split
    · rw [Option.map_some, List.dropLast_concat]
    · rfl

/-- What `chkacl` returns. -/
theorem aceChkacl_eq (file junk : List Byte) (r : AceRequest) :
    aceChkacl true (some file) junk r =
      if r.argls.isSome = true → (joined r.path r.args).length + 1 < lineMax then
        some ((aclTexts file).any (aclLine r.path (argsText junk r)))
      else none := by
  simp only [aceChkacl, Bool.not_true, Bool.false_eq_true, if_false, aclArgs_eq]
  split
  · rw [Option.map_some, aclTexts, List.any_map]
    rfl
  · rfl

/-- What was read of a line is compared without the newline. -/
theorem aclText_line {l : List Byte} (hnl : newline ∉ l) (hnul : 0 ∉ l) :
    aclText (l ++ [newline]) = l ∧ aclText l = l := by
  have hwhole : (0 : Byte) ∉ l ++ [newline] := by
    rw [List.mem_append, List.mem_singleton, not_or]
    exact ⟨hnul, by decide⟩
  have hnone : strchr newline l = none := by
    cases h : strchr newline l with
    | none => rfl
    | some x =>
      obtain ⟨heq, -⟩ := strchr_eq_some_iff.mp (show strchr newline l = some (x.1, x.2) from h)
      exact absurd (by simp [heq]) hnl
  rw [aclText, aclText, cstr_eq_self hwhole, cstr_eq_self hnul, strchr_append hnl [], hnone]
  exact ⟨rfl, rfl⟩

/-- **A list whose lines fit the buffer is read line by line.** -/
theorem mem_aclTexts {file l : List Byte} (h : ListFits file) :
    l ∈ aclTexts file ↔ l ∈ fileLines newline file := by
  have hpiece : ∀ l' ∈ terminated newline file,
      pieces (lineMax - 1) (l' ++ [newline]) = [l' ++ [newline]] := by
    intro l' hl'
    have hlen := (h l' (mem_fileLines.mpr (.inl hl'))).2
    apply pieces_short (by simp)
    rw [List.length_append, List.length_singleton]
    omega
  have hlast : ∀ p, p ∈ pieces (lineMax - 1) (unterminated newline file) ↔
      p = unterminated newline file ∧ p ≠ [] := by
    intro p
    by_cases hnil : unterminated newline file = []
    · rw [hnil, pieces_nil (by decide)]
      simp
    · have hlen := (h _ (mem_fileLines.mpr (.inr ⟨rfl, hnil⟩))).2
      rw [pieces_short hnil (by omega), List.mem_singleton]
      constructor
      · rintro rfl
        exact ⟨rfl, hnil⟩
      · exact And.left
  rw [aclTexts, lines_eq_pieces (by decide), List.mem_map]
  simp only [List.mem_append, List.mem_flatMap, hlast]
  rw [mem_fileLines]
  constructor
  · rintro ⟨p, ⟨l', hl', hp⟩ | ⟨rfl, hne⟩, rfl⟩
    · rw [hpiece l' hl', List.mem_singleton] at hp
      rw [hp, (aclText_line (newline_not_mem_terminated hl')
        (h l' (mem_fileLines.mpr (.inl hl'))).1).1]
      exact .inl hl'
    · rw [(aclText_line (newline_not_mem_unterminated newline file)
        (h _ (mem_fileLines.mpr (.inr ⟨rfl, hne⟩))).1).2]
      exact .inr ⟨rfl, hne⟩
  · rintro (hl | ⟨rfl, hne⟩)
    · refine ⟨l ++ [newline], .inl ⟨l, hl, ?_⟩, (aclText_line (newline_not_mem_terminated hl)
        (h l (mem_fileLines.mpr (.inl hl))).1).1⟩
      rw [hpiece l hl]
      exact List.mem_singleton_self _
    · exact ⟨_, .inr ⟨rfl, hne⟩, (aclText_line (newline_not_mem_unterminated newline file)
        (h _ (mem_fileLines.mpr (.inr ⟨rfl, hne⟩))).1).2⟩

/-! ### The decision -/

theorem head?_joined {path : List Byte} {args : List (List Byte)} :
    (joined path args).head? = some anyargchr ↔ path.head? = some anyargchr := by
  cases path with
  | nil =>
    cases args with
    | nil => rfl
    | cons a as =>
      rw [joined_cons, List.nil_append, List.head?_cons]
      exact ⟨fun h => absurd (Option.some.inj h) (by decide), nofun⟩
  | cons b bs => rfl

/-- What the texts of a list say of a request. -/
theorem any_aclTexts_iff (file junk : List Byte) (r : AceRequest) :
    (∃ l ∈ aclTexts file, aclLine r.path (argsText junk r) l = true) ↔
      (∃ l ∈ aclTexts file, starText r.path l = true) ∨
        argsText junk r ∈ aclTexts file ∧ (argsText junk r).head? ≠ some anyargchr := by
  simp only [aclLine_iff]
  constructor
  · rintro ⟨l, hl, hstar | ⟨hhead, rfl⟩⟩
    · exact .inl ⟨l, hl, hstar⟩
    · exact .inr ⟨hl, hhead⟩
  · rintro (⟨l, hl, hstar⟩ | ⟨hl, hhead⟩)
    · exact ⟨l, hl, .inl hstar⟩
    · exact ⟨_, hl, .inr ⟨hhead, rfl⟩⟩

/-- The condition on a list whose lines fit the buffer. -/
theorem listFits_iff {file : List Byte} (h : ListFits file) (junk : List Byte) (r : AceRequest) :
    (Named file r ↔ ∃ l ∈ aclTexts file, aclLine r.path (argsText junk r) l = true) ↔
      (∃ l ∈ fileLines newline file, starText r.path l = true) ∨
        if r.argls.isSome then
          joined r.path r.args ∉ fileLines newline file ∨
            (blank ∈ r.path ↔ r.path.head? = some anyargchr)
        else
          (r.path ∈ fileLines newline file ∧ blank ∉ r.path ↔
            junk ∈ fileLines newline file ∧ junk.head? ≠ some anyargchr) := by
  rw [named_iff, any_aclTexts_iff]
  simp only [mem_aclTexts h]
  by_cases hstar : ∃ l ∈ fileLines newline file, starText r.path l = true
  · simp only [hstar, true_or]
  · simp only [hstar, false_or]
    cases hset : r.argls with
    | none =>
      have hargs : r.args = [] := by rw [AceRequest.args, hset]; rfl
      have htext : argsText junk r = junk := by rw [argsText, hset]; rfl
      rw [hargs, joined_nil, htext]
      rfl
    | some as =>
      have htext : argsText junk r = joined r.path r.args := by rw [argsText, hset]; rfl
      rw [htext, Ne, head?_joined, Option.isSome_some, if_pos rfl]
      tauto

/-- **When `chkacl` decides as the list says.**  For every list, every content of the array
before the call, every path and every argument list: `chkacl` returns, and it returns `1`
exactly if some line allows the request, under this condition and no other. -/
theorem acl_meets_iff (file junk : List Byte) (r : AceRequest) :
    AclMeets file junk r ↔ AclExact file junk r := by
  have hiff : AclMeets file junk r ↔
      (r.argls.isSome = true → (joined r.path r.args).length + 1 < lineMax) ∧
        (Named file r ↔ ∃ l ∈ aclTexts file, aclLine r.path (argsText junk r) l = true) := by
    unfold AclMeets
    rw [aceChkacl_eq]
    by_cases hfits : r.argls.isSome = true → (joined r.path r.args).length + 1 < lineMax
    · rw [if_pos hfits, ← List.any_eq_true]
      constructor
      · rintro ⟨b, hb, hnamed⟩
        obtain rfl := Option.some.inj hb
        exact ⟨hfits, hnamed.symm⟩
      · rintro ⟨-, hnamed⟩
        exact ⟨_, rfl, hnamed.symm⟩
    · rw [if_neg hfits]
      constructor
      · rintro ⟨b, hb, -⟩
        cases hb
      · exact fun h => absurd h.1 hfits
  rw [hiff, AclExact]
  refine and_congr_right fun _ => ?_
  split
  next hfit => exact listFits_iff hfit junk r
  next => rw [named_iff, any_aclTexts_iff]

/-! ### A request without arguments -/

/-- A shell, with no arguments set. -/
def exampleShell : AceRequest := ⟨lit "/bin/sh", by decide, none⟩

/-- The list allows one command.  The text of that command is still in the array, and a shell
is let through. -/
theorem acl_leftover :
    ¬ AclMeets (lit "/bin/ls /bin/ls /\n") (lit "/bin/ls /bin/ls /") exampleShell := by
  rintro ⟨b, hb, hiff⟩
  have hcode : aceChkacl true (some (lit "/bin/ls /bin/ls /\n")) (lit "/bin/ls /bin/ls /")
      exampleShell = some true := by
    decide
  obtain rfl := Option.some.inj (hb.symm.trans hcode)
  obtain ⟨l, hl, hstar | ⟨hjoin, -⟩⟩ := hiff.mp rfl
  · have hline : l = lit "/bin/ls /bin/ls /" := by
      rw [show fileLines newline (lit "/bin/ls /bin/ls /\n") =
        [lit "/bin/ls /bin/ls /"] by decide] at hl
      exact List.mem_singleton.mp hl
    obtain ⟨rest, hrest, -⟩ := hstar
    rw [hline] at hrest
    exact absurd (List.cons.inj hrest).1 (by decide)
  · rw [hjoin] at hl
    exact absurd hl (by decide)

end TFProtocol
