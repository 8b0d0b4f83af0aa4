import TFProtocol.Lib.TextLines
import TFProtocol.XsAce
import TFProtocol.XsNtmex

/-!
# Access keys

`INSKEY` of the subsystems `xs_ace` and `xs_ntmex` looks for the key of the client in a file
with one key in a line.  The file is read with `fgets` into a buffer of `KEYLEN` bytes, and
only what ends in a newline is compared: the key is taken if it is what is left of a line
behind its whole pieces, and the last line is not looked at if it has no newline.

## Main definitions

* `xsAceInskey` — the handler of `xs_ace`.
* `AccessKey` — a key as a client can send it.
* `InskeyMeets` — both handlers install the key exactly if it is a line of the file.
* `KeyRead` — the condition on the file and the key.

## Main results

* `inKeydb_iff` — which keys are found in a file.
* `inskey_meets_iff` — **when installing a key is membership in the lines.**
* `inskey_last_line` — a key in the last line, without a newline behind it.
-/

namespace TFProtocol

open Bytes CStr

/-! ### The handler of `xs_ace` -/

/-- The key file of the subsystem. -/
structure AceFiles where
  /-- `tfproto.xsace`, the name of the key file. -/
  xsace : List Byte
  /-- What can be read of it, if it can be opened. -/
  keydb : Option (List Byte)

/-- The loop over the key file. -/
def aceInKeydb (file key : List Byte) : Bool := (lines newline aceKeylen file).any (isKeyLine key)

/-- The name of the list that belongs to a key. -/
def aceAclName (f : AceFiles) (key : List Byte) : List Byte :=
  f.xsace ++ lit "." ++ key ++ lit ".acl"

/-- `xs_ace_inskey`: the variables of the module and `binacl`.  A text that does not fit the
array it is copied to has no defined outcome. -/
def xsAceInskey (f : AceFiles) (s : Ace) (binacl buf : List Byte) : Option (Ace × List Byte) :=
  if s.keyset then some (s.fail aceEkeyset, binacl)
  else
    (strcpyTo aceKeylen (cstr (buf.drop 7))).bind fun key =>
    match f.keydb with
    | none => some (s.fail aceEkeyread, binacl)
    | some db =>
      if aceInKeydb db key then
        (strcpyTo pathMax (aceAclName f key)).map fun acl => ({ s with keyset := true }.ok, acl)
      else some (s.fail aceEkeynotset, binacl)

/-- The variables that hold memory change as the step of the module says. -/
theorem aceStep_inskey (f : AceFiles) (s : Ace) (binacl buf : List Byte) :
    aceStep s (.inskey f.xsace (cstr (buf.drop 7))
      (f.keydb.map fun db => aceInKeydb db (cstr (buf.drop 7)))) =
      (xsAceInskey f s binacl buf).map Prod.fst := by
  unfold xsAceInskey aceStep xsAceInskeyStep
  simp only
  split
  · rfl
  · unfold strcpyTo
    by_cases hlen : (cstr (buf.drop 7)).length < aceKeylen
    · rw [if_neg (by omega), if_pos hlen, Option.bind_some]
      cases f.keydb with
      | none => rfl
      | some db =>
        cases hin : aceInKeydb db (cstr (buf.drop 7)) with
        | false => simp [hin]
        | true =>
          simp only [Option.map_some, hin, if_true, aceAclName]
          split
          next hfits => simpa using hfits
          next hfits => simpa using hfits
    · rw [if_pos (by omega), if_neg hlen]
      rfl

/-! ### Which keys are found -/

/-- A piece without a newline is no key. -/
theorem isKeyLine_of_not_mem {key p : List Byte} (h : newline ∉ p) : isKeyLine key p = false := by
  unfold isKeyLine
  split
  next l rest hl =>
    obtain ⟨heq, -⟩ := strchr_eq_some_iff.mp hl
    have hmem : newline ∈ cstr p := by simp [heq]
    exact absurd ((List.takeWhile_prefix _).subset hmem) h
  next => rfl

/-- A piece that ends in a newline is a key as a whole. -/
theorem isKeyLine_iff {key q : List Byte} (hq : newline ∉ q) (hkey : 0 ∉ key) :
    isKeyLine key (q ++ [newline]) = true ↔ q = key := by
  by_cases hnul : 0 ∈ q
  · have hcut : newline ∉ cstr (q ++ [newline]) := by
      rw [cstr_append_of_mem hnul]
      exact fun h => hq ((List.takeWhile_prefix _).subset h)
    have hno : isKeyLine key (q ++ [newline]) = false := by
      unfold isKeyLine
      split
      next l rest hl =>
        obtain ⟨heq, -⟩ := strchr_eq_some_iff.mp hl
        exact absurd (by simp [heq]) hcut
      next => rfl
    rw [hno]
    refine ⟨nofun, ?_⟩
    rintro rfl
    exact absurd hnul hkey
  · have hwhole : (0 : Byte) ∉ q ++ [newline] := by
      rw [List.mem_append, List.mem_singleton, not_or]
      exact ⟨hnul, by decide⟩
    rw [isKeyLine, cstr_eq_self hwhole, strchr_append hq []]
    exact decide_eq_true_iff

/-- **The keys in a file** are the ends of its terminated lines. -/
theorem inKeydb_iff {file key : List Byte} (hkey : 0 ∉ key) :
    inKeydb file key = true ↔
      ∃ l ∈ terminated newline file, lineEnd (ntmexKeylen - 1) l = key := by
  have hsize : 1 < ntmexKeylen := by decide
  rw [inKeydb, List.any_eq_true]
  constructor
  · rintro ⟨p, hp, hline⟩
    have hnl : newline ∈ p := by
      by_contra hno
      rw [isKeyLine_of_not_mem hno] at hline
      cases hline
    obtain ⟨l, hl, rfl⟩ := (mem_lines_newline hsize).mp ⟨hp, hnl⟩
    have hfree : newline ∉ lineEnd (ntmexKeylen - 1) l := fun h =>
      newline_not_mem_terminated hl (List.mem_of_mem_drop h)
    exact ⟨l, hl, (isKeyLine_iff hfree hkey).mp hline⟩
  · rintro ⟨l, hl, rfl⟩
    have hfree : newline ∉ lineEnd (ntmexKeylen - 1) l := fun h =>
      newline_not_mem_terminated hl (List.mem_of_mem_drop h)
    obtain ⟨hp, -⟩ := (mem_lines_newline hsize).mpr ⟨l, hl, rfl⟩
    exact ⟨_, hp, (isKeyLine_iff hfree hkey).mpr rfl⟩

/-- Both subsystems search alike. -/
theorem aceInKeydb_eq (file key : List Byte) : aceInKeydb file key = inKeydb file key := rfl

/-! ### Installing a key -/

/-- A key as a client can send it: a string that is shorter than `KEYLEN`, without newlines. -/
structure AccessKey where
  text : List Byte
  no_nul : 0 ∉ text
  no_newline : newline ∉ text
  short : text.length < ntmexKeylen

/-- Both handlers install the key exactly if it is a line of the file: whatever the state
before, with no key installed, and whatever the file is called, as long as the name of the
list fits its array. -/
structure InskeyMeets (file : List Byte) (key : AccessKey) : Prop where
  ace : ∀ (f : AceFiles) (s : Ace) (binacl buf : List Byte), f.keydb = some file →
    s.keyset = false → cstr (buf.drop 7) = key.text → (aceAclName f key.text).length < pathMax →
    ∃ s' acl, xsAceInskey f s binacl buf = some (s', acl) ∧
      (s'.keyset = true ↔ key.text ∈ fileLines newline file)
  ntmex : ∀ (f : NtmexFiles) (s : Ntmex) (buf : List Byte), f.keydb = some file →
    s.keyset = false → cstr (buf.drop 7) = key.text → (aclName f key.text).length < pathMax →
    ∃ out, xsNtmexInskey f s buf = some out ∧
      (out.st.keyset = true ↔ key.text ∈ fileLines newline file)

/-- A key that is a line is the end of a terminated line, which a line of `KEYLEN - 1` bytes
and a last line without a newline are not by themselves; and a key that is the end of a line
of `KEYLEN - 1` bytes or more is a line. -/
structure KeyRead (file key : List Byte) : Prop where
  seen : key ∈ fileLines newline file →
    ∃ l ∈ terminated newline file, lineEnd (ntmexKeylen - 1) l = key
  whole : ∀ l ∈ terminated newline file, ntmexKeylen - 1 ≤ l.length →
    lineEnd (ntmexKeylen - 1) l = key → key ∈ fileLines newline file

theorem strcpyTo_of_lt {size : ℕ} {src : List Byte} (h : src.length < size) :
    strcpyTo size src = some src := if_pos h

/-- What the handler of `xs_ace` does with a key. -/
theorem xsAceInskey_keyset {file : List Byte} {key : AccessKey} {f : AceFiles} {s : Ace}
    {buf : List Byte} (binacl : List Byte) (hdb : f.keydb = some file) (hs : s.keyset = false)
    (hkey : cstr (buf.drop 7) = key.text) (hfits : (aceAclName f key.text).length < pathMax) :
    ∃ s' acl, xsAceInskey f s binacl buf = some (s', acl) ∧ s'.keyset = inKeydb file key.text := by
  have hcpy : strcpyTo aceKeylen key.text = some key.text := strcpyTo_of_lt key.short
  unfold xsAceInskey
  rw [if_neg (by rw [hs]; decide), hkey, hcpy, Option.bind_some, hdb]
  dsimp only
  rw [aceInKeydb_eq]
  cases hin : inKeydb file key.text with
  | true => exact ⟨_, _, by rw [if_pos rfl, strcpyTo_of_lt hfits, Option.map_some], rfl⟩
  | false => exact ⟨_, _, if_neg Bool.false_ne_true, hs⟩

/-- What the handler of `xs_ntmex` does with a key. -/
theorem xsNtmexInskey_keyset {file : List Byte} {key : AccessKey} {f : NtmexFiles} {s : Ntmex}
    {buf : List Byte} (hdb : f.keydb = some file) (hs : s.keyset = false)
    (hkey : cstr (buf.drop 7) = key.text) (hfits : (aclName f key.text).length < pathMax) :
    ∃ out, xsNtmexInskey f s buf = some out ∧ out.st.keyset = inKeydb file key.text := by
  have hcpy : strcpyTo ntmexKeylen key.text = some key.text := strcpyTo_of_lt key.short
  unfold xsNtmexInskey
  rw [if_neg (by rw [hs]; decide), hkey, hcpy, Option.bind_some, hdb]
  dsimp only
  cases hin : inKeydb file key.text with
  | true => exact ⟨_, by rw [if_pos rfl, strcpyTo_of_lt hfits, Option.map_some], rfl⟩
  | false => exact ⟨_, if_neg Bool.false_ne_true, hs⟩

/-- The search finds the lines exactly under the condition. -/
theorem keyRead_iff {file key : List Byte} (hkey : 0 ∉ key) :
    KeyRead file key ↔ (inKeydb file key = true ↔ key ∈ fileLines newline file) := by
  rw [inKeydb_iff hkey]
  constructor
  · intro h
    refine ⟨?_, h.seen⟩
    rintro ⟨l, hl, hend⟩
    rcases Nat.lt_or_ge l.length (ntmexKeylen - 1) with hlt | hge
    · rw [lineEnd_of_length_lt hlt] at hend
      exact mem_fileLines.mpr (Or.inl (hend ▸ hl))
    · exact h.whole l hl hge hend
  · exact fun h => ⟨h.mpr, fun l hl _ hend => h.mp ⟨l, hl, hend⟩⟩

/-- **When installing a key is membership in the lines.**  For every key file and every key,
`INSKEY` of both subsystems installs the key exactly if it is a line of the file, if and only
if the pieces the file is read in make no difference for the key. -/
theorem inskey_meets_iff (file : List Byte) (key : AccessKey) :
    InskeyMeets file key ↔ KeyRead file key.text := by
  rw [keyRead_iff key.no_nul]
  constructor
  · intro h
    -- any state will do, with a short name of the key file
    have hframe : cstr ((List.replicate 7 0 ++ key.text).drop 7) = key.text := by
      rw [List.drop_left' List.length_replicate, cstr_eq_self key.no_nul]
    let f : NtmexFiles := ⟨[], some file, fun _ => false, fun _ => none⟩
    have hshort : (aclName f key.text).length < pathMax := by
      have := key.short
      simp only [aclName, f, List.length_append, pathMax, ntmexKeylen] at this ⊢
      have hdot : (lit ".").length = 1 := rfl
      have hext : (lit ".acl").length = 4 := rfl
      rw [hdot, hext, List.length_nil]
      omega
    obtain ⟨out, hout, hiff⟩ := h.ntmex f Ntmex.start _ rfl rfl hframe hshort
    obtain ⟨out', hout', hset⟩ :=
      @xsNtmexInskey_keyset file key f Ntmex.start _ rfl rfl hframe hshort
    obtain rfl : out' = out := Option.some.inj (hout'.symm.trans hout)
    rwa [hset] at hiff
  · intro hiff
    refine ⟨fun f s binacl buf hdb hs hkey hfits => ?_, fun f s buf hdb hs hkey hfits => ?_⟩
    · obtain ⟨s', acl, hout, hset⟩ := xsAceInskey_keyset binacl hdb hs hkey hfits
      exact ⟨s', acl, hout, by rwa [hset]⟩
    · obtain ⟨out, hout, hset⟩ := xsNtmexInskey_keyset hdb hs hkey hfits
      exact ⟨out, hout, by rwa [hset]⟩

/-- The key `two`. -/
def exampleAccessKey : AccessKey := ⟨lit "two", by decide, by decide, by decide⟩

/-- A key file that does not end in a newline. -/
def exampleUnended : NtmexFiles :=
  ⟨lit "/k", some (lit "one\ntwo"), fun _ => false, fun _ => none⟩

/-- The key is the last line of that file; it is not installed. -/
theorem inskey_last_line : ¬ InskeyMeets (lit "one\ntwo") exampleAccessKey := by
  intro h
  obtain ⟨out, hout, hiff⟩ := h.ntmex exampleUnended Ntmex.start (lit "INSKEY two") rfl rfl
    (by decide) (by decide)
  have hfail : xsNtmexInskey exampleUnended Ntmex.start (lit "INSKEY two") =
      some (Ntmex.start.replying (cmdFailText (lit "2 : Failed to set the key."))) := by
    decide
  obtain rfl := Option.some.inj (hfail.symm.trans hout)
  exact absurd (hiff.mpr (by decide)) (by decide)

end TFProtocol
