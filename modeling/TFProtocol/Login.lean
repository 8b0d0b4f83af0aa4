import TFProtocol.Roots

/-!
# Login

`cmd_login` looks for the user name and a blank in the lines of the user database,
stops at the first line in which they occur, and compares the rest of that line with
the password.  The pointer that receives the result of the search is the one that
pointed at the password in the request before, and the search may not run at all.

## Main definitions

* `LoginEnv` — the user database, and what the system knows about a user.
* `scan` — the search loop, with the pointer it starts from.
* `cmdLogin` — the handler, on the memory behind the command name.
* `Listed` — the database has a line with this name and this password.
* `Unambiguous` — the first line the search stops at speaks for all lines.

## Main results

* `login_exact` — for which databases and users the handler lets in exactly the
  listed passwords.
-/

namespace TFProtocol

open Bytes CStr

/-- `PWDBLINE`. -/
def pwdbline : ℕ := 1024

/-- The blank. -/
def blank : Byte := ofChar ' '

/-- What `cmd_login` finds outside. -/
structure LoginEnv where
  /-- The content of the user database, if it can be opened. -/
  userdb : Option (List Byte)
  /-- `getpwnam`, `setgid` and `setuid` succeed for a user. -/
  sysusr : List Byte → Bool

/-- The reply, and the flag `logged` afterwards. -/
structure LoginRes where
  reply : List Byte
  logged : Bool
  deriving DecidableEq, Repr

/-- The loop over the lines: the memory at the pointer `pt` afterwards.  A line
without the text sets it to null, and without any line it stays as it was. -/
def scan (usr : List Byte) : Option (List Byte) → List (List Byte) → Option (List Byte)
  | pt, [] => pt
  | _, line :: ls =>
    match strstr usr (cstr line) with
    | some (_, rest) => some (usr ++ rest)
    | none => scan usr none ls

/-- `cmd_login`, on the memory of `comm.buf` behind the command name. -/
def cmdLogin (env : LoginEnv) (logged : Bool) (mem : List Byte) : LoginRes :=
  if logged then ⟨cmdFailText (lit "51 : The process is already in-jailed."), true⟩
  else
    match strchr blank (cstr mem) with
    | none => ⟨cmdFailText (lit "16 : Missing parameter from command."), false⟩
    | some (u, pwd) =>
      match env.userdb with
      | none => ⟨cmdFailText (lit "40 : Failed to open users database."), false⟩
      | some file =>
        match scan (u ++ [blank]) (some (mem.drop (u.length + 1))) (lines newline pwdbline file) with
        | none => ⟨cmdFailText (lit "37 : Login failed."), false⟩
        | some pt =>
          if chop (cstr (pt.drop (u.length + 1))) = pwd && env.sysusr u then ⟨cmdOkText, true⟩
          else ⟨cmdFailText (lit "37 : Login failed."), false⟩

/-- Some line of the file is the name, one blank, and the password. -/
def Listed (file u p : List Byte) : Prop := u ++ blank :: p ∈ file.splitOn newline

instance (file u p : List Byte) : Decidable (Listed file u p) :=
  inferInstanceAs (Decidable (_ ∈ _))

/-- A user name: no blank, newline or NUL. -/
structure IsUser (u : List Byte) : Prop where
  no_blank : blank ∉ u
  no_newline : newline ∉ u
  no_nul : 0 ∉ u

/-- The text behind the first occurrence of a string in the first line that has
one, up to the newline. -/
def firstHit (usr : List Byte) : List (List Byte) → Option (List Byte)
  | [] => none
  | line :: ls =>
    match strstr usr (cstr line) with
    | some (_, rest) => some (chop rest)
    | none => firstHit usr ls

/-- What the search finds first speaks for all lines: the file has the line it
seems to be the rest of, and no line gives the user another password.  When it finds
nothing, no line starts with the user. -/
def Unambiguous (file u : List Byte) : Prop :=
  match firstHit (u ++ [blank]) (lines newline pwdbline file) with
  | none => ∀ p, 0 ∉ p → ¬ Listed file u p
  | some r => Listed file u r ∧ ∀ p, 0 ∉ p → Listed file u p → p = r

/-! ### The search -/

theorem zero_not_mem_of_strstr {usr line a rest : List Byte}
    (h : strstr usr (cstr line) = some (a, rest)) : 0 ∉ rest := by
  intro hmem
  have heq := eq_of_strstr h
  exact zero_not_mem_cstr line (by rw [heq]; exact List.mem_append_right _ hmem)

/-- With at least one line, where the pointer started does not matter: it ends at
the first line with the text, or at null. -/
theorem scan_of_ne_nil (usr : List Byte) : ∀ {ls : List (List Byte)} (pt : Option (List Byte)),
    ls ≠ [] →
    (scan usr pt ls).map (fun pt => chop (cstr (pt.drop usr.length))) = firstHit usr ls := by
  intro ls
  induction ls with
  | nil => intro pt h; exact absurd rfl h
  | cons line ls ih =>
    intro pt _
    cases hit : strstr usr (cstr line) with
    | some r =>
      obtain ⟨a, rest⟩ := r
      simp only [scan, firstHit, hit, Option.map_some, List.drop_left,
        cstr_eq_self (zero_not_mem_of_strstr hit)]
    | none =>
      simp only [scan, firstHit, hit]
      cases ls with
      | nil => rfl
      | cons l ls => exact ih none (by simp)

theorem zero_not_mem_chop {s : List Byte} (h : 0 ∉ s) : 0 ∉ chop s := by
  unfold chop
  split
  · rename_i text rest hsplit
    obtain ⟨rfl, -⟩ := strchr_eq_some_iff.mp hsplit
    exact fun hm => h (List.mem_append_left _ hm)
  · exact h

theorem zero_not_mem_firstHit {usr r : List Byte} : ∀ {ls : List (List Byte)},
    firstHit usr ls = some r → 0 ∉ r := by
  intro ls
  induction ls with
  | nil => intro h; simp [firstHit] at h
  | cons line ls ih =>
    intro h
    cases hit : strstr usr (cstr line) with
    | some parts =>
      obtain ⟨a, rest⟩ := parts
      simp only [firstHit, hit, Option.some.injEq] at h
      rw [← h]
      exact zero_not_mem_chop (zero_not_mem_of_strstr hit)
    | none =>
      simp only [firstHit, hit] at h
      exact ih h

/-! ### The handler -/

/-- The memory of a request `u p`, with anything behind it. -/
def request (u p stale : List Byte) : List Byte := u ++ blank :: (p ++ 0 :: stale)

theorem cstr_request {u p : List Byte} (hu : IsUser u) (hp : 0 ∉ p) (stale : List Byte) :
    strchr blank (cstr (request u p stale)) = some (u, p) := by
  have hmem : 0 ∉ u ++ blank :: p := by
    rw [List.mem_append, List.mem_cons]
    rintro (h | h | h)
    · exact hu.no_nul h
    · exact absurd h (by decide)
    · exact hp h
  have hcstr : cstr (request u p stale) = u ++ blank :: p := by
    have := cstr_of_not_mem hmem stale
    simpa [request] using this
  rw [hcstr, strchr_append hu.no_blank]

/-- What the handler answers when the database can be opened. -/
theorem cmdLogin_logged {env : LoginEnv} {file u p : List Byte} (hdb : env.userdb = some file)
    (hsys : env.sysusr u = true) (hu : IsUser u) (hp : 0 ∉ p) (stale : List Byte) :
    (cmdLogin env false (request u p stale)).logged = true ↔
      (scan (u ++ [blank]) (some (p ++ 0 :: stale)) (lines newline pwdbline file)).map
        (fun pt => chop (cstr (pt.drop (u.length + 1)))) = some p := by
  have hdrop : (request u p stale).drop (u.length + 1) = p ++ 0 :: stale := by
    have hsplit : request u p stale = (u ++ [blank]) ++ (p ++ 0 :: stale) := by simp [request]
    rw [hsplit]
    exact List.drop_left' (by simp)
  simp only [cmdLogin, Bool.false_eq_true, if_false, cstr_request hu hp, hdb, hdrop]
  cases scan (u ++ [blank]) (some (p ++ 0 :: stale)) (lines newline pwdbline file) with
  | none => simp
  | some pt =>
    simp only [hsys, Bool.and_true, Option.map_some, Option.some.injEq]
    by_cases h : chop (cstr (pt.drop (u.length + 1))) = p
    · simp [h]
    · simp [h]

/-- A database with at least one byte: the password has to be what the search
finds first. -/
theorem cmdLogin_logged_of_ne_nil {env : LoginEnv} {file u p : List Byte}
    (hdb : env.userdb = some file) (hsys : env.sysusr u = true) (hu : IsUser u) (hp : 0 ∉ p)
    (hfile : file ≠ []) (stale : List Byte) :
    (cmdLogin env false (request u p stale)).logged = true ↔
      firstHit (u ++ [blank]) (lines newline pwdbline file) = some p := by
  have hlines : lines newline pwdbline file ≠ [] := by
    intro h
    exact hfile (chunks_eq_nil h)
  have hscan := scan_of_ne_nil (u ++ [blank]) (some (p ++ 0 :: stale)) hlines
  rw [List.length_append, List.length_singleton] at hscan
  rw [cmdLogin_logged hdb hsys hu hp, hscan]

/-- An empty database: the pointer still points into the request, and a request
with an empty password and cleared memory behind it gets in. -/
theorem cmdLogin_empty {env : LoginEnv} {u : List Byte} (hdb : env.userdb = some [])
    (hsys : env.sysusr u = true) (hu : IsUser u) :
    (cmdLogin env false (request u [] (List.replicate (u.length + 1) 0))).logged = true := by
  rw [cmdLogin_logged hdb hsys hu (by simp)]
  have hlines : lines newline pwdbline [] = [] := rfl
  simp only [hlines, scan, List.nil_append, Option.map_some, List.drop_succ_cons,
    List.drop_replicate, Option.some.injEq]
  rw [show u.length + 1 - u.length = 1 from by omega]
  rfl

/-- **For which databases and users the login is exact.**  The handler lets the
user in with exactly the listed passwords, whatever lies in memory behind the
request, if and only if the database is not empty and what the search finds first
speaks for all lines. -/
theorem login_exact {env : LoginEnv} {file u : List Byte} (hdb : env.userdb = some file)
    (hsys : env.sysusr u = true) (hu : IsUser u) :
    (∀ p stale, 0 ∉ p →
        ((cmdLogin env false (request u p stale)).logged = true ↔ Listed file u p)) ↔
      file ≠ [] ∧ Unambiguous file u := by
  constructor
  · intro h
    -- an empty database lets the request be compared with itself
    have hfile : file ≠ [] := by
      rintro rfl
      have hin := (h [] (List.replicate (u.length + 1) 0) (by simp)).mp
        (cmdLogin_empty hdb hsys hu)
      simp [Listed] at hin
    -- with a line in the database the handler compares with what the search finds
    have hcode : ∀ p, 0 ∉ p →
        (firstHit (u ++ [blank]) (lines newline pwdbline file) = some p ↔ Listed file u p) := by
      intro p hp
      rw [← cmdLogin_logged_of_ne_nil hdb hsys hu hp hfile []]
      exact h p [] hp
    refine ⟨hfile, ?_⟩
    unfold Unambiguous
    cases hhit : firstHit (u ++ [blank]) (lines newline pwdbline file) with
    | none =>
      intro p hp hlisted
      have := (hcode p hp).mpr hlisted
      rw [hhit] at this
      cases this
    | some r =>
      refine ⟨(hcode r (zero_not_mem_firstHit hhit)).mp hhit, ?_⟩
      intro p hp hlisted
      have := (hcode p hp).mpr hlisted
      rw [hhit] at this
      cases this
      rfl
  · rintro ⟨hfile, hun⟩ p stale hp
    rw [cmdLogin_logged_of_ne_nil hdb hsys hu hp hfile]
    unfold Unambiguous at hun
    cases hhit : firstHit (u ++ [blank]) (lines newline pwdbline file) with
    | none =>
      rw [hhit] at hun
      simpa using hun p hp
    | some r =>
      rw [hhit] at hun
      obtain ⟨hr, hall⟩ := hun
      constructor
      · rintro h
        cases h
        exact hr
      · intro h
        rw [hall p hp h]

/-- A system that knows every user, with the database given. -/
def exampleLogin (file : List Byte) : LoginEnv := ⟨some file, fun _ => true⟩

theorem root_isUser : IsUser (lit "root") := ⟨by decide, by decide, by decide⟩

theorem login_exact_example :
    (cmdLogin (exampleLogin (lit "ann x\nroot pw\n")) false
        (request (lit "root") (lit "pw") [])).logged = true := by
  have hun : Unambiguous (lit "ann x\nroot pw\n") (lit "root") := by
    have hhit : firstHit (lit "root" ++ [blank]) (lines newline pwdbline (lit "ann x\nroot pw\n"))
        = some (lit "pw") := by decide +kernel
    unfold Unambiguous
    rw [hhit]
    refine ⟨by decide +kernel, ?_⟩
    intro p _ hp
    have hlines : (lit "ann x\nroot pw\n").splitOn newline
        = [lit "ann x", lit "root pw", []] := by decide +kernel
    unfold Listed at hp
    rw [hlines] at hp
    simpa [lit, blank, ofChar] using hp
  have hdb : (exampleLogin (lit "ann x\nroot pw\n")).userdb = some (lit "ann x\nroot pw\n") := rfl
  exact ((login_exact hdb rfl root_isUser).mpr
    ⟨by decide, hun⟩ (lit "pw") [] (by decide)).mpr (by decide +kernel)

/-- The line of another user lets `root` in; a line that mentions `root` first
keeps `root` out; and with an empty database an empty password does. -/
theorem login_not_exact :
    ((cmdLogin (exampleLogin (lit "xroot pw\n")) false
        (request (lit "root") (lit "pw") [])).logged = true ∧
      ¬ Listed (lit "xroot pw\n") (lit "root") (lit "pw")) ∧
    ((cmdLogin (exampleLogin (lit "groot a\nroot b\n")) false
        (request (lit "root") (lit "b") [])).logged = false ∧
      Listed (lit "groot a\nroot b\n") (lit "root") (lit "b")) ∧
    ((cmdLogin (exampleLogin []) false
        (request (lit "root") [] (List.replicate 8 0))).logged = true ∧
      ¬ Listed [] (lit "root") []) := by
  decide +kernel

end TFProtocol
