import TFProtocol.Server

/-!
# Looking up an access token

A client may send `FAI://` and the name of a token in place of the version.  `chkproto`
searches the whole string for `FAI://` but takes everything behind its first six bytes as
the name, puts the name behind `faipath` and opens the result.  `chkfaitok` reads the
first line of that file; where the number in front of the line's first blank is not in
the future, the file is unlinked.

## Main definitions

* `faiLine` — the expiry and the key as `chkfaitok` finds them in a file.
* `FaiEvent`, `chkprotoFiles` — the files a version string makes the server open and
  unlink.
* `FaiConfined` — they are token files directly inside `faipath`.

## Main results

* `fai_confined_iff` — this holds exactly for names of one component, unless the
  file of that name is no token file.
-/

namespace TFProtocol

open Bytes CStr

/-! ### The token file -/

/-- The first line of a token file, at its first blank. -/
def faiLine (content : List Byte) : Option (List Byte × List Byte) :=
  match lines newline lineMax content with
  | line :: _ => strchr blank (cstr line)
  | [] => none

/-- The token has expired, as `chkfaitok` sees it. -/
def Lapsed (time : ℤ) (content : List Byte) : Prop :=
  ∃ l ∈ faiLine content, strtol l.1 ≤ time

instance (time : ℤ) (content : List Byte) : Decidable (Lapsed time content) :=
  match h : faiLine content with
  | none => .isFalse (by simp [Lapsed, h])
  | some l => decidable_of_iff (strtol l.1 ≤ time) (by simp [Lapsed, h])

/-- What `chkfaitok` returns, from the file's content. -/
theorem chkfaitok_eq (w : World) (faifile : List Byte) :
    chkfaitok w faifile = (w.fs.read faifile).bind fun content =>
      if Lapsed w.time content then none
      else (faiLine content).bind fun l => w.base64dec (chop l.2) := by
  unfold chkfaitok
  cases hread : w.fs.read faifile with
  | none => rfl
  | some content =>
    simp only [Option.map_some, Option.bind_some]
    cases hlines : lines newline lineMax content with
    | nil => simp [Lapsed, faiLine, hlines]
    | cons line rest =>
      have hfai : faiLine content = strchr blank (cstr line) := by simp only [faiLine, hlines]
      cases hchr : strchr blank (cstr line) with
      | none => simp [Lapsed, hfai, hchr]
      | some l => simp [Lapsed, hfai, hchr]

/-- A number as `FAITOK` writes it. -/
def isExpiry (s : List Byte) : Bool := s ≠ [] && s.all isDigit

/-- A token file: a number, a blank and a key on its first line. -/
def TokenFile (content : List Byte) : Prop := ∃ l ∈ faiLine content, isExpiry l.1 = true

instance (content : List Byte) : Decidable (TokenFile content) :=
  match h : faiLine content with
  | none => .isFalse (by simp [TokenFile, h])
  | some l => decidable_of_iff (isExpiry l.1 = true) (by simp [TokenFile, h])

/-! ### The files that are touched -/

/-- What happens to a file during a lookup. -/
inductive FaiEvent
  /-- It is opened, and read as a token. -/
  | opened (path : List Byte)
  | unlinked (path : List Byte)
  deriving DecidableEq, Repr

/-- The files `chkfaitok` touches. -/
def chkfaitokFiles (w : World) (faifile : List Byte) : List FaiEvent :=
  match w.fs.read faifile with
  | none => []
  | some content =>
    .opened faifile :: if Lapsed w.time content then [.unlinked faifile] else []

section Layer

variable (o : Endian) (aes : Aes)

/-- The name of the token that the next frame asks for, if it asks for one. -/
def faiName (cfg : Config) (s : Sess) : Option (List Byte) :=
  let r := readbuf o aes s
  let ver := cstr r.sess.buf
  if r.ret = -1 then none
  else if ver = cfg.proto then none
  else if (strstr faiaccessTok ver).isSome then some (ver.drop faiaccessTok.length)
  else none

/-- The files `chkproto` touches. -/
def chkprotoFiles (cfg : Config) (w : World) (s : Sess) : List FaiEvent :=
  match faiName o aes cfg s with
  | some name => chkfaitokFiles w (cfg.faipath ++ name)
  | none => []

/-- A path that names an entry of a directory: its components are those of the directory
and one more. -/
def DirectlyIn (dir path : List Byte) : Prop :=
  ∃ c, c ≠ dotdot ∧ comps path = comps dir ++ [c]

/-- Every file a version string makes the server open is an entry of `faipath`, and every
file it makes the server unlink is an expired token file there. -/
structure FaiConfined (cfg : Config) (w : World) (s : Sess) : Prop where
  opened : ∀ path, .opened path ∈ chkprotoFiles o aes cfg w s → DirectlyIn cfg.faipath path
  unlinked : ∀ path, .unlinked path ∈ chkprotoFiles o aes cfg w s →
    DirectlyIn cfg.faipath path ∧
      ∃ content ∈ w.fs.read path, TokenFile content ∧ Lapsed w.time content

end Layer

/-- A name of one component that does not lead upwards. -/
def PlainName (name : List Byte) : Prop := ∃ c, c ≠ dotdot ∧ comps name = [c]

variable {o : Endian} {aes : Aes}

/-- A key is granted, or a token refused, by the file that `chkprotoFiles` records. -/
theorem chkproto_granted {cfg : Config} {w : World} {s : Sess} {key : List Byte}
    (h : (chkproto o aes cfg w s).val = .granted key) :
    ∃ name ∈ faiName o aes cfg s, chkfaitok w (cfg.faipath ++ name) = some key ∧
      chkprotoFiles o aes cfg w s = [.opened (cfg.faipath ++ name)] := by
  simp only [chkproto] at h
  split at h
  · cases h
  · next hret =>
    split at h
    · cases h
    · next hver =>
      split at h
      · next hfai =>
        have hname : faiName o aes cfg s
            = some ((cstr (readbuf o aes s).sess.buf).drop faiaccessTok.length) := by
          simp only [faiName, hret, hver, hfai, if_false, if_true]
        refine ⟨_, hname, ?_⟩
        split at h
        · next k hk =>
          obtain rfl : k = key := by simpa using h
          refine ⟨hk, ?_⟩
          rw [chkfaitok_eq] at hk
          obtain ⟨content, hread, hkey⟩ := Option.bind_eq_some_iff.mp hk
          split at hkey
          · cases hkey
          · next hlapsed =>
            simp only [chkprotoFiles, hname, chkfaitokFiles, hread, hlapsed, if_false]
        · cases h
      · cases h

/-- A name names an entry of `faipath` exactly when it is plain. -/
theorem directlyIn_append {dir name : List Byte} (hdir : dir.getLast? = some slash) :
    DirectlyIn dir (dir ++ name) ↔ PlainName name := by
  have hcomps : comps (dir ++ name) = comps dir ++ comps name := by
    obtain ⟨d, rfl⟩ : ∃ d, dir = d ++ [slash] := List.getLast?_eq_some_iff.mp hdir
    have hname : comps (d ++ slash :: name) = comps d ++ comps name :=
      LexPath.comps_append_sep d name
    have htrail : comps (d ++ [slash]) = comps d := LexPath.comps_concat_sep d
    rw [List.append_assoc, List.singleton_append, hname, htrail]
  unfold DirectlyIn PlainName
  simp only [hcomps, List.append_cancel_left_eq]

/-- **When a lookup stays inside `faipath`.**  For every version string and every content
of the host's files: the files it touches are token files directly inside `faipath`, and
only expired ones are unlinked, exactly when the file named (if there is one) has a name
of one component and, where its first field is not in the future, that field is a
number. -/
theorem fai_confined_iff {cfg : Config} (hdir : cfg.faipath.getLast? = some slash) (w : World)
    (s : Sess) :
    FaiConfined o aes cfg w s ↔
      ∀ name ∈ faiName o aes cfg s, ∀ content ∈ w.fs.read (cfg.faipath ++ name),
        PlainName name ∧ (Lapsed w.time content → TokenFile content) := by
  constructor
  · intro h name hname content hcontent
    have hfiles : chkprotoFiles o aes cfg w s = .opened (cfg.faipath ++ name) ::
        if Lapsed w.time content then [.unlinked (cfg.faipath ++ name)] else [] := by
      simp only [chkprotoFiles, Option.mem_def.mp hname, chkfaitokFiles, Option.mem_def.mp hcontent]
    refine ⟨(directlyIn_append hdir).mp (h.opened _ (by simp [hfiles])), fun hlapsed => ?_⟩
    obtain ⟨-, content', hread, htoken, -⟩ := h.unlinked (cfg.faipath ++ name)
      (by simp [hfiles, hlapsed])
    rwa [Option.mem_unique hcontent hread]
  · intro h
    have hfile : ∀ e ∈ chkprotoFiles o aes cfg w s, ∃ name ∈ faiName o aes cfg s,
        ∃ content ∈ w.fs.read (cfg.faipath ++ name), e = .opened (cfg.faipath ++ name) ∨
          Lapsed w.time content ∧ e = .unlinked (cfg.faipath ++ name) := by
      intro e he
      unfold chkprotoFiles at he
      split at he
      · next name hname =>
        refine ⟨name, hname, ?_⟩
        unfold chkfaitokFiles at he
        split at he
        · cases he
        · next content hread =>
          refine ⟨content, hread, ?_⟩
          rcases List.mem_cons.mp he with rfl | he
          · exact .inl rfl
          · split at he
            · next hlapsed => exact .inr ⟨hlapsed, by simpa using he⟩
            · cases he
      · cases he
    constructor
    · intro path hpath
      obtain ⟨name, hname, content, hread, heq⟩ := hfile _ hpath
      obtain rfl : path = cfg.faipath ++ name := by simpa using heq
      exact (directlyIn_append hdir).mpr (h name hname content hread).1
    · intro path hpath
      obtain ⟨name, hname, content, hread, heq⟩ := hfile _ hpath
      obtain ⟨hlapsed, rfl⟩ : Lapsed w.time content ∧ path = cfg.faipath ++ name := by
        simpa using heq
      obtain ⟨hplain, htoken⟩ := h name hname content hread
      exact ⟨(directlyIn_append hdir).mpr hplain, content, hread, htoken hlapsed, hlapsed⟩

/-- A server that is about to read a version in clear. -/
def exampleVersion (ver : List Byte) : Sess :=
  (connect exampleConfig (exampleNet (clearFrame ver))).sess

theorem fai_confined_iff_plain :
    chkprotoFiles .little Aes.sample exampleConfig exampleWorld (exampleVersion (lit "FAI://tok"))
        = [.opened (lit "/fai/tok")] ∧
      FaiConfined .little Aes.sample exampleConfig exampleWorld
        (exampleVersion (lit "FAI://tok")) := by
  have hname : faiName .little Aes.sample exampleConfig (exampleVersion (lit "FAI://tok"))
      = some (lit "tok") := by decide +kernel
  refine ⟨by decide +kernel, (fai_confined_iff rfl _ _).mpr ?_⟩
  intro name hmem content hread
  obtain rfl : lit "tok" = name := by simpa [hname] using hmem
  obtain rfl : lit "9 token\n" = content := by simpa [exampleWorld] using hread
  exact ⟨⟨lit "tok", by decide, by decide⟩, by decide⟩

/-- A client that has not logged in names a file outside `faipath`, and the server opens
it and deletes it. -/
theorem fai_escapes :
    let w := { exampleWorld with time := 10 }
    let s := exampleVersion (lit "FAI://../x")
    chkprotoFiles .little Aes.sample exampleConfig w s
        = [.opened (lit "/fai/../x"), .unlinked (lit "/fai/../x")] ∧
      ¬ FaiConfined .little Aes.sample exampleConfig w s := by
  intro w s
  have hfiles : chkprotoFiles .little Aes.sample exampleConfig w s
      = [.opened (lit "/fai/../x"), .unlinked (lit "/fai/../x")] := by decide +kernel
  refine ⟨hfiles, fun h => ?_⟩
  obtain ⟨c, -, hcomps⟩ := h.opened (lit "/fai/../x") (by simp [hfiles])
  have hlen := congrArg List.length hcomps
  rw [List.length_append, List.length_singleton] at hlen
  exact absurd hlen (by decide)

end TFProtocol
