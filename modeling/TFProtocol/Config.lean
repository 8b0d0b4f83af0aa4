import TFProtocol.Login

/-!
# The configuration file

`init` reads the file line by line, drops the lines that start with `#` and joins the
others to one text.  It then looks for each keyword anywhere in that text, with `strstr`,
and takes what stands behind the first occurrence up to the end of the line; a flag is set
if its word occurs anywhere.

A file is given here as a list of lines in the sense of the manual: comments, settings,
flags and key blocks.  What the file says is read off that list; what `init` makes of it is
computed from the bytes.

## Main definitions

* `Conf.init` — the function, from the bytes of the file.
* `ConfFile` — a file as the manual describes it, and its bytes.
* `LineOriented` — the configuration is what the lines say.
* `Placed` — behind the first occurrence of each keyword stands the value of its own line.
* `Tidy` — that occurrence is in the line itself.

## Main results

* `init_line_oriented` — **the configuration is what the lines say exactly if every keyword
  is placed so**, and then the order of the lines does not matter.
* `placed_of_tidy` — and they are in a file in which no keyword occurs before its own line.
-/

namespace TFProtocol

namespace Conf

open Bytes CStr

/-! ### Reading the text -/

/-- `PROTOLEN`. -/
def protolen : ℕ := 32

/-- `HASHLEN`. -/
def hashlen : ℕ := 256

/-- `PORTLEN`. -/
def portlen : ℕ := 6

/-- `PRIVLEN`. -/
def privlen : ℕ := 2048

/-- `PUBLEN`. -/
def publen : ℕ := 1024

/-- `DEFUSRLEN`. -/
def defusrlen : ℕ := 256

/-- `TRPLEN`. -/
def trplen : ℕ := 256

/-- `LLDIGITS`. -/
def lldigits : ℕ := 22

/-- `FAIMAX_QDEF`. -/
def faimaxQdef : ℤ := 360

/-- `COMMENT`. -/
def comment : Byte := ofChar '#'

/-- `PRIVKEY_ENDTOK` and `PUBKEY_ENDTOK`. -/
def endtok : Byte := 125

/-- Why `init` does not return zero: it gives up, or it writes or reads past an array. -/
inductive Stop
  | failed
  | fault
  deriving DecidableEq, Repr

/-- The lines that are not comments, joined.  A line longer than the buffer of `fgets`
comes in pieces, and each piece is looked at by itself. -/
def confText (file : List Byte) : List Byte :=
  ((lines newline lineMax file).filter (·.head? ≠ some comment)).flatMap cstr

/-- The text behind the first occurrence of a token. -/
def after (token buf : List Byte) : Option (List Byte) := (strstr token buf).map Prod.snd

/-- The loop that copies the rest of a line to an array of `len` bytes. -/
def copyLine (len : ℕ) (pt : List Byte) : List Byte :=
  (pt.takeWhile (· ≠ newline)).take (len - 1)

/-- The loop that copies a key. -/
def copyBlock (pt : List Byte) : List Byte := pt.takeWhile (· ≠ endtok)

/-- A string in an array of `len` bytes. -/
def fits (len : ℕ) (s : List Byte) : Except Stop (List Byte) :=
  if s.length < len then .ok s else .error .fault

/-- A setting without which `init` gives up. -/
def required (token : List Byte) (len : ℕ) (buf : List Byte) : Except Stop (List Byte) :=
  match after token buf with
  | none => .error .failed
  | some pt => if (copyLine len pt).isEmpty then .error .failed else .ok (copyLine len pt)

/-- A setting whose field is empty if there is none. -/
def optional (token : List Byte) (len : ℕ) (buf : List Byte) : List Byte :=
  match after token buf with
  | none => []
  | some pt => copyLine len pt

/-- The two settings whose token has no blank: one character is skipped.  Where the text
fills its buffer and ends with the token, that character is the terminator. -/
def skipped (size : ℕ) (buf pt : List Byte) : Except Stop (List Byte) :=
  if pt.isEmpty ∧ buf.length = size then .error .fault else .ok (pt.drop 1)

/-- The keywords with a value. -/
inductive Setting
  | proto | hash | dbdir | port | defusr | userdb | rpcproxy | faipath | faitokMq
  | xsntmex | xsace | tlb | nprocmax | trpDns | trpIpv4 | trpIpv6
  deriving DecidableEq, Repr

/-- The first word of the line of a setting. -/
def Setting.word : Setting → List Byte
  | .proto => lit "proto"
  | .hash => lit "hash"
  | .dbdir => lit "dbdir"
  | .port => lit "port"
  | .defusr => lit "defusr"
  | .userdb => lit "userdb"
  | .rpcproxy => lit "rpcproxy"
  | .faipath => lit "faipath"
  | .faitokMq => lit "faitok_mq"
  | .xsntmex => lit "xsntmex"
  | .xsace => lit "xsace"
  | .tlb => lit "tlb"
  | .nprocmax => lit "nprocmax"
  | .trpDns => lit "trp_dns"
  | .trpIpv4 => lit "trp_ipv4"
  | .trpIpv6 => lit "trp_ipv6"

/-- What `init` looks for: the word and a blank, but for two settings only the word. -/
def Setting.token : Setting → List Byte
  | .faipath => Setting.faipath.word
  | .faitokMq => Setting.faitokMq.word
  | s => s.word ++ [blank]

/-- The keywords without a value. -/
inductive Flag
  | injail | runbash | flycontext | locksys
  deriving DecidableEq, Repr

def Flag.word : Flag → List Byte
  | .injail => lit "injail"
  | .runbash => lit "runbash"
  | .flycontext => lit "flycontext"
  | .locksys => lit "locksys"

/-- The two keys. -/
inductive Block
  | privkey | pubkey
  deriving DecidableEq, Repr

/-- `PRIVKEY` and `PUBKEY`. -/
def Block.token : Block → List Byte
  | .privkey => lit "privkey \x7b"
  | .pubkey => lit "pubkey \x7b"

/-- `trp_tp`. -/
inductive TrpType
  | none | dns | ipv4 | ipv6
  deriving DecidableEq, Repr

/-! ### The function -/

/-- `struct tfproto`, without the arguments of the program. -/
structure Tfproto where
  proto : List Byte
  hash : List Byte
  dbdir : List Byte
  port : List Byte
  priv : List Byte
  defusr : List Byte
  userdb : List Byte
  rpcproxy : List Byte
  faipath : List Byte
  faitokMq : ℤ
  xsntmex : List Byte
  xsace : List Byte
  injail : Bool
  runbash : Bool
  flycontext : Bool
  locksys : Bool
  tlb : List Byte
  nprocmax : ℤ
  pub : List Byte
  trpTp : TrpType
  trp : List Byte
  deriving DecidableEq, Repr

/-- The private key must be there. -/
def readPriv (buf : List Byte) : Except Stop (List Byte) :=
  match after Block.privkey.token buf with
  | none => .error .failed
  | some pt => fits privlen (copyBlock pt)

def readPub (buf : List Byte) : Except Stop (List Byte) :=
  match after Block.pubkey.token buf with
  | none => .ok []
  | some pt => fits publen (copyBlock pt)

def readFaipath (size : ℕ) (buf : List Byte) : Except Stop (List Byte) :=
  match after Setting.faipath.token buf with
  | none => .error .failed
  | some pt => do
    let pt ← skipped size buf pt
    fits pathMax (copyLine pathMax pt ++ [slash])

/-- The digits go to an array of `LLDIGITS` bytes, but up to `PATH_MAX` of them. -/
def readFaitokMq (size : ℕ) (buf : List Byte) : Except Stop ℤ :=
  match after Setting.faitokMq.token buf with
  | none => .ok faimaxQdef
  | some pt => do
    let pt ← skipped size buf pt
    let faiq ← fits lldigits (copyLine pathMax pt)
    return strtol faiq

def readNprocmax (buf : List Byte) : ℤ :=
  match after Setting.nprocmax.token buf with
  | none => 0
  | some pt => strtol (copyLine lineMax pt)

/-- The transparent proxy: the first of the three tokens that occurs. -/
def readTrp (buf : List Byte) : TrpType × List Byte :=
  match after Setting.trpDns.token buf with
  | some pt => (.dns, copyLine trplen pt)
  | none =>
    match after Setting.trpIpv4.token buf with
    | some pt => (.ipv4, copyLine trplen pt)
    | none =>
      match after Setting.trpIpv6.token buf with
      | some pt => (.ipv6, copyLine trplen pt)
      | none => (.none, [])

/-- A flag is set if its word occurs. -/
def readFlag (w : Flag) (buf : List Byte) : Bool := (strstr w.word buf).isSome

/-- `init`, given the bytes of the file.  `realpath` is what the library function leaves
in its buffer. -/
def init (realpath : List Byte → List Byte) (file : List Byte) : Except Stop Tfproto := do
  let buf := confText file
  let proto ← required Setting.proto.token protolen buf
  let hash ← required Setting.hash.token hashlen buf
  let dbdir ← required Setting.dbdir.token pathMax buf
  let dbdir ← fits pathMax (dbdir ++ [slash])
  let port ← required Setting.port.token portlen buf
  let priv ← readPriv buf
  let faipath ← readFaipath file.length buf
  let faitokMq ← readFaitokMq file.length buf
  let pub ← readPub buf
  -- `stddbpath`
  let dbdir ← fits pathMax (realpath dbdir ++ [slash])
  return { proto, hash, dbdir, port, priv, faipath, faitokMq, pub
           defusr := optional Setting.defusr.token defusrlen buf
           userdb := optional Setting.userdb.token pathMax buf
           rpcproxy := optional Setting.rpcproxy.token pathMax buf
           xsntmex := optional Setting.xsntmex.token pathMax buf
           xsace := optional Setting.xsace.token pathMax buf
           injail := readFlag .injail buf
           runbash := readFlag .runbash buf
           flycontext := readFlag .flycontext buf
           locksys := readFlag .locksys buf
           tlb := optional Setting.tlb.token pathMax buf
           nprocmax := readNprocmax buf
           trpTp := (readTrp buf).1
           trp := (readTrp buf).2 }

/-! ### Files as the manual describes them -/

/-- A line, or a key block with the lines it spans. -/
inductive ConfLine
  | comment (text : List Byte)
  | setting (s : Setting) (value : List Byte)
  | flag (w : Flag)
  | block (b : Block) (body : List Byte)
  deriving DecidableEq, Repr

namespace ConfLine

/-- The bytes of a line, without its newline. -/
def text : ConfLine → List Byte
  | .comment t => Conf.comment :: t
  | .setting s v => s.word ++ blank :: v
  | .flag w => w.word
  | .block b body => b.token ++ body ++ [endtok]

/-- A value ends with its line, and a key with its brace; a comment is a line of its own. -/
def WF : ConfLine → Prop
  | .comment t => newline ∉ t
  | .setting _ v => newline ∉ v
  | .flag _ => True
  | .block _ body => endtok ∉ body ∧ ¬ [newline, Conf.comment] <:+: body

instance : DecidablePred WF
  | .comment t => inferInstanceAs (Decidable (newline ∉ t))
  | .setting _ v => inferInstanceAs (Decidable (newline ∉ v))
  | .flag _ => .isTrue trivial
  | .block _ body =>
    inferInstanceAs (Decidable (endtok ∉ body ∧ ¬ [newline, Conf.comment] <:+: body))

/-- The keyword of a setting or of a key. -/
def keyword : ConfLine → Option (Setting ⊕ Block)
  | .setting s _ => some (.inl s)
  | .block b _ => some (.inr b)
  | _ => none

/-- What follows a keyword in its own line. -/
def value (k : Setting ⊕ Block) : ConfLine → Option (List Byte)
  | .setting s v => if k = .inl s then some v else none
  | .block b v => if k = .inr b then some v else none
  | _ => none

end ConfLine

/-- A configuration file in which no keyword stands twice.  The last line may lack its
newline. -/
structure ConfFile where
  lines : List ConfLine
  ended : Bool
  wf : ∀ l ∈ lines, l.WF
  once : (lines.filterMap ConfLine.keyword).Nodup

namespace ConfFile

def bytes (f : ConfFile) : List Byte :=
  let file := unlines newline (f.lines.map ConfLine.text)
  if f.ended then file else file.dropLast

/-- The value of a keyword. -/
def value (f : ConfFile) (k : Setting ⊕ Block) : Option (List Byte) :=
  f.lines.findSome? (ConfLine.value k)

/-- The value of a setting, and the empty string if there is no line for it. -/
def str (f : ConfFile) (s : Setting) : List Byte := (f.value (.inl s)).getD []

/-- The number of a setting, and a default if there is no line for it. -/
def num (f : ConfFile) (s : Setting) (dflt : ℤ) : ℤ := ((f.value (.inl s)).map strtol).getD dflt

/-- A key, and the empty string if there is no block for it. -/
def key (f : ConfFile) (b : Block) : List Byte := (f.value (.inr b)).getD []

/-- The transparent proxy: the first of the three settings that has a line. -/
def trp (f : ConfFile) : TrpType × List Byte :=
  if (f.value (.inl .trpDns)).isSome then (.dns, f.str .trpDns)
  else if (f.value (.inl .trpIpv4)).isSome then (.ipv4, f.str .trpIpv4)
  else if (f.value (.inl .trpIpv6)).isSome then (.ipv6, f.str .trpIpv6)
  else (.none, [])

end ConfFile

/-- The settings that are copied as they are. -/
inductive Copied
  | proto | hash | port | defusr | userdb | rpcproxy | xsntmex | xsace | tlb
  deriving DecidableEq, Repr

def Copied.setting : Copied → Setting
  | .proto => .proto
  | .hash => .hash
  | .port => .port
  | .defusr => .defusr
  | .userdb => .userdb
  | .rpcproxy => .rpcproxy
  | .xsntmex => .xsntmex
  | .xsace => .xsace
  | .tlb => .tlb

/-- The size of the array of a setting. -/
def Copied.len : Copied → ℕ
  | .proto => protolen
  | .hash => hashlen
  | .port => portlen
  | .defusr => defusrlen
  | _ => pathMax

namespace Tfproto

def get (c : Tfproto) : Copied → List Byte
  | .proto => c.proto
  | .hash => c.hash
  | .port => c.port
  | .defusr => c.defusr
  | .userdb => c.userdb
  | .rpcproxy => c.rpcproxy
  | .xsntmex => c.xsntmex
  | .xsace => c.xsace
  | .tlb => c.tlb

def flag (c : Tfproto) : Flag → Bool
  | .injail => c.injail
  | .runbash => c.runbash
  | .flycontext => c.flycontext
  | .locksys => c.locksys

end Tfproto

/-- The configuration is what the lines say. -/
structure LineOriented (realpath : List Byte → List Byte) (f : ConfFile) (c : Tfproto) :
    Prop where
  strings : ∀ s : Copied, c.get s = f.str s.setting
  dbdir : c.dbdir =
    (f.value (.inl .dbdir)).elim [] fun v => realpath (v ++ [slash]) ++ [slash]
  faipath : c.faipath = (f.value (.inl .faipath)).elim [] fun v => v ++ [slash]
  faitokMq : c.faitokMq = f.num .faitokMq faimaxQdef
  nprocmax : c.nprocmax = f.num .nprocmax 0
  priv : c.priv = f.key .privkey
  pub : c.pub = f.key .pubkey
  trp : (c.trpTp, c.trp) = f.trp
  flags : ∀ w, c.flag w = true ↔ ConfLine.flag w ∈ f.lines

/-! ### Where the keywords stand -/

/-- A value stands at a place: it fits its array, and behind it the line or the text ends,
unless the array is full. -/
def Stands (len : ℕ) (v pt : List Byte) : Prop :=
  v <+: pt ∧ v.length < len ∧ (v.length + 1 = len ∨ ∀ b ∈ (pt.drop v.length).head?, b = newline)

/-- A key stands at a place, with its brace or the end of the text behind it. -/
def BlockStands (len : ℕ) (v pt : List Byte) : Prop :=
  v <+: pt ∧ v.length < len ∧ ∀ b ∈ (pt.drop v.length).head?, b = endtok

instance (len : ℕ) (v pt : List Byte) : Decidable (Stands len v pt) :=
  inferInstanceAs (Decidable (_ ∧ _ ∧ (_ ∨ _)))

instance (len : ℕ) (v pt : List Byte) : Decidable (BlockStands len v pt) :=
  inferInstanceAs (Decidable (_ ∧ _ ∧ _))

/-- The character behind a token is not outside the buffer. -/
def Inside (f : ConfFile) (pt : List Byte) : Prop :=
  pt = [] → (confText f.bytes).length ≠ f.bytes.length

instance (f : ConfFile) (pt : List Byte) : Decidable (Inside f pt) :=
  inferInstanceAs (Decidable (_ → _))

instance decidableElim {α : Type} {p : Prop} {q : α → Prop} [Decidable p] [DecidablePred q] :
    ∀ o : Option α, Decidable (o.elim p q)
  | none => inferInstanceAs (Decidable p)
  | some a => inferInstanceAs (Decidable (q a))

/-- The first of these tokens that occurs is that of the first setting with a line, and its
value stands there. -/
def FirstStands (f : ConfFile) : List Setting → Prop
  | [] => True
  | s :: ss =>
    (after s.token (confText f.bytes)).elim (f.value (.inl s) = none ∧ FirstStands f ss)
      fun pt => ∃ v ∈ f.value (.inl s), Stands trplen v pt

/-- Behind the first occurrence of each keyword in the text stands the value of its own
line, or what means the same; a keyword without a line does not occur. -/
structure Placed (realpath : List Byte → List Byte) (f : ConfFile) : Prop where
  strings : ∀ s : Copied, (after s.setting.token (confText f.bytes)).elim
    (f.str s.setting = []) (Stands s.len (f.str s.setting))
  /-- The path behind `dbdir` resolves to the same directory. -/
  dbdir : ∃ v ∈ f.value (.inl .dbdir), ∀ pt ∈ after Setting.dbdir.token (confText f.bytes),
    (copyLine pathMax pt).length + 1 < pathMax ∧
      realpath (copyLine pathMax pt ++ [slash]) = realpath (v ++ [slash]) ∧
      (realpath (v ++ [slash])).length + 1 < pathMax
  faipath : ∃ v ∈ f.value (.inl .faipath), ∀ pt ∈ after Setting.faipath.token (confText f.bytes),
    Inside f pt ∧ v.length + 1 < pathMax ∧ Stands pathMax v (pt.drop 1)
  /-- The digits behind `faitok_mq` fit their array and mean the same number. -/
  faitokMq : (after Setting.faitokMq.token (confText f.bytes)).elim
    (f.num .faitokMq faimaxQdef = faimaxQdef) fun pt =>
      Inside f pt ∧ (copyLine pathMax (pt.drop 1)).length < lldigits ∧
        strtol (copyLine pathMax (pt.drop 1)) = f.num .faitokMq faimaxQdef
  nprocmax : (after Setting.nprocmax.token (confText f.bytes)).elim (f.num .nprocmax 0 = 0)
    fun pt => strtol (copyLine lineMax pt) = f.num .nprocmax 0
  priv : ∀ pt ∈ after Block.privkey.token (confText f.bytes),
    BlockStands privlen (f.key .privkey) pt
  pub : (after Block.pubkey.token (confText f.bytes)).elim (f.key .pubkey = [])
    (BlockStands publen (f.key .pubkey))
  trp : FirstStands f [.trpDns, .trpIpv4, .trpIpv6]
  flags : ∀ w : Flag, w.word <:+: confText f.bytes ↔ ConfLine.flag w ∈ f.lines

/-- The first occurrence of a token is at the start of a line, with a value and the byte
`stop` behind it. -/
def OwnLine (stop : Byte) (token v text : List Byte) : Prop :=
  ∃ n ≤ text.length, (∀ b ∈ (text.take n).getLast?, b = newline) ∧ ¬ token <:+: text.take n ∧
    token ++ (v ++ [stop]) <+: text.drop n

instance (stop : Byte) (token v text : List Byte) : Decidable (OwnLine stop token v text) :=
  inferInstanceAs (Decidable (∃ n ≤ text.length, _ ∧ _ ∧ _))

/-- A setting that is found in its own line, if it has one, with a value of fewer than `len`
bytes; `sep` is what `init` does not look for between the keyword and the value. -/
def TidySetting (f : ConfFile) (s : Setting) (sep : List Byte) (len : ℕ) : Prop :=
  (f.value (.inl s)).elim (¬ s.token <:+: confText f.bytes) fun v =>
    OwnLine newline s.token (sep ++ v) (confText f.bytes) ∧ v.length < len

/-- The same for a key. -/
def TidyBlock (f : ConfFile) (b : Block) (len : ℕ) : Prop :=
  (f.value (.inr b)).elim (¬ b.token <:+: confText f.bytes) fun v =>
    OwnLine endtok b.token v (confText f.bytes) ∧ v.length < len

instance (f : ConfFile) (s : Setting) (sep : List Byte) (len : ℕ) :
    Decidable (TidySetting f s sep len) :=
  inferInstanceAs (Decidable (Option.elim _ _ _))

instance (f : ConfFile) (b : Block) (len : ℕ) : Decidable (TidyBlock f b len) :=
  inferInstanceAs (Decidable (Option.elim _ _ _))

/-- **A tidy file**: no keyword occurs before its own line or without one, and the values fit
their arrays. -/
structure Tidy (realpath : List Byte → List Byte) (f : ConfFile) : Prop where
  strings : ∀ s : Copied, TidySetting f s.setting [] s.len
  dbdir : ∃ v ∈ f.value (.inl .dbdir), (realpath (v ++ [slash])).length + 1 < pathMax
  dbdirLine : TidySetting f .dbdir [] (pathMax - 1)
  faipath : (f.value (.inl .faipath)).isSome = true
  faipathLine : TidySetting f .faipath [blank] (pathMax - 1)
  faitokMq : TidySetting f .faitokMq [blank] lldigits
  nprocmax : TidySetting f .nprocmax [] lineMax
  priv : TidyBlock f .privkey privlen
  pub : TidyBlock f .pubkey publen
  trp : ∀ s ∈ [Setting.trpDns, .trpIpv4, .trpIpv6], TidySetting f s [] trplen
  flags : ∀ w : Flag, w.word <:+: confText f.bytes ↔ ConfLine.flag w ∈ f.lines

/-! ### What a file says -/

theorem eq_of_nodup_filterMap {α β : Type*} {g : α → Option β} {a b : α} {k : β} :
    ∀ {l : List α}, (l.filterMap g).Nodup → a ∈ l → b ∈ l → g a = some k → g b = some k →
      a = b := by
  intro l
  induction l with
  | nil => intro _ ha; cases ha
  | cons x l ih =>
    intro hnd ha hb hga hgb
    have hmem : ∀ y ∈ l, g y = some k → k ∈ l.filterMap g := by
      intro y hy hgy
      exact List.mem_filterMap.mpr ⟨y, hy, hgy⟩
    rcases hx : g x with _ | k'
    · rw [List.filterMap_cons_none hx] at hnd
      have hne : ∀ y ∈ x :: l, g y = some k → y ∈ l := by
        intro y hy hgy
        rcases List.mem_cons.mp hy with rfl | hy
        · rw [hx] at hgy; cases hgy
        · exact hy
      exact ih hnd (hne a ha hga) (hne b hb hgb) hga hgb
    · rw [List.filterMap_cons_some hx] at hnd
      obtain ⟨hnot, hnd⟩ := List.nodup_cons.mp hnd
      rcases List.mem_cons.mp ha with hax | hal <;> rcases List.mem_cons.mp hb with hbx | hbl
      · rw [hax, hbx]
      · rw [hax, hx] at hga; cases hga
        exact absurd (hmem b hbl hgb) hnot
      · rw [hbx, hx] at hgb; cases hgb
        exact absurd (hmem a hal hga) hnot
      · exact ih hnd hal hbl hga hgb

namespace ConfLine

theorem keyword_of_value {k : Setting ⊕ Block} {l : ConfLine} {v : List Byte}
    (h : l.value k = some v) : l.keyword = some k := by
  cases l with
  | comment t => cases h
  | flag w => cases h
  | setting s w =>
    simp only [value] at h
    split at h
    next hk => rw [hk]; rfl
    next => cases h
  | block b w =>
    simp only [value] at h
    split at h
    next hk => rw [hk]; rfl
    next => cases h

/-- The line of a setting. -/
theorem value_inl {s : Setting} {l : ConfLine} {v : List Byte} :
    l.value (.inl s) = some v ↔ l = .setting s v := by
  cases l <;> simp [value]
  grind

/-- The block of a key. -/
theorem value_inr {b : Block} {l : ConfLine} {v : List Byte} :
    l.value (.inr b) = some v ↔ l = .block b v := by
  cases l <;> simp [value]
  grind

end ConfLine

namespace ConfFile

variable {f g : ConfFile}

/-- A keyword has the value some line gives it: there is only one. -/
theorem value_eq_some_iff {k : Setting ⊕ Block} {v : List Byte} :
    f.value k = some v ↔ ∃ l ∈ f.lines, l.value k = some v := by
  constructor
  · intro h
    exact List.exists_of_findSome?_eq_some h
  · rintro ⟨l, hl, hv⟩
    rcases hw : f.value k with _ | w
    · have hnone := List.findSome?_eq_none_iff.mp hw l hl
      rw [hnone] at hv; cases hv
    · obtain ⟨l', hl', hv'⟩ := List.exists_of_findSome?_eq_some hw
      have heq : l = l' := eq_of_nodup_filterMap f.once hl hl' (ConfLine.keyword_of_value hv)
        (ConfLine.keyword_of_value hv')
      rw [← hv, ← hv', heq]

/-- What a file says does not depend on the order of its lines. -/
theorem value_perm (h : g.lines.Perm f.lines) (k : Setting ⊕ Block) : g.value k = f.value k := by
  ext v
  rw [value_eq_some_iff, value_eq_some_iff]
  simp only [h.mem_iff]

theorem newline_not_mem_value {s : Setting} {v : List Byte} (h : f.value (.inl s) = some v) :
    newline ∉ v := by
  obtain ⟨l, hl, hv⟩ := value_eq_some_iff.mp h
  rw [ConfLine.value_inl] at hv
  exact f.wf _ (hv ▸ hl)

theorem newline_not_mem_str (f : ConfFile) (s : Setting) : newline ∉ f.str s := by
  unfold str
  rcases h : f.value (.inl s) with _ | v
  · simp
  · exact newline_not_mem_value h

theorem endtok_not_mem_key (f : ConfFile) (b : Block) : endtok ∉ f.key b := by
  unfold key
  rcases h : f.value (.inr b) with _ | v
  · simp
  · obtain ⟨l, hl, hv⟩ := value_eq_some_iff.mp h
    rw [ConfLine.value_inr] at hv
    have hwf : (ConfLine.block b v).WF := f.wf _ (hv ▸ hl)
    exact hwf.1

end ConfFile

/-! ### Reading a value -/

theorem takeWhile_eq_iff {p : Byte → Bool} {v pt : List Byte} (hv : ∀ b ∈ v, p b = true) :
    pt.takeWhile p = v ↔ v <+: pt ∧ ∀ b ∈ (pt.drop v.length).head?, p b = false := by
  constructor
  · intro h
    have hdrop : pt.drop v.length = pt.dropWhile p := by
      conv_lhs => rw [← List.takeWhile_append_dropWhile (p := p) (l := pt), h, List.drop_left]
    refine ⟨h ▸ List.takeWhile_prefix p, ?_⟩
    intro b hb
    have hnot := List.head?_dropWhile_not p pt
    rw [← hdrop, Option.mem_def.mp hb] at hnot
    exact hnot
  · rintro ⟨⟨r, rfl⟩, hend⟩
    rw [List.drop_left] at hend
    rw [List.takeWhile_append_of_pos hv]
    cases r with
    | nil => simp
    | cons b r => simp [hend b rfl]

/-- A line is copied right exactly if the value stands there. -/
theorem copyLine_eq_iff {len : ℕ} {v pt : List Byte} (hnl : newline ∉ v) (hlen : 0 < len) :
    copyLine len pt = v ↔ Stands len v pt := by
  have hp : ∀ b ∈ v, decide (b ≠ newline) = true := by
    intro b hb
    simpa using fun h : b = newline => hnl (h ▸ hb)
  unfold copyLine
  constructor
  · intro h
    by_cases hlong : (pt.takeWhile (· ≠ newline)).length ≤ len - 1
    · rw [List.take_of_length_le hlong] at h
      obtain ⟨hpre, hend⟩ := (takeWhile_eq_iff hp).mp h
      rw [h] at hlong
      refine ⟨hpre, by omega, .inr ?_⟩
      intro b hb
      simpa using hend b hb
    · have hl : v.length = len - 1 := by
        rw [← h, List.length_take]
        omega
      refine ⟨?_, by omega, .inl (by omega)⟩
      rw [← h]
      exact (List.take_prefix _ _).trans (List.takeWhile_prefix _)
  · rintro ⟨⟨r, rfl⟩, hl, hfull | hend⟩
    · rw [List.takeWhile_append_of_pos hp, show len - 1 = v.length by omega, List.take_left]
    · have htake : (v ++ r).takeWhile (· ≠ newline) = v := by
        refine (takeWhile_eq_iff hp).mpr ⟨List.prefix_append v r, ?_⟩
        intro b hb
        simpa using hend b hb
      rw [htake, List.take_of_length_le (by omega)]

theorem fits_eq_ok {len : ℕ} {s v : List Byte} : fits len s = .ok v ↔ s = v ∧ s.length < len := by
  unfold fits
  split
  next h => simp [h]
  next h => simp [h]

theorem fits_ne_fault {len : ℕ} {s : List Byte} (h : s.length < len) :
    fits len s ≠ .error .fault := by
  rw [fits_eq_ok.mpr ⟨rfl, h⟩]
  simp

/-- A key is copied right exactly if it stands there. -/
theorem fits_copyBlock {len : ℕ} {v pt : List Byte} (hend : endtok ∉ v) :
    fits len (copyBlock pt) = .ok v ↔ BlockStands len v pt := by
  have hp : ∀ b ∈ v, decide (b ≠ endtok) = true := by
    intro b hb
    simpa using fun h : b = endtok => hend (h ▸ hb)
  rw [fits_eq_ok]
  unfold copyBlock
  constructor
  · rintro ⟨rfl, hlen⟩
    obtain ⟨hpre, hnext⟩ := (takeWhile_eq_iff hp).mp rfl
    refine ⟨hpre, hlen, ?_⟩
    intro b hb
    simpa using hnext b hb
  · rintro ⟨hpre, hlen, hnext⟩
    have htake : pt.takeWhile (· ≠ endtok) = v := by
      refine (takeWhile_eq_iff hp).mpr ⟨hpre, ?_⟩
      intro b hb
      simpa using hnext b hb
    rw [htake]
    exact ⟨rfl, hlen⟩

theorem optional_eq_iff {token v buf : List Byte} {len : ℕ} (hnl : newline ∉ v) (hlen : 0 < len) :
    optional token len buf = v ↔ (after token buf).elim (v = []) (Stands len v) := by
  unfold optional
  rcases after token buf with _ | pt
  · exact eq_comm
  · exact copyLine_eq_iff hnl hlen

/-- **The text behind a keyword that is found in its own line.** -/
theorem OwnLine.after_eq {stop : Byte} {token v text : List Byte} (hne : token ≠ [])
    (hsep : newline ∉ token) (h : OwnLine stop token v text) :
    ∃ b, after token text = some (v ++ stop :: b) := by
  obtain ⟨n, -, hstart, hbefore, b, hb⟩ := h
  have htext : text = text.take n ++ (token ++ (v ++ stop :: b)) := by
    conv_lhs => rw [← List.take_append_drop n text, ← hb]
    simp
  refine ⟨b, ?_⟩
  unfold after
  rcases List.eq_nil_or_concat' (text.take n) with hnil | ⟨a, c, ha⟩
  · rw [htext, hnil, List.nil_append, strstr_append_self]
    rfl
  · have hc : c = newline := hstart c (by simp [ha])
    have hnot : ¬ token <:+: a := by
      intro hin
      rw [ha] at hbefore
      exact hbefore (hin.trans (List.prefix_append a [c]).isInfix)
    rw [htext, ha, hc, List.append_assoc, List.singleton_append,
      strstr_append_sep hne hsep _ a hnot]
    rfl

/-- A value that the end of its line follows. -/
theorem stands_append {len : ℕ} {v : List Byte} (hv : v.length < len) (b : List Byte) :
    Stands len v (v ++ newline :: b) := by
  refine ⟨List.prefix_append v _, hv, .inr ?_⟩
  simp

theorem blockStands_append {len : ℕ} {v : List Byte} (hv : v.length < len) (b : List Byte) :
    BlockStands len v (v ++ endtok :: b) := by
  refine ⟨List.prefix_append v _, hv, ?_⟩
  simp

theorem after_eq_none {token text : List Byte} (h : ¬ token <:+: text) :
    after token text = none := by
  unfold after
  rw [Option.map_eq_none_iff, ← Option.not_isSome_iff_eq_none, strstr_isSome_iff]
  exact h

theorem Setting.token_ok (s : Setting) : s.token ≠ [] ∧ newline ∉ s.token := by
  cases s <;> decide

/-- What `init` finds of a tidy setting. -/
theorem TidySetting.after_eq {f : ConfFile} {s : Setting} {sep : List Byte} {len : ℕ}
    (h : TidySetting f s sep len) :
    (f.value (.inl s) = none ∧ after s.token (confText f.bytes) = none) ∨
      ∃ v b, f.value (.inl s) = some v ∧ v.length < len ∧
        after s.token (confText f.bytes) = some (sep ++ (v ++ newline :: b)) := by
  unfold TidySetting at h
  cases hv : f.value (.inl s) with
  | none =>
    rw [hv] at h
    exact .inl ⟨rfl, after_eq_none h⟩
  | some v =>
    rw [hv] at h
    obtain ⟨hown, hlen⟩ := h
    obtain ⟨b, hb⟩ := hown.after_eq s.token_ok.1 s.token_ok.2
    exact .inr ⟨v, b, rfl, hlen, by rw [hb, List.append_assoc]⟩

/-- What `init` finds of a tidy key. -/
theorem TidyBlock.elim {f : ConfFile} {b : Block} {len : ℕ} (h : TidyBlock f b len) :
    (after b.token (confText f.bytes)).elim (f.key b = []) (BlockStands len (f.key b)) := by
  have htoken : b.token ≠ [] ∧ newline ∉ b.token := by cases b <;> decide
  unfold TidyBlock at h
  unfold ConfFile.key
  cases hv : f.value (.inr b) with
  | none =>
    rw [hv] at h
    rw [after_eq_none h]
    rfl
  | some v =>
    rw [hv] at h
    obtain ⟨hown, hlen⟩ := h
    obtain ⟨c, hc⟩ := hown.after_eq htoken.1 htoken.2
    rw [hc]
    exact blockStands_append hlen c

theorem firstStands_of_tidy {f : ConfFile} : ∀ {ss : List Setting},
    (∀ s ∈ ss, TidySetting f s [] trplen) → FirstStands f ss := by
  intro ss
  induction ss with
  | nil => intro _; trivial
  | cons s ss ih =>
    intro h
    unfold FirstStands
    rcases (h s List.mem_cons_self).after_eq with ⟨hv, hnone⟩ | ⟨v, b, hv, hlen, hafter⟩
    · rw [hnone]
      exact ⟨hv, ih fun s' hs' => h s' (List.mem_cons_of_mem _ hs')⟩
    · rw [hafter]
      exact ⟨v, hv, stands_append hlen b⟩

theorem required_eq_ok {token v buf : List Byte} {len : ℕ} (h : required token len buf = .ok v) :
    ∃ pt ∈ after token buf, copyLine len pt = v := by
  unfold required at h
  rcases hpt : after token buf with _ | pt <;> simp only [hpt] at h
  · cases h
  · split at h
    next => cases h
    next => exact ⟨pt, rfl, Except.ok.inj h⟩

theorem optional_of_required {token v buf : List Byte} {len : ℕ}
    (h : required token len buf = .ok v) : optional token len buf = v := by
  obtain ⟨pt, hpt, hv⟩ := required_eq_ok h
  unfold optional
  rw [Option.mem_def.mp hpt]
  exact hv

theorem required_ne_fault (token : List Byte) (len : ℕ) (buf : List Byte) :
    required token len buf ≠ .error .fault := by
  unfold required
  rcases after token buf with _ | pt
  · simp
  · dsimp only
    split <;> simp

theorem skipped_eq_ok {f : ConfFile} {pt rest : List Byte} :
    skipped f.bytes.length (confText f.bytes) pt = .ok rest ↔ Inside f pt ∧ pt.drop 1 = rest := by
  unfold skipped Inside
  split
  next h => simp_all
  next h => simp_all

theorem readFlag_iff (w : Flag) (buf : List Byte) : readFlag w buf = true ↔ w.word <:+: buf :=
  strstr_isSome_iff

/-! ### What `init` reads -/

section Steps

variable {α β : Type} {x : Except Stop α} {g : α → Except Stop β}

theorem bind_eq_ok {b : β} : x >>= g = .ok b ↔ ∃ a, x = .ok a ∧ g a = .ok b := by
  rcases x with e | a
  · constructor
    · intro h; cases h
    · rintro ⟨a, ha, -⟩; cases ha
  · constructor
    · intro h; exact ⟨a, rfl, h⟩
    · rintro ⟨a', ha, h⟩; cases ha; exact h

/-- A step that does not fault, of a computation that does not give up. -/
theorem exists_bind (hfault : x ≠ .error .fault) (h : x >>= g ≠ .error .failed)
    (hnext : ∀ a, x = .ok a → g a ≠ .error .failed → ∃ b, g a = .ok b) :
    ∃ b, x >>= g = .ok b := by
  rcases x with (_ | _) | a
  · exact absurd rfl h
  · exact absurd rfl hfault
  · exact hnext a rfl h

end Steps

/-- Everything a successful `init` reads. -/
structure Reads (realpath : List Byte → List Byte) (file : List Byte) (c : Tfproto) : Prop where
  strings : ∀ s : Copied, c.get s = optional s.setting.token s.len (confText file)
  dbdir : ∃ pt ∈ after Setting.dbdir.token (confText file),
    (copyLine pathMax pt).length + 1 < pathMax ∧
      c.dbdir = realpath (copyLine pathMax pt ++ [slash]) ++ [slash] ∧ c.dbdir.length < pathMax
  faipath : readFaipath file.length (confText file) = .ok c.faipath
  faitokMq : readFaitokMq file.length (confText file) = .ok c.faitokMq
  nprocmax : c.nprocmax = readNprocmax (confText file)
  priv : readPriv (confText file) = .ok c.priv
  pub : readPub (confText file) = .ok c.pub
  trp : (c.trpTp, c.trp) = readTrp (confText file)
  flags : ∀ w, c.flag w = readFlag w (confText file)

theorem reads_of_init {realpath : List Byte → List Byte} {file : List Byte} {c : Tfproto}
    (h : init realpath file = .ok c) : Reads realpath file c := by
  unfold init at h
  obtain ⟨proto, hproto, h⟩ := bind_eq_ok.mp h
  obtain ⟨hash, hhash, h⟩ := bind_eq_ok.mp h
  obtain ⟨dir, hdir, h⟩ := bind_eq_ok.mp h
  obtain ⟨dbdir, hdbdir, h⟩ := bind_eq_ok.mp h
  obtain ⟨port, hport, h⟩ := bind_eq_ok.mp h
  obtain ⟨priv, hpriv, h⟩ := bind_eq_ok.mp h
  obtain ⟨faipath, hfaipath, h⟩ := bind_eq_ok.mp h
  obtain ⟨faitokMq, hfaitokMq, h⟩ := bind_eq_ok.mp h
  obtain ⟨pub, hpub, h⟩ := bind_eq_ok.mp h
  obtain ⟨real, hreal, h⟩ := bind_eq_ok.mp h
  cases h
  obtain ⟨rfl, hfits⟩ := fits_eq_ok.mp hdbdir
  obtain ⟨rfl, hfits'⟩ := fits_eq_ok.mp hreal
  refine ⟨?_, ?_, hfaipath, hfaitokMq, rfl, hpriv, hpub, rfl, ?_⟩
  · intro s
    cases s with
    | proto => exact (optional_of_required hproto).symm
    | hash => exact (optional_of_required hhash).symm
    | port => exact (optional_of_required hport).symm
    | _ => rfl
  · obtain ⟨pt, hpt, rfl⟩ := required_eq_ok hdir
    rw [List.length_append] at hfits
    exact ⟨pt, hpt, hfits, rfl, hfits'⟩
  · intro w
    cases w <;> rfl

/-- `init` succeeds if it does not give up and nothing faults. -/
theorem exists_init {realpath : List Byte → List Byte} {file : List Byte}
    (h : init realpath file ≠ .error .failed)
    (hdbdir : ∀ pt ∈ after Setting.dbdir.token (confText file),
      (copyLine pathMax pt).length + 1 < pathMax ∧
      (realpath (copyLine pathMax pt ++ [slash])).length + 1 < pathMax)
    (hpriv : readPriv (confText file) ≠ .error .fault)
    (hfaipath : readFaipath file.length (confText file) ≠ .error .fault)
    (hfaitokMq : readFaitokMq file.length (confText file) ≠ .error .fault)
    (hpub : readPub (confText file) ≠ .error .fault) : ∃ c, init realpath file = .ok c := by
  unfold init at h ⊢
  refine exists_bind (required_ne_fault _ _ _) h fun proto _ h => ?_
  refine exists_bind (required_ne_fault _ _ _) h fun hash _ h => ?_
  refine exists_bind (required_ne_fault _ _ _) h fun dir hdir h => ?_
  obtain ⟨pt, hpt, rfl⟩ := required_eq_ok hdir
  obtain ⟨hshort, hreal⟩ := hdbdir pt hpt
  refine exists_bind (fits_ne_fault (by simpa using hshort)) h fun dbdir hdb h => ?_
  obtain ⟨rfl, -⟩ := fits_eq_ok.mp hdb
  refine exists_bind (required_ne_fault _ _ _) h fun port _ h => ?_
  refine exists_bind hpriv h fun priv _ h => ?_
  refine exists_bind hfaipath h fun faipath _ h => ?_
  refine exists_bind hfaitokMq h fun faitokMq _ h => ?_
  refine exists_bind hpub h fun pub _ h => ?_
  refine exists_bind (fits_ne_fault (by simpa using hreal)) h fun real _ h => ?_
  exact ⟨_, rfl⟩

/-! ### Field by field -/

section Fields

variable {realpath : List Byte → List Byte} {f : ConfFile} {c : Tfproto}

theorem readFaipath_eq_ok {v : List Byte} (hnl : newline ∉ v) :
    readFaipath f.bytes.length (confText f.bytes) = .ok (v ++ [slash]) ↔
      ∃ pt ∈ after Setting.faipath.token (confText f.bytes),
        Inside f pt ∧ v.length + 1 < pathMax ∧ Stands pathMax v (pt.drop 1) := by
  unfold readFaipath
  rcases after Setting.faipath.token (confText f.bytes) with _ | pt
  · simp
  · simp only [Option.mem_def, Option.some.injEq, exists_eq_left', bind_eq_ok, skipped_eq_ok,
      fits_eq_ok, List.append_cancel_right_eq]
    constructor
    · rintro ⟨rest, ⟨hin, rfl⟩, hv, hlen⟩
      rw [hv] at hlen
      exact ⟨hin, by simpa using hlen, (copyLine_eq_iff hnl (by decide)).mp hv⟩
    · rintro ⟨hin, hlen, hst⟩
      have hv := (copyLine_eq_iff hnl (by decide)).mpr hst
      exact ⟨_, ⟨hin, rfl⟩, hv, by rw [hv]; simpa using hlen⟩

/-- The field ends with a slash. -/
theorem readFaipath_ne_nil (size : ℕ) (buf : List Byte) : readFaipath size buf ≠ .ok [] := by
  unfold readFaipath
  rcases after Setting.faipath.token buf with _ | pt
  · simp
  · simp only [ne_eq, bind_eq_ok, fits_eq_ok, not_exists, not_and]
    intro rest _ hnil
    simp at hnil

theorem readFaitokMq_eq_ok {n : ℤ} :
    readFaitokMq f.bytes.length (confText f.bytes) = .ok n ↔
      (after Setting.faitokMq.token (confText f.bytes)).elim (n = faimaxQdef) fun pt =>
        Inside f pt ∧ (copyLine pathMax (pt.drop 1)).length < lldigits ∧
          strtol (copyLine pathMax (pt.drop 1)) = n := by
  unfold readFaitokMq
  rcases after Setting.faitokMq.token (confText f.bytes) with _ | pt
  · simp [eq_comm]
  · simp only [bind_eq_ok, skipped_eq_ok, fits_eq_ok, Option.elim_some, pure, Except.pure,
      Except.ok.injEq]
    constructor
    · rintro ⟨rest, ⟨hin, rfl⟩, faiq, ⟨rfl, hlen⟩, hn⟩
      exact ⟨hin, hlen, hn⟩
    · rintro ⟨hin, hlen, hn⟩
      exact ⟨_, ⟨hin, rfl⟩, _, ⟨rfl, hlen⟩, hn⟩

theorem readNprocmax_eq_iff {n : ℤ} {buf : List Byte} :
    readNprocmax buf = n ↔ (after Setting.nprocmax.token buf).elim (n = 0)
      fun pt => strtol (copyLine lineMax pt) = n := by
  unfold readNprocmax
  rcases after Setting.nprocmax.token buf with _ | pt
  · exact eq_comm
  · rfl

theorem readPriv_eq_ok {v buf : List Byte} (hend : endtok ∉ v) :
    readPriv buf = .ok v ↔ ∃ pt ∈ after Block.privkey.token buf, BlockStands privlen v pt := by
  unfold readPriv
  rcases after Block.privkey.token buf with _ | pt
  · simp
  · simpa using fits_copyBlock hend

theorem readPub_eq_ok {v buf : List Byte} (hend : endtok ∉ v) :
    readPub buf = .ok v ↔ (after Block.pubkey.token buf).elim (v = []) (BlockStands publen v) := by
  unfold readPub
  rcases after Block.pubkey.token buf with _ | pt
  · simp [eq_comm]
  · exact fits_copyBlock hend

/-- One of the three kinds of proxy. -/
theorem trp_eq_iff {s : Setting} {tp : TrpType} {pt : List Byte} {r : TrpType × List Byte}
    (hr : r.1 ≠ tp) :
    (tp, copyLine trplen pt) = (if (f.value (.inl s)).isSome then (tp, f.str s) else r) ↔
      ∃ v ∈ f.value (.inl s), Stands trplen v pt := by
  rcases hv : f.value (.inl s) with _ | v
  · simp only [Option.isSome_none, Option.mem_def]
    constructor
    · intro h
      exact absurd (congrArg Prod.fst h).symm hr
    · rintro ⟨v, h, -⟩; cases h
  · have hstr : f.str s = v := by simp [ConfFile.str, hv]
    simp [hstr, copyLine_eq_iff (ConfFile.newline_not_mem_value hv) (show 0 < trplen by decide)]

/-- A kind of proxy whose token does not occur. -/
theorem trp_skip_iff {s : Setting} {tp : TrpType} {q r : TrpType × List Byte} (hq : q.1 ≠ tp) :
    q = (if (f.value (.inl s)).isSome then (tp, f.str s) else r) ↔
      f.value (.inl s) = none ∧ q = r := by
  rcases hv : f.value (.inl s) with _ | v
  · simp
  · simp only [Option.isSome_some, if_true, reduceCtorEq, false_and, iff_false]
    rintro rfl
    exact hq rfl

theorem readTrp_eq_iff :
    readTrp (confText f.bytes) = f.trp ↔ FirstStands f [.trpDns, .trpIpv4, .trpIpv6] := by
  unfold readTrp ConfFile.trp
  simp only [FirstStands]
  rcases after Setting.trpDns.token (confText f.bytes) with _ | pt
  · rcases after Setting.trpIpv4.token (confText f.bytes) with _ | pt
    · rcases after Setting.trpIpv6.token (confText f.bytes) with _ | pt
      · simp [trp_skip_iff]
      · rw [trp_skip_iff (by simp), trp_skip_iff (by simp), trp_eq_iff (by simp)]
        simp
    · rw [trp_skip_iff (by simp), trp_eq_iff (by split <;> simp)]
      simp
  · exact trp_eq_iff (by split <;> [simp; split <;> simp])

end Fields

/-! ### The configuration and the lines -/

section Main

variable {realpath : List Byte → List Byte} {f g : ConfFile} {c d : Tfproto}

theorem placed_of_lineOriented (hr : Reads realpath f.bytes c) (h : LineOriented realpath f c) :
    Placed realpath f := by
  obtain ⟨pt, hpt, hshort, hdbdir, hreal⟩ := hr.dbdir
  have hlen : ∀ s : Copied, 0 < s.len := by
    intro s
    cases s <;> decide
  constructor
  case strings =>
    intro s
    exact (optional_eq_iff (f.newline_not_mem_str _) (hlen s)).mp
      ((hr.strings s).symm.trans (h.strings s))
  case dbdir =>
    have hsay := h.dbdir
    rcases hv : f.value (.inl .dbdir) with _ | v
    · rw [hv, hdbdir] at hsay
      simp at hsay
    · rw [hv, hdbdir] at hsay
      have heq : realpath (copyLine pathMax pt ++ [slash]) = realpath (v ++ [slash]) := by
        simpa using hsay
      rw [hdbdir, heq, List.length_append] at hreal
      refine ⟨v, rfl, ?_⟩
      intro pt' hpt'
      obtain rfl := Option.mem_unique hpt hpt'
      exact ⟨hshort, heq, hreal⟩
  case faipath =>
    have hsay := h.faipath
    have hread := hr.faipath
    rcases hv : f.value (.inl .faipath) with _ | v
    · rw [hsay, hv] at hread
      exact absurd hread (readFaipath_ne_nil _ _)
    · rw [hsay, hv] at hread
      obtain ⟨pt', hpt', hst⟩ := (readFaipath_eq_ok (ConfFile.newline_not_mem_value hv)).mp hread
      refine ⟨v, rfl, ?_⟩
      intro pt'' hpt''
      obtain rfl := Option.mem_unique hpt' hpt''
      exact hst
  case faitokMq => exact readFaitokMq_eq_ok.mp (h.faitokMq ▸ hr.faitokMq)
  case nprocmax => exact readNprocmax_eq_iff.mp (hr.nprocmax.symm.trans h.nprocmax)
  case priv =>
    obtain ⟨pt', hpt', hst⟩ := (readPriv_eq_ok (f.endtok_not_mem_key _)).mp (h.priv ▸ hr.priv)
    intro pt'' hpt''
    obtain rfl := Option.mem_unique hpt' hpt''
    exact hst
  case pub => exact (readPub_eq_ok (f.endtok_not_mem_key _)).mp (h.pub ▸ hr.pub)
  case trp => exact readTrp_eq_iff.mp (hr.trp.symm.trans h.trp)
  case flags =>
    intro w
    rw [← readFlag_iff, ← hr.flags w]
    exact h.flags w

/-- A computation that does not fault where it would read what is there. -/
theorem ne_fault_of_placed (h : Placed realpath f) :
    readPriv (confText f.bytes) ≠ .error .fault ∧
      readFaipath f.bytes.length (confText f.bytes) ≠ .error .fault ∧
      readFaitokMq f.bytes.length (confText f.bytes) ≠ .error .fault ∧
      readPub (confText f.bytes) ≠ .error .fault := by
  refine ⟨?_, ?_, ?_, ?_⟩
  · rcases hpt : after Block.privkey.token (confText f.bytes) with _ | pt
    · simp [readPriv, hpt]
    · rw [(readPriv_eq_ok (f.endtok_not_mem_key _)).mpr ⟨pt, hpt, h.priv pt hpt⟩]
      simp
  · obtain ⟨v, hv, hst⟩ := h.faipath
    rcases hpt : after Setting.faipath.token (confText f.bytes) with _ | pt
    · simp [readFaipath, hpt]
    · rw [(readFaipath_eq_ok (ConfFile.newline_not_mem_value hv)).mpr ⟨pt, hpt, hst pt hpt⟩]
      simp
  · rw [readFaitokMq_eq_ok.mpr h.faitokMq]
    simp
  · rw [(readPub_eq_ok (f.endtok_not_mem_key _)).mpr h.pub]
    simp

theorem lineOriented_of_placed (hr : Reads realpath f.bytes c) (h : Placed realpath f) :
    LineOriented realpath f c := by
  obtain ⟨pt, hpt, -, hdbdir, -⟩ := hr.dbdir
  have hlen : ∀ s : Copied, 0 < s.len := by
    intro s
    cases s <;> decide
  constructor
  case strings =>
    intro s
    exact (hr.strings s).trans
      ((optional_eq_iff (f.newline_not_mem_str _) (hlen s)).mpr (h.strings s))
  case dbdir =>
    obtain ⟨v, hv, hst⟩ := h.dbdir
    rw [hdbdir, (hst pt hpt).2.1, Option.mem_def.mp hv]
    rfl
  case faipath =>
    obtain ⟨v, hv, hst⟩ := h.faipath
    rcases hpt : after Setting.faipath.token (confText f.bytes) with _ | pt
    · have hread := hr.faipath
      simp [readFaipath, hpt] at hread
    · have hread := (readFaipath_eq_ok (ConfFile.newline_not_mem_value hv)).mpr
        ⟨pt, hpt, hst pt hpt⟩
      rw [Option.mem_def.mp hv]
      exact Except.ok.inj (hr.faipath.symm.trans hread)
  case faitokMq => exact Except.ok.inj (hr.faitokMq.symm.trans (readFaitokMq_eq_ok.mpr h.faitokMq))
  case nprocmax => exact hr.nprocmax.trans (readNprocmax_eq_iff.mpr h.nprocmax)
  case priv =>
    rcases hpt : after Block.privkey.token (confText f.bytes) with _ | pt
    · have hread := hr.priv
      simp [readPriv, hpt] at hread
    · have hread := (readPriv_eq_ok (f.endtok_not_mem_key _)).mpr ⟨pt, hpt, h.priv pt hpt⟩
      exact Except.ok.inj (hr.priv.symm.trans hread)
  case pub =>
    have hread := (readPub_eq_ok (f.endtok_not_mem_key _)).mpr h.pub
    exact Except.ok.inj (hr.pub.symm.trans hread)
  case trp => exact hr.trp.trans (readTrp_eq_iff.mpr h.trp)
  case flags =>
    intro w
    rw [hr.flags w, readFlag_iff]
    exact h.flags w

/-- `init` succeeds on a file whose keywords are placed right, unless it gives up. -/
theorem exists_init_of_placed (hne : init realpath f.bytes ≠ .error .failed)
    (h : Placed realpath f) : ∃ c, init realpath f.bytes = .ok c ∧ LineOriented realpath f c := by
  obtain ⟨hpriv, hfaipath, hfaitokMq, hpub⟩ := ne_fault_of_placed h
  have hdbdir : ∀ pt ∈ after Setting.dbdir.token (confText f.bytes),
      (copyLine pathMax pt).length + 1 < pathMax ∧
        (realpath (copyLine pathMax pt ++ [slash])).length + 1 < pathMax := by
    intro pt hpt
    obtain ⟨v, -, hst⟩ := h.dbdir
    obtain ⟨hshort, heq, hreal⟩ := hst pt hpt
    exact ⟨hshort, heq ▸ hreal⟩
  obtain ⟨c, hc⟩ := exists_init hne hdbdir hpriv hfaipath hfaitokMq hpub
  exact ⟨c, hc, lineOriented_of_placed (reads_of_init hc) h⟩

/-- The lines determine the configuration, in any order. -/
theorem lineOriented_unique (hperm : g.lines.Perm f.lines) (hc : LineOriented realpath f c)
    (hd : LineOriented realpath g d) : d = c := by
  have hvalue := ConfFile.value_perm hperm
  have hstr : ∀ s, g.str s = f.str s := fun s => by rw [ConfFile.str, hvalue, ConfFile.str]
  have hget : ∀ s, d.get s = c.get s := by
    intro s
    rw [hd.strings, hc.strings, hstr]
  have hflag : ∀ w, d.flag w = c.flag w := by
    intro w
    rw [Bool.eq_iff_iff, hd.flags, hc.flags, hperm.mem_iff]
  have htrp : (d.trpTp, d.trp) = (c.trpTp, c.trp) := by
    rw [hd.trp, hc.trp]
    simp only [ConfFile.trp, hvalue, hstr]
  obtain ⟨htp, htrp⟩ := Prod.mk.inj htrp
  have hdbdir : d.dbdir = c.dbdir := by rw [hd.dbdir, hc.dbdir, hvalue]
  have hfaipath : d.faipath = c.faipath := by rw [hd.faipath, hc.faipath, hvalue]
  have hfaitokMq : d.faitokMq = c.faitokMq := by
    rw [hd.faitokMq, hc.faitokMq, ConfFile.num, hvalue, ConfFile.num]
  have hnprocmax : d.nprocmax = c.nprocmax := by
    rw [hd.nprocmax, hc.nprocmax, ConfFile.num, hvalue, ConfFile.num]
  have hpriv : d.priv = c.priv := by rw [hd.priv, hc.priv, ConfFile.key, hvalue, ConfFile.key]
  have hpub : d.pub = c.pub := by rw [hd.pub, hc.pub, ConfFile.key, hvalue, ConfFile.key]
  have h1 := hget .proto
  have h2 := hget .hash
  have h3 := hget .port
  have h4 := hget .defusr
  have h5 := hget .userdb
  have h6 := hget .rpcproxy
  have h7 := hget .xsntmex
  have h8 := hget .xsace
  have h9 := hget .tlb
  have h10 := hflag .injail
  have h11 := hflag .runbash
  have h12 := hflag .flycontext
  have h13 := hflag .locksys
  cases c
  cases d
  simp only [Tfproto.get, Tfproto.flag] at *
  simp only [*]

/-- **The configuration is what the lines say**, for a file on which `init` does not give
up, exactly if behind the first occurrence of each keyword stands the value of its own line.
Two such files with the same lines in different orders give the same configuration. -/
theorem init_line_oriented (realpath : List Byte → List Byte) (f : ConfFile)
    (hne : init realpath f.bytes ≠ .error .failed) :
    ((∃ c, init realpath f.bytes = .ok c ∧ LineOriented realpath f c) ↔ Placed realpath f) ∧
      ∀ g : ConfFile, g.lines.Perm f.lines → init realpath g.bytes ≠ .error .failed →
        Placed realpath f → Placed realpath g →
        init realpath g.bytes = init realpath f.bytes := by
  constructor
  · constructor
    · rintro ⟨c, hc, hline⟩
      exact placed_of_lineOriented (reads_of_init hc) hline
    · exact exists_init_of_placed hne
  · intro g hperm hgne hf hg
    obtain ⟨c, hc, hcline⟩ := exists_init_of_placed hne hf
    obtain ⟨d, hd, hdline⟩ := exists_init_of_placed hgne hg
    rw [hc, hd, lineOriented_unique hperm hcline hdline]

end Main

/-- **In a tidy file every keyword is placed right.** -/
theorem placed_of_tidy (realpath : List Byte → List Byte) {f : ConfFile} (h : Tidy realpath f) :
    Placed realpath f := by
  have hcopy : ∀ {s : Setting} {v : List Byte} {len : ℕ}, f.value (.inl s) = some v →
      v.length < len → ∀ b, copyLine len (v ++ newline :: b) = v := fun hv hlen b =>
    (copyLine_eq_iff (ConfFile.newline_not_mem_value hv) (by omega)).mpr (stands_append hlen b)
  constructor
  case strings =>
    intro s
    unfold ConfFile.str
    rcases (h.strings s).after_eq with ⟨hv, hnone⟩ | ⟨v, b, hv, hlen, hafter⟩
    · rw [hnone, hv]
      rfl
    · rw [hafter, hv]
      exact stands_append hlen b
  case dbdir =>
    obtain ⟨v, hv, hreal⟩ := h.dbdir
    refine ⟨v, hv, fun pt hpt => ?_⟩
    rcases h.dbdirLine.after_eq with ⟨hnone, -⟩ | ⟨v', b, hv', hlen, hafter⟩
    · rw [Option.mem_def.mp hv] at hnone
      cases hnone
    · obtain rfl : v = v' := Option.some.inj ((Option.mem_def.mp hv).symm.trans hv')
      obtain rfl : v ++ newline :: b = pt := Option.some.inj (hafter.symm.trans hpt)
      rw [hcopy hv' (show v.length < pathMax by omega)]
      exact ⟨by omega, rfl, hreal⟩
  case faipath =>
    obtain ⟨v, hv⟩ := Option.isSome_iff_exists.mp h.faipath
    refine ⟨v, hv, fun pt hpt => ?_⟩
    rcases h.faipathLine.after_eq with ⟨hnone, -⟩ | ⟨v', b, hv', hlen, hafter⟩
    · rw [hv] at hnone
      cases hnone
    · obtain rfl : v = v' := Option.some.inj (hv.symm.trans hv')
      obtain rfl : [blank] ++ (v ++ newline :: b) = pt := Option.some.inj (hafter.symm.trans hpt)
      exact ⟨nofun, by omega, stands_append (by omega) b⟩
  case faitokMq =>
    unfold ConfFile.num
    rcases h.faitokMq.after_eq with ⟨hv, hnone⟩ | ⟨v, b, hv, hlen, hafter⟩
    · rw [hnone, hv]
      rfl
    · rw [hafter, hv]
      have hdigits : copyLine pathMax (([blank] ++ (v ++ newline :: b)).drop 1) = v :=
        hcopy hv (hlen.trans (by decide)) b
      exact ⟨nofun, by rwa [hdigits], by rw [hdigits]; rfl⟩
  case nprocmax =>
    unfold ConfFile.num
    rcases h.nprocmax.after_eq with ⟨hv, hnone⟩ | ⟨v, b, hv, hlen, hafter⟩
    · rw [hnone, hv]
      rfl
    · rw [hafter, hv]
      exact congrArg strtol (hcopy hv hlen b)
  case priv =>
    intro pt hpt
    have hkey := h.priv.elim
    rw [Option.mem_def.mp hpt] at hkey
    exact hkey
  case pub => exact h.pub.elim
  case trp => exact firstStands_of_tidy h.trp
  case flags => exact h.flags

/-- A short file that mentions a flag in a comment and sets another one. -/
def exampleConf : ConfFile where
  lines := [.comment (lit " runbash"), .setting .proto (lit "1"), .setting .hash (lit "h"),
    .flag .injail, .setting .dbdir (lit "/d"), .setting .port (lit "7"),
    .setting .faipath (lit "/f"), .block .privkey (lit "k")]
  ended := true
  wf := by decide
  once := by decide

example : TidySetting exampleConf .dbdir [] (pathMax - 1) := by decide +kernel

theorem init_line_oriented_example :
    ∃ c, init List.dropLast exampleConf.bytes = .ok c ∧
      LineOriented List.dropLast exampleConf c := by
  have hne : init List.dropLast exampleConf.bytes ≠ .error .failed := by decide +kernel
  refine (init_line_oriented List.dropLast exampleConf hne).1.mpr ?_
  constructor
  case strings =>
    intro s
    cases s <;> decide +kernel
  case trp => simp only [FirstStands]; decide +kernel
  case flags =>
    intro w
    cases w <;> decide +kernel
  all_goals decide +kernel

/-- A file without flags, whose identity string is the word of one. -/
def wordConf : ConfFile where
  lines := [.setting .proto (lit "1"), .setting .hash (lit "runbash"), .setting .dbdir (lit "/d"),
    .setting .port (lit "7"), .setting .faipath (lit "/f"), .block .privkey (lit "k")]
  ended := true
  wf := by decide
  once := by decide

/-- The line `hash runbash` allows `RUNBASH`. -/
theorem init_not_line_oriented :
    ¬ ∀ (realpath : List Byte → List Byte) (f : ConfFile) (c : Tfproto),
      init realpath f.bytes = .ok c → LineOriented realpath f c := by
  intro h
  have hset : (init List.dropLast wordConf.bytes).toOption.map (·.runbash) = some true := by
    decide +kernel
  rcases hc : init List.dropLast wordConf.bytes with e | c
  · rw [hc] at hset; cases hset
  · rw [hc] at hset
    have hword : ConfLine.flag .runbash ∈ wordConf.lines :=
      ((h _ _ c hc).flags .runbash).mp (Option.some.inj hset)
    revert hword
    decide

end Conf

end TFProtocol
