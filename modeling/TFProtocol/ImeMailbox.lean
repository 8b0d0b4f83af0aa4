import TFProtocol.Lib.Runs
import TFProtocol.Ime

/-!
# Delivery of instant messages

A message is a file in the directory of its recipient.  `opc_sndmsg` writes it to a temporary
file in the directory of the sender, and `cpymsg` links it under a piece that it cuts out of
that path, from the first `msgtmp` to the first `.tmp`: the name of the file as far as the
directory of the sender holds none of the two.  The name starts with the second in which the
message was sent, and the content is that second, the sender and the text.  The writer thread
of the recipient lists the directory in the order of the numbers the names start with; it
writes a file to the client if its number is later than `tmstmp`, and moves `tmstmp` there.

A pass is cut into its steps here, one for the listing and one for each file, so that
messages may arrive at any point of it.  The calls on the temporary file succeed where its
path names an entry of the directory of the sender; a path that does not fit its array has
no defined outcome.

## Main definitions

* `Msg` — a message, with the name and the content of its file.
* `Mailbox` — the directory, the rest of a listing, `tmstmp`, and what was written.
* `ctmstmp`, `writemsg`, `opcSndmsg2` — the functions of `xs_imeopc1.c`.
* `mailNext` — one step: a message arrives, a listing, one file of it.
* `MailAllowed` — what a message must meet.

## Main results

* `mailInv_of_run` — what holds in every state.
* `mail_delivered` — **every message is written exactly once and whole**, in runs of allowed
  steps.
-/

namespace TFProtocol

open Bytes CStr

/-! ### Messages and passes -/

/-- `USRSEP`. -/
def usrsep : Byte := ofChar ':'

/-- A message to the recipient, with what the sender makes its file names of. -/
structure Msg where
  /-- The second in which it was sent. -/
  date : BitVec 64
  /-- Its number in the process of the sender. -/
  id : ℕ
  pid : ℕ
  /-- `usrmsg` of the sender. -/
  usrmsg : List Byte
  /-- `usrnam` of the sender. -/
  sender : List Byte
  text : List Byte
  deriving DecidableEq, Repr

/-- The numbers in the file name. -/
def Msg.stamp (m : Msg) : Stamp where
  date := udec m.date.toNat
  id := udec m.id
  pid := udec m.pid
  date_ne := udec_ne_nil _
  date_digits _ := isDigit_of_mem_udec
  id_digits _ := isDigit_of_mem_udec
  pid_digits _ := isDigit_of_mem_udec

/-- The sender, as far as `mktmpath` looks at it. -/
def Msg.ime (m : Msg) : Ime := { (default : Ime) with usrmsg := m.usrmsg, usrnam := m.sender }

/-- The temporary file. -/
def Msg.tmp (m : Msg) : List Byte := mktmpath m.stamp m.ime

/-- The name `cpymsg` cuts out of it. -/
def Msg.name (m : Msg) : List Byte := msgFile m.tmp

/-- The temporary file is opened in its directory, and the name that is cut out is free in
every directory of messages. -/
def Msg.linkable (m : Msg) : Bool :=
  !m.sender.contains slash && !m.name.contains slash &&
    !([[], [dot], [dot, dot], blacklist, msgtmpdir].contains m.name)

/-- The number the name starts with, as `timecmp` and `ctmstmp` read it. -/
def Msg.sec (m : Msg) : ℕ := strtoull m.name

/-- The content of the file. -/
def Msg.file (m : Msg) : List Byte :=
  udec m.date.toNat ++ usrsep :: (m.sender ++ usrsep :: m.text)

/-- The writer thread and the messages of its user. -/
structure Mailbox where
  /-- The timestamp of `OPC_SETUP`. -/
  start : BitVec 64
  tmstmp : ℕ
  autodel : Bool
  /-- The files of the directory `usrmsg`. -/
  dir : List Msg
  /-- The entries of the listing that are still to come. -/
  todo : List Msg
  /-- The files written to the client, with the bytes that were sent. -/
  sent : List (Msg × List Byte)
  /-- The messages that arrived. -/
  stored : List Msg
  deriving DecidableEq, Repr

/-- The mailbox of a user who has just sent `OPC_SETUP`. -/
def Mailbox.fresh (start : BitVec 64) (autodel : Bool) : Mailbox :=
  ⟨start, start.toNat, autodel, [], [], [], []⟩

/-- A step: a message arrives, the directory is listed, one entry of the list is handled. -/
inductive MailStep
  | send (m : Msg)
  | scan (order : List Msg)
  | entry
  deriving DecidableEq, Repr

/-- The message is linked: this fails if there is a file of that name. -/
def cpymsgTo (b : Mailbox) (m : Msg) : Mailbox :=
  { b with
    dir :=
      if m.linkable && !(b.dir.map Msg.name).contains m.name then b.dir ++ [m] else b.dir
    stored := b.stored ++ [m] }

/-- `timecmp` does not put the first name behind the second. -/
def timecmpLe (x y : Msg) : Prop := x.sec ≤ y.sec

instance (x y : Msg) : Decidable (timecmpLe x y) := inferInstanceAs (Decidable (_ ≤ _))

/-- `ctmstmp`: the number of a later file becomes `tmstmp`. -/
def ctmstmp (b : Mailbox) (m : Msg) : Bool × Mailbox :=
  if b.tmstmp < m.sec then (true, { b with tmstmp := m.sec }) else (false, b)

/-- `writemsg`: one `read` of at most `BUFLEN` bytes.  A file that is gone is not an
error. -/
def writemsg (b : Mailbox) (m : Msg) : Mailbox :=
  if b.dir.contains m then { b with sent := b.sent ++ [(m, m.file.take imeBuflen)] } else b

/-- `delmsg`, if the user asked for it. -/
def delmsg (b : Mailbox) (m : Msg) : Mailbox :=
  if b.autodel then { b with dir := b.dir.filter (· ≠ m) } else b

/-- The body of the loop of `opc_sndmsg2`. -/
def opcSndmsg2 (b : Mailbox) (m : Msg) : Mailbox :=
  let c := ctmstmp b m
  if c.1 then delmsg (writemsg c.2 m) m else c.2

/-- One step. -/
def mailNext (b : Mailbox) : MailStep → Option Mailbox
  | .send m => if m.tmp.length < pathMax then some (cpymsgTo b m) else none
  | .scan order =>
    if b.todo = [] ∧ order.Perm b.dir ∧ order.Pairwise timecmpLe then some { b with todo := order }
    else none
  | .entry =>
    match b.todo with
    | [] => none
    | m :: rest => some (opcSndmsg2 { b with todo := rest } m)

/-- The directory of the sender holds none of the texts `cpymsg` looks for, and the name of
the sender no separator. -/
structure Msg.Plain (m : Msg) : Prop where
  dir : ¬ msgtmpdir <:+: m.usrmsg
  ext : ¬ tmpext <:+: m.usrmsg
  nam : slash ∉ m.sender

instance (m : Msg) : Decidable m.Plain :=
  decidable_of_iff ((¬ msgtmpdir <:+: m.usrmsg) ∧ (¬ tmpext <:+: m.usrmsg) ∧
      m.sender.contains slash = false)
    ⟨fun h => ⟨h.1, h.2.1, by simpa using h.2.2⟩, fun h => ⟨h.dir, h.ext, by simpa using h.nam⟩⟩

/-- What a step must meet: a message that is later than `OPC_SETUP` has a plain sender, is
later than all messages before it, and its file fits `outbuf`; the file of another one is not
taken for later than `OPC_SETUP`. -/
def MailAllowed (b : Mailbox) : MailStep → Prop
  | .send m =>
    (b.start.toNat < m.date.toNat →
      m.Plain ∧ (∀ x ∈ b.stored, x.date.toNat < m.date.toNat) ∧ m.file.length ≤ imeBuflen) ∧
    (m.date.toNat ≤ b.start.toNat → m.linkable = true → m.sec ≤ b.start.toNat)
  | _ => True

instance (b : Mailbox) : ∀ a, Decidable (MailAllowed b a)
  | .send m => inferInstanceAs (Decidable
      ((_ → _ ∧ (∀ x ∈ b.stored, x.date.toNat < m.date.toNat) ∧ _) ∧ (_ → _ → _)))
  | .scan _ => .isTrue trivial
  | .entry => .isTrue trivial

/-- Every message later than `OPC_SETUP` was written exactly once, and whole. -/
def Delivered (b : Mailbox) : Prop :=
  ∀ m ∈ b.stored, b.start.toNat < m.date.toNat → b.sent.filter (·.1 = m) = [(m, m.file)]

/-- The steps of a whole pass. -/
def passSteps (order : List Msg) : List MailStep :=
  .scan order :: List.replicate order.length .entry

/-! ### File names -/

/-- The extension is not found before the number of the message. -/
theorem length_before_tmpext {t : Stamp} {s : Ime} (h : ¬ tmpext <:+: s.usrmsg)
    {a c : List Byte} (hstr : strstr tmpext (mktmpath t s) = some (a, c)) :
    s.usrmsg.length + 8 + t.date.length + 1 ≤ a.length := by
  have hmsg : mktmpath t s = s.usrmsg ++ slash :: (msgtmpdir ++ slash :: (t.date ++ ofChar '-' ::
      (t.id ++ lit "." ++ (s.usrnam ++ (lit "." ++ t.pid ++ tmpext))))) := by
    simp [mktmpath, join, tmpName, show lit "-" = [ofChar '-'] from rfl]
  have hsplit := eq_of_strstr hstr
  by_contra hlt
  have hdrop : tmpext <+: (mktmpath t s).drop a.length := by
    rw [hsplit, List.append_assoc, List.drop_left]
    exact List.prefix_append _ _
  rcases Nat.lt_or_ge a.length s.usrmsg.length with hin | hout
  · -- inside the directory, since the extension has no separator
    rw [hmsg, List.drop_append_of_le_length hin.le] at hdrop
    have hpre := isPrefix_of_not_mem (show slash ∉ tmpext by decide) hdrop
    exact h (hpre.isInfix.trans (List.drop_suffix _ _).isInfix)
  · -- between the directory and the number no character is a dot
    have hdot : (mktmpath t s)[a.length]? = some dot := by
      rw [← List.head?_drop]
      obtain ⟨r, hr⟩ := hdrop
      rw [← hr]
      rfl
    have hmem : dot ∈ slash :: (msgtmpdir ++ slash :: (t.date ++ [ofChar '-'])) := by
      rw [hmsg, List.getElem?_append_right hout] at hdot
      have hpre : slash :: (msgtmpdir ++ slash :: (t.date ++ [ofChar '-'])) <+:
          slash :: (msgtmpdir ++ slash :: (t.date ++ ofChar '-' ::
            (t.id ++ lit "." ++ (s.usrnam ++ (lit "." ++ t.pid ++ tmpext))))) :=
        ⟨t.id ++ lit "." ++ (s.usrnam ++ (lit "." ++ t.pid ++ tmpext)), by simp⟩
      obtain ⟨r, hr⟩ := hpre
      rw [← hr, List.getElem?_append_left] at hdot
      · exact List.mem_of_getElem? hdot
      · simp only [List.length_cons, List.length_append, List.length_nil,
          show msgtmpdir.length = 6 from rfl]
        omega
    have hdate : dot ∉ t.date := fun hd => isDigit_ne (t.date_digits dot hd) (by decide) rfl
    revert hmem
    simp only [List.mem_cons, List.mem_append, hdate, List.not_mem_nil]
    decide

/-- **The name `cpymsg` links a message under**, unless the directory of the sender holds
one of the two texts it looks for. -/
theorem msgFile_eq_name {t : Stamp} {s : Ime} (hmsg : ¬ msgtmpdir <:+: s.usrmsg)
    (htmp : ¬ tmpext <:+: s.usrmsg) :
    ∃ tail, msgFile (mktmpath t s) = t.date ++ ofChar '-' :: tail := by
  have hfound : (strstr tmpext (mktmpath t s)).isSome = true := by
    rw [strstr_isSome_iff]
    refine List.IsSuffix.isInfix ⟨join s.usrmsg (join msgtmpdir
      (t.date ++ lit "-" ++ t.id ++ lit "." ++ (s.usrnam ++ (lit "." ++ t.pid)))), ?_⟩
    simp [mktmpath, join, tmpName]
  obtain ⟨⟨a, c⟩, hstr⟩ := Option.isSome_iff_exists.mp hfound
  have hlen := length_before_tmpext htmp hstr
  have hpre : t.date ++ [ofChar '-'] <+: msgFile (mktmpath t s) := by
    have hname : t.date ++ [ofChar '-'] <+: tmpName t s.usrnam :=
      ⟨t.id ++ lit "." ++ (s.usrnam ++ (lit "." ++ t.pid ++ tmpext)), by
        simp [tmpName, show lit "-" = [ofChar '-'] from rfl]⟩
    refine List.prefix_of_prefix_length_le hname (msgFile_isPrefix hmsg) ?_
    have hall := congrArg List.length (eq_of_strstr hstr)
    unfold msgFile
    rw [strstr_msgtmpdir hmsg, hstr]
    simp only [List.length_append, List.length_take, List.length_drop, List.length_singleton,
      show msgtmpdir.length = 6 from rfl, show tmpext.length = 4 from rfl] at hall ⊢
    omega
  obtain ⟨r, hr⟩ := hpre
  refine ⟨r, ?_⟩
  rw [← hr, List.append_assoc, List.singleton_append]

variable {m : Msg}

/-- The name of a message of a plain sender starts with its second. -/
theorem Msg.Plain.sec_eq (h : m.Plain) : m.sec = m.date.toNat := by
  obtain ⟨tail, htail⟩ := msgFile_eq_name (t := m.stamp) (s := m.ime) h.dir h.ext
  rw [Msg.sec, Msg.name, Msg.tmp, htail]
  refine strtoull_udec m.date.isLt ?_
  intro b hb
  obtain rfl := Option.some.inj hb
  decide

theorem Msg.Plain.linkable (h : m.Plain) : m.linkable = true := by
  obtain ⟨tail, htail⟩ := msgFile_eq_name (t := m.stamp) (s := m.ime) h.dir h.ext
  have hname : m.name = m.stamp.date ++ ofChar '-' :: tail := htail
  -- the name is a piece of the temporary one, which has no separator
  have hslash : slash ∉ tmpName m.stamp m.sender := by
    have hid := slash_not_mem_digits m.stamp.id_digits
    have hpid := slash_not_mem_digits m.stamp.pid_digits
    have hdate := slash_not_mem_digits m.stamp.date_digits
    simp only [tmpName, List.mem_append, not_or]
    exact ⟨⟨⟨⟨hdate, by decide⟩, hid⟩, by decide⟩, h.nam, ⟨by decide, hpid⟩, by decide⟩
  have hno : slash ∉ m.name := fun hm =>
    hslash ((msgFile_isPrefix (t := m.stamp) (s := m.ime) h.dir).subset hm)
  -- and starts with a digit
  obtain ⟨x, xs, hx⟩ := List.exists_cons_of_ne_nil m.stamp.date_ne
  have hdigit : isDigit x = true := m.stamp.date_digits x (hx ▸ List.mem_cons_self)
  have hhead : m.name.head? = some x := by rw [hname, hx]; rfl
  have hfree : m.name ∉ [[], [dot], [dot, dot], blacklist, msgtmpdir] := by
    intro hm
    have hall : ∀ l ∈ ([[], [dot], [dot, dot], blacklist, msgtmpdir] : List (List Byte)),
        ∀ y ∈ l.head?, isDigit y = false := by decide
    rw [hall _ hm x hhead] at hdigit
    cases hdigit
  simp only [Msg.linkable, Bool.and_eq_true, Bool.not_eq_true', List.contains_eq_mem,
    decide_eq_false_iff_not]
  exact ⟨⟨h.nam, hno⟩, hfree⟩

/-! ### The invariant -/

/-- A message that is still to be written: its file is there, it is later than `tmstmp`, and
it is in the listing or later than everything in it. -/
structure Pending (b : Mailbox) (m : Msg) : Prop where
  file : m ∈ b.dir
  later : b.tmstmp < m.date.toNat
  listed : m ∈ b.todo ∨ ∀ x ∈ b.todo, x.sec < m.date.toNat

/-- What holds of a mailbox in every state. -/
structure MailInv (b : Mailbox) : Prop where
  start : b.start.toNat ≤ b.tmstmp
  mark : b.tmstmp = b.start.toNat ∨ ∃ x ∈ b.stored, x.date.toNat = b.tmstmp
  dir_stored : ∀ m ∈ b.dir, m ∈ b.stored
  dir_nodup : b.dir.Nodup
  todo_dir : ∀ m ∈ b.todo, m ∈ b.dir
  todo_nodup : b.todo.Nodup
  todo_sorted : b.todo.Pairwise timecmpLe
  /-- A file starts with the second of its message, or with a number up to `OPC_SETUP`. -/
  sec_stored : ∀ m ∈ b.stored, b.start.toNat < m.date.toNat → m.sec = m.date.toNat
  sec_dir : ∀ m ∈ b.dir, m.date.toNat ≤ b.start.toNat → m.sec ≤ b.start.toNat
  /-- Of two messages in one second none is later than `OPC_SETUP`. -/
  distinct : ∀ x ∈ b.stored, ∀ y ∈ b.stored, b.start.toNat < x.date.toNat →
    x.date.toNat = y.date.toNat → x = y
  fits : ∀ m ∈ b.stored, b.start.toNat < m.date.toNat → m.file.length ≤ imeBuflen
  pending : ∀ m ∈ b.stored, b.start.toNat < m.date.toNat →
    Pending b m ∨ m.date.toNat ≤ b.tmstmp ∧ (m, m.file) ∈ b.sent
  sent_ok : ∀ e ∈ b.sent, e.1 ∈ b.stored ∧ e.1.date.toNat ≤ b.tmstmp ∧ e.2 = e.1.file
  sent_nodup : (b.sent.map Prod.fst).Nodup

theorem mailInv_fresh (start : BitVec 64) (autodel : Bool) :
    MailInv (Mailbox.fresh start autodel) := by
  constructor <;> simp [Mailbox.fresh]

variable {b t : Mailbox}

/-- A file that is taken for later than `OPC_SETUP` is, and starts with its second. -/
theorem MailInv.sec_eq (h : MailInv b) (hm : m ∈ b.dir) (hsec : b.start.toNat < m.sec) :
    b.start.toNat < m.date.toNat ∧ m.sec = m.date.toNat := by
  rcases Nat.lt_or_ge b.start.toNat m.date.toNat with hlt | hle
  · exact ⟨hlt, h.sec_stored m (h.dir_stored m hm) hlt⟩
  · exact absurd (h.sec_dir m hm hle) (by omega)

/-- The number of a file is that of a message, or not later than `OPC_SETUP`. -/
theorem MailInv.sec_le (h : MailInv b) (hm : m ∈ b.dir) :
    m.sec ≤ b.start.toNat ∨ m.sec = m.date.toNat := by
  rcases Nat.lt_or_ge b.start.toNat m.sec with hlt | hle
  · exact .inr (h.sec_eq hm hlt).2
  · exact .inl hle

/-! ### A message arrives -/

theorem mem_cpymsgTo_dir {x : Msg} (hx : x ∈ (cpymsgTo b m).dir) :
    x ∈ b.dir ∨ x = m ∧ m.linkable = true := by
  simp only [cpymsgTo] at hx
  split at hx
  next hlink =>
    rcases List.mem_append.mp hx with hx | hx
    · exact .inl hx
    · exact .inr ⟨List.mem_singleton.mp hx, (Bool.and_eq_true_iff.mp hlink).1⟩
  next => exact .inl hx

theorem cpymsgTo_dir_of_mem {x : Msg} (hx : x ∈ b.dir) : x ∈ (cpymsgTo b m).dir := by
  simp only [cpymsgTo]
  split
  next => exact List.mem_append_left _ hx
  next => exact hx

theorem nodup_cpymsgTo_dir (h : b.dir.Nodup) : (cpymsgTo b m).dir.Nodup := by
  simp only [cpymsgTo]
  split
  next hlink =>
    rw [List.nodup_append]
    refine ⟨h, List.nodup_singleton m, ?_⟩
    intro x hx y hy
    obtain rfl := List.mem_singleton.mp hy
    rintro rfl
    have hname : x.name ∈ b.dir.map Msg.name := List.mem_map_of_mem hx
    simp [hname] at hlink
  next => exact h

/-- The file of a message is linked under a name that starts with a new number. -/
theorem mem_cpymsgTo (hlink : m.linkable = true) (h : ∀ x ∈ b.dir, x.sec < m.sec) :
    m ∈ (cpymsgTo b m).dir := by
  have hfree : m.name ∉ b.dir.map Msg.name := by
    intro hname
    obtain ⟨x, hx, heq⟩ := List.mem_map.mp hname
    have hlt := h x hx
    rw [Msg.sec, heq] at hlt
    exact lt_irrefl _ hlt
  simp only [cpymsgTo]
  rw [if_pos (by simp [hlink, hfree])]
  exact List.mem_append_right _ List.mem_cons_self

/-- What waited before it still waits. -/
theorem Pending.send {x : Msg} (h : Pending b x) : Pending (cpymsgTo b m) x :=
  ⟨cpymsgTo_dir_of_mem h.file, h.later, h.listed⟩

/-- The message itself waits: every file that is there starts with a smaller number. -/
theorem MailInv.pending_sent (h : MailInv b) (hok : MailAllowed b (.send m))
    (hsm : b.start.toNat < m.date.toNat) : Pending (cpymsgTo b m) m := by
  obtain ⟨hplain, hlater, -⟩ := hok.1 hsm
  have hsec : ∀ y ∈ b.dir, y.sec < m.date.toNat := by
    intro y hy
    have := hlater y (h.dir_stored y hy)
    rcases h.sec_le hy with hle | heq <;> omega
  refine ⟨mem_cpymsgTo hplain.linkable ?_, ?_, .inr ?_⟩
  · rw [hplain.sec_eq]
    exact hsec
  · show b.tmstmp < m.date.toNat
    rcases h.mark with heq | ⟨y, hy, heq⟩
    · omega
    · have := hlater y hy
      omega
  · exact fun y hy => hsec y (h.todo_dir y hy)

theorem MailInv.send (h : MailInv b) (hok : MailAllowed b (.send m)) :
    MailInv (cpymsgTo b m) := by
  have hmem : ∀ {x}, x ∈ (cpymsgTo b m).stored → x ∈ b.stored ∨ x = m := by
    intro x hx
    simpa [cpymsgTo] using hx
  have hkeep : ∀ {x}, x ∈ b.stored → x ∈ (cpymsgTo b m).stored :=
    fun hx => List.mem_append_left _ hx
  constructor
  case start => exact h.start
  case mark =>
    rcases h.mark with heq | ⟨x, hx, heq⟩
    · exact .inl heq
    · exact .inr ⟨x, hkeep hx, heq⟩
  case dir_stored =>
    intro x hx
    rcases mem_cpymsgTo_dir hx with hx | ⟨rfl, -⟩
    · exact hkeep (h.dir_stored x hx)
    · exact List.mem_append_right _ List.mem_cons_self
  case dir_nodup => exact nodup_cpymsgTo_dir h.dir_nodup
  case todo_dir => exact fun x hx => cpymsgTo_dir_of_mem (h.todo_dir x hx)
  case todo_nodup => exact h.todo_nodup
  case todo_sorted => exact h.todo_sorted
  case sec_stored =>
    intro x hx hsx
    rcases hmem hx with hx | rfl
    · exact h.sec_stored x hx hsx
    · exact (hok.1 hsx).1.sec_eq
  case sec_dir =>
    intro x hx hsx
    rcases mem_cpymsgTo_dir hx with hx | ⟨rfl, hlink⟩
    · exact h.sec_dir x hx hsx
    · exact hok.2 hsx hlink
  case distinct =>
    -- two messages in one second: the second one would be later than the first
    intro x hx y hy hsx hxy
    have hsx' : b.start.toNat < x.date.toNat := hsx
    rcases hmem hx with hxb | hxm <;> rcases hmem hy with hyb | hym
    · exact h.distinct x hxb y hyb hsx hxy
    · rw [hym] at hxy
      have := (hok.1 (by omega)).2.1 x hxb
      omega
    · rw [hxm] at hxy hsx'
      have := (hok.1 hsx').2.1 y hyb
      omega
    · rw [hxm, hym]
  case fits =>
    intro x hx hsx
    rcases hmem hx with hx | rfl
    · exact h.fits x hx hsx
    · exact (hok.1 hsx).2.2
  case pending =>
    intro x hx hsx
    rcases hmem hx with hx | rfl
    · exact (h.pending x hx hsx).imp_left Pending.send
    · exact .inl (h.pending_sent hok hsx)
  case sent_ok =>
    intro e he
    obtain ⟨hs, hrest⟩ := h.sent_ok e he
    exact ⟨hkeep hs, hrest⟩
  case sent_nodup => exact h.sent_nodup

/-! ### A listing -/

theorem MailInv.scan (h : MailInv b) {order : List Msg} (hperm : order.Perm b.dir)
    (hsorted : order.Pairwise timecmpLe) : MailInv { b with todo := order } := by
  constructor
  case start => exact h.start
  case mark => exact h.mark
  case dir_stored => exact h.dir_stored
  case dir_nodup => exact h.dir_nodup
  case todo_dir => exact fun m hm => hperm.subset hm
  case todo_nodup => exact hperm.nodup_iff.mpr h.dir_nodup
  case todo_sorted => exact hsorted
  case sec_stored => exact h.sec_stored
  case sec_dir => exact h.sec_dir
  case distinct => exact h.distinct
  case fits => exact h.fits
  case pending =>
    intro m hm hsm
    rcases h.pending m hm hsm with hp | hd
    · exact .inl ⟨hp.file, hp.later, .inl (hperm.symm.subset hp.file)⟩
    · exact .inr hd
  case sent_ok => exact h.sent_ok
  case sent_nodup => exact h.sent_nodup

/-! ### One entry of a listing -/

/-- An entry that is not later than `tmstmp` is passed over. -/
theorem opcSndmsg2_old (h : m.sec ≤ b.tmstmp) : opcSndmsg2 b m = b := by
  simp only [opcSndmsg2, ctmstmp, if_neg (Nat.not_lt.mpr h), Bool.false_eq_true, if_false]

/-- An entry that is later than `tmstmp` is written, and removed if the user asked for it. -/
theorem opcSndmsg2_new (h : b.tmstmp < m.sec) (hm : m ∈ b.dir) : opcSndmsg2 b m =
    { b with
      tmstmp := m.sec
      sent := b.sent ++ [(m, m.file.take imeBuflen)]
      dir := if b.autodel then b.dir.filter (· ≠ m) else b.dir } := by
  have hc : b.dir.contains m = true := by simpa using hm
  simp only [opcSndmsg2, ctmstmp, if_pos h, if_true, writemsg, hc, delmsg]
  split <;> rfl

/-- Only the file just written may be gone. -/
theorem mem_dir_after {x : Msg} (hne : x ≠ m) (hx : x ∈ b.dir) :
    x ∈ if b.autodel then b.dir.filter (· ≠ m) else b.dir := by
  split
  next => simpa using ⟨hx, hne⟩
  next => exact hx

theorem mem_of_mem_dir_after {x : Msg}
    (hx : x ∈ if b.autodel then b.dir.filter (· ≠ m) else b.dir) : x ∈ b.dir := by
  split at hx
  next => exact List.mem_of_mem_filter hx
  next => exact hx

theorem nodup_dir_after (h : b.dir.Nodup) :
    (if b.autodel then b.dir.filter (· ≠ m) else b.dir).Nodup := by
  split
  next => exact h.filter _
  next => exact h

theorem MailInv.entry_old (h : MailInv b) {rest : List Msg} (htodo : b.todo = m :: rest)
    (hold : m.sec ≤ b.tmstmp) : MailInv { b with todo := rest } := by
  have hsub : ∀ x ∈ rest, x ∈ b.todo := fun x hx => htodo ▸ List.mem_cons_of_mem _ hx
  have hnd := h.todo_nodup
  have hsort := h.todo_sorted
  rw [htodo] at hnd hsort
  refine ⟨h.start, h.mark, h.dir_stored, h.dir_nodup, fun x hx => h.todo_dir x (hsub x hx),
    hnd.of_cons, hsort.of_cons, h.sec_stored, h.sec_dir, h.distinct, h.fits, ?_, h.sent_ok,
    h.sent_nodup⟩
  intro x hx hsx
  rcases h.pending x hx hsx with hp | hd
  · refine .inl ⟨hp.file, hp.later, ?_⟩
    rcases hp.listed with hin | hall
    · rw [htodo] at hin
      rcases List.mem_cons.mp hin with rfl | hin
      · have := hp.later
        have := h.sec_stored x hx hsx
        omega
      · exact .inl hin
    · exact .inr fun y hy => hall y (hsub y hy)
  · exact .inr hd

/-- What waits behind the entry that is written waits on: it is later than that entry. -/
theorem MailInv.pending_behind (h : MailInv b) {rest : List Msg} (htodo : b.todo = m :: rest)
    {x : Msg} (hx : x ∈ b.stored) (hsx : b.start.toNat < x.date.toNat) (hne : x ≠ m)
    (hp : Pending b x) (hsec : m.sec = m.date.toNat) :
    m.sec < x.date.toNat ∧ (x ∈ rest ∨ ∀ y ∈ rest, y.sec < x.date.toNat) := by
  have hmtodo : m ∈ b.todo := htodo ▸ List.mem_cons_self
  have hsort := h.todo_sorted
  rw [htodo] at hsort
  rcases hp.listed with hin | hall
  · -- later in the listing, and not in the same second
    rw [htodo] at hin
    have hrest := (List.mem_cons.mp hin).resolve_left hne
    have hle : m.sec ≤ x.sec := List.rel_of_pairwise_cons hsort hrest
    have hother : x.date.toNat ≠ m.date.toNat :=
      fun heq => hne (h.distinct x hx m (h.dir_stored m (h.todo_dir m hmtodo)) hsx heq)
    have := h.sec_stored x hx hsx
    exact ⟨by omega, .inl hrest⟩
  · exact ⟨hall m hmtodo, .inr fun y hy => hall y (htodo ▸ List.mem_cons_of_mem _ hy)⟩

theorem MailInv.entry_new (h : MailInv b) {rest : List Msg} (htodo : b.todo = m :: rest)
    (hnew : b.tmstmp < m.sec) :
    MailInv { b with
      todo := rest
      tmstmp := m.sec
      sent := b.sent ++ [(m, m.file.take imeBuflen)]
      dir := if b.autodel then b.dir.filter (· ≠ m) else b.dir } := by
  have hmtodo : m ∈ b.todo := htodo ▸ List.mem_cons_self
  have hsub : ∀ x ∈ rest, x ∈ b.todo := fun x hx => htodo ▸ List.mem_cons_of_mem _ hx
  have hmdir := h.todo_dir m hmtodo
  have hmstored := h.dir_stored m hmdir
  obtain ⟨hsm, hsec⟩ := h.sec_eq hmdir (lt_of_le_of_lt h.start hnew)
  have hwhole : m.file.take imeBuflen = m.file := List.take_of_length_le (h.fits m hmstored hsm)
  have hnd := h.todo_nodup
  have hsort := h.todo_sorted
  rw [htodo] at hnd hsort
  have hnotin : m ∉ rest := (List.nodup_cons.mp hnd).1
  constructor
  case start => exact h.start.trans hnew.le
  case mark => exact .inr ⟨m, hmstored, hsec.symm⟩
  case dir_stored => exact fun x hx => h.dir_stored x (mem_of_mem_dir_after hx)
  case dir_nodup => exact nodup_dir_after h.dir_nodup
  case todo_dir =>
    intro x hx
    exact mem_dir_after (fun heq => hnotin (heq ▸ hx)) (h.todo_dir x (hsub x hx))
  case todo_nodup => exact hnd.of_cons
  case todo_sorted => exact hsort.of_cons
  case sec_stored => exact h.sec_stored
  case sec_dir => exact fun x hx => h.sec_dir x (mem_of_mem_dir_after hx)
  case distinct => exact h.distinct
  case fits => exact h.fits
  case pending =>
    intro x hx hsx
    by_cases hxm : x = m
    · subst hxm
      exact .inr ⟨hsec.ge, by simp [hwhole]⟩
    · rcases h.pending x hx hsx with hp | ⟨hle, hin⟩
      · obtain ⟨hlater, hlisted⟩ := h.pending_behind htodo hx hsx hxm hp hsec
        exact .inl ⟨mem_dir_after hxm hp.file, hlater, hlisted⟩
      · exact .inr ⟨hle.trans hnew.le, List.mem_append_left _ hin⟩
  case sent_ok =>
    intro e he
    rcases List.mem_append.mp he with he | he
    · obtain ⟨hs, hle, hfile⟩ := h.sent_ok e he
      exact ⟨hs, hle.trans hnew.le, hfile⟩
    · obtain rfl := List.mem_singleton.mp he
      exact ⟨hmstored, hsec.ge, hwhole⟩
  case sent_nodup =>
    show ((b.sent ++ [(m, m.file.take imeBuflen)]).map Prod.fst).Nodup
    rw [List.map_append, List.nodup_append]
    refine ⟨h.sent_nodup, List.nodup_singleton m, ?_⟩
    intro x hx y hy
    obtain rfl := List.mem_singleton.mp hy
    rintro rfl
    obtain ⟨e, he, rfl⟩ := List.mem_map.mp hx
    have := (h.sent_ok e he).2.1
    omega

/-! ### Runs -/

theorem MailInv.next {a : MailStep} (h : MailInv b) (hok : MailAllowed b a)
    (hstep : mailNext b a = some t) : MailInv t := by
  cases a with
  | send m =>
    simp only [mailNext] at hstep
    split at hstep
    next =>
      obtain rfl := Option.some.inj hstep
      exact h.send hok
    next => cases hstep
  | scan order =>
    simp only [mailNext] at hstep
    split at hstep
    next hs =>
      obtain rfl := Option.some.inj hstep
      exact h.scan hs.2.1 hs.2.2
    next => cases hstep
  | entry =>
    simp only [mailNext] at hstep
    split at hstep
    next => cases hstep
    next m rest htodo =>
      obtain rfl := Option.some.inj hstep
      rcases Nat.lt_or_ge b.tmstmp m.sec with hnew | hold
      · have hm : m ∈ b.dir := h.todo_dir m (htodo ▸ List.mem_cons_self)
        rw [opcSndmsg2_new (b := { b with todo := rest }) hnew hm]
        exact h.entry_new htodo hnew
      · rw [opcSndmsg2_old (b := { b with todo := rest }) hold]
        exact h.entry_old htodo hold

theorem mailInv_of_run {as : List MailStep} (h : MailInv b)
    (hok : Runs.Meets mailNext MailAllowed b as) (hrun : Runs.run mailNext b as = some t) :
    MailInv t :=
  Runs.inv_of_run (fun _ _ _ hinv hallowed hstep => hinv.next hallowed hstep) h hok hrun

/-- All messages that are still to be written are in the listing. -/
def AllListed (b : Mailbox) : Prop :=
  ∀ m ∈ b.stored, b.tmstmp < m.date.toNat → m ∈ b.todo

/-- The rest of a pass, while no message arrives. -/
theorem exists_run_entries : ∀ {todo : List Msg} {b : Mailbox}, b.todo = todo → MailInv b →
    AllListed b → ∃ u, Runs.run mailNext b (List.replicate todo.length .entry) = some u ∧
      MailInv u ∧ AllListed u ∧ u.todo = [] ∧ u.stored = b.stored := by
  intro todo
  induction todo with
  | nil => exact fun htodo h hall => ⟨_, rfl, h, hall, htodo, rfl⟩
  | cons m rest ih =>
    intro b htodo h hall
    have hm : m ∈ b.dir := h.todo_dir m (htodo ▸ List.mem_cons_self)
    have hstep : mailNext b .entry = some (opcSndmsg2 { b with todo := rest } m) := by
      simp only [mailNext, htodo]
    have hinv := h.next (show MailAllowed b .entry from trivial) hstep
    have hrest : (opcSndmsg2 { b with todo := rest } m).todo = rest ∧
        (opcSndmsg2 { b with todo := rest } m).stored = b.stored ∧
        AllListed (opcSndmsg2 { b with todo := rest } m) := by
      rcases Nat.lt_or_ge b.tmstmp m.sec with hnew | hold
      · rw [opcSndmsg2_new (b := { b with todo := rest }) hnew hm]
        refine ⟨rfl, rfl, fun x hx hlt => ?_⟩
        have hlt' : m.sec < x.date.toNat := hlt
        have hin := hall x hx (by omega)
        rw [htodo] at hin
        refine (List.mem_cons.mp hin).resolve_left ?_
        rintro rfl
        have := (h.sec_eq hm (lt_of_le_of_lt h.start hnew)).2
        omega
      · rw [opcSndmsg2_old (b := { b with todo := rest }) hold]
        refine ⟨rfl, rfl, fun x hx hlt => ?_⟩
        have hlt' : b.tmstmp < x.date.toNat := hlt
        have hin := hall x hx hlt'
        rw [htodo] at hin
        refine (List.mem_cons.mp hin).resolve_left ?_
        rintro rfl
        have := h.sec_stored x hx (lt_of_le_of_lt h.start hlt')
        omega
    obtain ⟨u, hu, huinv, huall, hutodo, hustored⟩ := ih hrest.1 hinv hrest.2.2
    refine ⟨u, ?_, huinv, huall, hutodo, hustored.trans hrest.2.1⟩
    rw [List.length_cons, List.replicate_succ, Runs.run, hstep]
    exact hu

theorem filter_eq_singleton {sent : List (Msg × List Byte)} {x : List Byte}
    (hnd : (sent.map Prod.fst).Nodup) (h : (m, x) ∈ sent) : sent.filter (·.1 = m) = [(m, x)] := by
  induction sent with
  | nil => cases h
  | cons e sent ih =>
    rw [List.map_cons, List.nodup_cons] at hnd
    rcases List.mem_cons.mp h with rfl | h
    · have hnone : sent.filter (·.1 = m) = [] := by
        rw [List.filter_eq_nil_iff]
        intro e he heq
        exact hnd.1 (List.mem_map.mpr ⟨e, he, of_decide_eq_true heq⟩)
      simp [hnone]
    · have hne : e.1 ≠ m := by
        intro heq
        exact hnd.1 (List.mem_map.mpr ⟨_, h, heq.symm⟩)
      rw [List.filter_cons_of_neg (by simpa using hne)]
      exact ih hnd.2 h

/-- A mailbox in which nothing is left to write has delivered everything. -/
theorem MailInv.delivered (h : MailInv b) (hall : AllListed b) (htodo : b.todo = []) :
    Delivered b := by
  intro m hm hsm
  rcases h.pending m hm hsm with hp | ⟨-, hin⟩
  · have hin := hall m hm hp.later
    rw [htodo] at hin
    cases hin
  · exact filter_eq_singleton h.sent_nodup hin

/-- **Messages are neither lost, doubled nor altered**, in every run whose messages come from
plain senders, in different seconds, and fit `outbuf`: what was written so far was written
once and whole, and after one more pass, in whatever order `scandir` puts files of one second,
every message later than `OPC_SETUP` was written exactly once. -/
theorem mail_delivered (start : BitVec 64) (autodel : Bool) {as : List MailStep} {t : Mailbox}
    (hok : Runs.Meets mailNext MailAllowed (Mailbox.fresh start autodel) as)
    (hrun : Runs.run mailNext (Mailbox.fresh start autodel) as = some t) :
    ((t.sent.map Prod.fst).Nodup ∧ ∀ e ∈ t.sent, e.1 ∈ t.stored ∧ e.2 = e.1.file) ∧
      (t.todo = [] → ∀ order : List Msg, order.Perm t.dir → order.Pairwise timecmpLe →
        ∃ u, Runs.run mailNext t (passSteps order) = some u ∧ u.stored = t.stored ∧
          Delivered u) := by
  have h := mailInv_of_run (mailInv_fresh start autodel) hok hrun
  refine ⟨⟨h.sent_nodup, fun e he => ?_⟩, ?_⟩
  · obtain ⟨hs, -, hfile⟩ := h.sent_ok e he
    exact ⟨hs, hfile⟩
  · intro htodo order hperm hsorted
    have hscan : mailNext t (.scan order) = some { t with todo := order } := by
      simp only [mailNext, if_pos (And.intro htodo (And.intro hperm hsorted))]
    have hall : AllListed { t with todo := order } := by
      intro m hm hlt
      have hsm : t.start.toNat < m.date.toNat := lt_of_le_of_lt h.start hlt
      rcases h.pending m hm hsm with hp | ⟨hle, -⟩
      · exact hperm.symm.subset hp.file
      · exact absurd hlt (Nat.not_lt.mpr hle)
    obtain ⟨u, hu, huinv, huall, hutodo, hustored⟩ :=
      exists_run_entries rfl (h.scan hperm hsorted) hall
    refine ⟨u, ?_, hustored, huinv.delivered huall hutodo⟩
    rw [passSteps, Runs.run, hscan]
    exact hu

/-- Two messages in different seconds, and one that arrives during a pass over them. -/
def mailA : Msg := ⟨5, 0, 7, lit "/srv/u/a/messages", lit "a", lit "hi"⟩

@[inherit_doc mailA]
def mailB : Msg := ⟨6, 0, 8, lit "/srv/u/b/messages", lit "b", lit "you"⟩

@[inherit_doc mailA]
def mailC : Msg := ⟨7, 1, 7, lit "/srv/u/a/messages", lit "a", lit "there"⟩

theorem mail_delivered_example : ∃ t u,
    Runs.run mailNext (Mailbox.fresh 4 true)
        [.send mailA, .send mailB, .scan [mailA, mailB], .entry, .send mailC, .entry] = some t ∧
      Runs.run mailNext t (passSteps [mailC]) = some u ∧ u.stored.length = 3 ∧ Delivered u := by
  have hok : Runs.Meets mailNext MailAllowed (Mailbox.fresh 4 true)
      [.send mailA, .send mailB, .scan [mailA, mailB], .entry, .send mailC, .entry] := by
    decide +kernel
  have hend : (Runs.run mailNext (Mailbox.fresh 4 true)
      [.send mailA, .send mailB, .scan [mailA, mailB], .entry, .send mailC, .entry]).map
      (fun t => (t.todo, t.dir, t.stored.length)) = some ([], [mailC], 3) := by
    decide +kernel
  obtain ⟨t, ht, hfields⟩ := Option.map_eq_some_iff.mp hend
  simp only [Prod.mk.injEq] at hfields
  obtain ⟨htodo, hdir, hlen⟩ := hfields
  obtain ⟨u, hu, hstored, hdelivered⟩ :=
    (mail_delivered 4 true hok ht).2 htodo _ (by rw [hdir]) (List.pairwise_singleton _ _)
  exact ⟨t, u, ht, hu, hstored ▸ hlen, hdelivered⟩

/-- A message in the second of `mailA`. -/
def mailA' : Msg := { mailB with date := 5 }

/-- The second of two messages of one second is never written. -/
theorem mail_lost :
    ¬ ∀ (start : BitVec 64) (autodel : Bool) (as : List MailStep) (t u : Mailbox)
      (order : List Msg), Runs.run mailNext (Mailbox.fresh start autodel) as = some t →
      t.stored.Pairwise (fun x y => x.date.toNat ≤ y.date.toNat) → t.todo = [] →
      Runs.run mailNext t (passSteps order) = some u → Delivered u := by
  intro h
  have hrun : Runs.run mailNext (Mailbox.fresh 0 false) [.send mailA, .send mailA'] =
      some ⟨0, 0, false, [mailA, mailA'], [], [], [mailA, mailA']⟩ := by decide +kernel
  have hpass : Runs.run mailNext ⟨0, 0, false, [mailA, mailA'], [], [], [mailA, mailA']⟩
      (passSteps [mailA, mailA']) =
      some ⟨0, 5, false, [mailA, mailA'], [], [(mailA, mailA.file)], [mailA, mailA']⟩ := by
    decide +kernel
  have hdelivered := h 0 false _ _ _ _ hrun (by decide) rfl hpass mailA' (by decide) (by decide)
  revert hdelivered
  decide +kernel

end TFProtocol
