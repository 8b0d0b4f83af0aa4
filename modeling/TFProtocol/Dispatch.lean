import TFProtocol.StaleBuffer

/-!
# Which command is executed

`cmd_parse` takes the first word of a frame, in upper case and at most `CMD_NAMELEN - 1`
characters of it, and compares it with the names of the commands one after the other.  What
has `XS` in it and is none of them goes to `run_xmods`, which looks for the names of the
subsystems anywhere in the word, except for that of `xs_mysql`; `xs1_parse` compares whole
names again.

## Main definitions

* `Xs1Cmd`, `xs1Parse` — the commands of the subsystem `xs1`.
* `cmdSelect` — what a frame in the buffer leads to.
* `commandNames`, `namedBy` — the commands and their names.
* `DispatchExact` — a frame leads to the command its first word names.
* `WordOk` — the condition.

## Main results

* `selectWord_eq_unknown_iff` — the words that lead nowhere.
* `dispatch_exact_iff` — **when a frame leads to the command it names.**
* `longer_word_enters` — a longer word that enters a subsystem.
-/

namespace TFProtocol

open Bytes CStr

/-! ### What a frame leads to -/

/-- The commands of `xs1_parse`. -/
inductive Xs1Cmd
  | open | close | trunc | seek | lock | read | write | readv2 | writev2
  deriving DecidableEq, Repr

/-- The chain of comparisons of `xs1_parse`. -/
def xs1Table : List (List Byte × Xs1Cmd) :=
  [(lit "XS1_OPEN", .open), (lit "XS1_CLOSE", .close), (lit "XS1_TRUNC", .trunc),
   (lit "XS1_SEEK", .seek), (lit "XS1_LOCK", .lock), (lit "XS1_READ", .read),
   (lit "XS1_WRITE", .write), (lit "XS1_READV2", .readv2), (lit "XS1_WRITEV2", .writev2)]

/-- `xs1_parse`. -/
def xs1Parse (cmd : List Byte) : Option Xs1Cmd := xs1Table.lookup cmd

/-- What the server does with a frame: it calls a handler, or a command of `xs1`, or replies
that the command failed or is unknown. -/
inductive Selection
  | run (h : Handler)
  | xs1 (c : Xs1Cmd)
  | fail (arg : List Byte)
  | unknown
  deriving DecidableEq, Repr

/-- What becomes of a decision of `cmd_parse`: `xs1_parse` looks at the word again. -/
def Action.select (cmd : List Byte) : Action → Selection
  | .run .xs1 =>
    match xs1Parse cmd with
    | some c => .xs1 c
    | none => .unknown
  | .run h => .run h
  | .fail arg => .fail arg
  | .unknown => .unknown

/-- What `cmd_parse` and the parser of `xs1` do with a word in upper case. -/
def selectWord (g : Gates) (cmd : List Byte) : Selection := (cmdParse g cmd).select cmd

/-- What `cmd_parse` does with the memory of the buffer. -/
def cmdSelect (g : Gates) (mem : List Byte) : Selection := selectWord g (cmdtoupper (excmd mem))

/-! ### Names -/

/-- The subsystems `run_xmods` looks for anywhere in a word, in its order, without `xs1`. -/
def strstrModules : List (List Byte × Handler) :=
  [(lit "XSIME_START", .xsime), (lit "XS_NTMEX", .xsNtmex), (lit "XS_SQLITE", .xsSqlite),
   (lit "XS_ACE", .xsAce), (lit "XS_POSTGRESQL", .xsPostgresql), (lit "XS_GATEWAY", .xsGateway),
   (lit "XS_RPCPROXY", .xsRpcproxy)]

/-- The commands with their names, but for `LOCKSYS`. -/
def chainNames : List (List Byte × Selection) :=
  (lit "END", .run .endcomm) :: (lit "XS_MYSQL", .run .xsMysql) ::
    (cmdTable.map fun x => (x.1, .run x.2)) ++ (xs1Table.map fun x => (x.1, .xs1 x.2)) ++
      strstrModules.map fun x => (x.1, .run x.2)

/-- All commands with their names. -/
def commandNames : List (List Byte × Selection) := (lit "LOCKSYS", .run .locksys) :: chainNames

/-- The command that has a name. -/
def namedBy (name : List Byte) : Selection := (commandNames.lookup name).getD .unknown

/-- The first word of a frame, in upper case: what stands before the first blank. -/
def firstWord (frame : List Byte) : List Byte := cmdtoupper (frame.takeWhile (· ≠ blank))

/-- A frame leads to the command its first word names.  In the buffer a NUL follows it. -/
def DispatchExact (frame rest : List Byte) : Prop :=
  cmdSelect openGates (frame ++ 0 :: rest) = namedBy (firstWord frame)

/-- The first word is the name of a command other than `LOCKSYS`; or it is no name at all, and
what is left of it before a NUL and in `CMD_NAMELEN - 1` characters is no name either, and has
no name of a subsystem in it unless it has `XS1_` in it. -/
def WordOk (frame : List Byte) : Prop :=
  firstWord frame ∈ chainNames.map Prod.fst ∨
    firstWord frame ≠ lit "LOCKSYS" ∧
      cmdtoupper (excmd frame) ∉ chainNames.map Prod.fst ∧
      (lit "XS1_" <:+: cmdtoupper (excmd frame) ∨
        ∀ x ∈ strstrModules, ¬ x.1 <:+: cmdtoupper (excmd frame))

instance (frame : List Byte) : Decidable (WordOk frame) :=
  inferInstanceAs (Decidable (_ ∨ _ ∧ _ ∧ (_ ∨ ∀ x ∈ strstrModules, ¬ x.1 <:+: _)))

/-! ### The word -/

/-- The end of the frame ends the word. -/
theorem excmd_frame (frame rest : List Byte) : excmd (frame ++ 0 :: rest) = excmd frame := by
  unfold excmd
  by_cases hnul : 0 ∈ frame
  · rw [cstr_append_of_mem hnul]
  · rw [cstr_of_not_mem hnul, cstr_eq_self hnul]

/-- A string ends a word, or the other way round. -/
theorem takeWhile_cstr (frame : List Byte) :
    (cstr frame).takeWhile (· ≠ blank) = cstr (frame.takeWhile (· ≠ blank)) := by
  unfold cstr
  rw [List.takeWhile_takeWhile, List.takeWhile_takeWhile]
  simp only [and_comm]

/-- A word without a NUL that is short enough is read as it stands. -/
theorem excmd_of_short {frame : List Byte} (hnul : 0 ∉ firstWord frame)
    (hlen : (firstWord frame).length < cmdNamelen) : cmdtoupper (excmd frame) = firstWord frame := by
  have hfree : 0 ∉ frame.takeWhile (· ≠ blank) := fun h =>
    hnul (List.mem_map.mpr ⟨0, h, by decide⟩)
  rw [firstWord, cmdtoupper, List.length_map] at hlen
  rw [excmd, takeWhile_cstr, cstr_eq_self hfree, List.take_of_length_le (by omega)]
  rfl

/-! ### Tables -/

theorem lookup_eq_none_iff_not_mem {β : Type} {l : List (List Byte × β)} {cmd : List Byte} :
    l.lookup cmd = none ↔ cmd ∉ l.map Prod.fst := by
  rw [List.lookup_eq_none_iff, List.mem_map]
  constructor
  · rintro h ⟨x, hx, rfl⟩
    simpa using h x hx
  · intro h x hx
    simpa using fun heq : cmd = x.1 => h ⟨x, hx, heq.symm⟩

theorem mem_of_lookup_eq_some {β : Type} {l : List (List Byte × β)} {cmd : List Byte} {b : β}
    (h : l.lookup cmd = some b) : (cmd, b) ∈ l := by
  obtain ⟨l₁, l₂, rfl, -⟩ := List.lookup_eq_some_iff.mp h
  simp

/-- Where no name stands twice, every entry is found. -/
theorem lookup_of_mem {β : Type} {l : List (List Byte × β)} (hnodup : (l.map Prod.fst).Nodup)
    {x : List Byte × β} (hx : x ∈ l) : l.lookup x.1 = some x.2 := by
  cases hlook : l.lookup x.1 with
  | none => exact absurd (List.mem_map_of_mem hx) (lookup_eq_none_iff_not_mem.mp hlook)
  | some b =>
    have heq : (x.1, b) = x :=
      List.inj_on_of_nodup_map hnodup (mem_of_lookup_eq_some hlook) hx rfl
    rw [← heq]

/-- The names of commands with `XS` in them. -/
def xsNames : List (List Byte) :=
  lit "XS_MYSQL" :: xs1Table.map Prod.fst ++ strstrModules.map Prod.fst

/-- The names of the commands, in the order they are compared in. -/
theorem chainNames_perm : (chainNames.map Prod.fst).Perm
    (lit "END" :: (cmdTable.map Prod.fst ++ xsNames)) := by
  simp only [chainNames, xsNames, List.map_append, List.map_cons, List.map_map,
    Function.comp_def, List.cons_append, List.append_assoc]
  exact List.perm_middle.symm.cons _

/-- The names of the commands, by where they are compared. -/
theorem mem_chainNames {cmd : List Byte} :
    cmd ∈ chainNames.map Prod.fst ↔
      cmd = lit "END" ∨ cmd ∈ cmdTable.map Prod.fst ∨ cmd ∈ xsNames := by
  rw [chainNames_perm.mem_iff, List.mem_cons, List.mem_append]

/-- The names that are compared one after the other.  They are told apart by their values. -/
theorem plain_names :
    ((lit "LOCKSYS" :: lit "END" :: cmdTable.map Prod.fst).map ofLe).Nodup ∧
      ∀ n ∈ lit "LOCKSYS" :: lit "END" :: cmdTable.map Prod.fst,
        0 ∉ n ∧ n.length < cmdNamelen ∧ ¬ lit "XS" <:+: n := by
  simp only [cmdTable, lit_ofList]
  decide +kernel

theorem xs_names : (xsNames.map ofLe).Nodup ∧
    ∀ n ∈ xsNames, 0 ∉ n ∧ n.length < cmdNamelen ∧ lit "XS" <:+: n := by
  simp only [xsNames, xs1Table, strstrModules, lit_ofList]
  decide

theorem infix_of_mem_xsNames {n : List Byte} (hn : n ∈ xsNames) : lit "XS" <:+: n :=
  (xs_names.2 n hn).2.2

/-- A name with `XS` in it is compared after all others. -/
theorem not_mem_of_infix {cmd : List Byte} (hin : lit "XS" <:+: cmd) :
    cmd ∉ lit "LOCKSYS" :: lit "END" :: cmdTable.map Prod.fst := fun hmem =>
  (plain_names.2 cmd hmem).2.2 hin

/-- No two commands have the same name. -/
theorem nodup_names : (lit "LOCKSYS" :: lit "END" :: (cmdTable.map Prod.fst ++ xsNames)).Nodup := by
  refine List.nodup_append.mpr ⟨List.Nodup.of_map _ plain_names.1, List.Nodup.of_map _ xs_names.1, ?_⟩
  rintro n hn _ hxs rfl
  exact not_mem_of_infix (infix_of_mem_xsNames hxs) hn

theorem nodup_commandNames : (commandNames.map Prod.fst).Nodup :=
  (chainNames_perm.cons _).nodup_iff.mpr nodup_names

theorem nodup_cmdTable : (cmdTable.map Prod.fst).Nodup :=
  (List.nodup_append.mp nodup_names.of_cons.of_cons).1

theorem locksys_not_mem_chainNames : lit "LOCKSYS" ∉ chainNames.map Prod.fst :=
  (List.nodup_cons.mp nodup_commandNames).1

/-- Every name fits into the array the word is copied to. -/
theorem chainNames_short {n : List Byte} (hn : n ∈ chainNames.map Prod.fst) :
    0 ∉ n ∧ n.length < cmdNamelen := by
  have hplain := fun hmem => plain_names.2 n (List.mem_cons_of_mem _ hmem)
  rcases mem_chainNames.mp hn with h | h | h
  · exact ⟨(hplain (h ▸ List.mem_cons_self)).1, (hplain (h ▸ List.mem_cons_self)).2.1⟩
  · exact ⟨(hplain (List.mem_cons_of_mem _ h)).1, (hplain (List.mem_cons_of_mem _ h)).2.1⟩
  · exact ⟨(xs_names.2 n h).1, (xs_names.2 n h).2.1⟩

/-! ### Words that lead nowhere -/

/-- What `run_xmods` finds in a word. -/
theorem runXmods_cases (cmd : List Byte) :
    lit "XS1_" <:+: cmd ∧ runXmods cmd = .run .xs1 ∨
    ¬ lit "XS1_" <:+: cmd ∧ (∃ h, h ≠ .xs1 ∧ runXmods cmd = .run h) ∧
      (cmd = lit "XS_MYSQL" ∨ ∃ x ∈ strstrModules, x.1 <:+: cmd) ∨
    ¬ lit "XS1_" <:+: cmd ∧ runXmods cmd = .unknown ∧ cmd ≠ lit "XS_MYSQL" ∧
      ∀ x ∈ strstrModules, ¬ x.1 <:+: cmd := by
  simp only [runXmods, strstr_isSome_iff]
  by_cases hxs1 : lit "XS1_" <:+: cmd
  · exact .inl ⟨hxs1, if_pos hxs1⟩
  apply Or.inr
  have hne : ∀ x ∈ strstrModules, x.2 ≠ .xs1 := by decide
  have hfound : ∀ x ∈ strstrModules, x.1 <:+: cmd →
      (∃ h', h' ≠ .xs1 ∧ Action.run x.2 = .run h') ∧
        (cmd = lit "XS_MYSQL" ∨ ∃ x ∈ strstrModules, x.1 <:+: cmd) :=
    fun x hx hin => ⟨⟨_, hne x hx, rfl⟩, .inr ⟨x, hx, hin⟩⟩
  simp only [strstrModules, List.forall_mem_cons] at hfound
  obtain ⟨hime, hntmex, hsqlite, hace, hpostgresql, hgateway, hrpcproxy, -⟩ := hfound
  rw [if_neg hxs1]
  by_cases h₁ : lit "XSIME_START" <:+: cmd
  · rw [if_pos h₁]
    exact .inl ⟨hxs1, hime h₁⟩
  rw [if_neg h₁]
  by_cases h₂ : lit "XS_NTMEX" <:+: cmd
  · rw [if_pos h₂]
    exact .inl ⟨hxs1, hntmex h₂⟩
  rw [if_neg h₂]
  by_cases h₃ : lit "XS_SQLITE" <:+: cmd
  · rw [if_pos h₃]
    exact .inl ⟨hxs1, hsqlite h₃⟩
  rw [if_neg h₃]
  by_cases h₄ : lit "XS_ACE" <:+: cmd
  · rw [if_pos h₄]
    exact .inl ⟨hxs1, hace h₄⟩
  rw [if_neg h₄]
  by_cases h₅ : cmd = lit "XS_MYSQL"
  · rw [if_pos h₅]
    exact .inl ⟨hxs1, ⟨.xsMysql, by decide, rfl⟩, .inl h₅⟩
  rw [if_neg h₅]
  by_cases h₆ : lit "XS_POSTGRESQL" <:+: cmd
  · rw [if_pos h₆]
    exact .inl ⟨hxs1, hpostgresql h₆⟩
  rw [if_neg h₆]
  by_cases h₇ : lit "XS_GATEWAY" <:+: cmd
  · rw [if_pos h₇]
    exact .inl ⟨hxs1, hgateway h₇⟩
  rw [if_neg h₇]
  by_cases h₈ : lit "XS_RPCPROXY" <:+: cmd
  · rw [if_pos h₈]
    exact .inl ⟨hxs1, hrpcproxy h₈⟩
  rw [if_neg h₈]
  refine .inr ⟨hxs1, rfl, h₅, ?_⟩
  simp only [strstrModules, List.forall_mem_cons]
  exact ⟨h₁, h₂, h₃, h₄, h₆, h₇, h₈, nofun⟩

theorem select_run {h : Handler} (hne : h ≠ .xs1) (cmd : List Byte) :
    (Action.run h).select cmd = .run h := by
  unfold Action.select
  split
  next hx => exact absurd (Action.run.inj hx) hne
  next h' _ hx => rw [Action.run.inj hx]
  next hx => cases hx
  next hx => cases hx

theorem select_xs1 (cmd : List Byte) :
    (Action.run .xs1).select cmd = .unknown ↔ cmd ∉ xs1Table.map Prod.fst := by
  rw [← lookup_eq_none_iff_not_mem]
  show (match xs1Table.lookup cmd with | some c => Selection.xs1 c | none => .unknown) = _ ↔ _
  cases xs1Table.lookup cmd <;> simp

theorem infix_of_mem_xs1Table : ∀ x ∈ xs1Table, lit "XS1_" <:+: x.1 := by
  simp only [xs1Table, lit_ofList]
  decide

/-- The words with `XS` in them that lead nowhere. -/
theorem runXmods_eq_unknown_iff (cmd : List Byte) :
    (runXmods cmd).select cmd = .unknown ↔ cmd ∉ xsNames ∧
      (lit "XS1_" <:+: cmd ∨ ∀ x ∈ strstrModules, ¬ x.1 <:+: cmd) := by
  have hother : ∀ n ∈ lit "XS_MYSQL" :: strstrModules.map Prod.fst, ¬ lit "XS1_" <:+: n := by
    simp only [strstrModules, lit_ofList]
    decide
  rcases runXmods_cases cmd with ⟨hxs1, hrun⟩ | ⟨hxs1, ⟨h, hne, hrun⟩, hfound⟩ |
    ⟨hxs1, hrun, hmysql, hnone⟩
  · -- the whole word is compared once more
    have hiff : cmd ∈ xsNames ↔ cmd ∈ xs1Table.map Prod.fst := by
      refine ⟨?_, fun h => List.mem_append_left _ (List.mem_cons_of_mem _ h)⟩
      intro h
      rcases List.mem_append.mp h with h | h
      · exact (List.mem_cons.mp h).resolve_left fun heq =>
          hother cmd (heq ▸ List.mem_cons_self) hxs1
      · exact absurd hxs1 (hother cmd (List.mem_cons_of_mem _ h))
    rw [hrun, hiff, select_xs1]
    simp only [hxs1, true_or, and_true]
  · rw [hrun, select_run hne]
    refine ⟨nofun, ?_⟩
    rintro ⟨hname, hor⟩
    rcases hfound with rfl | ⟨x, hx, hinfix⟩
    · exact absurd (List.mem_append_left _ List.mem_cons_self) hname
    · exact absurd hinfix (hor.resolve_left hxs1 x hx)
  · rw [hrun]
    refine ⟨fun _ => ⟨?_, .inr hnone⟩, fun _ => rfl⟩
    intro h
    rcases List.mem_append.mp h with h | h
    · rcases List.mem_cons.mp h with h | h
      · exact hmysql h
      · obtain ⟨x, hx, rfl⟩ := List.mem_map.mp h
        exact hxs1 (infix_of_mem_xs1Table x hx)
    · obtain ⟨x, hx, rfl⟩ := List.mem_map.mp h
      exact hnone x hx (List.infix_refl _)

/-! ### Words with all gates open -/

theorem selectWord_end : selectWord openGates (lit "END") = .run .endcomm :=
  select_run (by decide) _

theorem selectWord_cmdTable : ∀ x ∈ cmdTable, selectWord openGates x.1 = .run x.2 := by
  intro x hx
  have hne : ∀ x ∈ cmdTable, x.2 ≠ .xs1 := by decide
  have hend : x.1 ≠ lit "END" := fun heq =>
    (List.nodup_cons.mp nodup_names.of_cons).1
      (List.mem_append_left _ (heq ▸ List.mem_map_of_mem hx))
  unfold selectWord cmdParse
  simp only [openGates, Bool.not_true, Bool.false_eq_true, if_false]
  rw [if_neg hend, lookup_of_mem nodup_cmdTable hx]
  exact select_run (hne x hx) _

/-- What is not in the table is looked for in the subsystems. -/
theorem selectWord_of_not_mem {cmd : List Byte} (hend : cmd ≠ lit "END")
    (htable : cmd ∉ cmdTable.map Prod.fst) : selectWord openGates cmd =
      Action.select cmd (if lit "XS" <:+: cmd then runXmods cmd else .unknown) := by
  unfold selectWord cmdParse
  simp only [openGates, Bool.not_true, Bool.false_eq_true, if_false]
  rw [if_neg hend, lookup_eq_none_iff_not_mem.mpr htable]
  simp only [strstr_isSome_iff]

theorem selectWord_xsNames {cmd : List Byte} (hxs : cmd ∈ xsNames) :
    selectWord openGates cmd = (runXmods cmd).select cmd := by
  have hin : lit "XS" <:+: cmd := infix_of_mem_xsNames hxs
  have hplain := not_mem_of_infix hin
  simp only [List.mem_cons, not_or] at hplain
  rw [selectWord_of_not_mem hplain.2.1 hplain.2.2, if_pos hin]

/-- **The words that lead nowhere** with all gates open. -/
theorem selectWord_eq_unknown_iff (cmd : List Byte) :
    selectWord openGates cmd = .unknown ↔ cmd ∉ chainNames.map Prod.fst ∧
      (lit "XS1_" <:+: cmd ∨ ∀ x ∈ strstrModules, ¬ x.1 <:+: cmd) := by
  have hmod : ∀ x ∈ strstrModules, x.1 ∈ xsNames := fun x hx =>
    List.mem_append_right _ (List.mem_map_of_mem hx)
  rw [mem_chainNames]
  by_cases hend : cmd = lit "END"
  · rw [hend, selectWord_end]
    exact ⟨nofun, fun hno => absurd (.inl rfl) hno.1⟩
  by_cases htable : cmd ∈ cmdTable.map Prod.fst
  · obtain ⟨x, hx, rfl⟩ := List.mem_map.mp htable
    rw [selectWord_cmdTable x hx]
    exact ⟨nofun, fun hno => absurd (.inr (.inl htable)) hno.1⟩
  rw [selectWord_of_not_mem hend htable]
  by_cases hin : lit "XS" <:+: cmd
  · rw [if_pos hin, runXmods_eq_unknown_iff]
    simp only [hend, htable, false_or]
  · rw [if_neg hin]
    refine ⟨fun _ => ⟨?_, .inr fun x hx h =>
      hin ((infix_of_mem_xsNames (hmod x hx)).trans h)⟩, fun _ => rfl⟩
    rintro (h | h | h)
    · exact hend h
    · exact htable h
    · exact hin (infix_of_mem_xsNames h)

/-- The name of a command of `xs1` leads to `xs1_parse`, and there to the command. -/
theorem runXmods_xs1Table : ∀ x ∈ xs1Table, (runXmods x.1).select x.1 = .xs1 x.2 := by
  intro x hx
  have hnodup : (xs1Table.map Prod.fst).Nodup := by
    have hxs := (List.nodup_append.mp nodup_names.of_cons.of_cons).2.1
    exact (List.nodup_append.mp hxs).1.of_cons
  have hrun : runXmods x.1 = .run .xs1 := by
    rcases runXmods_cases x.1 with ⟨-, hrun⟩ | ⟨hno, -⟩ | ⟨hno, -⟩
    · exact hrun
    · exact absurd (infix_of_mem_xs1Table x hx) hno
    · exact absurd (infix_of_mem_xs1Table x hx) hno
  rw [hrun]
  show (match xs1Table.lookup x.1 with | some c => Selection.xs1 c | none => .unknown) = _
  rw [lookup_of_mem hnodup hx]

/-- The name of another subsystem leads into it. -/
theorem runXmods_strstrModules : ∀ x ∈ (lit "XS_MYSQL", Handler.xsMysql) :: strstrModules,
    (runXmods x.1).select x.1 = .run x.2 := by
  have hrun : ∀ x ∈ (lit "XS_MYSQL", Handler.xsMysql) :: strstrModules,
      runXmods x.1 = .run x.2 ∧ x.2 ≠ .xs1 := by
    simp only [strstrModules, runXmods, lit_ofList]
    decide
  intro x hx
  obtain ⟨hrun, hne⟩ := hrun x hx
  rw [hrun, select_run hne]

/-- The word of a command leads to it. -/
theorem selectWord_chainNames : ∀ x ∈ chainNames, selectWord openGates x.1 = x.2 := by
  intro x hx
  simp only [chainNames, List.mem_append, List.mem_cons, List.mem_map, List.cons_append] at hx
  rcases hx with rfl | rfl | ((⟨y, hy, rfl⟩ | ⟨y, hy, rfl⟩) | ⟨y, hy, rfl⟩)
  · exact selectWord_end
  · rw [selectWord_xsNames List.mem_cons_self]
    exact runXmods_strstrModules _ List.mem_cons_self
  · exact selectWord_cmdTable y hy
  · have hname : y.1 ∈ xs1Table.map Prod.fst := List.mem_map_of_mem hy
    rw [selectWord_xsNames (List.mem_append_left _ (List.mem_cons_of_mem _ hname))]
    exact runXmods_xs1Table y hy
  · rw [selectWord_xsNames (List.mem_append_right _ (List.mem_map_of_mem hy))]
    exact runXmods_strstrModules y (List.mem_cons_of_mem _ hy)

/-- The name of `LOCKSYS` is only compared while its gate is closed. -/
theorem selectWord_locksys : selectWord openGates (lit "LOCKSYS") = .unknown := by
  refine (selectWord_eq_unknown_iff _).mpr ⟨locksys_not_mem_chainNames, .inr ?_⟩
  simp only [strstrModules, lit_ofList]
  decide

theorem namedBy_chainNames : ∀ x ∈ chainNames, namedBy x.1 = x.2 := by
  intro x hx
  rw [namedBy, lookup_of_mem nodup_commandNames (List.mem_cons_of_mem _ hx)]
  rfl

theorem namedBy_locksys : namedBy (lit "LOCKSYS") = .run .locksys := by
  rw [namedBy, commandNames, List.lookup_cons_self]
  rfl

theorem namedBy_of_not_mem {cmd : List Byte} (hlock : cmd ≠ lit "LOCKSYS")
    (hno : cmd ∉ chainNames.map Prod.fst) : namedBy cmd = .unknown := by
  have hnone : cmd ∉ commandNames.map Prod.fst := by
    rw [commandNames, List.map_cons, List.mem_cons, not_or]
    exact ⟨hlock, hno⟩
  rw [namedBy, lookup_eq_none_iff_not_mem.mpr hnone]
  rfl

/-! ### Frames -/

/-- **When a frame leads to the command it names.**  With all gates open and all modules
compiled in, for every frame and whatever stands behind it in the buffer: the handler that
`cmd_parse` and `run_xmods` select is that of the command whose name the first word is, and the
reply is `UNKNOWN` if there is none, under this condition and no other. -/
theorem dispatch_exact_iff (frame rest : List Byte) : DispatchExact frame rest ↔ WordOk frame := by
  unfold DispatchExact WordOk cmdSelect
  rw [excmd_frame]
  by_cases hname : firstWord frame ∈ chainNames.map Prod.fst
  · obtain ⟨hnul, hlen⟩ := chainNames_short hname
    obtain ⟨x, hx, hword⟩ := List.mem_map.mp hname
    rw [excmd_of_short hnul hlen, ← hword, selectWord_chainNames x hx, namedBy_chainNames x hx]
    exact ⟨fun _ => .inl (List.mem_map_of_mem hx), fun _ => rfl⟩
  · by_cases hlock : firstWord frame = lit "LOCKSYS"
    · -- the name is only compared while its gate is closed
      have hshort : 0 ∉ firstWord frame ∧ (firstWord frame).length < cmdNamelen := by
        rw [hlock, lit_ofList]
        decide
      rw [excmd_of_short hshort.1 hshort.2, hlock, selectWord_locksys, namedBy_locksys]
      refine ⟨nofun, ?_⟩
      rintro (h | h)
      · exact absurd h locksys_not_mem_chainNames
      · exact absurd rfl h.1
    · rw [namedBy_of_not_mem hlock hname, selectWord_eq_unknown_iff]
      constructor
      · exact fun h => .inr ⟨hlock, h⟩
      · rintro (h | h)
        · exact absurd h hname
        · exact h.2

/-- A word that only starts like the name of a subsystem enters the subsystem. -/
theorem longer_word_enters : ¬ DispatchExact (lit "xs_acetone now") [] := by
  have hword : cmdtoupper (excmd (lit "xs_acetone now" ++ 0 :: [])) = lit "XS_ACETONE" := by
    simp only [lit_ofList]
    decide
  have hfirst : firstWord (lit "xs_acetone now") = lit "XS_ACETONE" := by
    simp only [lit_ofList]
    decide
  have hxs : lit "XS" <:+: lit "XS_ACETONE" ∧ lit "XS_ACETONE" ∉ xsNames := by
    simp only [xsNames, xs1Table, strstrModules, lit_ofList]
    decide
  have hno : lit "XS_ACETONE" ∉ commandNames.map Prod.fst := by
    intro hmem
    have hmem : lit "XS_ACETONE" ∈ (lit "LOCKSYS" :: lit "END" :: cmdTable.map Prod.fst) ++ xsNames :=
      (chainNames_perm.cons _).mem_iff.mp hmem
    rcases List.mem_append.mp hmem with h | h
    · exact not_mem_of_infix hxs.1 h
    · exact hxs.2 h
  have hace : ¬ (lit "XS1_" <:+: lit "XS_ACETONE" ∨
      ∀ x ∈ strstrModules, ¬ x.1 <:+: lit "XS_ACETONE") := by
    simp only [strstrModules, lit_ofList]
    decide
  unfold DispatchExact cmdSelect
  rw [hword, hfirst, namedBy, lookup_eq_none_iff_not_mem.mpr hno]
  exact fun h => hace ((selectWord_eq_unknown_iff _).mp h).2

end TFProtocol
