import TFProtocol.TreeFs
import TFProtocol.SecureFs
import TFProtocol.Roots
import TFProtocol.NtfyList

/-!
# The commands that change files

The handlers of `cmd.c` on a file tree.  A handler takes the text behind the command name,
checks its paths with `jaildir`, looks for a lock file with `trylck`, and makes its calls.
What a transfer leaves in a file depends on the client and on the disk; it is any content
here, given with the command.  Replies are left out.

## Main definitions

* `CoreSt`, `CoreEnv` — the state of a session, and what a command finds around it.
* `check`, `trylck`, `listdir`, `rmr`, `cprTree`, `cpfile`, `store` — what the handlers share.
* `chkact` — one turn of the loop of `STARTNTFY`.
* `CoreCmd`, `coreNext` — a command, and the state it leaves.
-/

namespace TFProtocol

open Bytes CStr

/-! ### Sessions -/

/-- The files, and the globals of a session that decide about them. -/
structure CoreSt where
  tree : FileTree
  roots : Roots
  lcknam : List Byte
  /-- `comm.faiuse`. -/
  faiuse : Bool
  /-- The list of `ntfy.c`. -/
  ntfy : List Watch

/-- The globals of the jail. -/
def CoreSt.jail (s : CoreSt) : Jail := s.roots.jail

/-- What a command finds around it. -/
structure CoreEnv where
  /-- The paths at which the system refuses changes. -/
  deny : List Byte → Bool
  /-- What lies behind a path that is too long. -/
  beyond : Site → List Byte
  /-- `getpid()`, in decimal digits. -/
  pid : List Byte
  /-- `tfproto.faipath`. -/
  faipath : List Byte
  /-- `tfproto.runbash`. -/
  runbash : Bool
  /-- What a script does to the files. -/
  script : List Byte → FileTree → FileTree

/-- `jaildir`, with the flags its caller stores. -/
def check (w : CoreEnv) (s : CoreSt) (site : Site) (src : List Byte) : JailRes :=
  jaildir (treeFs s.tree) (site.arm s.jail) src (w.beyond site)

/-- The session behind a call of `jaildir`. -/
def CoreSt.after (s : CoreSt) (c : JailRes) : CoreSt :=
  { s with roots := { s.roots with jail := c.jail } }

/-- The directory `trylck` looks in: the path without its last component. -/
def cutLast (path : List Byte) : List Byte :=
  match lastSlash (if trailing path then path.dropLast else path) with
  | some (a, _) => a
  | none => path

/-- `trylck(path, lcknam, rmtrail)` is not `0`: no lock file is there. -/
def trylck (t : FileTree) (lcknam path : List Byte) (rmtrail : Bool) : Bool :=
  lcknam = [] ||
    !(treeFs t).access ((if rmtrail then cutLast path else path) ++ [slash] ++ lcknam)

/-! ### What the handlers share -/

/-- What `listdir` finds below a path, as names from there on. -/
def found (t : FileTree) (path : List Byte) : List (List DirName) :=
  match dirAt t path with
  | none => []
  | some e => t.below t.next e

/-- `listdir(path, list, 1)`. -/
def listdir (t : FileTree) (path : List Byte) : List (List Byte) :=
  (found t path).map (below path)

section

variable (deny : List Byte → Bool)

/-- `rmr` passes over a path that has the string it was given in it. -/
def spared (excl : Option (List Byte)) (p : List Byte) : Bool :=
  excl.any fun x => x <:+: p ++ [slash]

/-- One turn of the loop of `rmr`, from the last path to the first. -/
def rmrStep (excl : Option (List Byte)) (t : FileTree) (p : List Byte) : FileTree :=
  if spared excl p then t
  else unlink deny (rmdir deny t (p ++ [slash])) p

/-- `rmr(path, excl)`. -/
def rmr (excl : Option (List Byte)) (t : FileTree) (path : List Byte) : FileTree :=
  (path :: listdir t path).reverse.foldl (rmrStep deny excl) t

/-- The loop of `cpr` over what `listdir` found below the source: it stops at the first call
that fails. -/
def cprTreeLoop (srcp dstp : List Byte) : FileTree → List (List DirName) → FileTree
  | t, [] => t
  | t, ns :: rest =>
    let r := if (treeFs t).isDir (below srcp ns) then mkdir deny t (below dstp ns)
      else link deny t (below srcp ns) (below dstp ns)
    if r.2 then cprTreeLoop srcp dstp r.1 rest else r.1

/-- `cpr(srcp, dstp)`. -/
def cprTree (t : FileTree) (srcp dstp : List Byte) : FileTree :=
  let list := found t srcp
  let r := mkdir deny t dstp
  if r.2 then cprTreeLoop deny srcp dstp r.1 list else r.1

/-- `cpfile(src, dst)`; `good` if the copying itself goes well. -/
def cpfile (good : Bool) (t : FileTree) (src dst : List Byte) : FileTree × Bool :=
  match openFile deny t true false dst with
  | none => (t, false)
  | some (t', i) =>
    let t' := t'.write i []
    match (treeFs t').read src with
    | none => (t', false)
    | some c => if good then (t'.write i c, true) else (unlink deny t' dst, false)

/-- A file is opened for writing, gets a content, and may be taken away again. -/
def store (creat excl : Bool) (t : FileTree) (p : List Byte) (content : Option (List Byte))
    (gone : Bool) : FileTree :=
  match openFile deny t creat excl p with
  | none => t
  | some (t', i) =>
    let t' := match content with
      | some c => t'.write i c
      | none => t'
    if gone then unlink deny t' p else t'

/-- The loop of `cmd_rmkdir` and `cmd_flycontext` over the components of a path. -/
def mkdirs (t : FileTree) (dir : List Byte) : List (List Byte) → FileTree
  | [] => t
  | c :: cs => mkdirs (mkdir deny t (dir ++ [slash] ++ c)).1 (dir ++ [slash] ++ c) cs

end

/-! ### Notifications -/

/-- `findntfy` in directory `e` of the tree: what it stores in `flnam`, if it returns `1`. -/
def findntfyTree (t : FileTree) (e : ℕ) (sym : List Byte) : Option (List Byte) :=
  ((t.dir e).find? fun x => symMatches sym x.1.val).map fun x => strcpySec x.1.val nameMax

/-- `chkact`, with the answers the client gives to the reports, one for each entry of the
list; `false` if the session ends, for want of an answer or of a directory to read. -/
def chkact (deny : List Byte → Bool) : FileTree → List Watch → List (List Byte) →
    FileTree × Bool
  | t, [], _ => (t, true)
  | t, x :: ws, answers =>
    match dirAt t x.path with
    | none => (t, false)
    | some e =>
      match findntfyTree t e x.sym with
      | none => chkact deny t ws answers.tail
      | some name =>
        match answers.head?.map cmdtoupper with
        | none => (t, false)
        | some cmd =>
          if cmd = lit "END" then (t, false)
          -- neither a lock nor a permission is looked for
          else if cmd = lit "DEL" then chkact deny (unlink deny t (x.path ++ name)) ws answers.tail
          else chkact deny t ws answers.tail

/-- The loop of `cmd_startntfy`, with the answers of each turn, until the client is gone.  The
descriptors that `findntfy` leaves open run out some time, and the answers end there. -/
def ntfyLoop (deny : List Byte → Bool) (ws : List Watch) :
    FileTree → List (List (List Byte)) → FileTree
  | t, [] => t
  | t, answers :: turns =>
    let r := chkact deny t ws answers
    if r.2 then ntfyLoop deny ws r.1 turns else r.1

/-! ### The handlers -/

/-- `SDEXT`. -/
def sdext : List Byte := lit ".sd/"

/-- `LSV2TOK_SEP`. -/
def lsv2tokSep : List Byte := lit "@||@"

/-- `FAPI_OWCH` is the first character. -/
def owch (arg : List Byte) : Bool := arg.head? = some (ofChar '1')

section

variable (w : CoreEnv) (s : CoreSt)

/-- `cmd_mkdir`. -/
def cmdMkdir (arg : List Byte) : CoreSt :=
  let c := check w s .mkdir arg
  let s := s.after c
  if !c.ok || !trylck s.tree s.lcknam c.dst true then s
  else { s with tree := (mkdir w.deny s.tree c.dst).1 }

/-- `cmd_rmkdir`. -/
def cmdRmkdir (arg : List Byte) : CoreSt :=
  let c := check w s .rmkdir arg
  let s := s.after c
  if !c.ok || !trylck s.tree s.lcknam c.dst true then s
  else { s with tree := mkdirs w.deny s.tree [slash] (strtokDirs c.dst) }

/-- The file `mktmp("_ls.tmp")` makes. -/
def tmpPath : List Byte := s.jail.dbdir ++ w.pid ++ lit "_ls.tmp"

/-- What `cmd_ls` and `cmd_lsr` share: a listing is written to a file, sent and taken
away. -/
def lsTmp (site : Site) (arg text : List Byte) : CoreSt :=
  let c := check w s site arg
  let s := s.after c
  if !c.ok || !trylck s.tree s.lcknam c.dst false || !(treeFs s.tree).isDir c.dst then s
  else { s with tree := store w.deny true false s.tree (tmpPath w s) (some text) true }

/-- `cmd_ls`. -/
def cmdLs (arg text : List Byte) : CoreSt := lsTmp w s .ls arg text

/-- `cmd_lsr`. -/
def cmdLsr (arg text : List Byte) : CoreSt := lsTmp w s .lsr arg text

/-- `cmd_sendfile`, which `RCVFILE` calls; `all` if the client took all of the file. -/
def cmdSendfile (arg : List Byte) (all : Bool) : CoreSt :=
  match strstr (lit " ") arg with
  | none => s
  | some (_, path) =>
    let c := check w s .sendfile path
    let s := s.after c
    if !c.ok || !trylck s.tree s.lcknam c.dst true || !isReg s.tree c.dst then s
    else if owch arg && all then { s with tree := unlink w.deny s.tree c.dst }
    else s

/-- `cmd_rcvfile`, which `SNDFILE` calls; the file is taken away if the client gives up or
the disk is full. -/
def cmdRcvfile (arg content : List Byte) (gone : Bool) : CoreSt :=
  match strstr (lit " ") arg with
  | none => s
  | some (_, path) =>
    let c := check w s .rcvfile path
    let s := s.after c
    if !c.ok || !trylck s.tree s.lcknam c.dst true then s
    else if !owch arg && (treeFs s.tree).access c.dst then s
    else { s with tree := store w.deny true false s.tree c.dst (some content) gone }

/-- `cmd_del`. -/
def cmdDel (arg : List Byte) : CoreSt :=
  let c := check w s .del arg
  let s := s.after c
  if !c.ok then s
  -- a lock file itself can be deleted
  else if !endsIn s.lcknam c.dst && !trylck s.tree s.lcknam c.dst true then s
  else if (treeFs s.tree).isDir c.dst then s
  else { s with tree := unlink w.deny s.tree c.dst }

/-- `cmd_rmdir`; the root is made again if it is gone. -/
def cmdRmdir (arg : List Byte) : CoreSt :=
  let c := check w s .rmdir arg
  let s := s.after c
  if !c.ok || !trylck s.tree s.lcknam c.dst true then s
  else
    let t := rmr w.deny (some sdext) s.tree c.dst
    if (treeFs t).access c.dst then { s with tree := t }
    else if (treeFs t).access s.jail.dbdir then { s with tree := t }
    else { s with tree := (mkdir w.deny t s.jail.dbdir).1 }

/-- `cmd_rmsecdir`. -/
def cmdRmsecdir (arg : List Byte) : CoreSt :=
  match strstr multipSeps arg with
  | none => s
  | some (tok, dstp) =>
    let c := check w s .rmsecdir dstp
    let s := s.after c
    if !c.ok || !trylck s.tree s.lcknam c.dst false then s
    else if !(treeFs s.tree).access (c.dst ++ [slash] ++ tok) then s
    else { s with tree := rmr w.deny none s.tree c.dst }

/-- `cmd_copy`. -/
def cmdCopy (arg : List Byte) : CoreSt :=
  match strstr multipSeps arg with
  | none => s
  | some (srcp, dstp) =>
    let c := check w s .copySrc srcp
    let s := s.after c
    if !c.ok || !trylck s.tree s.lcknam c.dst true || (treeFs s.tree).isDir c.dst then s
    else
      let c' := check w s .copyDst dstp
      let s := s.after c'
      if !c'.ok || !trylck s.tree s.lcknam c'.dst true then s
      else { s with tree := (link w.deny s.tree c.dst c'.dst).1 }

/-- `cmd_cpdir`. -/
def cmdCpdir (arg : List Byte) : CoreSt :=
  match strstr multipSeps arg with
  | none => s
  | some (srcp, dstp) =>
    let c := check w s .cpdirSrc srcp
    let s := s.after c
    if !c.ok || !trylck s.tree s.lcknam c.dst false || !(treeFs s.tree).isDir c.dst then s
    else
      let c' := check w s .cpdirDst dstp
      let s := s.after c'
      if !c'.ok || !trylck s.tree s.lcknam c'.dst true || (treeFs s.tree).access c'.dst then s
      else { s with tree := cprTree w.deny s.tree c.dst c'.dst }

/-- What `cmd_xcopy` and `cmd_xcpdir` do in a directory that matches. -/
def crossStep (lcknam newn dstpat : List Byte) (act : FileTree → List Byte → FileTree)
    (t : FileTree) (prec : List Byte) : FileTree :=
  if endsIn dstpat prec && trylck t lcknam (prec ++ [slash] ++ newn) true then
    act t (prec ++ [slash] ++ newn)
  else t

/-- What `cmd_xcopy` and `cmd_xcpdir` share. -/
def crossTree (site : Site) (rmtrail : Bool) (kind : FileTree → List Byte → Bool)
    (act : List Byte → FileTree → List Byte → FileTree) (arg : List Byte) : CoreSt :=
  match crossArgs arg with
  | none => s
  | some (newn, srcp, dstpat) =>
    let c := check w s site srcp
    let s := s.after c
    if !c.ok || !trylck s.tree s.lcknam c.dst rmtrail || !kind s.tree c.dst then s
    else
      { s with
        tree := (listdir s.tree s.jail.dbdir).foldl
          (crossStep s.lcknam newn dstpat (act c.dst)) s.tree }

/-- `cmd_xcopy`. -/
def cmdXcopyTree (arg : List Byte) : CoreSt :=
  crossTree w s .xcopy true isReg (fun src t dst => (link w.deny t src dst).1) arg

/-- `cmd_xcpdir`. -/
def cmdXcpdirTree (arg : List Byte) : CoreSt :=
  crossTree w s .xcpdir false (fun t p => (treeFs t).isDir p)
    (fun src t dst => cprTree w.deny t src dst) arg

/-- What `cmd_xdel` and `cmd_xrmdir` share: something is done to every path below a directory
that ends in a name. -/
def crossRemove (site : Site) (act : FileTree → List Byte → FileTree) (arg : List Byte) : CoreSt :=
  match strstr (lit " ") arg with
  | none => s
  | some (srcp, nam) =>
    let c := check w s site srcp
    let s := s.after c
    if !c.ok || !trylck s.tree s.lcknam c.dst false || !(treeFs s.tree).isDir c.dst then s
    else
      { s with
        tree := (listdir s.tree c.dst).foldl
          (fun t prec => if endsIn nam prec then act t prec else t) s.tree }

/-- `cmd_xdel`. -/
def cmdXdel (arg : List Byte) : CoreSt :=
  crossRemove w s .xdel
    (fun t prec => if trylck t s.lcknam prec true then unlink w.deny t prec else t) arg

/-- `cmd_xrmdir`. -/
def cmdXrmdir (arg : List Byte) : CoreSt :=
  crossRemove w s .xrmdir
    (fun t prec =>
      if (treeFs t).isDir prec && trylck t s.lcknam prec false then rmr w.deny (some sdext) t prec
      else t) arg

/-- `cmd_touch`. -/
def cmdTouch (arg : List Byte) : CoreSt :=
  let c := check w s .touch arg
  let s := s.after c
  if !c.ok || !trylck s.tree s.lcknam c.dst true || (treeFs s.tree).access c.dst then s
  else { s with tree := store w.deny true false s.tree c.dst none false }

/-- `cmd_tasfs`. -/
def cmdTasfs (arg : List Byte) : CoreSt :=
  let c := check w s .tasfs arg
  let s := s.after c
  if !c.ok || !trylck s.tree s.lcknam c.dst true then s
  else { s with tree := store w.deny true true s.tree c.dst none false }

/-- `cmd_renam`. -/
def cmdRenam (arg : List Byte) : CoreSt :=
  match strstr multipSeps arg with
  | none => s
  | some (srcp, dstp) =>
    if dstp = [] then s
    else
      let c := check w s .renamSrc srcp
      let s := s.after c
      let srcDir := (treeFs s.tree).isDir c.dst
      if !c.ok || !trylck s.tree s.lcknam c.dst (!srcDir) then s
      else
        let c' := check w s .renamDst dstp
        let s := s.after c'
        -- `st` still describes the source if there is nothing at the destination
        let dstDir := if (treeFs s.tree).access c'.dst then (treeFs s.tree).isDir c'.dst else srcDir
        if !c'.ok || !trylck s.tree s.lcknam c'.dst (!dstDir) then s
        else { s with tree := (rename w.deny s.tree c.dst c'.dst).1 }

/-- What the handlers share that check one path, open it for writing and receive a
content. -/
def storeAt (site : Site) (creat : Bool) (path : List Byte) (content : Option (List Byte))
    (gone : Bool) : CoreSt :=
  let c := check w s site path
  let s := s.after c
  if !c.ok then s else { s with tree := store w.deny creat false s.tree c.dst content gone }

/-- `cmd_put`, and what `putstream` leaves. -/
def cmdPut (path : List Byte) (content : Option (List Byte)) (del : Bool) : CoreSt :=
  storeAt w s .put true path content del

/-- `cmd_putcan`, and what `putstream_can` leaves. -/
def cmdPutcan (path : List Byte) (content : Option (List Byte)) (del : Bool) : CoreSt :=
  storeAt w s .putcan true path content del

/-- `cmd_sup`; the file is cut off when it is opened. -/
def cmdSup (path content : List Byte) (gone : Bool) : CoreSt :=
  storeAt w s .sup true path (some content) gone

/-- `cmd_intwrite`. -/
def cmdIntwrite (path : List Byte) (content : Option (List Byte)) : CoreSt :=
  storeAt w s .intwrite false path content false

/-- `cmd_netmutacqtry`, on the text before the token. -/
def cmdNetmutacqtryTree (path : List Byte) (content : Option (List Byte)) : CoreSt :=
  storeAt w s .netmutacqtry false path content false

/-- `cmd_netmutrel`, on the text before the token. -/
def cmdNetmutrelTree (path : List Byte) (content : Option (List Byte)) : CoreSt :=
  storeAt w s .netmutrel false path content false

/-- `cmd_lsrv2`, which `LSV2` and `LSRV2` call with their own permission; the file is taken
away if the listing fails. -/
def cmdLsrv2 (site : Site) (arg text : List Byte) (gone : Bool) : CoreSt :=
  match strstr lsv2tokSep arg with
  | none => s
  | some (path, file) =>
    let c := check w s site path
    let s := s.after c
    if !c.ok || !trylck s.tree s.lcknam c.dst false then s
    else
      let c' := check w s .lsrv2File file
      let s := s.after c'
      if !c'.ok || !(treeFs s.tree).isDir c.dst then s
      else { s with tree := store w.deny true false s.tree c'.dst (some text) gone }

/-- Where `cmd_setfsperm` and `cmd_remfsperm` keep a lock. -/
def lckFile (dir : List Byte) : List Byte := metaFile dir ++ lit ".lck"

/-- Where they prepare a new content. -/
def swpFile (dir : List Byte) : List Byte := metaFile dir ++ lit ".swp"

/-- The end of both: the new content, once it is in the swap file, replaces the metadata and
then the copy for the readers. -/
def metaReplace (good : Bool) (t : FileTree) (dir : List Byte) : FileTree :=
  let r := rename w.deny t (swpFile dir) (metaFile dir)
  if !r.2 then unlink w.deny r.1 (swpFile dir)
  else
    let c := cpfile w.deny good r.1 (metaFile dir) (swpFile dir)
    if !c.2 then c.1
    else
      let r := rename w.deny c.1 (swpFile dir) (rdFile dir)
      if r.2 then r.1 else unlink w.deny r.1 (swpFile dir)

/-- `cmd_setfsperm` in a directory. -/
def setfspermIn (io : MetaIo) (fsid tok dir : List Byte) (t : FileTree) : FileTree :=
  let t := store w.deny true false t (lckFile dir) none false
  match openFile w.deny t true false (metaFile dir) with
  | none => t
  | some (t, _) =>
    let c := cpfile w.deny io.openSwap t (metaFile dir) (swpFile dir)
    if !c.2 then c.1
    else
      let file := ((treeFs c.1).read (swpFile dir)).getD []
      -- the first permission of a directory may be set by anyone
      if file ≠ [] ∧ !maySet fsid (lines newline lineMax file) ∨ !io.put then
        unlink w.deny c.1 (swpFile dir)
      else
        metaReplace w io.renameRd
          (store w.deny false false c.1 (swpFile dir) (some (file ++ tok ++ [newline])) false) dir

/-- `cmd_setfsperm`. -/
def cmdSetfspermTree (io : MetaIo) (arg : List Byte) : CoreSt :=
  match strchr blank arg with
  | none => s
  | some (tok, dir) =>
    if !tok.contains fspermTok then s
    else
      let c := check w s .setfsperm dir
      let s := s.after c
      if !c.ok || !(treeFs s.tree).isDir c.dst then s
      else { s with tree := setfspermIn w io s.jail.fsid tok c.dst s.tree }

/-- `cmd_remfsperm` in a directory. -/
def remfspermIn (io : MetaIo) (fsid tok dir : List Byte) (t : FileTree) : FileTree :=
  let t := store w.deny true false t (lckFile dir) none false
  if getfsidperm (treeFs t) (rdFile dir) fsid &&& Secfs.remperm.bit = 0 then t
  else
    -- the swap file is opened, and cut off, even if the metadata is not there
    match openFile w.deny t true false (swpFile dir) with
    | none => t
    | some (t', i) =>
      let t' := t'.write i []
      match (treeFs t').read (metaFile dir) with
      | none => t'
      | some file =>
        match remLines tok (lines newline lineMax file) with
        | none => t'
        | some kept =>
          if !io.put then unlink w.deny t' (swpFile dir)
          else metaReplace w io.renameRd (t'.write i kept) dir

/-- `cmd_remfsperm`. -/
def cmdRemfspermTree (io : MetaIo) (arg : List Byte) : CoreSt :=
  match strchr blank arg with
  | none => s
  | some (tok, dir) =>
    let c := check w s .remfsperm dir
    let s := s.after c
    if !c.ok || !(treeFs s.tree).isDir c.dst then s
    else { s with tree := remfspermIn w io s.jail.fsid tok c.dst s.tree }

/-- `cmd_flycontext`. -/
def cmdFlycontextTree (arg : List Byte) : CoreSt :=
  let c := check w s .flycontext arg
  let t := if c.ok then mkdirs w.deny s.tree [slash] (strtokDirs c.dst) else s.tree
  { s with
    tree := t
    roots := (cmdFlycontext (treeFs s.tree) (treeFs t) s.roots arg (w.beyond .flycontext)).roots }

/-- `cmd_faitok`: a token is stored under a new name; `good` if it could be written. -/
def cmdFaitok (uuid line : List Byte) (good : Bool) : CoreSt :=
  if s.faiuse then s
  else
    { s with
      tree := store w.deny true false s.tree (w.faipath ++ uuid) (some line) false
      faiuse := good && (openFile w.deny s.tree true false (w.faipath ++ uuid)).isSome }

/-- `cmd_runbash`. -/
def cmdRunbash (arg : List Byte) : CoreSt :=
  if !w.runbash || !(treeFs s.tree).access arg then s
  else { s with tree := w.script arg s.tree }

/-- `cmd_addntfy`, on the memory behind the name of the command; `alloc` if `realloc`
succeeds. -/
def cmdAddntfyTree (mem : List Byte) (alloc : Bool) : CoreSt :=
  if h : chksym (cstr (addntfySym mem)) = true then
    let c := check w s .addntfy (addntfyPath mem)
    let s := s.after c
    if !c.ok || !(treeFs s.tree).access c.dst || !alloc then s
    else
      { s with
        ntfy := s.ntfy ++
          [⟨c.dst ++ [slash], cstr (addntfySym mem), h, length_addntfySym mem⟩] }
  else s

/-- `cmd_startntfy`; the session ends behind it unless the list is empty. -/
def cmdStartntfyTree (turns : List (List (List Byte))) : CoreSt :=
  if s.ntfy = [] then s else { s with tree := ntfyLoop w.deny s.ntfy s.tree turns }

/-- Several checks one after the other, which is all that the handlers do that only look at
files. -/
def looks : List (Site × List Byte) → CoreSt
  | [] => s
  | x :: xs => (looks xs).after (check w (looks xs) x.1 x.2)

end

/-! ### Commands -/

/-- A command of `cmd.c`, with the text behind its name, and what the transfers it starts
leave. -/
inductive CoreCmd
  /-- A command that only looks at files, with the checks it makes, the last one first. -/
  | look (checks : List (Site × List Byte))
  | mkdir (arg : List Byte)
  | rmkdir (arg : List Byte)
  | ls (arg text : List Byte)
  | lsr (arg text : List Byte)
  | sendfile (arg : List Byte) (all : Bool)
  | rcvfile (arg content : List Byte) (gone : Bool)
  | del (arg : List Byte)
  | rmdir (arg : List Byte)
  | rmsecdir (arg : List Byte)
  | copy (arg : List Byte)
  | cpdir (arg : List Byte)
  | xcopy (arg : List Byte)
  | xcpdir (arg : List Byte)
  | xdel (arg : List Byte)
  | xrmdir (arg : List Byte)
  | lock (arg : List Byte)
  | touch (arg : List Byte)
  | tasfs (arg : List Byte)
  | renam (arg : List Byte)
  | put (path : List Byte) (content : Option (List Byte)) (del : Bool)
  | putcan (path : List Byte) (content : Option (List Byte)) (del : Bool)
  | sup (path content : List Byte) (gone : Bool)
  | intwrite (path : List Byte) (content : Option (List Byte))
  | netmutacqtry (path : List Byte) (content : Option (List Byte))
  | netmutrel (path : List Byte) (content : Option (List Byte))
  | lsv2 (arg text : List Byte) (gone : Bool)
  | lsrv2 (arg text : List Byte) (gone : Bool)
  | setfsid (arg : List Byte)
  | setfsperm (io : MetaIo) (arg : List Byte)
  | remfsperm (io : MetaIo) (arg : List Byte)
  | injail (arg : List Byte)
  | locksys (arg : List Byte)
  | flycontext (arg : List Byte)
  | faitok (uuid line : List Byte) (good : Bool)
  | runbash (arg : List Byte)
  | addntfy (mem : List Byte) (alloc : Bool)
  /-- The answers of the client in each turn of the loop. -/
  | startntfy (turns : List (List (List Byte)))
  deriving DecidableEq, Repr

/-- One command of a session. -/
def coreStep (s : CoreSt) (w : CoreEnv) : CoreCmd → CoreSt
  | .look checks => looks w s checks
  | .mkdir arg => cmdMkdir w s arg
  | .rmkdir arg => cmdRmkdir w s arg
  | .ls arg text => cmdLs w s arg text
  | .lsr arg text => cmdLsr w s arg text
  | .sendfile arg all => cmdSendfile w s arg all
  | .rcvfile arg content gone => cmdRcvfile w s arg content gone
  | .del arg => cmdDel w s arg
  | .rmdir arg => cmdRmdir w s arg
  | .rmsecdir arg => cmdRmsecdir w s arg
  | .copy arg => cmdCopy w s arg
  | .cpdir arg => cmdCpdir w s arg
  | .xcopy arg => cmdXcopyTree w s arg
  | .xcpdir arg => cmdXcpdirTree w s arg
  | .xdel arg => cmdXdel w s arg
  | .xrmdir arg => cmdXrmdir w s arg
  -- the name is stored before it is looked at
  | .lock arg => { s with lcknam := arg }
  | .touch arg => cmdTouch w s arg
  | .tasfs arg => cmdTasfs w s arg
  | .renam arg => cmdRenam w s arg
  | .put path content del => cmdPut w s path content del
  | .putcan path content del => cmdPutcan w s path content del
  | .sup path content gone => cmdSup w s path content gone
  | .intwrite path content => cmdIntwrite w s path content
  | .netmutacqtry path content => cmdNetmutacqtryTree w s path content
  | .netmutrel path content => cmdNetmutrelTree w s path content
  | .lsv2 arg text gone => cmdLsrv2 w s .lsv2 arg text gone
  | .lsrv2 arg text gone => cmdLsrv2 w s .lsrv2 arg text gone
  | .setfsid arg =>
    { s with roots := { s.roots with jail := { s.roots.jail with fsid := arg } } }
  | .setfsperm io arg => cmdSetfspermTree w s io arg
  | .remfsperm io arg => cmdRemfspermTree w s io arg
  | .injail arg =>
    { s with roots := (cmdInjail (treeFs s.tree) s.roots arg (w.beyond .injail)).roots }
  | .locksys arg => { s with roots := (cmdLocksys (treeFs s.tree) s.roots arg).roots }
  | .flycontext arg => cmdFlycontextTree w s arg
  | .faitok uuid line good => cmdFaitok w s uuid line good
  | .runbash arg => cmdRunbash w s arg
  | .addntfy mem alloc => cmdAddntfyTree w s mem alloc
  | .startntfy turns => cmdStartntfyTree w s turns

/-- One command, as a step of a run. -/
def coreNext (s : CoreSt) (a : CoreEnv × CoreCmd) : Option CoreSt := some (coreStep s a.1 a.2)

end TFProtocol
