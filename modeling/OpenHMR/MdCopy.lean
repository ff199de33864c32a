import Mathlib.Data.Int.Notation
import Mathlib.Logic.Function.Basic
import OpenHMR.MdEngine

/-!
# Copies by the move-data engine

`md_copy_start` of `md.c` claims an entry of the table `copy_task` for a copy and gives the engine
the one or two commands of it. The number of the copy is its handle, and `md_copy_sync` waits for
it. `md_check_copy_tasks` clears the entries of the completed copies in the order of their numbers.
`MdCopy` is the driver with any number of threads that call these functions and `md_memcpy`. A
section under `md_lock` is one step, and so is a statement outside of them.
-/

namespace OpenHMR

/-- `MAX_COPY_TASK`. -/
def maxCopyTask : ℕ :=
  64

/-- `virt_to_phys`, which is what `dma_map_single` returns. -/
def virtToPhys (addr : ℕ) : ℕ :=
  (addr + 0x100000000 - 0x80000000) % 0x100000000

/-- `md_copy_t`. -/
structure MdCopyReq where
  dst : ℕ
  src : ℕ
  len : ℕ
  dir : ℕ
  copyId : ℕ
  requestId : UInt64
  dmaDst : ℕ
  dmaSrc : ℕ
  deriving DecidableEq

/-- A cleared entry. -/
def MdCopyReq.clear : MdCopyReq :=
  ⟨0, 0, 0, 0, 0, 0, 0, 0⟩

/-- The arguments of `md_copy_start` and `md_memcpy`. -/
structure MdArgs where
  dst : ℕ
  src : ℕ
  len : ℕ
  dir : ℕ
  deriving DecidableEq

/-! ## Commands -/

/-- `MOVE_DATA_SS`. -/
def moveDataSs : UInt32 :=
  0x05

/-- The number of bytes of the next command. A copy that would leave 8 bytes behind the last
multiple of 256 begins with a command of 8 bytes. -/
def mdChunk (len addrSrc : ℕ) : ℕ :=
  let bytesToNext8bytesAlign := 8 - (addrSrc &&& 0x7) &&& 0x7
  if (len + 0x100 - bytesToNext8bytesAlign) % 0x100 = 8 then 8 else len

/-- The words of a command. -/
def mdCommand (dir addrDst addrSrc tmp : ℕ) : List UInt32 :=
  [if dir = 0 then moveDataSs ||| 0x80 else moveDataSs, .ofNat addrDst, .ofNat addrSrc, .ofNat tmp]

/-- The number of commands of a copy. -/
def mdCommands (args : MdArgs) : ℕ :=
  if mdChunk args.len (virtToPhys args.src) = args.len then 1 else 2

/-! ## Sections under the lock -/

/-- The part of `struct md_dev` for copies, the engine, and what has happened. -/
structure MdCopyDev where
  state : ℕ
  copyCounter : ℕ
  finishedCopyCounter : ℕ
  copyTask : ℕ → MdCopyReq
  engine : MdEngine
  /-- The commands that were given to the engine, each with the number of its copy. -/
  cmds : List (ℕ × List UInt32)
  /-- The number of commands of each copy. -/
  commands : ℕ → ℕ
  /-- The entries that were cleared. -/
  released : List MdCopyReq

namespace MdCopyDev

/-- The driver after `md_open`. -/
def start : MdCopyDev :=
  ⟨0, 0, 0, fun _ => .clear, .start, [], fun _ => 0, []⟩

/-- The entry of a copy. -/
def req (d : MdCopyDev) (id : ℕ) : MdCopyReq :=
  d.copyTask (id % maxCopyTask)

/-- A new content for the entry of a copy. -/
def setReq (d : MdCopyDev) (id : ℕ) (r : MdCopyReq) : MdCopyDev :=
  { d with copyTask := Function.update d.copyTask (id % maxCopyTask) r }

/-- `md_release_copy_request` for the entry of copy `finished_copy_counter`, which is then
counted. -/
def release (d : MdCopyDev) : MdCopyDev :=
  { d.setReq d.finishedCopyCounter .clear with
    finishedCopyCounter := (d.finishedCopyCounter + 1) % 0x10000000000000000
    released := d.released ++ [d.req d.finishedCopyCounter] }

/-- At most `n` rounds of the loop of `md_check_copy_tasks`. -/
def checkLoop : ℕ → MdCopyDev → MdCopyDev
  | 0, d => d
  | n + 1, d =>
    if mdCheckfinish d.engine.instCnt (d.req d.finishedCopyCounter).requestId then
      checkLoop n d.release
    else d

/-- The loop of `md_check_copy_tasks`. -/
def checkCopyTasks (d : MdCopyDev) : MdCopyDev :=
  checkLoop (d.copyCounter - d.finishedCopyCounter) d

/-- The content that `md_alloc_copy_request` gives the entry of a new copy. -/
def newReq (d : MdCopyDev) (args : MdArgs) : MdCopyReq :=
  { d.req d.copyCounter with
    dst := args.dst
    src := args.src
    len := args.len
    dir := args.dir
    dmaDst := virtToPhys args.dst
    dmaSrc := virtToPhys args.src
    copyId := d.copyCounter }

/-- The entry of the next copy is claimed. -/
def claim (d : MdCopyDev) (args : MdArgs) : MdCopyDev :=
  { d.setReq d.copyCounter (d.newReq args) with
    copyCounter := (d.copyCounter + 1) % 0x10000000000000000
    commands := Function.update d.commands d.copyCounter (mdCommands args) }

/-- `md_alloc_copy_request` : the number of the new copy, if there is an entry for it. -/
def allocCopyRequest (d : MdCopyDev) (args : MdArgs) : Option (ℕ × MdCopyDev) :=
  if d.state = 1 then none
  else if (d.req d.copyCounter).requestId = 0 then some (d.copyCounter, d.claim args)
  else none

/-- `md_write` of a command of copy `id`. -/
def writeCmd (d : MdCopyDev) (id : ℕ) (words : List UInt32) : MdCopyDev :=
  { d with engine := d.engine.writeCmd, cmds := d.cmds ++ [(id, words)] }

/-- The handle of the last command. -/
def handle (d : MdCopyDev) : UInt64 :=
  d.engine.swCounter.counter64

/-- The handle is stored in the entry. -/
def record (d : MdCopyDev) (id : ℕ) (handle : UInt64) : MdCopyDev :=
  d.setReq id { d.req id with requestId := handle }

/-- The engine completes a command. -/
def complete (d : MdCopyDev) : MdCopyDev :=
  { d with engine := d.engine.complete }

/-- The copies that the commands belong to. -/
def tasks (d : MdCopyDev) : List ℕ :=
  d.cmds.map Prod.fst

/-- All commands of copy `id` were given to the engine and completed. -/
structure Done (d : MdCopyDev) (id : ℕ) : Prop where
  claimed : id < d.copyCounter
  issued : d.tasks.count id = d.commands id
  completed : ∀ k, d.tasks[k]? = some id → k < d.engine.completed

end MdCopyDev

/-! ## Threads -/

/-- Who has called `md_copy_start` or `md_copy_sync` : a thread, or `md_memcpy`, before which
`since` commands had been given to the engine. -/
inductive MdCaller where
  | direct
  | memcpy (since : ℕ)
  deriving DecidableEq

/-- What comes after `md_check_copy_tasks`. -/
inductive MdNext where
  | leave
  | alloc (caller : MdCaller) (args : MdArgs)
  | sync (caller : MdCaller) (handle : ℕ)
  deriving DecidableEq

/-- Where a thread is. -/
inductive MdThread where
  | idle
  /-- Before the test of `md_check_copy_tasks`. -/
  | checkTest (next : MdNext)
  /-- Before its section. -/
  | checkLock (next : MdNext)
  /-- Before the section of `md_alloc_copy_request`. -/
  | alloc (caller : MdCaller) (args : MdArgs)
  /-- In `md_copy_start`, before `req->dma_dst` is read, -/
  | dst (caller : MdCaller) (id len : ℕ)
  /-- before `req->dma_src` is read, -/
  | src (caller : MdCaller) (id len addrDst : ℕ)
  /-- before `req->dir` is read, with a command to give, -/
  | dir (caller : MdCaller) (id len addrDst addrSrc : ℕ)
  /-- before `md_write`; `len`, `addrDst` and `addrSrc` are those after the command, -/
  | write (caller : MdCaller) (id len addrDst addrSrc : ℕ) (words : List UInt32)
  /-- before its handle is stored, -/
  | record (caller : MdCaller) (id len addrDst addrSrc : ℕ) (handle : UInt64)
  /-- before `req->copy_id` is returned. -/
  | ret (caller : MdCaller) (id : ℕ)
  /-- In `md_copy_sync`, before the test, -/
  | syncTest (caller : MdCaller) (handle : ℕ)
  /-- before `request_id` is read, -/
  | syncRead (caller : MdCaller) (handle : ℕ)
  /-- and waiting for the command. -/
  | syncWait (caller : MdCaller) (handle : ℕ) (requestId : UInt64)
  deriving DecidableEq

/-- The result of a call of `md_memcpy`, with the number of commands given to the engine before and
after it, and of those that were then completed. -/
structure MdResult where
  rc : ℤ
  since : ℕ
  upto : ℕ
  completed : ℕ
  deriving DecidableEq

/-- The driver and its threads. -/
structure MdCopy where
  dev : MdCopyDev
  threads : ℕ → MdThread
  /-- The handles that `md_copy_start` returned. -/
  returned : List ℕ
  /-- The handles for which `md_copy_sync` returned. -/
  synced : List ℕ
  /-- The results of `md_memcpy`. -/
  results : List MdResult

/-- What happens. -/
inductive MdCopyEvent where
  /-- Thread `i` calls `md_copy_start`, -/
  | start (i : ℕ) (args : MdArgs)
  /-- `md_check_copy_tasks`, -/
  | check (i : ℕ)
  /-- `md_copy_sync` -/
  | sync (i : ℕ) (handle : ℕ)
  /-- or `md_memcpy`. -/
  | memcpy (i : ℕ) (args : MdArgs)
  /-- Thread `i` goes on. -/
  | cpu (i : ℕ)
  /-- The engine completes a command. -/
  | complete
  deriving DecidableEq

namespace MdCopy

/-- The driver after `md_open`, without calls. -/
def start : MdCopy :=
  ⟨.start, fun _ => .idle, [], [], []⟩

/-- Thread `i` is now at `t`. -/
def goto (s : MdCopy) (i : ℕ) (t : MdThread) : MdCopy :=
  { s with threads := Function.update s.threads i t }

/-- The end of `md_memcpy`. -/
def finish (s : MdCopy) (i : ℕ) (rc : ℤ) (since : ℕ) : MdCopy :=
  { s.goto i .idle with
    results := s.results ++ [⟨rc, since, s.dev.cmds.length, s.dev.engine.completed⟩] }

/-- `md_copy_start` returns the handle. -/
def started (s : MdCopy) (i : ℕ) (caller : MdCaller) (handle : ℕ) : MdCopy :=
  let s := { s with returned := s.returned ++ [handle] }
  match caller with
  | .direct => s.goto i .idle
  | .memcpy since =>
    if handle ≠ 0 then s.goto i (.syncTest (.memcpy since) handle) else s.finish i (-1) since

/-- `md_copy_sync` returns. -/
def syncDone (s : MdCopy) (i : ℕ) (caller : MdCaller) (handle : ℕ) : MdCopy :=
  let s := { s with synced := s.synced ++ [handle] }
  match caller with
  | .direct => s.goto i .idle
  | .memcpy since => s.finish i 0 since

/-- `md_check_copy_tasks` returns. -/
def next (s : MdCopy) (i : ℕ) : MdNext → MdCopy
  | .leave => s.goto i .idle
  | .alloc caller args => s.goto i (.alloc caller args)
  | .sync caller handle => s.syncDone i caller handle

/-- The head of the loop of `md_copy_start`. -/
def copyLoop (caller : MdCaller) (id len addrDst addrSrc : ℕ) : MdThread :=
  if len = 0 then .ret caller id else .dir caller id len addrDst addrSrc

/-- Thread `i` goes on. -/
def cpu (s : MdCopy) (i : ℕ) : MdCopy :=
  match s.threads i with
  | .idle => s
  | .checkTest next =>
    if s.dev.finishedCopyCounter < s.dev.copyCounter then s.goto i (.checkLock next)
    else s.next i next
  | .checkLock next => { s with dev := s.dev.checkCopyTasks }.next i next
  | .alloc caller args =>
    match s.dev.allocCopyRequest args with
    | some (id, dev) => { s with dev := dev }.goto i (.dst caller id args.len)
    | none => s.started i caller 0
  | .dst caller id len => s.goto i (.src caller id len (s.dev.req id).dmaDst)
  | .src caller id len addrDst => s.goto i (copyLoop caller id len addrDst (s.dev.req id).dmaSrc)
  | .dir caller id len addrDst addrSrc =>
    let tmp := mdChunk len addrSrc
    s.goto i (.write caller id (len - tmp) ((addrDst + tmp) % 0x100000000)
      ((addrSrc + tmp) % 0x100000000) (mdCommand (s.dev.req id).dir addrDst addrSrc tmp))
  | .write caller id len addrDst addrSrc words =>
    let dev := s.dev.writeCmd id words
    { s with dev := dev }.goto i (.record caller id len addrDst addrSrc dev.handle)
  | .record caller id len addrDst addrSrc handle =>
    { s with dev := s.dev.record id handle }.goto i (copyLoop caller id len addrDst addrSrc)
  | .ret caller id => s.started i caller (s.dev.req id).copyId
  | .syncTest caller handle =>
    if s.dev.finishedCopyCounter ≤ handle then s.goto i (.syncRead caller handle)
    else s.syncDone i caller handle
  | .syncRead caller handle => s.goto i (.syncWait caller handle (s.dev.req handle).requestId)
  | .syncWait caller handle requestId =>
    if mdCheckfinish s.dev.engine.instCnt requestId then s.goto i (.checkTest (.sync caller handle))
    else s

def step (s : MdCopy) : MdCopyEvent → MdCopy
  | .start i args => s.goto i (.checkTest (.alloc .direct args))
  | .check i => s.goto i (.checkTest .leave)
  | .sync i handle => s.goto i (.syncTest .direct handle)
  | .memcpy i args => s.goto i (.checkTest (.alloc (.memcpy s.dev.cmds.length) args))
  | .cpu i => s.cpu i
  | .complete => { s with dev := s.dev.complete }

/-- Calls are made by idle threads, for copies that are not empty and handles that were returned,
the engine completes only what it was given, and less than `0x8000` commands are outstanding. -/
def Allowed (s : MdCopy) : MdCopyEvent → Prop
  | .start i args => s.threads i = .idle ∧ 0 < args.len
  | .check i => s.threads i = .idle
  | .sync i handle => s.threads i = .idle ∧ handle ∈ s.returned
  | .memcpy i args => s.threads i = .idle ∧ 0 < args.len
  | .cpu i =>
    match s.threads i with
    | .write .. => s.dev.engine.handles.length + 1 < s.dev.engine.completed + 0x8000
    | _ => True
  | .complete => s.dev.engine.completed < s.dev.engine.handles.length

end MdCopy

end OpenHMR
