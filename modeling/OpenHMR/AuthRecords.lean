import OpenHMR.Dyadic
import OpenHMR.Ledger
import OpenHMR.MmZone
import OpenHMR.RadixTree

/-!
# The records of the DVR memory (`mm/auth.c`)

A user program gets DVR memory by `AUTH_IOCQALLOC` and gives it back by `AUTH_IOCQFREE` or
`AUTH_IOCQFREEALL`, and a driver calls `dvr_malloc` and `dvr_free`. Every piece of memory that is
lent has a record in `dvr_tree`, under its address in words : a type word, which packs a signature,
the owner, a count and the order of the pages, and the address.

The page allocator and `kmalloc` are the environment : a call that asks them for memory carries
their answer, and it carries whether there is memory for the tree's node (`record_insert` may fail).
The state keeps the use counts of the pages, and a ledger of the blocks that were obtained and
released. With `CONFIG_REALTEK_ADVANCED_RECLAIM` the end of a block that is much larger than the
request is given back at once, and the rest of the block is later given back in pieces of the sizes
1/2, 1/4, … of the block.
-/

namespace OpenHMR

open Buddy (Block)

/-- The build : `CONFIG_REALTEK_ADVANCED_RECLAIM`, and the number of pages (at most 256 MB). -/
structure AuthConfig where
  advancedReclaim : Bool
  maxMapnr : ℕ
  maxMapnr_le : maxMapnr ≤ 0x10000

def pliSignature : ℕ := 0x77000000

def maxCacheSize : ℕ := 2 ^ 14

def buddyId : ℕ := 0x10000

def cacheId : ℕ := 0x20000

def driverId : ℕ := 0x30000

/-- What `record_insert` allocates for a piece of memory. -/
structure AuthRecord where
  type : ℕ
  addr : ℕ
  deriving DecidableEq

namespace AuthRecord

variable (r : AuthRecord)

def signature : ℕ := r.type &&& 0xff000000

/-- One of `buddyId`, `cacheId` and `driverId`. -/
def owner : ℕ := r.type &&& 0x00ff0000

/-- The number of pieces in which the block is given back, 0 for the block as a whole. -/
def cnt : ℕ := (r.type &&& 0x0000ff00) >>> 8

def order : ℕ := r.type &&& 0x000000ff

end AuthRecord

/-- A word as an `int`. -/
def toInt32 (x : ℕ) : ℤ :=
  if x < 2 ^ 31 then x else x - 2 ^ 32

/-- `virt_to_page` : the number of the page at an address of `KSEG0`. -/
def virtToPage (addr : ℕ) : ℕ :=
  (addr + 0x80000000) % 2 ^ 32 / 4096

/-- The index of an address in `dvr_tree`. -/
def recordKey (addr : ℕ) : ℕ :=
  (addr &&& 0x0fffffff) >>> 2

/-- The rounds of `cal_order`, at most `n` : the next one makes `val` overflow. -/
def calOrderLoop (num : ℤ) : ℕ → ℕ → Option ℕ
  | 0, cnt => if num > 2 ^ (12 + cnt) then none else some cnt
  | n + 1, cnt => if num > 2 ^ (12 + cnt) then calOrderLoop num n (cnt + 1) else some cnt

/-- The order of the smallest block of `num` bytes, `none` if the loop does not end. -/
def calOrder (num : ℤ) : Option ℕ :=
  calOrderLoop num 18 0

/-- The DVR memory. -/
structure AuthState where
  /-- Where the user program sees the memory. -/
  mapStartAddr : ℕ
  tree : Radix.Tree AuthRecord
  /-- `_count` of a page. -/
  count : ℕ → ℤ
  /-- The blocks that were obtained from the page allocator, and those that were released to it. -/
  log : List (Ledger.Event Block)
  /-- The blocks whose end was given back. -/
  cut : List Block
  /-- What `kmalloc` has lent. -/
  objs : List ℕ
  /-- The kernel stopped in a `BUG`, or does not leave a loop. -/
  down : Bool

namespace AuthState

variable (cfg : AuthConfig) (s : AuthState)

/-- Nothing is lent. -/
def init (mapStartAddr : ℕ) : AuthState where
  mapStartAddr := mapStartAddr
  tree := .empty
  count := fun _ => 0
  log := []
  cut := []
  objs := []
  down := false

/-- `BUG`. -/
def bug : AuthState :=
  { s with down := true }

/-- The pages that `__get_free_pages` returns : the first of them counts for the block. -/
def getFreePages (ret order : ℕ) : AuthState :=
  { s with
    count := fun x =>
      if x = virtToPage ret then 1
      else if virtToPage ret < x ∧ x < virtToPage ret + 2 ^ order then 0 else s.count x
    log := .acquire ⟨virtToPage ret, order⟩ :: s.log }

/-- `atomic_inc(&page->_count)`. -/
def incCount (page : ℕ) : AuthState :=
  { s with count := fun x => if x = page then s.count x + 1 else s.count x }

/-- `free_pages` : the block is released when the count of its first page gets 0. -/
def freePages (addr order : ℕ) : AuthState :=
  if cfg.maxMapnr ≤ virtToPage addr then s.bug
  else
    { s with
      count := fun x => if x = virtToPage addr then s.count x - 1 else s.count x
      log := if s.count (virtToPage addr) = 1 then .release ⟨virtToPage addr, order⟩ :: s.log
        else s.log }

/-- `kfree` : the object that an address is in the first word of. -/
def kfree (addr : ℕ) : AuthState :=
  if cfg.maxMapnr ≤ virtToPage addr then s.bug
  else { s with objs := s.objs.filter fun o => o / 4 ≠ addr / 4 }

/-- `record_insert`, that finds no memory if `fails`. -/
def recordInsert (type addr : ℕ) (fails : Bool) : Option AuthState :=
  if fails then none
  else (s.tree.insert (recordKey addr) ⟨type, addr⟩).map fun tree => { s with tree := tree }

/-- `record_lookup`, with an empty type word if there is no record. -/
def recordLookup (addr : ℕ) : AuthRecord :=
  (s.tree.lookup (recordKey addr)).getD ⟨0, addr⟩

def recordDelete (addr : ℕ) : AuthState :=
  { s with tree := s.tree.delete (recordKey addr) }

/-- The rounds `i, …` of the loop that gives a block back in pieces. -/
def freePieces (order : ℕ) : ℕ → ℕ → ℕ → AuthState → AuthState
  | 0, _, _, s => s
  | n + 1, i, addr, s =>
    if s.down then s
    else
      let s := if i ≠ 1 then s.incCount (virtToPage addr) else s
      freePieces order n (i + 1) (addr + 2 ^ (12 + order - i)) (s.freePages cfg addr (order - i))

/-- Gives the pages of the record `r` back, which are at `addr`. -/
def freeRecordPages (r : AuthRecord) (addr : ℕ) : AuthState :=
  if cfg.advancedReclaim ∧ r.cnt ≠ 0 then freePieces cfg r.order r.cnt 1 addr s
  else s.freePages cfg addr r.order

/-- What a block of order `order` has more than `arg` bytes. -/
def excess (arg order : ℕ) : ℤ :=
  toInt32 ((2 ^ (12 + order) + 2 ^ 32 - arg) % 2 ^ 32)

/-- The loop that finds the part of a block that is kept : half of it, and half of the rest, until
it is enough. `none` if it would shift by a negative number. -/
def cutLoop (arg : ℕ) : ℕ → ℕ → ℕ → Option (ℕ × ℕ)
  | 0, cnt, tmp => if tmp < arg then none else some (cnt, tmp)
  | shift + 1, cnt, tmp =>
    if tmp < arg then cutLoop arg shift (cnt + 1) (tmp + 2 ^ shift) else some (cnt, tmp)

/-- Gives the end of a block back if it is 64 KB larger than the request, with the number of pieces
that are left. -/
def reclaim (arg ret order : ℕ) : Option (ℕ × AuthState) :=
  if cfg.advancedReclaim ∧ 0x10000 ≤ excess arg order then
    match cutLoop arg (11 + order) 1 (2 ^ (11 + order)) with
    | none => none
    | some (cnt, tmp) =>
      let s := (s.incCount (virtToPage (ret + tmp))).freePages cfg (ret + tmp) (order - cnt)
      some (cnt, { s with cut := ⟨virtToPage ret, order⟩ :: s.cut })
  else some (0, s)

/-- `AUTH_IOCQALLOC` for more than `max_cache_size` bytes. -/
def qallocPages (arg : ℕ) (mem : Option ℕ) (fails : Bool) : ℕ × AuthState :=
  match calOrder (toInt32 arg) with
  | none => (0, s.bug)
  | some order =>
    match mem with
    | none => (0, s)
    | some ret =>
      match (s.getFreePages ret order).reclaim cfg arg ret order with
      | none => (0, s.bug)
      | some (cnt, s) =>
        match s.recordInsert (pliSignature ||| buddyId ||| cnt <<< 8 ||| order) ret fails with
        | none => (0, s.freePages cfg ret order)
        | some s => ((ret &&& 0x0fffffff) + s.mapStartAddr, s)

/-- `AUTH_IOCQALLOC` : the address of `arg` bytes in the user's map, 0 if there are none. -/
def qalloc (arg : ℕ) (mem : Option ℕ) (fails : Bool) : ℕ × AuthState :=
  if arg ≤ maxCacheSize then
    match mem with
    | none => (0, s)
    | some ret =>
      let s := { s with objs := ret :: s.objs }
      match s.recordInsert (pliSignature ||| cacheId) ret fails with
      | none => (0, s.kfree cfg ret)
      | some s => ((ret &&& 0x0fffffff) + s.mapStartAddr, s)
  else s.qallocPages cfg arg mem fails

/-- The address of a user's pointer in `KSEG0`. -/
def kernelAddr (arg : ℕ) : ℕ :=
  (arg + 2 ^ 32 - s.mapStartAddr) % 2 ^ 32 ||| 0x80000000

/-- `AUTH_IOCQFREE`. -/
def qfree (arg : ℕ) : ℕ × AuthState :=
  let addr := s.kernelAddr arg
  let r := s.recordLookup addr
  if r.signature ≠ pliSignature then (1, s)
  else
    let s := s.recordDelete addr
    if r.owner = cacheId then (0, s.kfree cfg addr) else (0, s.freeRecordPages cfg r addr)

/-- What `free_all_memory_allocation` does with one record. -/
def freeOne (s : AuthState) (e : ℕ × AuthRecord) : AuthState :=
  if s.down ∨ e.2.owner = driverId then s
  else if e.2.owner = cacheId then (s.kfree cfg e.2.addr).recordDelete e.2.addr
  else (s.freeRecordPages cfg e.2 e.2.addr).recordDelete e.2.addr

/-- The rounds of `free_all_memory_allocation`, each for ten records. -/
def freeAllLoop : ℕ → ℕ → AuthState → AuthState
  | 0, _, s => s
  | fuel + 1, startIndex, s =>
    let records := s.tree.gangLookup startIndex 10
    let s := records.foldl (freeOne cfg) s
    match records.getLast? with
    | some (_, r) =>
      if records.length ≠ 10 then s else freeAllLoop fuel (recordKey r.addr + 1) s
    | none => s

/-- `AUTH_IOCQFREEALL`. -/
def freeAllMemoryAllocation : AuthState :=
  freeAllLoop cfg (s.tree.entries.length + 1) 0 s

/-- `dvr_malloc` : the address of the pages, 0 if there are none. -/
def dvrMalloc (size : ℕ) (mem : Option ℕ) (fails : Bool) : ℕ × AuthState :=
  match calOrder (toInt32 size) with
  | none => (0, s.bug)
  | some order =>
    match mem with
    | none => (0, s)
    | some ret =>
      let s := s.getFreePages ret order
      match s.recordInsert (pliSignature ||| driverId ||| order) ret fails with
      | none => (0, s.freePages cfg ret order)
      | some s => (ret, s)

def dvrFree (addr : ℕ) : AuthState :=
  let r := s.recordLookup addr
  if r.signature ≠ pliSignature then s.bug
  else
    let s := s.recordDelete addr
    if r.owner ≠ driverId then s.bug else s.freePages cfg addr r.order

end AuthState

/-- The calls, with the answer of the allocator and of the tree's. -/
inductive AuthCall where
  | qalloc (arg : ℕ) (mem : Option ℕ) (fails : Bool)
  | qfree (arg : ℕ)
  | qfreeAll
  | malloc (size : ℕ) (mem : Option ℕ) (fails : Bool)
  | free (addr : ℕ)

/-- The call is an ioctl of a user program. -/
def AuthCall.FromUser : AuthCall → Prop
  | qalloc .. | qfree _ | qfreeAll => True
  | malloc .. | free _ => False

namespace AuthState

variable (cfg : AuthConfig)

def step (s : AuthState) (c : AuthCall) : AuthState :=
  if s.down then s
  else
    match c with
    | .qalloc arg mem fails => (s.qalloc cfg arg mem fails).2
    | .qfree arg => (s.qfree cfg arg).2
    | .qfreeAll => s.freeAllMemoryAllocation cfg
    | .malloc size mem fails => (s.dvrMalloc cfg size mem fails).2
    | .free addr => s.dvrFree cfg addr

/-- The pages that are lent. -/
def lent (s : AuthState) : Set ℕ :=
  Ledger.out Block.span s.log

/-- `kmalloc` may answer `ret` : an object that is not in use, on none of the pages that are. -/
structure FreshObject (s : AuthState) (ret : ℕ) : Prop where
  word : ret < 2 ^ 32
  valid : virtToPage ret < cfg.maxMapnr
  fresh : ∀ o ∈ s.objs, o / 4 ≠ ret / 4
  page : virtToPage ret ∉ s.lent

/-- `__get_free_pages` may answer `ret` : a block of pages that are not in use. -/
structure FreshPages (s : AuthState) (ret order : ℕ) : Prop where
  order_lt : order < maxOrder
  addr : ret = 0x80000000 + 4096 * virtToPage ret
  valid : virtToPage ret + 2 ^ order ≤ cfg.maxMapnr
  fresh : Disjoint (Block.span ⟨virtToPage ret, order⟩) s.lent
  objs : ∀ o ∈ s.objs, virtToPage o ∉ Block.span ⟨virtToPage ret, order⟩

/-- What the allocators may answer to a call. -/
def Answers (s : AuthState) : AuthCall → Prop
  | .qalloc arg (some ret) _ =>
    if arg ≤ maxCacheSize then s.FreshObject cfg ret
    else ∀ order, calOrder (toInt32 arg) = some order → s.FreshPages cfg ret order
  | .malloc size (some ret) _ =>
    ∀ order, calOrder (toInt32 size) = some order → s.FreshPages cfg ret order
  | _ => True

end AuthState

end OpenHMR
