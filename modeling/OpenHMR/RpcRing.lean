import Mathlib.Data.Int.Notation
import Mathlib.Logic.Function.Basic
import OpenHMR.Circular

/-!
# The RPC rings

The drivers `RPCpoll.c`, `RPCintr.c` and `RPCkern.c` exchange messages with the processors for
audio and video through rings of 512 bytes. A call takes the pointers of the ring once, decides
what to copy, copies it and then moves its own pointer : a write moves `ringIn` and a read
`ringOut`. `ReadPlan` and `WritePlan` are what a call has decided, and `rpcPollRead`,
`rpcPollWrite` and so on decide it. Reads have one semaphore and writes another, so a write may go
on while a read copies; `RpcSys` is a ring with at most one call of each kind under way.
-/

namespace OpenHMR

/-- `RPC_RING_SIZE`. -/
def rpcRingSize : ℕ :=
  512

/-- The pointers of `RPC_POLL_Dev`, `RPC_INTR_Dev` and `RPC_KERN_Dev`. -/
structure RpcDev where
  ringStart : ℕ
  ringEnd : ℕ
  /-- Where the next data will be inserted. -/
  ringIn : ℕ
  /-- Where the next data will be extracted. -/
  ringOut : ℕ
  deriving DecidableEq

/-- The three drivers. -/
inductive RpcKind where
  | poll | intr | kern
  deriving DecidableEq

/-- `ringBuf` of device `i` : `RPC_POLL_DEV_ADDR`, `RPC_INTR_DEV_ADDR` and `RPC_KERN_DEV_ADDR` with
the offset of the device. -/
def RpcKind.ringBuf (i : ℕ) : RpcKind → ℕ
  | poll => 0xa1ffe000 + i * rpcRingSize * 2
  | intr => 0xa1ffe000 + rpcRingSize + i * rpcRingSize * 2
  | kern => 0xa1fff200 + i * rpcRingSize

/-- The pointers that `rpc_poll_init`, `rpc_intr_init` and `rpc_kern_init` set. -/
def RpcDev.init (ringBuf : ℕ) : RpcDev :=
  ⟨ringBuf, ringBuf + rpcRingSize, ringBuf, ringBuf⟩

/-! ## Copies -/

/-- The bytes that `my_copy_user(des, src, size)` copies, as pairs of destination and source, in
their order : whole words first, then bytes. -/
def myCopyUser (des src : ℕ) : ℕ → List (ℕ × ℕ)
  | size + 4 =>
    (des, src) :: (des + 1, src + 1) :: (des + 2, src + 2) :: (des + 3, src + 3) ::
      myCopyUser (des + 4) (src + 4) size
  | size => (List.range size).map fun i => (des + i, src + i)

/-- `(count+3) & 0xfffffffc`. -/
def align4 (count : ℕ) : ℕ :=
  (count + 3) % 2 ^ 32 &&& 0xfffffffc

/-- What a read has decided. -/
structure ReadPlan where
  /-- The return value. -/
  ret : ℤ
  /-- The copies to do, from the ring to the caller's buffer. -/
  copies : List (ℕ × ℕ)
  /-- The new `ringOut`. -/
  ringOut : ℕ
  deriving DecidableEq

/-- What a write has decided. -/
structure WritePlan where
  /-- The return value. -/
  ret : ℤ
  /-- The copies to do, from the caller's buffer to the ring. -/
  copies : List (ℕ × ℕ)
  /-- The new `ringIn`. -/
  ringIn : ℕ
  /-- What is then written to the register of the interrupt. -/
  bell : Option ℕ
  deriving DecidableEq

/-- `-ERESTARTSYS`, when the wait for the semaphore is interrupted. -/
def eRestart : ℤ :=
  -512

/-- A read that goes to `out`. -/
def RpcDev.readOut (dev : RpcDev) (ret : ℤ) : ReadPlan :=
  ⟨ret, [], dev.ringOut⟩

/-- A write that goes to `out`. -/
def RpcDev.writeOut (dev : RpcDev) (ret : ℤ) : WritePlan :=
  ⟨ret, [], dev.ringIn, none⟩

/-- The end of a read, of a ring that holds `size` bytes. -/
def RpcDev.readRing (dev : RpcDev) (size count : ℕ) : ReadPlan :=
  let count := if size < count then size else count
  let temp := dev.ringEnd - dev.ringOut
  if count ≤ temp then
    let ptmp := dev.ringOut + align4 count
    ⟨count, myCopyUser 0 dev.ringOut count, if ptmp = dev.ringEnd then dev.ringStart else ptmp⟩
  else
    let rest := count - temp
    ⟨(temp + rest : ℕ), myCopyUser 0 dev.ringOut temp ++ myCopyUser temp dev.ringStart rest,
      dev.ringStart + align4 rest⟩

/-- The end of a write, to a ring that holds `size` bytes. -/
def RpcDev.writeRing (dev : RpcDev) (size count : ℕ) (bell : Option ℕ) : WritePlan :=
  if rpcRingSize - size - 1 < count then dev.writeOut 0
  else
    let temp := dev.ringEnd - dev.ringIn
    if count ≤ temp then
      let ptmp := dev.ringIn + align4 count
      ⟨count, myCopyUser dev.ringIn 0 count, if ptmp = dev.ringEnd then dev.ringStart else ptmp,
        bell⟩
    else
      let rest := count - temp
      ⟨(temp + rest : ℕ), myCopyUser dev.ringIn 0 temp ++ myCopyUser dev.ringStart temp rest,
        dev.ringStart + align4 rest, bell⟩

/-- A write, which computes the number of bytes in the ring. -/
def RpcDev.write (dev : RpcDev) (interrupted : Bool) (count : ℕ) (bell : Option ℕ) : WritePlan :=
  if interrupted then dev.writeOut eRestart
  else if dev.ringIn = dev.ringOut then dev.writeRing 0 count bell
  else if dev.ringOut < dev.ringIn then dev.writeRing (dev.ringIn - dev.ringOut) count bell
  else dev.writeRing (rpcRingSize + dev.ringIn - dev.ringOut) count bell

/-- A read that returns at once if the ring is empty. -/
def RpcDev.read (dev : RpcDev) (interrupted : Bool) (count : ℕ) : ReadPlan :=
  if interrupted then dev.readOut eRestart
  else if dev.ringIn = dev.ringOut then dev.readOut 0
  else if dev.ringOut < dev.ringIn then dev.readRing (dev.ringIn - dev.ringOut) count
  else dev.readRing (rpcRingSize + dev.ringIn - dev.ringOut) count

/-! ## The calls -/

/-- `rpc_poll_read`. -/
def rpcPollRead (interrupted : Bool) (dev : RpcDev) (count : ℕ) : ReadPlan :=
  dev.read interrupted count

/-- `rpc_poll_write`. -/
def rpcPollWrite (interrupted : Bool) (dev : RpcDev) (count : ℕ) : WritePlan :=
  dev.write interrupted count none

/-- `rpc_intr_read`. If the ring is empty, it waits until there are data, unless the file asks not
to; the wait may end with a timeout, or `signal` says that it was ended by a signal. The pointers
are those after the wait, when it is too late to look whether they are equal. -/
def rpcIntrRead (interrupted signal : Bool) (dev : RpcDev) (count : ℕ) : ReadPlan :=
  if interrupted then dev.readOut eRestart
  else if dev.ringIn = dev.ringOut ∨ signal = true then dev.readOut 0
  else if dev.ringOut < dev.ringIn then dev.readRing (dev.ringIn - dev.ringOut) count
  else dev.readRing (rpcRingSize + dev.ringIn - dev.ringOut) count

/-- `rpc_intr_write`, where `fpos` is the device number : 1 for audio, 5 for video. -/
def rpcIntrWrite (interrupted : Bool) (fpos : ℕ) (dev : RpcDev) (count : ℕ) : WritePlan :=
  dev.write interrupted count (if fpos = 1 then some 3 else if fpos = 5 then some 5 else none)

/-- `rpc_kern_read`, on the device that it selects. -/
def rpcKernRead (interrupted : Bool) (dev : RpcDev) (count : ℕ) : ReadPlan :=
  dev.read interrupted count

/-- `rpc_kern_write`, on the device that it selects; `opt` is `RPC_AUDIO` or `RPC_VIDEO`. -/
def rpcKernWrite (interrupted : Bool) (opt : ℕ) (dev : RpcDev) (count : ℕ) : WritePlan :=
  dev.write interrupted count (if opt = 0 then some 3 else if opt = 1 then some 5 else none)

/-- What a call depends on besides the ring. -/
structure RpcArgs where
  /-- The wait for the semaphore is interrupted. -/
  interrupted : Bool
  /-- A signal ends the wait of `rpc_intr_read`. -/
  signal : Bool
  /-- The number of the device. -/
  number : ℕ

/-- The read of a driver. -/
def RpcKind.read (a : RpcArgs) : RpcKind → RpcDev → ℕ → ReadPlan
  | poll => rpcPollRead a.interrupted
  | intr => rpcIntrRead a.interrupted a.signal
  | kern => rpcKernRead a.interrupted

/-- The write of a driver. -/
def RpcKind.write (a : RpcArgs) : RpcKind → RpcDev → ℕ → WritePlan
  | poll => rpcPollWrite a.interrupted
  | intr => rpcIntrWrite a.interrupted a.number
  | kern => rpcKernWrite a.interrupted a.number

/-! ## The system -/

/-- A ring with the calls that are under way. -/
structure RpcSys where
  dev : RpcDev
  mem : ℕ → UInt8
  /-- The rest of a write, and the caller's buffer. -/
  writer : Option (WritePlan × List UInt8)
  /-- The rest of a read, and the caller's buffer. -/
  reader : Option (ReadPlan × (ℕ → UInt8))
  /-- All bytes that writes accepted. -/
  accepted : List UInt8
  /-- All bytes that reads returned. -/
  returned : List UInt8

/-- What happens next. -/
inductive RpcEvent where
  /-- A write starts. -/
  | write (a : RpcArgs) (buf : List UInt8)
  /-- The write copies a byte. -/
  | store
  /-- The write moves `ringIn` and returns. -/
  | publishIn
  /-- A read starts, with whatever is in the caller's buffer. -/
  | read (a : RpcArgs) (count : ℕ) (buf : ℕ → UInt8)
  /-- The read copies a byte. -/
  | load
  /-- The read moves `ringOut` and returns. -/
  | publishOut

namespace RpcSys

/-- The empty ring. -/
def init (ringBuf : ℕ) (mem : ℕ → UInt8) : RpcSys :=
  ⟨.init ringBuf, mem, none, none, [], []⟩

/-- A call starts unless another one has the semaphore. -/
def startWrite (kind : RpcKind) (a : RpcArgs) (buf : List UInt8) (s : RpcSys) : RpcSys :=
  match s.writer with
  | some _ => s
  | none => { s with writer := some (kind.write a s.dev buf.length, buf) }

/-- The next byte goes to the ring. -/
def store (s : RpcSys) : RpcSys :=
  match s.writer with
  | some (⟨ret, (des, src) :: copies, ringIn, bell⟩, buf) =>
    { s with
      mem := Function.update s.mem des (buf.getD src 0)
      writer := some (⟨ret, copies, ringIn, bell⟩, buf) }
  | _ => s

/-- All bytes are in the ring. -/
def publishIn (s : RpcSys) : RpcSys :=
  match s.writer with
  | some (⟨ret, [], ringIn, _⟩, buf) =>
    { s with
      dev := { s.dev with ringIn }
      writer := none
      accepted := s.accepted ++ buf.take ret.toNat }
  | _ => s

/-- A call starts unless another one has the semaphore. -/
def startRead (kind : RpcKind) (a : RpcArgs) (count : ℕ) (buf : ℕ → UInt8) (s : RpcSys) :
    RpcSys :=
  match s.reader with
  | some _ => s
  | none => { s with reader := some (kind.read a s.dev count, buf) }

/-- The next byte comes from the ring. -/
def load (s : RpcSys) : RpcSys :=
  match s.reader with
  | some (⟨ret, (des, src) :: copies, ringOut⟩, buf) =>
    { s with reader := some (⟨ret, copies, ringOut⟩, Function.update buf des (s.mem src)) }
  | _ => s

/-- All bytes are in the caller's buffer. -/
def publishOut (s : RpcSys) : RpcSys :=
  match s.reader with
  | some (⟨ret, [], ringOut⟩, buf) =>
    { s with
      dev := { s.dev with ringOut }
      reader := none
      returned := s.returned ++ (List.range ret.toNat).map buf }
  | _ => s

/-- One step of the system. -/
def step (kind : RpcKind) (s : RpcSys) : RpcEvent → RpcSys
  | .write a buf => s.startWrite kind a buf
  | .store => s.store
  | .publishIn => s.publishIn
  | .read a count buf => s.startRead kind a count buf
  | .load => s.load
  | .publishOut => s.publishOut

/-- The system after the events. -/
def run (kind : RpcKind) (events : List RpcEvent) (s : RpcSys) : RpcSys :=
  events.foldl (step kind) s

end RpcSys

end OpenHMR
