import Hwnet.Scattered
import Mathlib.Algebra.GroupWithZero.Nat
import Mathlib.Data.Int.Notation
import Mathlib.Data.List.Basic
import Mathlib.Data.Nat.Notation
import Mathlib.Logic.Function.Basic

set_option autoImplicit false

/-!
# The TCP socket and its critical sections

The fields of `TCPSocket` that its functions read and write, the part of epoll that concerns its
descriptor, and every section the API, the poller thread and the timer thread run under `mtx`.
A section returns the new world and whether the caller posts a Do task after unlocking.
`Build.gatherRecv` is the GATHER_RECV switch; the build is the one without USE_SSL.
-/
namespace Hwnet

namespace TCPSocket

abbrev Callback := ℕ
abbrev TimerId := ℕ

structure Build where
  gatherRecv : Bool
  deriving DecidableEq, Repr

/-- What the socket sees of a Buffer: the byte block, `BuffPtr` as an offset into it, and `Len`. -/
structure Buffer where
  block : List UInt8
  b : ℕ
  len : ℕ
  deriving DecidableEq, Repr

abbrev RecvBuffer := Scattered.Region

structure SendContext where
  buff : Buffer
  ptr : ℕ
  len : ℕ
  deriving DecidableEq, Repr

def getSendContext (buff : Buffer) (len : ℕ) : SendContext :=
  { buff, ptr := buff.b, len := if 0 < len then len else buff.len }

/-- The characters from `ptr` for `len`; what lies past the block is unspecified and read as 0. -/
def SendContext.bytes (c : SendContext) : List UInt8 :=
  (List.range' c.ptr c.len).map fun i => c.buff.block.getD i 0

def flip (i : Fin 2) : Fin 2 := if i = 0 then 1 else 0

/-- The fields of the two timeouts. A closure is `checkTimeout` bound to a timer. -/
structure Timeouts where
  closures : List TimerId
  timer : Option TimerId
  recvTimeout : UInt64
  recvTimeoutCallback : Option Callback
  lastRecvTime : ℕ
  sendTimeout : UInt64
  sendTimeoutCallback : Option Callback
  lastSendTime : ℕ
  deriving DecidableEq, Repr

structure Settings where
  flushCallback : Option Callback
  errorCallback : Option Callback
  closeCallback : Option Callback
  highWaterCallback : Option Callback
  recvCallback : Option Callback
  highWaterSize : UInt64
  deriving DecidableEq, Repr

end TCPSocket

open TCPSocket in
structure TCPSocket extends Timeouts, Settings where
  recvLists : Fin 2 → List RecvBuffer
  rlistIdx : Fin 2
  sendLists : Fin 2 → List SendContext
  slistIdx : Fin 2
  err : ℤ
  readable : Bool
  readableVer : BitVec 32
  writeable : Bool
  writeableVer : BitVec 32
  closed : Bool
  closedOnFlush : Bool
  shutdown : Bool
  doing : Bool
  socketError : Bool
  bytes4Send : UInt64
  started : Bool

namespace TCPSocket

def new (now : ℕ) : TCPSocket where
  recvLists := fun _ => []
  rlistIdx := 0
  sendLists := fun _ => []
  slistIdx := 0
  err := 0
  flushCallback := none
  errorCallback := none
  closeCallback := none
  highWaterCallback := none
  recvCallback := none
  readable := false
  readableVer := 0
  writeable := false
  writeableVer := 0
  closed := false
  closedOnFlush := false
  shutdown := false
  doing := false
  socketError := false
  bytes4Send := 0
  highWaterSize := 0
  started := false
  closures := []
  timer := none
  recvTimeout := 0
  recvTimeoutCallback := none
  lastRecvTime := now
  sendTimeout := 0
  sendTimeoutCallback := none
  lastSendTime := now

/-- `*ptrRecvlist` under GATHER_RECV, `recvList` otherwise (`rlistIdx` then stays 0). -/
def recvList (s : TCPSocket) : List RecvBuffer := s.recvLists s.rlistIdx

def ptrSendlist (s : TCPSocket) : List SendContext := s.sendLists s.slistIdx

def setRecvList (s : TCPSocket) (i : Fin 2) (l : List RecvBuffer) : TCPSocket :=
  { s with recvLists := Function.update s.recvLists i l }

def setSendList (s : TCPSocket) (i : Fin 2) (l : List SendContext) : TCPSocket :=
  { s with sendLists := Function.update s.sendLists i l }

def clearSendLists (s : TCPSocket) : TCPSocket := (s.setSendList 0 []).setSendList 1 []

def highWater (s : TCPSocket) : Bool :=
  decide (0 < s.highWaterSize) && decide (s.highWaterSize < s.bytes4Send)

def canRead (s : TCPSocket) : Bool :=
  s.readable && !s.recvList.isEmpty || s.socketError

def canWrite (s : TCPSocket) : Bool :=
  !s.shutdown && !s.closed && !s.socketError &&
    (s.writeable && !s.ptrSendlist.isEmpty || s.highWater)

def addFront (s : TCPSocket) (other : Fin 2) : TCPSocket :=
  (s.setSendList s.slistIdx (s.sendLists other ++ s.ptrSendlist)).setSendList other []

def putBack (s : TCPSocket) (other : Fin 2) : TCPSocket :=
  (s.setRecvList s.rlistIdx (s.recvLists other ++ s.recvList)).setRecvList other []

/-! ## The descriptor in the kernel and in the poller -/

/-- `registered` is the entry in `Poller::channels` and in epoll, with EPOLLIN always in its mask;
the queued flags are the edge-triggered events epoll has not handed out. -/
structure Kernel where
  inbox : List UInt8
  eof : Bool
  sndReady : Bool
  registered : Bool
  interestWrite : Bool
  queuedRead : Bool
  queuedWrite : Bool
  deriving DecidableEq, Repr

namespace Kernel

def new : Kernel := ⟨[], false, false, false, false, false, false⟩

def readReady (k : Kernel) : Bool := !k.inbox.isEmpty || k.eof

def add (k : Kernel) : Kernel :=
  { k with
    registered := true
    interestWrite := true
    queuedRead := k.readReady
    queuedWrite := k.sndReady }

def remove (k : Kernel) : Kernel :=
  { k with registered := false, interestWrite := false, queuedRead := false, queuedWrite := false }

/-- `Enable(Write)`: re-enabling a ready direction queues its event. -/
def enable (k : Kernel) : Kernel :=
  if k.registered then
    { k with interestWrite := true, queuedWrite := k.queuedWrite || k.sndReady }
  else k

def disable (k : Kernel) : Kernel :=
  if k.registered then { k with interestWrite := false } else k

def arrive (k : Kernel) (bytes : List UInt8) (eof : Bool) : Kernel :=
  let k' := { k with inbox := k.inbox ++ bytes, eof := k.eof || eof }
  { k' with queuedRead := k.queuedRead || k.registered && !k.readReady && k'.readReady }

def writable (k : Kernel) : Kernel :=
  { k with
    sndReady := true
    queuedWrite := k.queuedWrite || k.registered && k.interestWrite && !k.sndReady }

end Kernel

/-- What has become visible outside, oldest first. -/
inductive Obs where
  | accepted (bytes : List UInt8)
  | written (bytes : List UInt8)
  | writeError
  | posted (buff : RecvBuffer)
  | read (bytes : List UInt8)
  | received (buff : RecvBuffer) (bytes : List UInt8)
  | shutdownWrite
  | shutdownBoth
  | flushCallback (cb : Callback)
  | errorCallback (cb : Callback) (err : ℤ)
  | closeCallback (cb : Callback)
  | highWaterCallback (cb : Callback) (bytes : UInt64)
  | sendTimeoutCallback (cb : Callback)
  | recvTimeoutCallback (cb : Callback)
  deriving DecidableEq, Repr

/-- Everything a section acts on. `now` is the steady clock in nanoseconds, the timers
`0 .. timers-1` have been added to the timer routine; `memory` holds the blocks that are read
into. -/
structure World where
  sock : TCPSocket
  kernel : Kernel
  memory : Scattered.Mem UInt8
  now : ℕ
  timers : ℕ
  canceled : List TimerId
  log : List Obs

def World.new : World := ⟨TCPSocket.new 0, Kernel.new, fun _ _ => 0, 0, 0, [], []⟩

def World.note (w : World) (o : Obs) : World := { w with log := w.log ++ [o] }

/-- The guarded `doing = true; post = true` that ends a section which may have found work. -/
def wake (w : World) (work : Bool) : World × Bool :=
  if !w.sock.doing && work then ({ w with sock := { w.sock with doing := true } }, true)
  else (w, false)

/-! ## Timeouts -/

/-- `timer.lock()` is the handle itself: it is reset wherever the timer is cancelled. -/
def World.addSocketTimer (w : World) : World :=
  { w with sock := { w.sock with timer := some w.timers }, timers := w.timers + 1 }

def registerTimerSend (w : World) : World :=
  if !w.sock.ptrSendlist.isEmpty && w.sock.timer.isNone then
    ({ w with sock := { w.sock with lastSendTime := w.now } } : World).addSocketTimer
  else w

def registerTimerRecv (w : World) : World :=
  if !w.sock.recvList.isEmpty && w.sock.timer.isNone then
    ({ w with sock := { w.sock with lastRecvTime := w.now } } : World).addSocketTimer
  else w

def cancelTimer (w : World) : World :=
  match w.sock.timer with
  | some t => { w with sock := { w.sock with timer := none }, canceled := t :: w.canceled }
  | none => w

/-- The comparison of `checkTimeout` and `onTimer`; the product is a size_t product. -/
def elapsedOver (now last : ℕ) (timeout : UInt64) : Bool :=
  decide (timeout * 1000000 < UInt64.ofNat (now - last))

def sendExpired (w : World) : Bool :=
  decide (0 < w.sock.sendTimeout) && w.sock.sendTimeoutCallback.isSome &&
    !w.sock.ptrSendlist.isEmpty && elapsedOver w.now w.sock.lastSendTime w.sock.sendTimeout

def recvExpired (w : World) : Bool :=
  decide (0 < w.sock.recvTimeout) && w.sock.recvTimeoutCallback.isSome &&
    !w.sock.recvList.isEmpty && elapsedOver w.now w.sock.lastRecvTime w.sock.recvTimeout

def pushClosure (w : World) (t : TimerId) : World × Bool :=
  wake { w with sock := { w.sock with closures := w.sock.closures ++ [t] } } true

def onTimer (w : World) (t : TimerId) : World × Bool :=
  let (w, post) := if sendExpired w then pushClosure w t else (w, false)
  if recvExpired w then
    let (w, post') := pushClosure w t
    (w, post || post')
  else (w, post)

def setSendTimeoutCallback (w : World) (timeout : UInt64) (cb : Option Callback) : World :=
  if w.sock.closed then w
  else
    let w := { w with sock := { w.sock with sendTimeout := 0, sendTimeoutCallback := none } }
    if 0 < timeout ∧ cb.isSome then
      registerTimerSend
        { w with sock := { w.sock with sendTimeout := timeout, sendTimeoutCallback := cb } }
    else if w.sock.recvTimeout = 0 then cancelTimer w
    else w

def setRecvTimeoutCallback (w : World) (timeout : UInt64) (cb : Option Callback) : World :=
  if w.sock.closed then w
  else
    let w := { w with sock := { w.sock with recvTimeout := 0, recvTimeoutCallback := none } }
    if 0 < timeout ∧ cb.isSome then
      registerTimerRecv
        { w with sock := { w.sock with recvTimeout := timeout, recvTimeoutCallback := cb } }
    else if w.sock.sendTimeout = 0 then cancelTimer w
    else w

/-! ## Sending and receiving -/

def queueRecv (w : World) (buff : RecvBuffer) : World :=
  ({ w with sock := w.sock.setRecvList w.sock.rlistIdx (w.sock.recvList ++ [buff]) } :
    World).note (.posted buff)

def _recv (w : World) (buff : RecvBuffer) : World × Bool :=
  if w.sock.closed then (w, false)
  else if w.sock.recvCallback.isNone then (w, false)
  else
    let w := queueRecv w buff
    let w := if 0 < w.sock.recvTimeout then registerTimerRecv w else w
    wake w w.sock.readable

def recv (w : World) : Option RecvBuffer → World × Bool
  | none => (w, false)
  | some buff => if buff.len = 0 then (w, false) else _recv w buff

def queueSend (w : World) (buff : Buffer) (len : ℕ) (closedOnFlush : Bool) : World :=
  let c := getSendContext buff len
  let s := { w.sock with closedOnFlush, bytes4Send := w.sock.bytes4Send + UInt64.ofNat len }
  ({ w with sock := s.setSendList s.slistIdx (s.ptrSendlist ++ [c]) } :
    World).note (.accepted c.bytes)

def _send (w : World) (buff : Buffer) (len : ℕ) (closedOnFlush : Bool) : World × Bool :=
  if w.sock.closed || w.sock.shutdown || w.sock.closedOnFlush then (w, false)
  else
    let w := queueSend w buff len closedOnFlush
    let w := if 0 < w.sock.sendTimeout then registerTimerSend w else w
    wake w (w.sock.writeable || w.sock.highWater)

/-- `Send` and `SendAndClose`; length 0 stands for the buffer's own. -/
def sendWith (w : World) (closedOnFlush : Bool) (len : ℕ) : Option Buffer → World × Bool
  | none => (w, false)
  | some buff =>
    let len := if len = 0 then buff.len else len
    if len = 0 then (w, false) else _send w buff len closedOnFlush

def send (w : World) (buff : Option Buffer) (len : ℕ) : World × Bool :=
  sendWith w false len buff

def sendAndClose (w : World) (buff : Option Buffer) (len : ℕ) : World × Bool :=
  sendWith w true len buff

/-! ## Start, Shutdown and Close -/

def start (w : World) : World :=
  if w.sock.started then w
  else { w with sock := { w.sock with started := true }, kernel := w.kernel.add }

def markShutdown (w : World) : World :=
  let w := { w with sock := { w.sock with shutdown := true } }
  if w.sock.ptrSendlist.isEmpty then w.note .shutdownWrite else w

def shutdownCall (w : World) : World :=
  if w.sock.closed || w.sock.shutdown then w else markShutdown w

/-- `closed.store(true)`, `::shutdown(fd, SHUT_RDWR)` and the poller's Remove. -/
def markClosed (w : World) : World :=
  ({ w with sock := { w.sock with closed := true }, kernel := w.kernel.remove } :
    World).note .shutdownBoth

/-- `doing` is not set when the closing task is posted. -/
def close (w : World) : World × Bool :=
  if w.sock.closed then (w, false)
  else
    let w := cancelTimer w
    let s := { w.sock with
      recvTimeout := 0
      recvTimeoutCallback := none
      sendTimeout := 0
      sendTimeoutCallback := none }
    (markClosed { w with sock := s }, s.closeCallback.isSome && !s.doing)

/-! ## OnActive -/

structure Event where
  read : Bool
  write : Bool
  error : Bool
  deriving DecidableEq, Repr

def setReady (s : TCPSocket) (event : Event) (err : ℤ) : TCPSocket :=
  let s := if event.read then { s with readableVer := s.readableVer + 1, readable := true } else s
  let s := if event.write then { s with writeableVer := s.writeableVer + 1, writeable := true }
    else s
  if event.error then { s with err, socketError := true } else s

def onActive (w : World) (event : Event) (err : ℤ) : World × Bool :=
  let s := w.sock.setReady event err
  wake { w with sock := s } (s.canRead || s.canWrite)

end TCPSocket

end Hwnet
