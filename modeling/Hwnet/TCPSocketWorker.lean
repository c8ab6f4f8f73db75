import Hwnet.TCPSocket

set_option autoImplicit false

/-!
# The worker of a TCP socket

`Do`, `recvInWorker` and `sendInWorker` as a program counter and one step function. A step runs
from one lock, unlock or system call to the next; a user callback is a counter of its own, so
anything may happen while it runs.
-/
namespace Hwnet.TCPSocket

def maxLoop : ℕ := 10
def maxSendIovecSize : ℕ := 128

/-- What a read, readv or writev returned, after TEMP_FAILURE_RETRY. `ok` carries a byte count,
`eof` is a read returning 0 and `error` any errno but EAGAIN. -/
inductive Io where
  | ok (n : ℕ)
  | again
  | eof (errno : ℤ)
  | error (errno : ℤ)
  deriving DecidableEq, Repr

/-- The buffers a read was given: one taken from `recvList`, or a whole list of `recvLists`. -/
inductive Hold where
  | front (buff : RecvBuffer)
  | list (i : Fin 2)
  deriving DecidableEq, Repr

inductive SendAction where
  | nothing
  | callHighwaterCallback (cb : Option Callback) (bytes : UInt64)
  | callFlushCallback (cb : Callback) (closedOnFlush : Bool)
  | callErrorCallback (cb : Option Callback)
  deriving DecidableEq, Repr

/-- Where a Do task stands; `i` counts the loop of `Do`, `cw` is its `canWrite_`. `n` is the count
of a read that no callback has been given. -/
inductive DoPc where
  | queued
  | lock (i : ℕ)
  | sendTimeout (i : ℕ) (t : TimerId)
  | recvTimeout (i : ℕ) (t : TimerId)
  | body (i : ℕ) (cr cw : Bool)
  | recvInWorker (i : ℕ) (cw : Bool)
  | read (i : ℕ) (cw : Bool) (cb : Option Callback) (localVer : BitVec 32) (hold : Hold)
  | deliver (i : ℕ) (cw : Bool) (cb : Option Callback) (hold : Hold) (n : ℕ)
  | recvFinish (i : ℕ) (cw : Bool) (hold : Hold)
  | readFailed (i : ℕ) (cw : Bool) (localVer : BitVec 32) (hold : Hold) (err : Option ℤ)
  | recvError (i : ℕ) (cw : Bool) (cb : Option Callback)
  | sendInWorker (i : ℕ)
  | writev (i : ℕ) (localSendlist : Fin 2) (localVer : BitVec 32)
  | written (i : ℕ) (localSendlist : Fin 2) (localVer : BitVec 32) (io : Io) (total : ℕ)
      (curNull : Bool)
  | enable (i : ℕ)
  | sendAction (i : ℕ) (act : SendAction)
  | closing (i : ℕ)
  | doClose
  | closeCallback (cb : Option Callback)
  deriving DecidableEq, Repr

/-- The result of one worker step; `next = none` is the return of `Do`. -/
structure Outcome where
  world : World
  post : Bool
  next : Option DoPc

def goto (w : World) (pc : DoPc) : Outcome := ⟨w, false, some pc⟩

/-! ## Do -/

/-- The end of a locked pass of `Do`: what there is to do is evaluated once more. -/
def evaluate (w : World) (i : ℕ) : Outcome :=
  let cr := w.sock.canRead
  let cw := w.sock.canWrite
  if !(cr || cw) || w.sock.closed then
    if w.sock.closed then goto w .doClose
    else ⟨{ w with sock := { w.sock with doing := false } }, false, none⟩
  else goto w (.body i cr cw)

def checkTimeoutEnd (w : World) (i : ℕ) (t : TimerId) : Outcome :=
  if w.sock.sendTimeout = 0 ∧ w.sock.recvTimeout = 0 then
    evaluate
      { w with sock := { w.sock with timer := none }, canceled := t :: w.canceled } i
  else evaluate w i

def checkTimeoutRecv (w : World) (i : ℕ) (t : TimerId) : Outcome :=
  match !w.sock.closed && recvExpired w, w.sock.recvTimeoutCallback with
  | true, some cb =>
    goto (({ w with sock := { w.sock with recvTimeout := 0, recvTimeoutCallback := none } } :
      World).note (.recvTimeoutCallback cb)) (.recvTimeout i t)
  | _, _ => checkTimeoutEnd w i t

/-- A closure is run with the lock held; it unlocks around the callbacks. -/
def checkTimeout (w : World) (i : ℕ) (t : TimerId) : Outcome :=
  if w.sock.timer ≠ some t then evaluate w i
  else
    match !w.sock.closed && sendExpired w, w.sock.sendTimeoutCallback with
    | true, some cb =>
      goto (({ w with sock := { w.sock with sendTimeout := 0, sendTimeoutCallback := none } } :
        World).note (.sendTimeoutCallback cb)) (.sendTimeout i t)
    | _, _ => checkTimeoutRecv w i t

def doLock (w : World) (i : ℕ) : Outcome :=
  match w.sock.closures with
  | [] => evaluate w i
  | t :: rest => checkTimeout { w with sock := { w.sock with closures := rest } } i t

def doBody (w : World) (i : ℕ) (cr cw : Bool) : Outcome :=
  if maxLoop ≤ i then goto w .queued
  else if cr then goto w (.recvInWorker i cw)
  else if cw then goto w (.sendInWorker i)
  else goto w (.lock (i + 1))

def doCloseLocked (w : World) : Outcome :=
  goto { w with sock := w.sock.clearSendLists } (.closeCallback w.sock.closeCallback)

/-! ## recvInWorker -/

def afterRecv (i : ℕ) (cw : Bool) : DoPc := if cw then .sendInWorker i else .lock (i + 1)

/-- With an empty list `front()` of the plain build is undefined: no step. -/
def recvTake (b : Build) (w : World) (i : ℕ) (cw : Bool) : Option Outcome :=
  let s := w.sock
  if !s.canRead then some (goto w (afterRecv i cw))
  else if s.socketError then some (goto w (.recvError i cw s.errorCallback))
  else if b.gatherRecv then
    some (goto { w with sock := { s with rlistIdx := flip s.rlistIdx } }
      (.read i cw s.recvCallback s.readableVer (.list s.rlistIdx)))
  else
    match s.recvList with
    | [] => none
    | front :: rest =>
      some (goto { w with sock := s.setRecvList s.rlistIdx rest }
        (.read i cw s.recvCallback s.readableVer (.front front)))

def Hold.buffers (s : TCPSocket) : Hold → List RecvBuffer
  | .front buff => [buff]
  | .list i => s.recvLists i

/-- read or readv; the kernel writes a nonempty prefix of what it holds into the buffers, one after
another. -/
def readStep (w : World) (i : ℕ) (cw : Bool) (cb : Option Callback) (localVer : BitVec 32)
    (hold : Hold) : Io → Option Outcome
  | .ok n =>
    if 0 < n ∧ n ≤ Scattered.capacity (hold.buffers w.sock) ∧ n ≤ w.kernel.inbox.length then
      let bytes := w.kernel.inbox.take n
      let w' : World := { w with
        kernel := { w.kernel with inbox := w.kernel.inbox.drop n }
        memory := Scattered.scatter w.memory (hold.buffers w.sock) bytes }
      some (goto (w'.note (.read bytes)) (.deliver i cw cb hold n))
    else none
  | .again =>
    if w.kernel.readReady then none else some (goto w (.readFailed i cw localVer hold none))
  | .eof errno =>
    if w.kernel.inbox = [] ∧ w.kernel.eof then
      some (goto w (.readFailed i cw localVer hold (some errno)))
    else none
  | .error errno => some (goto w (.readFailed i cw localVer hold (some errno)))

/-- The callback is given the buffer and the count, and finds what the buffer holds by then. -/
def noteReceived (w : World) (cb : Option Callback) (buff : RecvBuffer) (n : ℕ) : World :=
  match cb with
  | some _ => w.note (.received buff (Scattered.load w.memory buff n))
  | none => w

/-- One call of the receive callback. Under GATHER_RECV the loop hands out the next buffer of the
local list and leaves recvInWorker when the socket has been closed. -/
def deliverStep (w : World) (i : ℕ) (cw : Bool) (cb : Option Callback) (hold : Hold)
    (n : ℕ) : Option Outcome :=
  match hold with
  | .front buff => some (goto (noteReceived w cb buff n) (.recvFinish i cw hold))
  | .list j =>
    if n = 0 then some (goto w (.recvFinish i cw hold))
    else
      match w.sock.recvLists j with
      | [] => none
      | front :: rest =>
        let w := { w with sock := w.sock.setRecvList j rest }
        let w := noteReceived w cb front (min n front.len)
        if cb.isSome && w.sock.closed then some (goto w (afterRecv i cw))
        else some (goto w (.deliver i cw cb hold (n - front.len)))

def Hold.finish (s : TCPSocket) : Hold → TCPSocket
  | .front _ => s
  | .list i => s.putBack i

def Hold.restore (s : TCPSocket) : Hold → TCPSocket
  | .front buff => s.setRecvList s.rlistIdx (buff :: s.recvList)
  | .list i => s.putBack i

def recvFinishStep (w : World) (i : ℕ) (cw : Bool) (hold : Hold) : Outcome :=
  let s := if 0 < w.sock.recvTimeout then { w.sock with lastRecvTime := w.now } else w.sock
  goto { w with sock := hold.finish s } (afterRecv i cw)

def readFailedStep (w : World) (i : ℕ) (cw : Bool) (localVer : BitVec 32) (hold : Hold) :
    Option ℤ → Outcome
  | none =>
    let s := hold.restore w.sock
    let s := if localVer = s.readableVer then { s with readable := false } else s
    goto { w with sock := s } (afterRecv i cw)
  | some errno =>
    goto { w with sock := { w.sock with err := errno, socketError := true } }
      (.recvError i cw w.sock.errorCallback)

def recvErrorStep (w : World) (i : ℕ) (cw : Bool) : Option Callback → Outcome
  | some cb => goto (w.note (.errorCallback cb w.sock.err)) (afterRecv i cw)
  | none =>
    let (w, post) := close w
    ⟨w, post, some (afterRecv i cw)⟩

/-! ## sendInWorker -/

def sendTake (w : World) (i : ℕ) : Outcome :=
  let s := w.sock
  if !s.canWrite then goto w (.lock (i + 1))
  else if !s.writeable && s.highWater then
    goto w (.sendAction i (.callHighwaterCallback s.highWaterCallback s.bytes4Send))
  else
    goto { w with sock := { s with slistIdx := flip s.slistIdx } }
      (.writev i s.slistIdx s.writeableVer)

def batch (l : List SendContext) : List SendContext := l.take maxSendIovecSize

def totalBytes (l : List SendContext) : ℕ := (l.map SendContext.len).sum

def listBytes (l : List SendContext) : List UInt8 := l.flatMap SendContext.bytes

/-- `cur == nullptr` after the loop that fills send_iovec. -/
def curNull (l : List SendContext) : Bool := decide (l.length ≤ maxSendIovecSize)

/-- writev over the batch: EAGAIN, an error, or any count from 1 to the bytes offered. The list is
cleared outside the lock when all of it was taken. `total` is not bounded here; what an int of 32
bits makes of it is in `writevInt`. -/
def writevStep (w : World) (i : ℕ) (j : Fin 2) (localVer : BitVec 32) : Io → Option Outcome
  | .ok n =>
    let l := w.sock.sendLists j
    let total := totalBytes (batch l)
    if n ≤ total ∧ (0 < n ∨ total = 0) then
      let w' := w.note (.written ((listBytes (batch l)).take n))
      let w' := if total ≤ n ∧ curNull l then { w' with sock := w'.sock.setSendList j [] } else w'
      some (goto w' (.written i j localVer (.ok n) total (curNull l)))
    else none
  | .again =>
    let l := w.sock.sendLists j
    some (goto { w with kernel := { w.kernel with sndReady := false } }
      (.written i j localVer .again (totalBytes (batch l)) (curNull l)))
  | .eof _ => none
  | .error errno =>
    let l := w.sock.sendLists j
    some (goto (w.note .writeError)
      (.written i j localVer (.error errno) (totalBytes (batch l)) (curNull l)))

/-- The loop after a partial write; running off the list dereferences null. -/
def trim : ℕ → List SendContext → Option (List SendContext)
  | _, [] => none
  | nn, front :: rest =>
    if front.len ≤ nn then trim (nn - front.len) rest
    else some ({ front with ptr := front.ptr + nn, len := front.len - nn } :: rest)

/-- The put-back of what a partial write left, `putBackInt` with an unbounded `total`. -/
def putBackSend (s : TCPSocket) (j : Fin 2) (n total : ℕ) (curNull : Bool) : Option TCPSocket :=
  if 0 < n ∧ (n < total ∨ curNull = false) then
    (trim n (s.sendLists j)).map fun l => (s.setSendList j l).addFront j
  else some s

def flushed (w : World) (i : ℕ) (closedOnFlush : Bool) : Outcome :=
  if w.sock.ptrSendlist.isEmpty then
    let w := if w.sock.shutdown then w.note .shutdownWrite else w
    match w.sock.flushCallback with
    | some cb => goto w (.sendAction i (.callFlushCallback cb closedOnFlush))
    | none => goto w (.sendAction i .nothing)
  else goto w (.sendAction i .nothing)

def writtenOk (w : World) (i : ℕ) (j : Fin 2) (n total : ℕ) (curNull : Bool) : Option Outcome :=
  let s := if 0 < w.sock.sendTimeout then { w.sock with lastSendTime := w.now } else w.sock
  (putBackSend s j n total curNull).map fun s =>
    flushed { w with sock := { s with bytes4Send := s.bytes4Send - UInt64.ofNat n } } i
      w.sock.closedOnFlush

def writtenAgain (w : World) (i : ℕ) (j : Fin 2) (localVer : BitVec 32) : Outcome :=
  let s := w.sock.addFront j
  if s.writeableVer = localVer then
    goto { w with sock := { s with writeable := false } } (.enable i)
  else goto { w with sock := s } (.sendAction i .nothing)

def writtenError (w : World) (i : ℕ) (errno : ℤ) : Outcome :=
  if w.sock.closed then goto w (.sendAction i .nothing)
  else
    goto { w with sock := { w.sock with socketError := true, err := errno } }
      (.sendAction i (.callErrorCallback w.sock.errorCallback))

def writtenStep (w : World) (i : ℕ) (j : Fin 2) (localVer : BitVec 32) (total : ℕ)
    (curNull : Bool) : Io → Option Outcome
  | .ok n => writtenOk w i j n total curNull
  | .again => some (writtenAgain w i j localVer)
  | .eof _ => none
  | .error errno => some (writtenError w i errno)

def sendActionStep (w : World) (i : ℕ) : SendAction → Outcome
  | .nothing => goto w (.lock (i + 1))
  | .callHighwaterCallback none _ => goto w (.lock (i + 1))
  | .callHighwaterCallback (some cb) bytes =>
    goto (w.note (.highWaterCallback cb bytes)) (.lock (i + 1))
  | .callFlushCallback cb closedOnFlush =>
    goto (w.note (.flushCallback cb)) (if closedOnFlush then .closing i else .lock (i + 1))
  | .callErrorCallback (some cb) => goto (w.note (.errorCallback cb w.sock.err)) (.lock (i + 1))
  | .callErrorCallback none => goto w (.closing i)

def closingStep (w : World) (i : ℕ) : Outcome :=
  let (w, post) := close w
  ⟨w, post, some (.lock (i + 1))⟩

/-! ## One step of a Do task -/

def doStep (b : Build) (w : World) (io : Io) : DoPc → Option Outcome
  | .queued => some (goto w (.lock 0))
  | .lock i => some (doLock w i)
  | .sendTimeout i t => some (checkTimeoutRecv w i t)
  | .recvTimeout i t => some (checkTimeoutEnd w i t)
  | .body i cr cw => some (doBody w i cr cw)
  | .recvInWorker i cw => recvTake b w i cw
  | .read i cw cb localVer hold => readStep w i cw cb localVer hold io
  | .deliver i cw cb hold n => deliverStep w i cw cb hold n
  | .recvFinish i cw hold => some (recvFinishStep w i cw hold)
  | .readFailed i cw localVer hold err => some (readFailedStep w i cw localVer hold err)
  | .recvError i cw cb => some (recvErrorStep w i cw cb)
  | .sendInWorker i => some (sendTake w i)
  | .writev i j localVer => writevStep w i j localVer io
  | .written i j localVer io total curNull => writtenStep w i j localVer total curNull io
  | .enable i => some (goto { w with kernel := w.kernel.enable } (.lock (i + 1)))
  | .sendAction i act => some (sendActionStep w i act)
  | .closing i => some (closingStep w i)
  | .doClose => some (doCloseLocked w)
  | .closeCallback none => some ⟨w, false, none⟩
  | .closeCallback (some cb) => some ⟨w.note (.closeCallback cb), false, none⟩

end Hwnet.TCPSocket
