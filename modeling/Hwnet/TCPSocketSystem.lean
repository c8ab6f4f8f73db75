import Hwnet.Machine
import Hwnet.TCPSocketWorker

set_option autoImplicit false

/-!
# The socket among its threads

The socket, its Do tasks (queued or running), the tasks about to be posted, and the poller thread.
A label names who moves next and carries what the environment decides; API calls, timer firings
and events may come from any thread at any time.
-/
namespace Hwnet.TCPSocket

/-- `OnActive` on the poller thread: entered, or past `Disable` and about to lock. -/
inductive PollerPc where
  | idle
  | entered (event : Event)
  | locking (event : Event)
  deriving DecidableEq, Repr

/-- `posting` counts the threads that hold `post = true` and have not reached PostTask. -/
structure Sys where
  world : World
  tasks : List DoPc
  posting : ℕ
  poller : PollerPc

def Sys.init : Sys := ⟨World.new, [], 0, .idle⟩

inductive Label where
  | start
  | send (buff : Option Buffer) (len : ℕ)
  | sendAndClose (buff : Option Buffer) (len : ℕ)
  | recv (buff : Option RecvBuffer)
  | shutdown
  | close
  | setHighWater (cb : Option Callback) (size : UInt64)
  | setFlushCallback (cb : Option Callback)
  | setErrorCallback (cb : Option Callback)
  | setCloseCallback (cb : Option Callback)
  | setRecvCallback (cb : Option Callback)
  | setSendTimeoutCallback (timeout : UInt64) (cb : Option Callback)
  | setRecvTimeoutCallback (timeout : UInt64) (cb : Option Callback)
  | onTimer (t : TimerId)
  | tick (d : ℕ)
  | arrive (bytes : List UInt8) (eof : Bool)
  | writable
  | collect (event : Event)
  | disable
  | onActive (err : ℤ)
  | post
  | worker (k : ℕ) (io : Io)
  deriving DecidableEq, Repr

def Sys.lift (s : Sys) (w : World) : Sys := { s with world := w }

def Sys.unlock (s : Sys) (r : World × Bool) : Sys :=
  { s with world := r.1, posting := s.posting + r.2.toNat }

def Sys.setSock (s : Sys) (f : TCPSocket → TCPSocket) : Sys :=
  s.lift { s.world with sock := f s.world.sock }

def Sys.resume (s : Sys) (k : ℕ) (o : Outcome) : Sys :=
  { s with
    world := o.world
    posting := s.posting + o.post.toNat
    tasks := match o.next with
      | some pc => s.tasks.set k pc
      | none => s.tasks.eraseIdx k }

def disableStep (s : Sys) : Option Sys :=
  match s.poller with
  | .entered event =>
    let k := if event.write then s.world.kernel.disable else s.world.kernel
    some { s with world := { s.world with kernel := k }, poller := .locking event }
  | _ => none

def onActiveStep (s : Sys) (err : ℤ) : Option Sys :=
  match s.poller with
  | .locking event => some { s.unlock (onActive s.world event err) with poller := .idle }
  | _ => none

/-- epoll_wait returns an event of the socket; the queued flags it reports are used up. -/
def collectStep (s : Sys) (event : Event) : Option Sys :=
  if s.poller = .idle then
    let k := { s.world.kernel with
      queuedRead := s.world.kernel.queuedRead && !event.read
      queuedWrite := s.world.kernel.queuedWrite && !event.write }
    some { s with world := { s.world with kernel := k }, poller := .entered event }
  else none

def postStep (s : Sys) : Option Sys :=
  if 0 < s.posting then
    some { s with posting := s.posting - 1, tasks := s.tasks ++ [.queued] }
  else none

def workerStep (b : Build) (s : Sys) (k : ℕ) (io : Io) : Option Sys :=
  (s.tasks[k]?.bind (doStep b s.world io)).map (s.resume k)

def step (b : Build) (s : Sys) : Label → Option Sys
  | .start => some (s.lift (start s.world))
  | .send buff len => some (s.unlock (send s.world buff len))
  | .sendAndClose buff len => some (s.unlock (sendAndClose s.world buff len))
  | .recv buff => some (s.unlock (recv s.world buff))
  | .shutdown => some (s.lift (shutdownCall s.world))
  | .close => some (s.unlock (close s.world))
  | .setHighWater cb size =>
    some (s.setSock fun k => { k with highWaterSize := size, highWaterCallback := cb })
  | .setFlushCallback cb => some (s.setSock fun k => { k with flushCallback := cb })
  | .setErrorCallback cb => some (s.setSock fun k => { k with errorCallback := cb })
  | .setCloseCallback cb => some (s.setSock fun k => { k with closeCallback := cb })
  | .setRecvCallback cb => some (s.setSock fun k => { k with recvCallback := cb })
  | .setSendTimeoutCallback timeout cb => some (s.lift (setSendTimeoutCallback s.world timeout cb))
  | .setRecvTimeoutCallback timeout cb => some (s.lift (setRecvTimeoutCallback s.world timeout cb))
  | .onTimer t => if t < s.world.timers then some (s.unlock (onTimer s.world t)) else none
  | .tick d => some (s.lift { s.world with now := s.world.now + d })
  | .arrive bytes eof =>
    some (s.lift { s.world with kernel := s.world.kernel.arrive bytes eof })
  | .writable => some (s.lift { s.world with kernel := s.world.kernel.writable })
  | .collect event => collectStep s event
  | .disable => disableStep s
  | .onActive err => onActiveStep s err
  | .post => postStep s
  | .worker k io => workerStep b s k io

/-- The states reachable when every thread may move at every lock boundary. -/
abbrev Reachable (b : Build) : Sys → Prop := Machine.Reaches (step b) Sys.init

end Hwnet.TCPSocket
