import Hwnet.TCPSocketOneWorker

set_option autoImplicit false

/-!
# A pass of Do

The section that starts a pass runs one closure and evaluates what there is to do. The timeout
callbacks split it into up to three parts, and each part ends in one of the ways of `Locked`.
-/
namespace Hwnet.TCPSocket

def World.claimSend (w : World) (cb : Callback) : World :=
  ({ w with sock := { w.sock with sendTimeout := 0, sendTimeoutCallback := none } } :
    World).note (.sendTimeoutCallback cb)

def World.claimRecv (w : World) (cb : Callback) : World :=
  ({ w with sock := { w.sock with recvTimeout := 0, recvTimeoutCallback := none } } :
    World).note (.recvTimeoutCallback cb)

def World.releaseTimer (w : World) (t : TimerId) : World :=
  { w with sock := { w.sock with timer := none }, canceled := t :: w.canceled }

def World.popClosure (w : World) : World :=
  { w with sock := { w.sock with closures := w.sock.closures.tail } }

/-- One part of the locked section of pass `i`, in the world as its closure finds it; `ts` holds
the timer the closure is bound to. -/
inductive Locked (w : World) (i : ℕ) (ts : List TimerId) : Outcome → Prop where
  | claimSend {t : TimerId} {cb : Callback} (bound : t ∈ ts) (opened : w.sock.closed = false)
      (due : sendExpired w = true) (current : w.sock.sendTimeoutCallback = some cb) :
      Locked w i ts (goto (w.claimSend cb) (.sendTimeout i t))
  | claimRecv {t : TimerId} {cb : Callback} (bound : t ∈ ts) (opened : w.sock.closed = false)
      (due : recvExpired w = true) (current : w.sock.recvTimeoutCallback = some cb) :
      Locked w i ts (goto (w.claimRecv cb) (.recvTimeout i t))
  | release {t : TimerId} (bound : t ∈ ts) (sendOff : w.sock.sendTimeout = 0)
      (recvOff : w.sock.recvTimeout = 0) : Locked w i ts (evaluate (w.releaseTimer t) i)
  | keep : Locked w i ts (evaluate w i)

theorem checkTimeoutEnd_locked (w : World) (i : ℕ) {t : TimerId} {ts : List TimerId}
    (bound : t ∈ ts) : Locked w i ts (checkTimeoutEnd w i t) := by
  unfold checkTimeoutEnd
  split
  · rename_i off
    exact .release bound off.1 off.2
  · exact .keep

theorem checkTimeoutRecv_locked (w : World) (i : ℕ) {t : TimerId} {ts : List TimerId}
    (bound : t ∈ ts) : Locked w i ts (checkTimeoutRecv w i t) := by
  unfold checkTimeoutRecv
  split
  · rename_i due current
    simp only [Bool.and_eq_true, Bool.not_eq_true'] at due
    exact .claimRecv bound due.1 due.2 current
  · exact checkTimeoutEnd_locked w i bound

theorem checkTimeout_locked (w : World) (i : ℕ) {t : TimerId} {ts : List TimerId}
    (bound : t ∈ ts) : Locked w i ts (checkTimeout w i t) := by
  unfold checkTimeout
  split
  · exact .keep
  · split
    · rename_i due current
      simp only [Bool.and_eq_true, Bool.not_eq_true'] at due
      exact .claimSend bound due.1 due.2 current
    · exact checkTimeoutRecv_locked w i bound

theorem doLock_locked (w : World) (i : ℕ) :
    Locked w.popClosure i w.sock.closures (doLock w i) := by
  unfold doLock
  split
  · rename_i none
    have same : w.popClosure = w := by
      unfold World.popClosure
      rw [none, List.tail_nil, ← none]
    rw [same]
    exact .keep
  · rename_i t rest some
    have popped : w.popClosure = { w with sock := { w.sock with closures := rest } } := by
      unfold World.popClosure
      rw [some, List.tail_cons]
    rw [popped, some]
    exact checkTimeout_locked _ i List.mem_cons_self

inductive Evaluated (w : World) (i : ℕ) : Outcome → Prop where
  | close (closed : w.sock.closed = true) : Evaluated w i (goto w .doClose)
  | idle (opened : w.sock.closed = false) (read : w.sock.canRead = false)
      (write : w.sock.canWrite = false) :
      Evaluated w i ⟨{ w with sock := { w.sock with doing := false } }, false, none⟩
  | work (opened : w.sock.closed = false) (able : w.sock.canRead = true ∨ w.sock.canWrite = true) :
      Evaluated w i (goto w (.body i w.sock.canRead w.sock.canWrite))

theorem evaluate_evaluated (w : World) (i : ℕ) : Evaluated w i (evaluate w i) := by
  unfold evaluate
  dsimp only
  split
  · rename_i none
    split
    · rename_i closed
      exact .close closed
    · rename_i opened
      simp only [opened, Bool.or_false, Bool.not_eq_true', Bool.or_eq_false_iff] at none
      exact .idle (by simpa using opened) none.1 none.2
  · rename_i some
    simp only [Bool.or_eq_true, Bool.not_eq_true', not_or, Bool.not_eq_false] at some
    exact .work (by simpa using some.2) some.1

def DoPc.passes : DoPc → Option ℕ
  | .lock i | .sendTimeout i _ | .recvTimeout i _ => some i
  | _ => none

/-- The world as a part of a pass finds it: the first part takes a closure off the list. -/
def DoPc.entered (w : World) : DoPc → World
  | .lock _ => w.popClosure
  | _ => w

def DoPc.bound (w : World) : DoPc → List TimerId
  | .lock _ => w.sock.closures
  | .sendTimeout _ t | .recvTimeout _ t => [t]
  | _ => []

theorem doStep_locked {b : Build} {w : World} {io : Io} {pc : DoPc} {o : Outcome} {i : ℕ}
    (h : doStep b w io pc = some o) (pass : pc.passes = some i) :
    Locked (pc.entered w) i (pc.bound w) o := by
  cases pc with
  | lock =>
    cases pass
    cases h
    exact doLock_locked w i
  | sendTimeout _ t =>
    cases pass
    cases h
    exact checkTimeoutRecv_locked w i (List.mem_singleton.mpr rfl)
  | recvTimeout _ t =>
    cases pass
    cases h
    exact checkTimeoutEnd_locked w i (List.mem_singleton.mpr rfl)
  | _ => cases pass

theorem step_worker {b : Build} {s s' : Sys} {k : ℕ} {io : Io}
    (h : step b s (.worker k io) = some s') :
    ∃ pc o, s.tasks[k]? = some pc ∧ doStep b s.world io pc = some o ∧ s' = s.resume k o := by
  simp only [step, workerStep, Option.map_eq_some_iff, Option.bind_eq_some_iff] at h
  obtain ⟨o, ⟨pc, at_, hdo⟩, hs⟩ := h
  exact ⟨pc, o, at_, hdo, hs.symm⟩

end Hwnet.TCPSocket
