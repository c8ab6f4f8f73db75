import Hwnet.TCPSocketAccount
import Hwnet.TCPSocketFlush

set_option autoImplicit false

/-!
# A drained send queue

With both send lists empty and no worker between taking a list and the section after its writev,
the flush callback is not called before something has been queued again.
-/
namespace Hwnet.TCPSocket

def drained (s : Sys) : Bool :=
  s.world.sock.ptrSendlist.isEmpty &&
    (s.world.sock.sendLists (flip s.world.sock.slistIdx)).isEmpty && s.tasks.all fun pc => !pc.sends

def queues (s : Sys) (a : Label) : Bool :=
  a.offers && !(s.world.sock.closed || s.world.sock.shutdown || s.world.sock.closedOnFlush)

theorem forall_lists {p : Fin 2 → Prop} (i : Fin 2) : (∀ j, p j) ↔ p i ∧ p (flip i) := by
  revert i
  rw [Fin.forall_fin_two, Fin.forall_fin_two]
  exact ⟨Iff.rfl, and_comm⟩

theorem drained_iff {s : Sys} : drained s = true ↔
    (∀ j, s.world.sock.sendLists j = []) ∧ ∀ pc ∈ s.tasks, pc.sends = false := by
  rw [forall_lists s.world.sock.slistIdx]
  simp [drained, ptrSendlist]

theorem drained_of_same {s s' : Sys} (h : drained s = true)
    (lists : s'.world.sock.sendLists = s.world.sock.sendLists)
    (tasks : ∀ pc, pc.sends = true → (pc ∈ s'.tasks ↔ pc ∈ s.tasks)) : drained s' = true := by
  obtain ⟨hlists, hnone⟩ := drained_iff.mp h
  refine drained_iff.mpr ⟨fun j => by rw [lists, hlists j], fun pc hpc => ?_⟩
  cases hs : pc.sends with
  | false => rfl
  | true => exact (hnone pc ((tasks pc hs).mp hpc)).symm.trans hs |>.symm

/-- The counter as long as the lists are kept, and after that nobody sends. -/
theorem reachable_ledger {b : Build} {s : Sys} (h : Reachable b s) :
    Unsent s ∧ Ledger s.world s.inWindow ∨ Late s := by
  have init : Ledger Sys.init.world Sys.init.inWindow := rfl
  refine h.invariant (I := fun s => Unsent s ∧ Ledger s.world s.inWindow ∨ Late s)
    (.inl ⟨unsent_init, init⟩) fun u v a run inv _ hstep => ?_
  have hsend := step_sendStep hstep
  have alone' := reachable_alone (run.next trivial hstep)
  rcases inv with ⟨unsent, ledger⟩ | late
  · cases hbefore : doCloses u a with
    | false =>
      exact .inl ⟨unsent_step hsend unsent alone' hbefore,
        ledger_step hsend ledger (reachable_alone run) alone' hbefore⟩
    | true =>
      obtain ⟨k, io, rfl, at_⟩ := doCloses_eq hbefore
      exact .inr (unsent.closes (reachable_oneWorker run) at_ hstep)
  · exact .inr (late_step hsend late)

/-- The worker takes no list of a drained queue: the count of unsent bytes is 0 then. -/
theorem Unsent.not_taken {s : Sys} (inv : Unsent s) (ledger : Ledger s.world s.inWindow)
    (h : drained s = true) : s.world.sock.canWrite = false := by
  obtain ⟨hlists, hnone⟩ := drained_iff.mp h
  have hcount := inv.count ledger (inWindow_of_none hnone)
  have hzero : unsent s.world.sock = 0 := by
    rw [unsent_eq, TCPSocket.ptrSendlist, hlists, hlists]
    rfl
  have hcur : s.world.sock.ptrSendlist = [] := hlists _
  have hlow : s.world.sock.highWater = false := by
    rw [highWater, hcount, hzero]
    simp
  simp [canWrite, hcur, hlow]

theorem drained_kept {s s' : Sys} {a : Label} (h : SendStep s a s')
    (inv : Unsent s ∧ Ledger s.world s.inWindow ∨ Late s) (before : drained s = true)
    (quiet : queues s a = false) : drained s' = true := by
  obtain ⟨hlists, hnone⟩ := drained_iff.mp before
  cases h with
  | aside world away tasks closing =>
    exact drained_of_same before (congrArg SendPart.sendLists world.part) (sends_of_filter tasks)
  | sent caller buff len last pos opened write more world tasks offers =>
    simp [queues, offers, opened, write, more] at quiet
  | shutdown opened write =>
    refine drained_of_same before ?_ fun _ _ => Iff.rfl
    simp only [Sys.lift, markShutdown_sock]
  | take at_ can =>
    rcases inv with ⟨unsent, ledger⟩ | late
    · cases can.symm.trans (unsent.not_taken ledger before)
    · cases (canWrite_open can).2.1.symm.trans late.closed
  | writes at_ sends move => cases sends.symm.trans (hnone _ (List.mem_of_getElem? at_))
  | calls at_ => exact drained_of_same before rfl (sends_of_calls at_)
  | doClose at_ =>
    refine drained_iff.mpr ⟨fun j => ?_, fun pc hpc => ?_⟩
    · show Function.update (Function.update s.world.sock.sendLists 0 []) 1 [] j = []
      simp [Function.update_apply, hlists]
    · rcases of_mem_resume hpc with hpc | hpc
      · exact hnone pc hpc
      · obtain rfl := Option.some.inj hpc
        rfl

theorem not_drained {s : Sys} {a : Label} (follows : followsUp s a = true) :
    drained s = false := by
  cases hdrained : drained s with
  | false => rfl
  | true =>
    obtain ⟨-, hnone⟩ := drained_iff.mp hdrained
    cases a with
    | worker k io =>
      simp only [followsUp] at follows
      split at follows
      · rename_i at_
        cases hnone _ (List.mem_of_getElem? at_)
      · cases follows
    | _ => cases follows

/-- The section that finds everything written leaves the queue drained. -/
theorem drained_of_flush {s s' : Sys} {a : Label} (h : SendStep s a s')
    (inv : Unsent s ∨ Late s) (alone' : Alone s') (follows : followsUp s a = true)
    (all : allWritten s = true) : drained s' = true := by
  have none {k : ℕ} {io : Io} {pc : DoPc} (at_ : s.tasks[k]? = some pc)
      (hq : pc.sends = false) : followsUp s (.worker k io) ≠ true := by
    rw [followsUp_worker at_ hq]
    exact Bool.false_ne_true
  cases h with
  | aside world away tasks closing => cases (followsUp_away away).symm.trans follows
  | sent caller => cases (followsUp_caller caller).symm.trans follows
  | shutdown => cases follows
  | take at_ can => exact absurd follows (none at_ rfl)
  | calls at_ => exact absurd follows (none at_ rfl)
  | doClose at_ => exact absurd follows (none at_ rfl)
  | @writes k io pc o at_ sends move =>
    obtain ⟨rfl, hone, unsent, unsent'⟩ := writes_unsent inv alone' at_ sends move
    cases hpending : pc.unaccounted with
    | false =>
      simp only [followsUp, at_] at follows
      split at follows
      · rename_i h
        obtain rfl := Option.some.inj h
        cases hpending
      · cases follows
    | true =>
      obtain ⟨i, j, ver, n, total, null, rfl⟩ := unaccounted_eq hpending
      have hrest := unsent.rest unsent' hone move
      obtain ⟨hacc, hwritten⟩ := written_accepted move
      have hall : acceptedBytes o.world.log = writtenBytes o.world.log := by
        rw [hacc, hwritten]
        exact of_decide_eq_true all
      have hcur := hrest.sent_iff.mpr hall
      obtain ⟨-, -, -, -, hempty, -⟩ := move_followUp move
      obtain ⟨-, hnext⟩ := hempty hcur
      refine drained_iff.mpr ⟨(forall_lists _).mpr ⟨hcur, hrest.idle⟩, fun q hq => ?_⟩
      simp only [Sys.resume, hnext, hone, List.set_cons_zero, List.mem_singleton] at hq
      rw [hq]
      rfl

end Hwnet.TCPSocket
