import Hwnet.TimerCancel

set_option autoImplicit false

/-!
# The manager a cancel goes through

`cancel` changes the status outside the mutex and then calls a member of `*mMgr`, which `pop` clears
and `insert` sets under it. The two fields are in step except in two windows.
-/
namespace Hwnet.TimerMgr

open Timer

/-! ## The two windows -/

def CancelPc.reading : CancelPc → Option Ptr
  | .load t true | .readMgr t => some t
  | _ => none

def Sys.readers (s : Sys) (t : Ptr) : ℕ :=
  s.threads.countP fun th => th.cancel.reading = some t

def Sys.inserters (s : Sys) (t : Ptr) : ℕ :=
  s.threads.countP fun th => th.schedule.inserting = some t

/-- A timer is popped while a `cancel` has won it and not read its manager, or the manager is read
between the reset of the status and the insertion. -/
def nullManager (s : Sys) : Label → Bool
  | .advance i =>
    match s.threads[i]? with
    | some ⟨.pop _ t _, .idle⟩ => 0 < s.readers t
    | some ⟨_, .readMgr t⟩ => 0 < s.inserters t
    | _ => false
  | _ => false

/-! ## The invariant -/

structure Managed (s : Sys) : Prop where
  owner : ∀ t ∈ s.handles, s.mgr.status t = 0 ∨ 0 < s.readers t →
    s.mgr.mMgr t ≠ none ∨ 0 < s.inserters t
  refused : ∀ (i : ThreadId) (th : Thread) (t : Ptr), s.threads[i]? = some th →
    th.schedule.refused = some t → s.mgr.status t ≠ 0
  safe : ∀ (i : ThreadId) (th : Thread) (t : Ptr), s.threads[i]? = some th →
    th.cancel ≠ .crashed t

section Step

variable {s w : Sys} {i : ThreadId} {th th' : Thread}

theorem update_ne_zero {f : Ptr → UInt32} {t : Ptr} (u : Ptr) {x : UInt32} (set : x ≠ 0)
    (nonzero : f t ≠ 0) : Function.update f u x t ≠ 0 := by
  by_cases hut : t = u
  · simpa [hut] using set
  · simpa [hut] using nonzero

/-- What a turn has to show; the other threads are where they were. -/
theorem managed_of (h : Managed s) (at_ : s.threads[i]? = some th)
    (threads : w.threads = s.threads) (handles : w.handles = s.handles)
    (owner : ∀ t ∈ s.handles, ∀ readers inserters : ℕ,
      readers + (decide (th.cancel.reading = some t)).toNat =
        s.readers t + (decide (th'.cancel.reading = some t)).toNat →
      inserters + (decide (th.schedule.inserting = some t)).toNat =
        s.inserters t + (decide (th'.schedule.inserting = some t)).toNat →
      w.mgr.status t = 0 ∨ 0 < readers → w.mgr.mMgr t ≠ none ∨ 0 < inserters)
    (others : ∀ (j : ThreadId) (x : Thread) (t : Ptr), j ≠ i → s.threads[j]? = some x →
      x.schedule.refused = some t → w.mgr.status t ≠ 0)
    (refused : ∀ t, th'.schedule.refused = some t → w.mgr.status t ≠ 0)
    (safe : ∀ t, th'.cancel ≠ .crashed t) : Managed (Sys.resume i (w, th')) := by
  have hset (q : Thread → Bool) := Machine.countP_set_add q at_ th'
  have hthread {j : ThreadId} {x : Thread} (hx : (w.threads.set i th')[j]? = some x) :
      j = i ∧ x = th' ∨ j ≠ i ∧ s.threads[j]? = some x :=
    Machine.of_getElem?_set (threads ▸ hx)
  refine ⟨fun t ht => ?_, fun j x t hx ht => ?_, fun j x t hx => ?_⟩
  · refine owner t (handles ▸ ht) _ _ ?_ ?_
    · simpa only [Sys.readers, Sys.resume, threads] using
        hset fun th => decide (th.cancel.reading = some t)
    · simpa only [Sys.inserters, Sys.resume, threads] using
        hset fun th => decide (th.schedule.inserting = some t)
  · rcases hthread hx with ⟨rfl, rfl⟩ | ⟨hne, hx⟩
    · exact refused t ht
    · exact others j x t hne hx ht
  · rcases hthread hx with ⟨rfl, rfl⟩ | ⟨-, hx⟩
    · exact safe t
    · exact h.safe j x t hx

theorem managed_frame (h : Managed s) (at_ : s.threads[i]? = some th)
    (threads : w.threads = s.threads) (handles : w.handles = s.handles)
    (status : w.mgr.status = s.mgr.status) (mMgr : w.mgr.mMgr = s.mgr.mMgr)
    (reading : ∀ t, th'.cancel.reading = some t → th.cancel.reading = some t)
    (inserting : th'.schedule.inserting = th.schedule.inserting)
    (refused : ∀ t, th'.schedule.refused = some t → s.mgr.status t ≠ 0)
    (safe : ∀ t, th'.cancel ≠ .crashed t) : Managed (Sys.resume i (w, th')) := by
  refine managed_of h at_ threads handles (fun t ht readers inserters hr hi hneed => ?_)
    (fun j x t _ hx ht => ?_) (fun t ht => ?_) safe
  · have hle := toNat_le (reading t)
    rw [inserting] at hi
    rw [status] at hneed
    rw [mMgr]
    have hinserters : inserters = s.inserters t := by omega
    rw [hinserters]
    exact h.owner t ht (hneed.imp_right fun hpos => by omega)
  · rw [status]
    exact h.refused j x t hx ht
  · rw [status]
    exact refused t ht

/-- A turn that sets one status to a value that is not 0, and reads no manager unless it was 0. -/
theorem managed_exchange (h : Managed s) (at_ : s.threads[i]? = some th)
    (threads : w.threads = s.threads) (handles : w.handles = s.handles) {u : Ptr} {x : UInt32}
    (set : x ≠ 0) (status : w.mgr.status = Function.update s.mgr.status u x)
    (mMgr : w.mgr.mMgr = s.mgr.mMgr)
    (reading : ∀ t, th'.cancel.reading = some t →
      th.cancel.reading = some t ∨ t = u ∧ s.mgr.status u = 0)
    (inserting : th'.schedule.inserting = th.schedule.inserting)
    (refused : ∀ t, th'.schedule.refused = some t → th.schedule.refused = some t)
    (safe : ∀ t, th'.cancel ≠ .crashed t) : Managed (Sys.resume i (w, th')) := by
  have hstays (t : Ptr) (ht : s.mgr.status t ≠ 0) : w.mgr.status t ≠ 0 :=
    status ▸ update_ne_zero u set ht
  refine managed_of h at_ threads handles (fun t ht readers inserters hr hi hneed => ?_)
    (fun j x t _ hx ht => hstays t (h.refused j x t hx ht))
    (fun t ht => hstays t (h.refused i th t at_ (refused t ht))) safe
  rw [inserting] at hi
  have hinserters : inserters = s.inserters t := by omega
  rw [mMgr, hinserters]
  refine h.owner t ht ?_
  by_cases hzero : s.mgr.status t = 0
  · exact .inl hzero
  · have hle := toNat_le fun hread => (reading t hread).resolve_right fun hu => hzero (hu.1 ▸ hu.2)
    rcases hneed with hstatus | hpos
    · exact absurd hstatus (hstays t hzero)
    · exact .inr (by omega)

theorem Quieter.reading (h : Quieter th th') {t : Ptr} (ht : th'.cancel.reading = some t) :
    th.cancel.reading = some t := by
  rcases h.cancel with hsame | ⟨u, hu | hu⟩
  · exact hsame ▸ ht
  all_goals
    rw [hu] at ht
    cases ht

theorem Quieter.safe (h : Quieter th th') {t : Ptr} (safe : th.cancel ≠ .crashed t) :
    th'.cancel ≠ .crashed t := by
  rcases h.cancel with hsame | ⟨u, hu | hu⟩
  · exact hsame ▸ safe
  all_goals
    rw [hu]
    exact nofun

theorem managed_moved (h : Managed s) (sound : Sound s)
    (lives : ∀ t, s.Lives CancelResult.isSuccess t) (at_ : s.threads[i]? = some th)
    (threads : w.threads = s.threads) (handles : w.handles = s.handles) (move : Moved s i th w th')
    (inStep : nullManager s (.advance i) = false) : Managed (Sys.resume i (w, th')) := by
  have hrefused := fun t => h.refused i th t at_
  have hsafe := fun t => h.safe i th t at_
  cases move with
  | quiet writes pcs =>
    exact managed_frame h at_ threads handles writes.status writes.mMgr (fun _ => pcs.reading)
      pcs.inserting (fun t ht => hrefused t (pcs.refused t ht)) fun t => pcs.safe (hsafe t)
  | claim zero writes =>
    exact managed_exchange h at_ threads handles (by simp) writes.status writes.mMgr
      (fun _ => .inl) rfl nofun hsafe
  | refuse nonzero writes =>
    refine managed_frame h at_ threads handles writes.status writes.mMgr (fun _ => id) rfl ?_ hsafe
    intro t ht
    cases ht
    exact nonzero
  | @pop now u ok _ writes =>
    have hkept : s.readers u = 0 := by simpa [nullManager, at_] using inStep
    have hnonzero : s.mgr.status u ≠ 0 := by
      cases ok with
      | true =>
        rcases (lives u).owned (owners_pos at_ rfl) with hx | hx <;>
          simp [hx]
      | false => exact hrefused u rfl
    refine managed_of h at_ threads handles (fun t ht readers inserters hr hi hneed => ?_)
      (fun j x t _ hx ht => ?_) (fun t ht => ?_) hsafe
    · obtain rfl := Nat.add_right_cancel hr
      obtain rfl : inserters = s.inserters t := by cases ok <;> exact Nat.add_right_cancel hi
      rw [writes.status] at hneed
      by_cases hut : t = u
      · subst hut
        exact absurd hneed (by simp [hkept, hnonzero])
      · simpa [writes.mMgr, hut] using h.owner t ht hneed
    · rw [writes.status]
      exact h.refused j x t hx ht
    · cases ok <;> cases ht
  | @rearm now u _ busy writes =>
    refine managed_of h at_ threads handles (fun t ht readers inserters hr hi hneed => ?_)
      (fun j x t hne hx ht => ?_) nofun hsafe
    · obtain rfl := Nat.add_right_cancel hr
      by_cases hut : t = u
      · refine .inr ?_
        simp only [SchedulePc.inserting, hut] at hi
        simp at hi
        omega
      · obtain rfl : inserters = s.inserters t := by
          simpa [SchedulePc.inserting, Ne.symm hut] using hi
        rw [writes.mMgr]
        refine h.owner t ht ?_
        simpa [writes.status, hut] using hneed
    · -- the mutex keeps the other thread from standing at the top of the heap
      have hholds : x.schedule.holding = true := by
        cases hp : x.schedule <;> rw [hp] at ht <;> first | rfl | cases ht
      have hother := (sound.lock j x hx).mp hholds
      rw [(sound.lock i _ at_).mp rfl, Option.some.injEq] at hother
      exact absurd hother.symm hne
  | @insert now u _ writes =>
    refine managed_of h at_ threads handles (fun t ht readers inserters hr hi hneed => ?_)
      (fun j x t _ hx ht => ?_) nofun hsafe
    · obtain rfl := Nat.add_right_cancel hr
      rw [writes.mMgr]
      by_cases hut : t = u
      · simp [hut]
      · obtain rfl : inserters = s.inserters t := by
          simpa [SchedulePc.inserting, Ne.symm hut] using hi
        rw [writes.status] at hneed
        simpa [hut] using h.owner t ht hneed
    · rw [writes.status]
      exact h.refused j x t hx ht
  | win zero writes =>
    refine managed_exchange h at_ threads handles (by simp) writes.status writes.mMgr
      (fun t ht => ?_) rfl (fun _ => id) nofun
    cases ht
    exact .inr ⟨rfl, zero⟩
  | join busy writes =>
    exact managed_exchange h at_ threads handles (by simp) writes.status writes.mMgr nofun rfl
      (fun _ => id) nofun
  | fail idle writes =>
    exact managed_frame h at_ threads handles writes.status writes.mMgr nofun rfl hrefused nofun
  | @load u first q _ writes =>
    refine managed_frame h at_ threads handles writes.status writes.mMgr ?_ rfl hrefused ?_
    · cases first with
      | true =>
        intro t ht
        split at ht
        · cases ht
        · exact ht
      | false =>
        have hx : s.mgr.status u = incallback ||| canceled := (lives u).joined (joiners_pos at_ rfl)
        rw [hx]
        exact nofun
    · split <;> exact nofun
  | doing r valid other writes =>
    exact managed_frame h at_ threads handles writes.status writes.mMgr nofun rfl hrefused nofun
  | through m owner writes =>
    exact managed_frame h at_ threads handles writes.status writes.mMgr nofun rfl hrefused nofun
  | @crash u q _ owner writes =>
    have hpos : 0 < s.readers u :=
      Machine.countP_pos_of_getElem? _ at_ (decide_eq_true rfl)
    have hkept : s.inserters u = 0 := by simpa [nullManager, at_] using inStep
    have hhandle : u ∈ s.handles := sound.cancel i _ u at_ rfl
    rcases h.owner u hhandle (.inr hpos) with hmgr | hins
    · exact absurd owner hmgr
    · omega
  | removed writes =>
    exact managed_frame h at_ threads handles writes.status writes.mMgr nofun rfl hrefused nofun

theorem managed_step {s' : Sys} {a : Label} (h : Managed s) (sound : Sound s)
    (lives : ∀ t, s.Lives CancelResult.isSuccess t) (hs : Stepped s a s')
    (inStep : nullManager s a = false) : Managed s' := by
  cases hs with
  | @added _ t _ new handles threads writes =>
    have hreaders (u : Ptr) : s'.readers u = s.readers u := by simp only [Sys.readers, threads]
    have hinserters (u : Ptr) : s'.inserters u = s.inserters u := by
      simp only [Sys.inserters, threads]
    refine ⟨fun u hu hneed => ?_, fun i th u hth hu => ?_, fun i th u hth => ?_⟩
    · rw [writes.mMgr, hinserters]
      by_cases hut : u = t
      · simp [hut]
      · rw [writes.status, hreaders] at hneed
        have hhandle : u ∈ s.handles := by simpa [handles, hut] using hu
        simpa [hut] using h.owner u hhandle hneed
    · rw [writes.status]
      exact h.refused i th u (threads ▸ hth) hu
    · exact h.safe i th u (threads ▸ hth)
  | called at_ pcs =>
    exact managed_frame h at_ rfl rfl rfl rfl (fun _ => pcs.reading) pcs.inserting
      (fun t ht => h.refused _ _ t at_ (pcs.refused t ht)) fun t => pcs.safe (h.safe _ _ t at_)
  | moved at_ threads handles move =>
    exact managed_moved h sound lives at_ threads handles move inStep

end Step

theorem Managed.init (self : MgrPtr) (policy : Policy) (n : ℕ) :
    Managed (Sys.init self policy n) := by
  have hthread {i : ThreadId} {th : Thread} (hth : (Sys.init self policy n).threads[i]? = some th) :
      th = ⟨.idle, .idle⟩ :=
    List.eq_of_mem_replicate (List.mem_of_getElem? hth)
  refine ⟨nofun, fun i th t hth ht => ?_, fun i th t hth => ?_⟩
  · rw [hthread hth] at ht
    cases ht
  · rw [hthread hth]
    exact nofun

/-- Where no timer is popped between the exchange that wins it for a `cancel` and the read of its
manager, and none is read while it is being inserted again, no `cancel` goes through a null
manager. -/
theorem cancel_manager {self : MgrPtr} {policy : Policy} {n : ℕ} {s : Sys}
    (h : Machine.Runs step (fun s a => nullManager s a = false) (Sys.init self policy n) s)
    {i : ThreadId} {th : Thread} (hth : s.threads[i]? = some th) (t : Ptr) :
    th.cancel ≠ .crashed t := by
  have inv : Managed s := by
    refine h.invariant (I := Managed) (.init self policy n) fun u v a run hu inStep hstep => ?_
    have hsound := sound_runs run
    exact managed_step hu hsound (lives_runs run _ · nofun) (step_stepped hsound hstep).2 inStep
  exact inv.safe i th t hth

def ownedRun : List Label :=
  [.addTimer 0 0 5 false 7, .addTimer 1 0 9 false 8, .schedule 0 5, .advance 0, .advance 0,
    .advance 0, .advance 0, .cancel 1 1, .advance 1, .advance 1, .advance 1, .advance 0, .advance 0,
    .advance 0, .advance 0, .advance 0, .advance 0, .advance 1, .cancel 1 0, .advance 1, .advance 1,
    .advance 1]

theorem cancel_manager_run : ∃ s : Sys,
    Machine.exec (Machine.guarded (fun s a => !nullManager s a) step) (Sys.init 1 .normal 2)
      ownedRun = some s ∧ s.threads[1]? = some ⟨.idle, .remove 0 1⟩ ∧
    CancelPc.remove 0 1 ≠ .crashed 0 := by
  have h : (Machine.exec (Machine.guarded (fun s a => !nullManager s a) step) (Sys.init 1 .normal 2)
      ownedRun).map (fun s => s.threads[1]?) = some (some ⟨.idle, .remove 0 1⟩) := rfl
  obtain ⟨s, hs, hth⟩ := Option.map_eq_some_iff.mp h
  exact ⟨s, hs, hth, cancel_manager (.avoiding ownedRun hs) hth 0⟩

def nullRun : List Label :=
  [.addTimer 0 0 5 false 7, .cancel 1 0, .advance 1, .schedule 0 5, .advance 0, .advance 0,
    .advance 0, .advance 0, .advance 1, .advance 1]

theorem cancel_through_null : ∃ s : Sys,
    Machine.exec step (Sys.init 1 .normal 2) nullRun = some s ∧ Reachable 1 .normal 2 s ∧
    s.threads[1]? = some ⟨.idle, .crashed 0⟩ ∧ s.mgr.mMgr 0 = none := by
  have h : (Machine.exec step (Sys.init 1 .normal 2) nullRun).map
      (fun s => (s.threads[1]?, s.mgr.mMgr 0)) = some (some ⟨.idle, .crashed 0⟩, none) := rfl
  obtain ⟨s, hs, hview⟩ := Option.map_eq_some_iff.mp h
  simp only [Prod.mk.injEq] at hview
  exact ⟨s, hs, Machine.Reaches.of_exec nullRun hs, hview⟩

end Hwnet.TimerMgr
