import Hwnet.TimerCancel
import Hwnet.TimerHeapSteps

set_option autoImplicit false

/-!
# When a timer is called

A timer is claimed when its expiry has come, and armed again for a later one, in step with the
number of its calls so far. The expiries are `size_t` and the sums that give them may wrap around.
-/
namespace Hwnet.TimerMgr

open Timer

def invokes (t : Ptr) (s : Sys) : Label → Option UInt64
  | .advance i =>
    match s.threads[i]? with
    | some ⟨.call now u, .idle⟩ =>
      if u = t ∧ (s.mgr.timers t).mCallback.isSome then some now else none
    | _ => none
  | _ => none

def nextSum (policy : Policy) (now : UInt64) (x : Timer) : ℕ :=
  match policy with
  | .normal => now.toNat + x.mTimeout.toNat
  | .compensate => x.mExpiredTime.toNat + x.mTimeout.toNat

def wraps (t : Ptr) (s : Sys) : Label → Bool
  | .addTimer u now timeout _ _ => u = t && 2 ^ 64 ≤ now.toNat + timeout.toNat
  | .advance i =>
    match s.threads[i]? with
    | some ⟨.insert now u, .idle⟩ => u = t && 2 ^ 64 ≤ nextSum s.mgr.policy now (s.mgr.timers t)
    | _ => false
  | _ => false

/-! ## Where a thread has the timer -/

def SchedulePc.facing : SchedulePc → Option (UInt64 × Ptr)
  | .claim now t | .pop now t true | .call now t => some (now, t)
  | _ => none

def SchedulePc.past : SchedulePc → Option (UInt64 × Ptr)
  | .running now t | .relock now t true | .settle now t true | .insert now t => some (now, t)
  | _ => none

/-- The timer the thread has popped and will insert again, if anybody does. -/
def SchedulePc.popped : SchedulePc → Option Ptr
  | .call _ t | .running _ t | .relock _ t true | .settle _ t true | .insert _ t => some t
  | _ => none

theorem SchedulePc.popped_of_past {pc : SchedulePc} {now : UInt64} {t : Ptr}
    (h : pc.past = some (now, t)) : pc.popped = some t := by
  unfold past at h
  split at h <;> cases h <;> rfl

theorem SchedulePc.owns_or_inserting {pc : SchedulePc} {t : Ptr} (h : pc.popped = some t) :
    pc.owns = some t ∨ pc.inserting = some t := by
  unfold popped at h
  split at h <;> cases h <;> simp [owns, inserting]

/-- A thread that faces the timer has popped it or has it at the top of the heap. -/
theorem SchedulePc.popped_or_front {pc : SchedulePc} {now : UInt64} {t : Ptr}
    (h : pc.facing = some (now, t)) : pc.popped = some t ∨ pc.front = some t := by
  unfold facing at h
  split at h <;> cases h <;> simp [popped, front]

theorem SchedulePc.timer_of_facing {pc : SchedulePc} {now : UInt64} {t : Ptr}
    (h : pc.facing = some (now, t)) : pc.timer = some t := by
  unfold facing at h
  split at h <;> cases h <;> rfl

variable {s s' w : Sys} {i : ThreadId} {t : Ptr} {now : UInt64}

inductive Goes (s : Sys) : SchedulePc → SchedulePc → Prop where
  | locked {now : UInt64} : Goes s (.lock now) (.loop now)
  | left {now : UInt64} : Goes s (.loop now) .idle
  | found {now : UInt64} {t : Ptr} (has : s.mgr.Has t)
      (due : (s.mgr.timers t).mExpiredTime ≤ now) : Goes s (.loop now) (.claim now t)
  | claimed {now : UInt64} {t : Ptr} (ok : Bool) : Goes s (.claim now t) (.pop now t ok)
  | popped {now : UInt64} {t : Ptr} : Goes s (.pop now t true) (.call now t)
  | refused {now : UInt64} {t : Ptr} : Goes s (.pop now t false) (.relock now t false)
  | called {now : UInt64} {t : Ptr} (callback : (s.mgr.timers t).mCallback.isSome = true) :
      Goes s (.call now t) (.running now t)
  | thrown {now : UInt64} {t : Ptr} : Goes s (.call now t) (.thrown t)
  | returned {now : UInt64} {t : Ptr} : Goes s (.running now t) (.relock now t true)
  | relocked {now : UInt64} {t : Ptr} {ok : Bool} : Goes s (.relock now t ok) (.settle now t ok)
  | reset {now : UInt64} {t : Ptr} : Goes s (.settle now t true) (.insert now t)
  | dropped {now : UInt64} {t : Ptr} {ok : Bool} : Goes s (.settle now t ok) (.loop now)
  | inserted {now : UInt64} {t : Ptr} : Goes s (.insert now t) (.loop now)

theorem scheduleStep_goes {pc pc' : SchedulePc} (h : Sound s)
    (hstep : scheduleStep s i pc = some (w, pc')) : Goes s pc pc' := by
  cases pc with
  | idle | thrown u => cases hstep
  | lock now =>
    obtain ⟨w', -, he⟩ := Option.map_eq_some_iff.mp hstep
    cases he
    exact .locked
  | relock now u ok =>
    obtain ⟨w', -, he⟩ := Option.map_eq_some_iff.mp hstep
    cases he
    exact .relocked
  | loop now =>
    simp only [scheduleStep, Sys.enter] at hstep
    split_ifs at hstep with hpos
    · obtain ⟨tmp, -, hhas, htop⟩ := top_eq h.serves.heap hpos
      rw [htop, Option.bind_eq_bind, Option.bind_some] at hstep
      split_ifs at hstep with hlate
      · cases hstep
        exact .left
      · cases hstep
        exact .found hhas (UInt64.not_lt.mp hlate)
    · cases hstep
      exact .left
  | claim now u =>
    simp only [scheduleStep, Sys.claim, Option.some.injEq, Prod.mk.injEq] at hstep
    obtain ⟨-, rfl⟩ := hstep
    exact .claimed _
  | pop now u ok =>
    obtain ⟨m, -, he⟩ := Option.map_eq_some_iff.mp hstep
    cases he
    cases ok with
    | true => exact .popped
    | false => exact .refused
  | call now u =>
    cases hstep
    split
    · rename_i hcb
      exact .called hcb
    · exact .thrown
  | running now u =>
    cases hstep
    exact .returned
  | settle now u ok =>
    obtain rfl : (s.settle now u ok).2 = pc' := congrArg Prod.snd (Option.some.inj hstep)
    unfold Sys.settle
    split_ifs with hperiodic
    · obtain ⟨rfl, -⟩ := hperiodic
      dsimp only
      split
      · exact .reset
      · exact .dropped
    · exact .dropped
  | insert now u =>
    obtain ⟨m, -, he⟩ := Option.map_eq_some_iff.mp hstep
    cases he
    exact .inserted

theorem Goes.facing {pc pc' : SchedulePc} (h : Goes s pc pc')
    (hfacing : pc'.facing = some (now, t)) :
    pc.facing = some (now, t) ∨ s.mgr.Has t ∧ (s.mgr.timers t).mExpiredTime ≤ now := by
  cases h with
  | found has due =>
    cases hfacing
    exact .inr ⟨has, due⟩
  | claimed ok =>
    cases ok with
    | true => exact .inl hfacing
    | false => cases hfacing
  | popped => exact .inl hfacing
  | _ => cases hfacing

theorem Goes.past {pc pc' : SchedulePc} (h : Goes s pc pc') (hpast : pc'.past = some (now, t)) :
    pc.past = some (now, t) ∨ pc = .call now t ∧ (s.mgr.timers t).mCallback.isSome = true := by
  cases h with
  | called callback =>
    cases hpast
    exact .inr ⟨rfl, callback⟩
  | @relocked now' u ok =>
    cases ok with
    | true => exact .inl hpast
    | false => cases hpast
  | returned | reset => exact .inl hpast
  | _ => cases hpast

theorem Goes.popped_of {pc pc' : SchedulePc} (h : Goes s pc pc') (hpopped : pc'.popped = some t) :
    pc.popped = some t ∧ pc.inserting ≠ some t ∨ ∃ now, pc = .pop now t true := by
  cases h with
  | @popped now' u =>
    cases hpopped
    exact .inr ⟨now', rfl⟩
  | @relocked now' u ok =>
    cases ok with
    | true => exact .inl ⟨hpopped, nofun⟩
    | false => cases hpopped
  | called | returned | reset => exact .inl ⟨hpopped, nofun⟩
  | _ => cases hpopped

/-! ## One thread at a time has the timer in hand -/

inductive Acts (s : Sys) (t : Ptr) : Label → Sys → Prop where
  | aside {a : Label} {s' : Sys} (silent : invokes t s a = none) (handles : t ∈ s'.handles)
      (has : s'.mgr.Has t → s.mgr.Has t)
      (alike : Alike (s.mgr.timers t) (s'.mgr.timers t))
      (status : s'.mgr.status t = s.mgr.status t)
      (threads : ∀ (j : ThreadId) (x : Thread), s'.threads[j]? = some x → x.schedule.timer = none ∨
        ∃ y, s.threads[j]? = some y ∧ y.schedule = x.schedule) : Acts s t a s'
  | moved {i : ThreadId} {th th' : Thread} {w : Sys} (at_ : s.threads[i]? = some th)
      (threads : w.threads = s.threads) (handles : w.handles = s.handles)
      (heap : HeapTurn s th w.mgr) (move : Moved s i th w th')
      (goes : th.cancel ≠ .idle ∧ th'.schedule = th.schedule ∨
        th.cancel = .idle ∧ Goes s th.schedule th'.schedule) :
      Acts s t (.advance i) (Sys.resume i (w, th'))

theorem step_acts (h : Sound s) (known : t ∈ s.handles) {a : Label} (hstep : step s a = some s') :
    Acts s t a s' := by
  cases a with
  | addTimer u now timeout once cb =>
    obtain ⟨-, hnew, m, idx, rfl, hinserted, hx⟩ := addTimer_spec h hstep
    have htu : t ≠ u := by
      rintro rfl
      exact hnew known
    have halike := hinserted.others.alike htu
    rw [setTimer_of_ne _ _ htu] at halike
    refine .aside rfl (List.mem_cons_of_mem u known) (fun ht => ?_) halike ?_ fun j x hx =>
      .inr ⟨x, hx, rfl⟩
    · exact (setTimer_has _ _ _ t).mp (((hinserted.has t).mp ht).resolve_right htu)
    · obtain ⟨i, hi⟩ := hinserted.others.timers t htu
      rw [setTimer_of_ne _ _ htu] at hi
      show (m.timers t).mStatus = _
      rw [hi]
      rfl
  | schedule i now =>
    simp only [step] at hstep
    split_ifs at hstep with hidle
    cases hstep
    refine .aside rfl known id ⟨rfl, rfl, rfl⟩ rfl fun j x hx => ?_
    rcases Machine.of_getElem?_set hx with ⟨rfl, rfl⟩ | ⟨-, hx⟩
    · exact .inl rfl
    · exact .inr ⟨x, hx, rfl⟩
  | cancel i u =>
    obtain ⟨th, hth, hstep⟩ := Option.bind_eq_some_iff.mp hstep
    split_ifs at hstep
    cases hstep
    refine .aside rfl known id ⟨rfl, rfl, rfl⟩ rfl fun j x hx => ?_
    rcases Machine.of_getElem?_set hx with ⟨rfl, rfl⟩ | ⟨-, hx⟩
    · exact .inr ⟨th, hth, rfl⟩
    · exact .inr ⟨x, hx, rfl⟩
  | advance i =>
    obtain ⟨th, w, th', hth, hturn, rfl⟩ := advance_eq hstep
    obtain ⟨hworks, hmove⟩ := threadStep_turn h hth hturn
    refine .moved hth hworks.threads hworks.handles (threadStep_heap h hth hturn) hmove ?_
    unfold threadStep at hturn
    split_ifs at hturn with hidle
    · obtain ⟨⟨w', p⟩, hp, hw⟩ := Option.map_eq_some_iff.mp hturn
      cases hw
      exact .inr ⟨hidle, scheduleStep_goes h hp⟩
    · obtain ⟨⟨w', pc⟩, -, hw⟩ := Option.map_eq_some_iff.mp hturn
      cases hw
      exact .inl ⟨hidle, rfl⟩

/-- A thread that has popped `t` finds it in no heap, and one that is about to insert it has reset
its status. -/
structure Popped (s : Sys) (t : Ptr) : Prop where
  reset : ∀ (i : ThreadId) (th : Thread), s.threads[i]? = some th →
    th.schedule.inserting = some t → s.mgr.status t = 0 ∨ s.mgr.status t = canceled
  absent : ∀ (i : ThreadId) (th : Thread), s.threads[i]? = some th →
    th.schedule.popped = some t → ¬ s.mgr.Has t

theorem Sound.sole (h : Sound s) {j : ThreadId} {th x : Thread} (hi : s.threads[i]? = some th)
    (holds : th.schedule.holding = true) (hj : s.threads[j]? = some x)
    (holds' : x.schedule.holding = true) : i = j :=
  Option.some.inj (((h.lock i th hi).mp holds).symm.trans ((h.lock j x hj).mp holds'))

theorem SchedulePc.holding_of_inserting {pc : SchedulePc} (h : pc.inserting = some t) :
    pc.holding = true := by
  cases pc <;> first | rfl | cases h

theorem Popped.sole (h : Popped s t) (sound : Sound s) (life : s.Lives CancelResult.isOk t)
    {j : ThreadId} {th x : Thread} (hi : s.threads[i]? = some th)
    (hth : th.schedule.popped = some t) (hj : s.threads[j]? = some x)
    (hx : x.schedule.popped = some t) : i = j := by
  have hclash {k l : ThreadId} {y z : Thread} (hk : s.threads[k]? = some y)
      (howns : y.schedule.owns = some t) (hl : s.threads[l]? = some z)
      (hinserting : z.schedule.inserting = some t) : k = l := by
    rcases life.owned (owners_pos hk howns) with hbusy | hbusy <;>
      rcases h.reset l z hl hinserting with hreset | hreset <;>
      exact absurd (hbusy.symm.trans hreset) (by decide)
  rcases SchedulePc.owns_or_inserting hth with howns | hinserting <;>
    rcases SchedulePc.owns_or_inserting hx with howns' | hinserting'
  · exact Machine.eq_of_countP_le_one life.owner hi (decide_eq_true howns) hj
      (decide_eq_true howns')
  · exact hclash hi howns hj hinserting'
  · exact (hclash hj howns' hi hinserting).symm
  · exact sound.sole hi (SchedulePc.holding_of_inserting hinserting) hj
      (SchedulePc.holding_of_inserting hinserting')

/-- Only a claim and a `cancel` of the callback take a status that has been reset further. -/
theorem Moved.reset {th th' : Thread} (h : Moved s i th w th')
    (reset : s.mgr.status t = 0 ∨ s.mgr.status t = canceled)
    (unclaimed : ∀ now, th.schedule ≠ .claim now t) :
    w.mgr.status t = 0 ∨ w.mgr.status t = canceled := by
  have hset {u : Ptr} {x : UInt32} (status : w.mgr.status = Function.update s.mgr.status u x)
      (hx : t = u → x = 0 ∨ x = canceled) : w.mgr.status t = 0 ∨ w.mgr.status t = canceled := by
    rw [status]
    by_cases htu : t = u
    · simpa [htu] using hx htu
    · simpa [htu] using reset
  cases h with
  | @claim now u _ zero writes =>
    refine hset writes.status fun htu => absurd ?_ (unclaimed now)
    rw [htu]
  | rearm busy writes => exact hset writes.status fun _ => .inl rfl
  | win zero writes => exact hset writes.status fun _ => .inr rfl
  | join busy writes =>
    refine hset writes.status ?_
    rintro rfl
    rcases reset with hreset | hreset <;> exact absurd (busy.symm.trans hreset) (by decide)
  | quiet writes | refuse _ writes | pop writes | insert writes | fail _ writes | load writes
  | doing _ _ _ writes | through _ _ writes | crash _ writes | removed writes =>
    rw [writes.status]
    exact reset

/-- Only a thread that has just reset the status goes on to insert. -/
theorem Moved.resets {th th' : Thread} (h : Moved s i th w th')
    (inserting : th'.schedule.inserting = some t) :
    th.schedule.inserting = some t ∨ w.mgr.status t = 0 := by
  cases h with
  | quiet writes pcs => exact .inl (pcs.inserting ▸ inserting)
  | rearm busy writes =>
    cases inserting
    exact .inr (by rw [writes.status, Function.update_self])
  | @pop now u ok writes =>
    cases ok <;> cases inserting
  | claim | refuse | insert => cases inserting
  | win | join | fail | load | doing | through | crash | removed => exact .inl inserting

theorem Popped.init (self : MgrPtr) (policy : Policy) (n : ℕ) :
    Popped (Sys.init self policy n) t := by
  have hidle {i : ThreadId} {th : Thread}
      (hth : (Sys.init self policy n).threads[i]? = some th) : th = ⟨.idle, .idle⟩ :=
    List.eq_of_mem_replicate (List.mem_of_getElem? hth)
  refine ⟨fun i th hth hinserting => ?_, fun i th hth hpopped => ?_⟩
  · rw [hidle hth] at hinserting
    cases hinserting
  · rw [hidle hth] at hpopped
    cases hpopped

theorem SchedulePc.timer_of_popped {pc : SchedulePc} (h : pc.popped = some t) :
    pc.timer = some t := by
  unfold popped at h
  split at h <;> cases h <;> rfl

theorem SchedulePc.timer_of_inserting {pc : SchedulePc} (h : pc.inserting = some t) :
    pc.timer = some t := by
  cases pc <;> first | exact h | cases h

theorem HeapTurn.gone {th : Thread} {m : TimerMgr} {ok : Bool} (h : HeapTurn s th m)
    (idle : th.cancel = .idle) (pop : th.schedule = .pop now t ok) : ¬ m.Has t := by
  cases h with
  | same _ quiet _ =>
    have hquiet := quiet idle
    rw [pop] at hquiet
    cases hquiet
  | popped pc has removed x =>
    rw [pc] at pop
    cases pop
    exact fun hhas => ((removed.has t).mp hhas).2 rfl
  | removed pc => cases idle.symm.trans pc
  | inserted pc =>
    rw [pc] at pop
    cases pop

theorem Popped.acts (h : Popped s t) (sound : Sound s) (life : s.Lives CancelResult.isOk t)
    {a : Label} (acts : Acts s t a s') : Popped s' t := by
  cases acts with
  | aside _ _ has _ status threads =>
    refine ⟨fun j x hx hinserting => ?_, fun j x hx hpopped hhas => ?_⟩
    · rcases threads j x hx with hnone | ⟨y, hy, hsame⟩
      · cases hnone.symm.trans (SchedulePc.timer_of_inserting hinserting)
      · rw [status]
        exact h.reset j y hy (hsame ▸ hinserting)
    · rcases threads j x hx with hnone | ⟨y, hy, hsame⟩
      · cases hnone.symm.trans (SchedulePc.timer_of_popped hpopped)
      · exact h.absent j y hy (hsame ▸ hpopped) (has hhas)
  | @moved i th th' w at_ threads _ heap move goes =>
    -- who inserts the timer is the only one to have it in hand
    have hinserts {now : UInt64} (pc : th = ⟨.insert now t, .idle⟩) {j : ThreadId} {x : Thread}
        (hj : s.threads[j]? = some x) (hx : x.schedule.popped = some t) : i = j :=
      h.sole sound life at_ (by rw [pc]; rfl) hj hx
    have hstays (out : ¬ s.mgr.Has t) (other : ∀ now, th ≠ ⟨.insert now t, .idle⟩) :
        ¬ w.mgr.Has t := fun hhas => out ((heap.steady t other).1 hhas)
    refine ⟨fun j x hx hinserting => ?_, fun j x hx hpopped => ?_⟩
    · have hx : (s.threads.set i th')[j]? = some x := threads ▸ hx
      rcases Machine.of_getElem?_set hx with ⟨rfl, rfl⟩ | ⟨hne, hx⟩
      · rcases move.resets hinserting with hbefore | hzero
        · refine move.reset (h.reset j th at_ hbefore) fun now hclaim => ?_
          rw [hclaim] at hbefore
          cases hbefore
        · exact .inl hzero
      · refine move.reset (h.reset j x hx hinserting) fun now hclaim => hne ?_
        exact sound.sole hx (SchedulePc.holding_of_inserting hinserting) at_ (by rw [hclaim]; rfl)
    · show ¬ w.mgr.Has t
      have hx : (s.threads.set i th')[j]? = some x := threads ▸ hx
      rcases Machine.of_getElem?_set hx with ⟨rfl, rfl⟩ | ⟨hne, hx⟩
      · rcases goes with ⟨hcancel, hsame⟩ | ⟨hidle, hgoes⟩
        · refine hstays (h.absent j th at_ (hsame ▸ hpopped)) fun now hth => hcancel ?_
          rw [hth]
        · rcases hgoes.popped_of hpopped with ⟨hbefore, hother⟩ | ⟨now, hpop⟩
          · refine hstays (h.absent j th at_ hbefore) fun now hth => hother ?_
            rw [hth]
            rfl
          · exact heap.gone hidle hpop
      · refine hstays (h.absent j x hx hpopped) fun now hth => hne ?_
        exact (hinserts hth hx hpopped).symm

/-- While a thread has popped the timer no other one is at it. -/
theorem Popped.others (h : Popped s t) (sound : Sound s) (life : s.Lives CancelResult.isOk t)
    {j : ThreadId} {th x : Thread} (hi : s.threads[i]? = some th)
    (hth : th.schedule.popped = some t) (hj : s.threads[j]? = some x)
    (hx : x.schedule.facing = some (now, t) ∨ x.schedule.past = some (now, t)) : i = j := by
  rcases hx with hfacing | hpast
  · rcases SchedulePc.popped_or_front hfacing with hpopped | hfront
    · exact h.sole sound life hi hth hj hpopped
    · obtain ⟨hpos, hroot⟩ := sound.front j x t hj hfront
      exact absurd ⟨1, le_refl 1, hpos, hroot⟩ (h.absent i th hi hth)
  · exact h.sole sound life hi hth hj (SchedulePc.popped_of_past hpast)

/-! ## The next call of a timer -/

/-- `t` has the time-out `T` and is not called before `due`. -/
structure Due (T due : ℕ) (s : Sys) (t : Ptr) : Prop where
  known : t ∈ s.handles
  timeout : (s.mgr.timers t).mTimeout.toNat = T
  waiting : s.mgr.Has t → due ≤ (s.mgr.timers t).mExpiredTime.toNat
  facing : ∀ (i : ThreadId) (th : Thread) (now : UInt64), s.threads[i]? = some th →
    th.schedule.facing = some (now, t) →
      due ≤ (s.mgr.timers t).mExpiredTime.toNat ∧ (s.mgr.timers t).mExpiredTime ≤ now
  past : ∀ (i : ThreadId) (th : Thread) (now : UInt64), s.threads[i]? = some th →
    th.schedule.past = some (now, t) →
      due ≤ (s.mgr.timers t).mExpiredTime.toNat + T ∧ due ≤ now.toNat + T

variable {T due : ℕ} {th th' : Thread}

theorem Due.aside (h : Due T due s t) (handles : t ∈ s'.handles) (has : s'.mgr.Has t → s.mgr.Has t)
    (alike : Alike (s.mgr.timers t) (s'.mgr.timers t))
    (threads : ∀ (j : ThreadId) (x : Thread), s'.threads[j]? = some x → x.schedule.timer = none ∨
      ∃ y, s.threads[j]? = some y ∧ y.schedule = x.schedule) : Due T due s' t := by
  refine ⟨handles, by rw [alike.timeout, h.timeout], fun hhas => ?_, fun j x now hx hfacing => ?_,
    fun j x now hx hpast => ?_⟩
  · rw [alike.expired]
    exact h.waiting (has hhas)
  · rw [alike.expired]
    rcases threads j x hx with hnone | ⟨y, hy, hsame⟩
    · cases hnone.symm.trans (SchedulePc.timer_of_facing hfacing)
    · exact h.facing j y now hy (hsame ▸ hfacing)
  · rw [alike.expired]
    rcases threads j x hx with hnone | ⟨y, hy, hsame⟩
    · cases hnone.symm.trans (SchedulePc.timer_of_popped (SchedulePc.popped_of_past hpast))
    · exact h.past j y now hy (hsame ▸ hpast)

theorem nextExpiry_toNat {policy : Policy} {now : UInt64} {x : Timer}
    (fits : nextSum policy now x < 2 ^ 64) :
    (nextExpiry policy now x).toNat = nextSum policy now x := by
  cases policy with
  | normal =>
    simp only [nextExpiry, nextSum, UInt64.toNat_add] at fits ⊢
    exact Nat.mod_eq_of_lt fits
  | compensate =>
    simp only [nextExpiry, nextSum, UInt64.toNat_add] at fits ⊢
    exact Nat.mod_eq_of_lt fits

theorem Due.insert (h : Due T due s t) (popped : Popped s t) (sound : Sound s)
    (life : s.Lives CancelResult.isOk t) (at_ : s.threads[i]? = some ⟨.insert now t, .idle⟩)
    (threads : w.threads = s.threads) (handles : w.handles = s.handles)
    (heap : HeapTurn s ⟨.insert now t, .idle⟩ w.mgr)
    (goes : Goes s (.insert now t) th'.schedule)
    (fits : nextSum s.mgr.policy now (s.mgr.timers t) < 2 ^ 64) :
    Due T due (Sys.resume i (w, th')) t := by
  cases heap with
  | same _ quiet _ => cases quiet rfl
  | popped pc | removed pc => cases pc
  | inserted pc inserted x =>
    cases pc
    obtain ⟨hexpired, hnow⟩ := h.past i _ now at_ rfl
    have hnone {j : ThreadId} {y : Thread} {now' : UInt64}
        (hy : (w.threads.set i th')[j]? = some y)
        (hat : y.schedule.facing = some (now', t) ∨ y.schedule.past = some (now', t)) : False := by
      rcases Machine.of_getElem?_set (threads ▸ hy) with ⟨rfl, rfl⟩ | ⟨hne, hy⟩
      · generalize y.schedule = pc at goes hat
        cases goes
        rcases hat with hat | hat <;> cases hat
      · exact hne (popped.others sound life at_ rfl hy hat).symm
    refine ⟨handles ▸ h.known, ?_, fun _ => ?_, fun j y now' hy hat => (hnone hy (.inl hat)).elim,
      fun j y now' hy hat => (hnone hy (.inr hat)).elim⟩
    · show (w.mgr.timers t).mTimeout.toNat = T
      rw [x]
      exact h.timeout
    · show due ≤ (w.mgr.timers t).mExpiredTime.toNat
      rw [x]
      show due ≤ (nextExpiry s.mgr.policy now (s.mgr.timers t)).toNat
      rw [nextExpiry_toNat fits]
      unfold nextSum
      rw [h.timeout]
      split
      · exact hnow
      · exact hexpired

theorem Due.turn (h : Due T due s t) (at_ : s.threads[i]? = some th)
    (threads : w.threads = s.threads) (handles : w.handles = s.handles)
    (heap : HeapTurn s th w.mgr) (stays : ∀ now, th ≠ ⟨.insert now t, .idle⟩)
    (facing : ∀ now, th'.schedule.facing = some (now, t) → th.schedule.facing = some (now, t) ∨
      s.mgr.Has t ∧ (s.mgr.timers t).mExpiredTime ≤ now)
    (past : ∀ now, th'.schedule.past = some (now, t) → th.schedule.past = some (now, t)) :
    Due T due (Sys.resume i (w, th')) t := by
  obtain ⟨hhas, hexpired, htimeout⟩ := heap.steady t stays
  have hthread {j : ThreadId} {x : Thread} (hx : (w.threads.set i th')[j]? = some x) :
      j = i ∧ x = th' ∨ j ≠ i ∧ s.threads[j]? = some x :=
    Machine.of_getElem?_set (threads ▸ hx)
  refine ⟨handles ▸ h.known, ?_, fun hin => ?_, fun j x now hx hat => ?_, fun j x now hx hat => ?_⟩
  · show (w.mgr.timers t).mTimeout.toNat = T
    rw [htimeout, h.timeout]
  · show due ≤ (w.mgr.timers t).mExpiredTime.toNat
    rw [hexpired]
    exact h.waiting (hhas hin)
  · show due ≤ (w.mgr.timers t).mExpiredTime.toNat ∧ (w.mgr.timers t).mExpiredTime ≤ now
    rw [hexpired]
    rcases hthread hx with ⟨rfl, rfl⟩ | ⟨-, hx⟩
    · rcases facing now hat with hbefore | ⟨hin, hlate⟩
      · exact h.facing j th now at_ hbefore
      · exact ⟨h.waiting hin, hlate⟩
    · exact h.facing j x now hx hat
  · show due ≤ (w.mgr.timers t).mExpiredTime.toNat + T ∧ due ≤ now.toNat + T
    rw [hexpired]
    rcases hthread hx with ⟨rfl, rfl⟩ | ⟨-, hx⟩
    · exact h.past j th now at_ (past now hat)
    · exact h.past j x now hx hat

/-- The timer is called, for which it had to be due, and is due again one time-out later. -/
theorem Due.called (h : Due T due s t) (popped : Popped s t) (sound : Sound s)
    (life : s.Lives CancelResult.isOk t) (at_ : s.threads[i]? = some ⟨.call now t, .idle⟩)
    (threads : w.threads = s.threads) (handles : w.handles = s.handles)
    (heap : HeapTurn s ⟨.call now t, .idle⟩ w.mgr) (goes : Goes s (.call now t) th'.schedule) :
    due ≤ now.toNat ∧ Due T (due + T) (Sys.resume i (w, th')) t := by
  obtain ⟨hexpired, hlate⟩ := h.facing i _ now at_ rfl
  have hnow : due ≤ now.toNat := hexpired.trans (UInt64.le_iff_toNat_le.mp hlate)
  obtain ⟨hhas, hsame, htimeout⟩ := heap.steady t fun _ => by simp
  have hout : ¬ w.mgr.Has t := fun hin => popped.absent i _ at_ rfl (hhas hin)
  have hown {j : ThreadId} {y : Thread} {now' : UInt64} (hy : (w.threads.set i th')[j]? = some y)
      (hat : y.schedule.facing = some (now', t) ∨ y.schedule.past = some (now', t)) :
      y.schedule = .running now t := by
    rcases Machine.of_getElem?_set (threads ▸ hy) with ⟨rfl, rfl⟩ | ⟨hne, hy⟩
    · generalize y.schedule = pc at goes hat
      cases goes with
      | called => rfl
      | thrown => rcases hat with hat | hat <;> cases hat
    · exact absurd (popped.others sound life at_ rfl hy hat).symm hne
  refine ⟨hnow, handles ▸ h.known, ?_, fun hin => absurd hin hout, fun j y now' hy hat => ?_,
    fun j y now' hy hat => ?_⟩
  · show (w.mgr.timers t).mTimeout.toNat = T
    rw [htimeout, h.timeout]
  · rw [hown hy (.inl hat)] at hat
    cases hat
  · show due + T ≤ (w.mgr.timers t).mExpiredTime.toNat + T ∧ due + T ≤ now'.toNat + T
    rw [hown hy (.inr hat)] at hat
    cases hat
    rw [hsame]
    exact ⟨Nat.add_le_add_right hexpired T, Nat.add_le_add_right hnow T⟩

theorem Due.acts (h : Due T due s t) (popped : Popped s t) (sound : Sound s)
    (life : s.Lives CancelResult.isOk t) {a : Label} (acts : Acts s t a s')
    (fits : wraps t s a = false) :
    (invokes t s a = none → Due T due s' t) ∧
      ∀ now, invokes t s a = some now → due ≤ now.toNat ∧ Due T (due + T) s' t := by
  cases acts with
  | aside silent handles has alike status threads =>
    refine ⟨fun _ => h.aside handles has alike threads, fun now hinvokes => ?_⟩
    cases silent.symm.trans hinvokes
  | @moved i th th' w at_ threads handles heap move goes =>
    rcases goes with ⟨hcancel, hsame⟩ | ⟨hidle, hgoes⟩
    · refine ⟨fun _ => h.turn at_ threads handles heap (fun now hth => hcancel (by rw [hth]))
        (fun now hat => .inl (hsame ▸ hat)) fun now hat => hsame ▸ hat, fun now hinvokes => ?_⟩
      simp only [invokes, at_] at hinvokes
      split at hinvokes
      · rename_i heq
        cases heq
        exact absurd rfl hcancel
      · cases hinvokes
    · obtain ⟨p, pc⟩ := th
      obtain rfl : pc = .idle := hidle
      by_cases hinsert : ∃ now, p = .insert now t
      · obtain ⟨now, rfl⟩ := hinsert
        have hfits : nextSum s.mgr.policy now (s.mgr.timers t) < 2 ^ 64 := by
          simpa [wraps, at_] using fits
        refine ⟨fun _ => h.insert popped sound life at_ threads handles heap hgoes hfits,
          fun now' hinvokes => ?_⟩
        simp [invokes, at_] at hinvokes
      · have hstays (now : UInt64) : (⟨p, .idle⟩ : Thread) ≠ ⟨.insert now t, .idle⟩ := by
          rintro heq
          cases heq
          exact hinsert ⟨now, rfl⟩
        constructor
        · intro hsilent
          refine h.turn at_ threads handles heap hstays (fun now => hgoes.facing) fun now hat => ?_
          rcases hgoes.past hat with hbefore | ⟨rfl, hcallback⟩
          · exact hbefore
          · simp [invokes, at_, hcallback] at hsilent
        · intro now hinvokes
          have hcall : p = .call now t := by
            simp only [invokes, at_] at hinvokes
            split at hinvokes
            · rename_i heq
              cases heq
              split_ifs at hinvokes with hcalled
              cases hinvokes
              rw [hcalled.1]
            · cases hinvokes
          subst hcall
          exact h.called popped sound life at_ threads handles heap hgoes

/-! ## Never early -/

theorem Due.added (h : Sound s) {timeout : UInt64} {once : Bool} {cb : Callback}
    (hstep : step s (.addTimer t now timeout once cb) = some s')
    (fits : now.toNat + timeout.toNat < 2 ^ 64) :
    Due timeout.toNat (now.toNat + timeout.toNat) s' t := by
  obtain ⟨-, hnew, m, idx, rfl, -, hx⟩ := addTimer_spec h hstep
  have hnobody {i : ThreadId} {th : Thread} (hth : s.threads[i]? = some th) :
      th.schedule.timer ≠ some t := fun ht => hnew (h.schedule i th t hth ht)
  refine ⟨List.mem_cons_self, ?_, fun _ => ?_, fun i th now' hth hat => ?_,
    fun i th now' hth hat => ?_⟩
  · show (m.timers t).mTimeout.toNat = _
    rw [hx]
    rfl
  · show _ ≤ (m.timers t).mExpiredTime.toNat
    rw [hx]
    show _ ≤ (now + timeout).toNat
    rw [UInt64.toNat_add, Nat.mod_eq_of_lt fits]
  · exact absurd (SchedulePc.timer_of_facing hat) (hnobody hth)
  · exact absurd (SchedulePc.timer_of_popped (SchedulePc.popped_of_past hat)) (hnobody hth)

theorem Popped.of_unknown (h : Sound s) (unknown : t ∉ s.handles) : Popped s t := by
  refine ⟨fun i th hth hat => absurd ?_ unknown, fun i th hth hat => absurd ?_ unknown⟩
  · exact h.schedule i th t hth (SchedulePc.timer_of_inserting hat)
  · exact h.schedule i th t hth (SchedulePc.timer_of_popped hat)

theorem popped_runs {self : MgrPtr} {policy : Policy} {n : ℕ} (reach : Reachable self policy n s)
    (t : Ptr) : Popped s t := by
  refine reach.invariant (I := fun u => Popped u t) (.init self policy n) ?_
  intro u v a run hu _ hstep
  have hsound := sound_runs run
  by_cases hknown : t ∈ u.handles
  · exact hu.acts hsound (lives_ok run t) (step_acts hsound hknown hstep)
  · have hstays : v.threads = u.threads ∨ t ∉ v.handles := by
      cases (step_stepped hsound hstep).2 with
      | added _ _ threads => exact .inl threads
      | called => exact .inr hknown
      | moved _ _ handles => exact .inr (handles ▸ hknown)
    rcases hstays with hthreads | hunknown
    · refine ⟨fun i th hth hat => absurd ?_ hknown, fun i th hth hat => absurd ?_ hknown⟩
      · exact hsound.schedule i th t (hthreads ▸ hth) (SchedulePc.timer_of_inserting hat)
      · exact hsound.schedule i th t (hthreads ▸ hth) (SchedulePc.timer_of_popped hat)
    · exact .of_unknown (step_stepped hsound hstep).1 hunknown

/-- In any run of any threads after a timer has been added, its `k`-th call is made by a `Schedule`
of a time not before `now + k * timeout`, if none of its expiries wraps around. -/
theorem never_early {self : MgrPtr} {policy : Policy} {n : ℕ} {timeout time : UInt64} {once : Bool}
    {cb : Callback} {k : ℕ} (reach : Reachable self policy n s) (after : List Label)
    (run : Machine.exec step s (.addTimer t now timeout once cb :: after) = some w)
    (never : Machine.tally step (wraps t) s (.addTimer t now timeout once cb :: after) = 0)
    (call : (Machine.trace step (invokes t) s (.addTimer t now timeout once cb :: after))[k]? =
      some time) : now.toNat + (k + 1) * timeout.toNat ≤ time.toNat := by
  simp only [Machine.exec, Option.bind_eq_some_iff] at run
  obtain ⟨u, hu, hrun⟩ := run
  simp only [Machine.tally, hu, Option.map_some, Option.getD_some, Nat.add_eq_zero_iff,
    Bool.toNat_eq_zero] at never
  simp only [Machine.trace, hu, Option.map_some, Option.getD_some] at call
  have hfits : now.toNat + timeout.toNat < 2 ^ 64 := by simpa [wraps] using never.1
  have hdue := Due.added (sound_runs reach) hu hfits
  let I (k : ℕ) (v : Sys) : Prop := Reachable self policy n v ∧
    Due timeout.toNat (now.toNat + (k + 1) * timeout.toNat) v t
  have hacts (k : ℕ) (v : Sys) (a : Label) (v' : Sys) (hv : I k v) (hstays : wraps t v a = false)
      (hstep : step v a = some v') : (invokes t v a = none → I k v') ∧
        ∀ now', invokes t v a = some now' →
          now.toNat + (k + 1) * timeout.toNat ≤ now'.toNat ∧ I (k + 1) v' := by
    have hsound := sound_runs hv.1
    have hreach := Machine.Runs.next hv.1 trivial hstep
    obtain ⟨hsilent, hcalled⟩ := hv.2.acts (popped_runs hv.1 t) hsound (lives_ok hv.1 t)
      (step_acts hsound hv.2.known hstep) hstays
    refine ⟨fun hnone => ⟨hreach, hsilent hnone⟩, fun now' hsome => ?_⟩
    obtain ⟨htime, hnext⟩ := hcalled now' hsome
    refine ⟨htime, hreach, ?_⟩
    rwa [Nat.add_assoc, ← Nat.succ_mul] at hnext
  have hstart : I 0 u := ⟨reach.next trivial hu, by simpa using hdue⟩
  have hlater := Machine.trace_rule (I := I) (f := invokes t)
    (P := fun k b => now.toNat + (k + 1) * timeout.toNat ≤ b.toNat)
    (fun k v a v' hv hstays hnone hstep => (hacts k v a v' hv hstays hstep).1 hnone)
    (fun k v a v' b hv hstays hsome hstep => (hacts k v a v' hv hstays hstep).2 b hsome)
    hstart after hrun never.2 call
  simpa using hlater

def dueRun : List Label :=
  [.addTimer 7 0 5 false 3, .schedule 0 4, .advance 0, .advance 0, .schedule 0 5] ++
    .replicate 10 (.advance 0) ++ .schedule 0 12 :: .replicate 10 (.advance 0)

theorem never_early_second : ∃ s : Sys,
    Machine.exec step (Sys.init 1 .normal 1) dueRun = some s ∧
    Machine.trace step (invokes 7) (Sys.init 1 .normal 1) dueRun = [5, 12] ∧
    (0 : UInt64).toNat + (1 + 1) * (5 : UInt64).toNat ≤ (12 : UInt64).toNat := by
  have h : (Machine.exec step (Sys.init 1 .normal 1) dueRun).map (·.threads) =
      some [⟨.idle, .idle⟩] := by decide
  obtain ⟨s, hs, -⟩ := Option.map_eq_some_iff.mp h
  have hcalls : Machine.trace step (invokes 7) (Sys.init 1 .normal 1) dueRun = [5, 12] := by decide
  refine ⟨s, hs, hcalls, never_early (k := 1) .refl dueRun.tail hs (by decide) ?_⟩
  exact congrArg (·[1]?) hcalls

def wrappedRun : List Label :=
  [.addTimer 7 1000 18446744073709551615 true 3, .schedule 0 1000] ++ .replicate 9 (.advance 0)

/-- The timer is called at once. -/
theorem called_early : ∃ s : Sys,
    Machine.exec step (Sys.init 1 .normal 1) wrappedRun = some s ∧
    s.threads = [⟨.idle, .idle⟩] ∧
    Machine.trace step (invokes 7) (Sys.init 1 .normal 1) wrappedRun = [1000] ∧
    ¬ (1000 : UInt64).toNat + (18446744073709551615 : UInt64).toNat ≤ (1000 : UInt64).toNat := by
  have h : (Machine.exec step (Sys.init 1 .normal 1) wrappedRun).map (·.threads) =
      some [⟨.idle, .idle⟩] := by decide
  obtain ⟨s, hs, hthreads⟩ := Option.map_eq_some_iff.mp h
  exact ⟨s, hs, hthreads, by decide, by decide⟩

end Hwnet.TimerMgr
