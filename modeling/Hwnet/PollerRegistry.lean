import Hwnet.Poller

set_option autoImplicit false

/-!
# What Remove unregisters

`Remove` looks for the descriptor number of its channel and erases what is registered there. Its
own channel is all it can hit as long as the number has not gone to another one meanwhile.
-/
namespace Hwnet.Poller

variable {fds : Channel → Fd}

/-! ## The registry over a sequence of calls -/

inductive Op where
  | add (c : Channel) (ok : Bool)
  | remove (c : Channel)
  | close (fd : Fd)
  deriving DecidableEq, Repr

def Registry.apply (fds : Channel → Fd) (r : Registry) : Op → Registry
  | .add c ok => (r.add c (fds c) ok).1
  | .remove c => (r.remove c (fds c)).1
  | .close fd => r.close fd

def opStep (fds : Channel → Fd) (r : Registry) (op : Op) : Option Registry := some (r.apply fds op)

/-- epoll has no channel that the map does not have. -/
def Registry.Mirrored (r : Registry) : Prop :=
  ∀ (fd : Fd) (c : Channel), r.interest fd = some c → r.channels fd = some c

theorem ctlDel_mirrored {r : Registry} (h : r.Mirrored) (fd : Fd) : (r.ctlDel fd).Mirrored := by
  intro fd' c hc
  refine h fd' c ?_
  by_cases hfd : fd' = fd
  · subst hfd
    simp [Registry.ctlDel] at hc
  · simpa [Registry.ctlDel, hfd] using hc

theorem add_mirrored {r : Registry} (h : r.Mirrored) (c : Channel) (fd : Fd) (ok : Bool) :
    (r.add c fd ok).1.Mirrored := by
  unfold Registry.add
  split
  · exact h
  · cases hctl : r.ctlAdd c fd ok with
    | mk r' ret =>
      rcases ctlAdd_spec hctl with ⟨hret, -, rfl⟩ | ⟨hret, rfl⟩
      · simp only [if_pos hret]
        intro fd' d hd
        by_cases hfd : fd' = fd
        · subst hfd
          simpa [Registry.insert] using hd
        · simp only [Registry.insert, Function.update_of_ne hfd] at hd ⊢
          exact h fd' d hd
      · simpa only [if_neg hret] using h

theorem remove_mirrored {r : Registry} (h : r.Mirrored) (c : Channel) (fd : Fd) :
    (r.remove c fd).1.Mirrored := by
  unfold Registry.remove
  split
  · exact h
  · intro fd' d hd
    by_cases hfd : fd' = fd
    · subst hfd
      simp [Registry.count, Registry.ctlDel] at hd
    · simp only [Registry.count, Registry.ctlDel, Registry.erase, Registry.push,
        Function.update_of_ne hfd] at hd ⊢
      exact h fd' d hd

theorem apply_mirrored {r : Registry} (h : r.Mirrored) (op : Op) : (r.apply fds op).Mirrored := by
  cases op with
  | add c ok => exact add_mirrored h c (fds c) ok
  | remove c => exact remove_mirrored h c (fds c)
  | close fd => exact ctlDel_mirrored h fd

/-- Every channel but `c` that is registered in `r`, in the map or in epoll, is registered in `r'`
under the same number. -/
def Registry.Keeps (r r' : Registry) (c : Channel) : Prop :=
  ∀ (fd : Fd) (d : Channel), d ≠ c →
    (r.channels fd = some d → r'.channels fd = some d) ∧
    (r.interest fd = some d → r'.interest fd = some d)

theorem remove_channels {r : Registry} {c : Channel} {fd : Fd} {d : Channel}
    (h : r.channels fd = some d) (fd' : Fd) :
    (r.remove c fd).1.channels fd' = (if fd' = fd then none else r.channels fd') ∧
    (r.remove c fd).1.interest fd' = (if fd' = fd then none else r.interest fd') := by
  unfold Registry.remove
  rw [if_neg (by simp [h])]
  simp [Registry.count, Registry.ctlDel, Registry.erase, Registry.push, Function.update_apply]

/-- After any calls, `Remove` leaves the other channels registered exactly when the one registered
under its number, if any is, is its own. -/
theorem remove_own (fds : Channel → Fd) {r : Registry}
    (h : Machine.Reaches (opStep fds) Registry.empty r) (c : Channel) :
    r.Keeps (r.remove c (fds c)).1 c ↔ ∀ d, r.channels (fds c) = some d → d = c := by
  have mirrored : r.Mirrored := by
    refine h.invariant (I := Registry.Mirrored) nofun fun u v op _ hu _ hstep => ?_
    exact Option.some.inj hstep ▸ apply_mirrored hu op
  constructor
  · intro keeps d hd
    by_contra hne
    have hkept := (keeps (fds c) d hne).1 hd
    rw [(remove_channels hd (fds c)).1, if_pos rfl] at hkept
    cases hkept
  · intro own fd d hne
    cases hthere : r.channels (fds c) with
    | none =>
      have hsame : (r.remove c (fds c)).1 = r := by simp [Registry.remove, hthere]
      rw [hsame]
      exact ⟨id, id⟩
    | some e =>
      obtain rfl := own e hthere
      have hfd (hd : r.channels fd = some d) : fd ≠ fds e := by
        rintro rfl
        exact hne (Option.some.inj (hd.symm.trans hthere))
      rw [(remove_channels hthere fd).1, (remove_channels hthere fd).2]
      refine ⟨fun hd => ?_, fun hd => ?_⟩
      · rw [if_neg (hfd hd)]
        exact hd
      · rw [if_neg (hfd (mirrored fd d hd))]
        exact hd

theorem remove_own_two : ∃ r : Registry,
    Machine.exec (opStep Int.ofNat) Registry.empty [.add 1 true, .add 2 true] = some r ∧
    r.Keeps (r.remove 1 1).1 1 := by
  have h : (Machine.exec (opStep Int.ofNat) Registry.empty [.add 1 true, .add 2 true]).map
      (fun r => r.channels 1) = some (some 1) := by decide
  obtain ⟨r, hr, hone⟩ := Option.map_eq_some_iff.mp h
  refine ⟨r, hr, (remove_own Int.ofNat (Machine.Reaches.of_exec _ hr) 1).mpr fun d hd => ?_⟩
  exact Option.some.inj (hd.symm.trans hone)

def reusedNumber : List Op :=
  [.add 1 true, .close 5, .add 2 true, .remove 2, .close 5, .add 3 true]

/-- The late Remove of the handshake unregisters the socket. -/
theorem remove_other : ∃ (fds : Channel → Fd) (r : Registry),
    Machine.exec (opStep fds) Registry.empty reusedNumber = some r ∧
    Machine.Reaches (opStep fds) Registry.empty r ∧
    r.channels 5 = some 3 ∧ r.interest 5 = some 3 ∧
    (r.remove 1 (fds 1)).1.channels 5 = none ∧ (r.remove 1 (fds 1)).1.interest 5 = none ∧
    ¬ r.Keeps (r.remove 1 (fds 1)).1 1 := by
  have h : (Machine.exec (opStep fun _ => 5) Registry.empty reusedNumber).map (fun r =>
      (r.channels 5, r.interest 5, (r.remove 1 5).1.channels 5, (r.remove 1 5).1.interest 5)) =
      some (some 3, some 3, none, none) := by decide
  obtain ⟨r, hr, hview⟩ := Option.map_eq_some_iff.mp h
  simp only [Prod.mk.injEq] at hview
  obtain ⟨hchannels, hinterest, hgone, hgone'⟩ := hview
  refine ⟨fun _ => 5, r, hr, Machine.Reaches.of_exec _ hr, hchannels, hinterest, hgone, hgone', ?_⟩
  intro keeps
  cases hgone.symm.trans ((keeps 5 3 (by decide)).1 hchannels)

end Hwnet.Poller
