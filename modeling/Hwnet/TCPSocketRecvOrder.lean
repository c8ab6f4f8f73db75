import Hwnet.TCPSocketReceived

set_option autoImplicit false

/-!
# The order of receiving

A read fills the buffers from the front of the list in hand. The buffers delivered, those in the
worker's hands and those queued are together the buffers posted, in order, in either build. A readv
into buffers that overlap loses what it writes twice.
-/
namespace Hwnet.TCPSocket

/-! ## The order is kept -/

def DoPc.readFails : DoPc → Io → Bool
  | .read .., .eof _ | .read .., .error _ => true
  | _, _ => false

def DoPc.inHand (lists : Fin 2 → List RecvBuffer) : DoPc → List RecvBuffer
  | .read _ _ _ _ hold | .deliver _ _ _ hold _ | .readFailed _ _ _ hold _ => hold.among lists
  | .recvFinish _ _ (.list j) => lists j
  | _ => []

/-- What the buffers in hand hold of a read that no callback has been given. -/
def DoPc.undelivered (m : Scattered.Mem UInt8) (lists : Fin 2 → List RecvBuffer) : DoPc → List UInt8
  | .deliver _ _ _ hold n => Scattered.gather m (hold.among lists) n
  | _ => []

/-- One buffer is taken from the only list there is, or a list that is no longer current. -/
def Hold.Taken (i : Incoming) : Hold → Prop
  | .front _ => i.recvLists (flip i.rlistIdx) = []
  | .list j => j = flip i.rlistIdx

def Incoming.Held (i : Incoming) : DoPc → Prop
  | .read _ _ cb _ hold => cb.isSome ∧ hold.Taken i
  | .deliver _ _ cb hold n => cb.isSome ∧ hold.Taken i ∧
      n ≤ Scattered.capacity (hold.among i.recvLists) ∧ (n = 0 → ∃ j, hold = .list j)
  | .recvFinish _ _ hold => hold.Taken i
  | .readFailed _ _ _ hold err => err = none ∧ hold.Taken i
  | _ => i.recvLists (flip i.rlistIdx) = []

structure InOrder (i : Incoming) (tasks : List DoPc) : Prop where
  positive : ∀ buff ∈ i.posted, 0 < buff.len
  idle : tasks = [] → i.recvLists (flip i.rlistIdx) = []
  held : ∀ pc ∈ tasks, i.Held pc
  order : i.delivered.map Prod.fst ++ tasks.flatMap (DoPc.inHand i.recvLists) ++
    i.recvLists i.rlistIdx = i.posted
  bytes : i.delivered.flatMap Prod.snd ++ tasks.flatMap (DoPc.undelivered i.memory i.recvLists) =
    i.read
  lengths : ∀ d ∈ i.delivered, 0 < d.2.length ∧ d.2.length ≤ d.1.len

theorem InOrder.init : InOrder Sys.init.world.incoming [] where
  positive := fun _ h => by cases h
  idle := fun _ => rfl
  held := fun _ h => by cases h
  order := rfl
  bytes := rfl
  lengths := fun _ h => by cases h

theorem held_of_not_receives {i : Incoming} {pc : DoPc} (h : pc.receives = false) :
    i.Held pc ↔ i.recvLists (flip i.rlistIdx) = [] := by
  cases pc <;> first | exact Iff.rfl | cases h

theorem inHand_of_not_receives {lists : Fin 2 → List RecvBuffer} {pc : DoPc}
    (h : pc.receives = false) : pc.inHand lists = [] := by
  cases pc <;> first | rfl | cases h

theorem undelivered_of_not_receives {m : Scattered.Mem UInt8} {lists : Fin 2 → List RecvBuffer}
    {pc : DoPc} (h : pc.receives = false) : pc.undelivered m lists = [] := by
  cases pc <;> first | rfl | cases h

theorem Hold.Taken.congr {i i' : Incoming} {hold : Hold} (h : hold.Taken i)
    (idx : i'.rlistIdx = i.rlistIdx)
    (same : i'.recvLists (flip i.rlistIdx) = i.recvLists (flip i.rlistIdx)) :
    hold.Taken i' ∧ hold.among i'.recvLists = hold.among i.recvLists := by
  cases hold with
  | front buff =>
    refine ⟨?_, rfl⟩
    show i'.recvLists (flip i'.rlistIdx) = []
    rw [idx, same]
    exact h
  | list j =>
    have hj : j = flip i.rlistIdx := h
    refine ⟨hj.trans (congrArg flip idx.symm), ?_⟩
    rw [Hold.among, Hold.among, hj, same]

/-- A task depends on the list it has taken, not on the current one. -/
theorem held_congr {i i' : Incoming} {pc : DoPc} (h : i.Held pc) (idx : i'.rlistIdx = i.rlistIdx)
    (same : i'.recvLists (flip i.rlistIdx) = i.recvLists (flip i.rlistIdx)) :
    i'.Held pc ∧ pc.inHand i'.recvLists = pc.inHand i.recvLists ∧
      ∀ m, pc.undelivered m i'.recvLists = pc.undelivered m i.recvLists := by
  cases hr : pc.receives with
  | false =>
    rw [held_of_not_receives hr, inHand_of_not_receives hr, inHand_of_not_receives hr, idx,
      same]
    refine ⟨(held_of_not_receives hr).mp h, rfl, fun m => ?_⟩
    rw [undelivered_of_not_receives hr, undelivered_of_not_receives hr]
  | true =>
    cases pc with
    | read n cw cb ver hold =>
      obtain ⟨hcb, htaken⟩ := h
      exact ⟨⟨hcb, (htaken.congr idx same).1⟩, (htaken.congr idx same).2, fun _ => rfl⟩
    | deliver n cw cb hold m =>
      obtain ⟨hcb, htaken, hfits, hend⟩ := h
      obtain ⟨htaken', hamong⟩ := htaken.congr idx same
      exact ⟨⟨hcb, htaken', hamong ▸ hfits, hend⟩, hamong, fun _ => by
        rw [DoPc.undelivered, DoPc.undelivered, hamong]⟩
    | recvFinish n cw hold =>
      have htaken : hold.Taken i := h
      obtain ⟨htaken', hamong⟩ := htaken.congr idx same
      refine ⟨htaken', ?_, fun _ => rfl⟩
      cases hold with
      | front buff => rfl
      | list j => exact hamong
    | readFailed n cw ver hold err =>
      obtain ⟨herr, htaken⟩ := h
      exact ⟨⟨herr, (htaken.congr idx same).1⟩, (htaken.congr idx same).2, fun _ => rfl⟩
    | _ => cases hr

theorem InOrder.post {i : Incoming} {tasks : List DoPc} (inv : InOrder i tasks) {buff : RecvBuffer}
    (pos : 0 < buff.len) : InOrder (i.post buff) tasks := by
  have hother : (i.post buff).recvLists (flip i.rlistIdx) = i.recvLists (flip i.rlistIdx) :=
    Function.update_of_ne (flip_ne _) _ _
  have kept (pc : DoPc) (hpc : pc ∈ tasks) :=
    held_congr (inv.held pc hpc) (rfl : (i.post buff).rlistIdx = i.rlistIdx) hother
  refine ⟨fun b hb => ?_, fun h => hother.trans (inv.idle h), fun pc hpc => (kept pc hpc).1, ?_, ?_,
    inv.lengths⟩
  · rcases List.mem_append.mp hb with hb | hb
    · exact inv.positive b hb
    · rw [List.mem_singleton.mp hb]
      exact pos
  · have hhand : tasks.flatMap (DoPc.inHand (i.post buff).recvLists) =
        tasks.flatMap (DoPc.inHand i.recvLists) :=
      List.flatMap_congr fun pc hpc => (kept pc hpc).2.1
    have hcur : (i.post buff).recvLists (i.post buff).rlistIdx =
        i.recvLists i.rlistIdx ++ [buff] := Function.update_self _ _ _
    rw [hhand, hcur, ← List.append_assoc]
    exact congrArg (· ++ [buff]) inv.order
  · have hhand : tasks.flatMap (DoPc.undelivered i.memory (i.post buff).recvLists) =
        tasks.flatMap (DoPc.undelivered i.memory i.recvLists) :=
      List.flatMap_congr fun pc hpc => (kept pc hpc).2.2 i.memory
    exact (congrArg _ hhand).trans inv.bytes

/-- A task that holds nothing: the buffers delivered and the current list are all there is. -/
theorem inOrder_free {i : Incoming} {next : Option DoPc}
    (free : ∀ q ∈ next, q.receives = false) (positive : ∀ buff ∈ i.posted, 0 < buff.len)
    (other : i.recvLists (flip i.rlistIdx) = [])
    (order : i.delivered.map Prod.fst ++ i.recvLists i.rlistIdx = i.posted)
    (bytes : i.delivered.flatMap Prod.snd = i.read)
    (lengths : ∀ d ∈ i.delivered, 0 < d.2.length ∧ d.2.length ≤ d.1.len) :
    InOrder i next.toList := by
  have free' (q : DoPc) (hq : q ∈ next.toList) : q.receives = false :=
    free q (Option.mem_toList.mp hq)
  refine ⟨positive, fun _ => other, fun q hq => (held_of_not_receives (free' q hq)).mpr other,
    ?_, ?_, lengths⟩
  · have hnil : next.toList.flatMap (DoPc.inHand i.recvLists) = [] :=
      List.flatMap_eq_nil_iff.mpr fun q hq => inHand_of_not_receives (free' q hq)
    rw [hnil, List.append_nil]
    exact order
  · have hnil : next.toList.flatMap (DoPc.undelivered i.memory i.recvLists) = [] :=
      List.flatMap_eq_nil_iff.mpr fun q hq =>
        undelivered_of_not_receives (free' q hq)
    rw [hnil, List.append_nil]
    exact bytes

theorem InOrder.free {i : Incoming} {pc : DoPc} (inv : InOrder i [pc])
    (h : pc.receives = false) :
    i.recvLists (flip i.rlistIdx) = [] ∧
      i.delivered.map Prod.fst ++ i.recvLists i.rlistIdx = i.posted ∧
      i.delivered.flatMap Prod.snd = i.read := by
  have horder := inv.order
  have hbytes := inv.bytes
  rw [List.flatMap_singleton] at horder hbytes
  rw [inHand_of_not_receives h, List.append_nil] at horder
  rw [undelivered_of_not_receives h, List.append_nil] at hbytes
  exact ⟨(held_of_not_receives h).mp (inv.held pc (List.mem_singleton.mpr rfl)), horder, hbytes⟩

theorem inOrder_putBack {i : Incoming} {pc : DoPc} {next : Option DoPc} {j : Fin 2}
    (free : ∀ q ∈ next, q.receives = false) (inv : InOrder i [pc]) (taken : j = flip i.rlistIdx)
    (order : i.delivered.map Prod.fst ++ i.recvLists j ++ i.recvLists i.rlistIdx = i.posted)
    (bytes : i.delivered.flatMap Prod.snd = i.read) : InOrder (i.putBack j) next.toList := by
  subst taken
  obtain ⟨hcur, hother⟩ := putBack_recvLists i
  refine inOrder_free free inv.positive hother ?_ bytes inv.lengths
  refine (congrArg _ hcur).trans ?_
  rw [← List.append_assoc]
  exact order

/-! ## The steps of a read -/

theorem inOrder_holding {i : Incoming} {pc : DoPc} (positive : ∀ buff ∈ i.posted, 0 < buff.len)
    (held : i.Held pc)
    (order : i.delivered.map Prod.fst ++ pc.inHand i.recvLists ++ i.recvLists i.rlistIdx = i.posted)
    (bytes : i.delivered.flatMap Prod.snd ++ pc.undelivered i.memory i.recvLists = i.read)
    (lengths : ∀ d ∈ i.delivered, 0 < d.2.length ∧ d.2.length ≤ d.1.len) : InOrder i [pc] := by
  refine ⟨positive, fun h => (by cases h), fun q hq => ?_, ?_, ?_, lengths⟩
  · rw [List.mem_singleton.mp hq]
    exact held
  · rw [List.flatMap_singleton]
    exact order
  · rw [List.flatMap_singleton]
    exact bytes

theorem InOrder.holding {i : Incoming} {pc : DoPc} (inv : InOrder i [pc]) :
    i.Held pc ∧
      i.delivered.map Prod.fst ++ pc.inHand i.recvLists ++ i.recvLists i.rlistIdx = i.posted ∧
      i.delivered.flatMap Prod.snd ++ pc.undelivered i.memory i.recvLists = i.read := by
  have horder := inv.order
  have hbytes := inv.bytes
  rw [List.flatMap_singleton] at horder hbytes
  exact ⟨inv.held pc (List.mem_singleton.mpr rfl), horder, hbytes⟩

theorem InOrder.takeFront {i : Incoming} {n : ℕ} {cw : Bool} {cb : Option Callback}
    {ver : BitVec 32} {front : RecvBuffer} {rest : List RecvBuffer}
    (inv : InOrder i [.recvInWorker n cw]) (set : cb.isSome)
    (list : i.recvLists i.rlistIdx = front :: rest) :
    InOrder (i.setRecvList i.rlistIdx rest) [.read n cw cb ver (.front front)] := by
  obtain ⟨hother, horder, hbytes⟩ := inv.free rfl
  have hother' : (i.setRecvList i.rlistIdx rest).recvLists (flip i.rlistIdx) = [] :=
    (Function.update_of_ne (flip_ne _) _ _).trans hother
  have hcur : (i.setRecvList i.rlistIdx rest).recvLists i.rlistIdx = rest :=
    Function.update_self _ _ _
  refine inOrder_holding inv.positive ⟨set, hother'⟩ ?_ ((List.append_nil _).trans hbytes)
    inv.lengths
  show i.delivered.map Prod.fst ++ [front] ++
    (i.setRecvList i.rlistIdx rest).recvLists i.rlistIdx = i.posted
  rw [hcur, ← horder, list, List.append_assoc]
  rfl

theorem InOrder.takeList {i : Incoming} {n : ℕ} {cw : Bool} {cb : Option Callback}
    {ver : BitVec 32} (inv : InOrder i [.recvInWorker n cw]) (set : cb.isSome) :
    InOrder { i with rlistIdx := flip i.rlistIdx } [.read n cw cb ver (.list i.rlistIdx)] := by
  obtain ⟨hother, horder, hbytes⟩ := inv.free rfl
  refine inOrder_holding inv.positive ⟨set, (flip_flip _).symm⟩ ?_
    ((List.append_nil _).trans hbytes) inv.lengths
  show i.delivered.map Prod.fst ++ i.recvLists i.rlistIdx ++
    i.recvLists (flip i.rlistIdx) = i.posted
  rw [hother, List.append_nil]
  exact horder

theorem InOrder.read {i : Incoming} {n : ℕ} {cw : Bool} {cb : Option Callback} {ver : BitVec 32}
    {hold : Hold} {bytes : List UInt8} (inv : InOrder i [.read n cw cb ver hold])
    (pos : 0 < bytes.length) (fits : bytes.length ≤ Scattered.capacity (hold.among i.recvLists))
    (apart : (hold.among i.recvLists).Pairwise Scattered.Region.Apart) :
    InOrder { i with
      read := i.read ++ bytes
      memory := Scattered.scatter i.memory (hold.among i.recvLists) bytes }
      [.deliver n cw cb hold bytes.length] := by
  obtain ⟨⟨hcb, htaken⟩, horder, hbytes⟩ := inv.holding
  refine inOrder_holding inv.positive ⟨hcb, htaken, fits, fun h => by omega⟩ horder ?_ inv.lengths
  show i.delivered.flatMap Prod.snd ++ Scattered.gather _ _ _ = i.read ++ bytes
  rw [Scattered.gather_scatter apart fits]
  exact congrArg (· ++ bytes) ((List.append_nil _).symm.trans hbytes)

theorem InOrder.deliverFront {i : Incoming} {n m : ℕ} {cw : Bool} {cb : Option Callback}
    {buff : RecvBuffer} (inv : InOrder i [.deliver n cw cb (.front buff) m]) :
    InOrder (i.deliver cb buff m) [.recvFinish n cw (.front buff)] := by
  obtain ⟨⟨hcb, htaken, hfits, hend⟩, horder, hbytes⟩ := inv.holding
  obtain ⟨cb, rfl⟩ := Option.isSome_iff_exists.mp hcb
  have hfits : m ≤ buff.len := by simpa [Hold.among, Scattered.capacity] using hfits
  have hpos : m ≠ 0 := fun hzero => by
    obtain ⟨j, hj⟩ := hend hzero
    cases hj
  refine inOrder_holding inv.positive htaken ?_ ?_ fun d hd => ?_
  · show (i.delivered ++ [(buff, Scattered.load i.memory buff m)]).map Prod.fst ++ [] ++
      i.recvLists i.rlistIdx = i.posted
    rw [List.map_append, List.append_nil, ← horder]
    rfl
  · show (i.delivered ++ [(buff, Scattered.load i.memory buff m)]).flatMap Prod.snd ++ [] = i.read
    simp only [DoPc.undelivered, Hold.among, Scattered.gather, Nat.min_eq_left hfits,
      List.append_nil] at hbytes
    rw [List.flatMap_append, List.flatMap_singleton, List.append_nil]
    exact hbytes
  · rcases List.mem_append.mp hd with hd | hd
    · exact inv.lengths d hd
    · rw [List.mem_singleton.mp hd, Scattered.length_load]
      exact ⟨Nat.pos_of_ne_zero hpos, hfits⟩

/-- The callback is called with the first buffer of the list in hand and its share of the bytes. -/
theorem InOrder.deliverList {i : Incoming} {n m : ℕ} {cw : Bool} {cb : Option Callback} {j : Fin 2}
    {front : RecvBuffer} {rest : List RecvBuffer} (inv : InOrder i [.deliver n cw cb (.list j) m])
    (more : m ≠ 0) (list : i.recvLists j = front :: rest) :
    InOrder ((i.setRecvList j rest).deliver cb front (min m front.len))
      [.deliver n cw cb (.list j) (m - front.len)] := by
  obtain ⟨⟨hcb, htaken, hfits, -⟩, horder, hbytes⟩ := inv.holding
  obtain ⟨cb, rfl⟩ := Option.isSome_iff_exists.mp hcb
  have hj : j = flip i.rlistIdx := htaken
  rw [Hold.among, list, Scattered.capacity_cons] at hfits
  rw [DoPc.inHand, Hold.among, list] at horder
  rw [DoPc.undelivered, Hold.among, list, Scattered.gather] at hbytes
  have hother : (i.setRecvList j rest).recvLists j = rest := Function.update_self _ _ _
  have hcur : (i.setRecvList j rest).recvLists i.rlistIdx = i.recvLists i.rlistIdx :=
    Function.update_of_ne (hj ▸ (flip_ne _).symm) _ _
  have hfront : 0 < front.len := inv.positive front (by rw [← horder]; simp)
  refine inOrder_holding inv.positive ⟨rfl, hj, ?_, fun _ => ⟨j, rfl⟩⟩ ?_ ?_ fun d hd => ?_
  · show m - front.len ≤ Scattered.capacity ((i.setRecvList j rest).recvLists j)
    rw [hother]
    omega
  · show (i.delivered ++ [(front, Scattered.load i.memory front (min m front.len))]).map Prod.fst ++
      (i.setRecvList j rest).recvLists j ++ (i.setRecvList j rest).recvLists i.rlistIdx = i.posted
    rw [hother, hcur, ← horder]
    simp
  · show (i.delivered ++ [(front, Scattered.load i.memory front (min m front.len))]).flatMap
      Prod.snd ++ Scattered.gather i.memory ((i.setRecvList j rest).recvLists j) (m - front.len) =
        i.read
    rw [hother, List.flatMap_append, List.flatMap_singleton, List.append_assoc]
    exact hbytes
  · rcases List.mem_append.mp hd with hd | hd
    · exact inv.lengths d hd
    · rw [List.mem_singleton.mp hd, Scattered.length_load]
      exact ⟨by omega, Nat.min_le_right _ _⟩

theorem InOrder.finished {i : Incoming} {n : ℕ} {cw : Bool} {hold : Hold} {next : Option DoPc}
    (inv : InOrder i [.recvFinish n cw hold]) (free : ∀ q ∈ next, q.receives = false) :
    InOrder (hold.finished i) next.toList := by
  obtain ⟨htaken, horder, hbytes⟩ := inv.holding
  have hread : i.delivered.flatMap Prod.snd = i.read := (List.append_nil _).symm.trans hbytes
  cases hold with
  | front buff =>
    have horder : i.delivered.map Prod.fst ++ [] ++ i.recvLists i.rlistIdx = i.posted := horder
    rw [List.append_nil] at horder
    exact inOrder_free free inv.positive htaken horder hread inv.lengths
  | list j => exact inOrder_putBack free inv htaken horder hread

/-- What could not be read goes back to the front of the current list. -/
theorem InOrder.restored {i : Incoming} {n : ℕ} {cw : Bool} {ver : BitVec 32} {hold : Hold}
    {next : Option DoPc} (inv : InOrder i [.readFailed n cw ver hold none])
    (free : ∀ q ∈ next, q.receives = false) : InOrder (hold.restored i) next.toList := by
  obtain ⟨⟨-, htaken⟩, horder, hbytes⟩ := inv.holding
  have hread : i.delivered.flatMap Prod.snd = i.read := (List.append_nil _).symm.trans hbytes
  cases hold with
  | front buff =>
    have hother : (i.setRecvList i.rlistIdx (buff :: i.recvLists i.rlistIdx)).recvLists
        (flip i.rlistIdx) = [] := (Function.update_of_ne (flip_ne _) _ _).trans htaken
    refine inOrder_free free inv.positive hother ?_ hread inv.lengths
    refine (congrArg _ (Function.update_self _ _ _)).trans (Eq.trans ?_ horder)
    rw [DoPc.inHand, Hold.among, List.append_assoc]
    rfl
  | list j => exact inOrder_putBack free inv htaken horder hread

def DoPc.overlaps (lists : Fin 2 → List RecvBuffer) : DoPc → Bool
  | .read _ _ _ _ hold => !decide ((hold.among lists).Pairwise Scattered.Region.Apart)
  | _ => false

/-- Until Close, with the callback set and no read failing, a worker step keeps the order. -/
theorem InOrder.worker {w : World} {i' : Incoming} {pc : DoPc} {next : Option DoPc}
    (inv : InOrder w.incoming [pc]) (h : Received w pc i' next) (opened : w.sock.closed = false)
    (set : w.sock.recvList ≠ [] → w.sock.recvCallback.isSome)
    (fine : ∀ n cw cb ver hold errno, pc = .read n cw cb ver hold →
      next ≠ some (.readFailed n cw ver hold (some errno)))
    (apart : pc.overlaps w.sock.recvLists = false) : InOrder i' next.toList := by
  have hafter (n : ℕ) (cw : Bool) : ∀ q ∈ some (afterRecv n cw), q.receives = false := by
    intro q hq
    cases hq
    exact afterRecv_not_receives n cw
  cases h with
  | apart free free' =>
    obtain ⟨hother, horder, hbytes⟩ := inv.free free
    exact inOrder_free free' inv.positive hother horder hbytes inv.lengths
  | takeFront _ list =>
    exact inv.takeFront (set (by rw [list]; exact List.cons_ne_nil _ _)) list
  | takeList _ some_ => exact inv.takeList (set some_)
  | @read _ _ _ _ hold _ pos fits =>
    have hapart : (hold.among w.sock.recvLists).Pairwise Scattered.Region.Apart := by
      simpa [DoPc.overlaps] using apart
    exact inv.read pos fits hapart
  | @readFails n cw cb ver hold err =>
    have hagain : err = none := by
      cases err with
      | none => rfl
      | some errno => exact absurd rfl (fine n cw cb ver hold errno rfl)
    obtain ⟨⟨-, htaken⟩, horder, hbytes⟩ := inv.holding
    exact inOrder_holding inv.positive ⟨hagain, htaken⟩ horder hbytes inv.lengths
  | deliverFront => exact inv.deliverFront
  | deliverList more list => exact inv.deliverList more list
  | deliverClosed closed => cases opened.symm.trans closed
  | deliverEnd =>
    obtain ⟨⟨-, htaken, -⟩, horder, hbytes⟩ := inv.holding
    rw [DoPc.undelivered, Scattered.gather_zero] at hbytes
    exact inOrder_holding inv.positive htaken horder hbytes inv.lengths
  | finish => exact inv.finished (hafter _ _)
  | restore => exact inv.restored (hafter _ _)
  | failed => cases inv.holding.1.1

/-! ## Runs -/

/-- The receive callback is gone although buffers were posted, or the read about to return
fails. -/
def disturbed (s : Sys) (a : Label) : Bool :=
  s.world.sock.recvCallback.isNone && !(postedBuffers s.world.log).isEmpty ||
    match a with
    | .worker k io => s.tasks[k]?.any fun pc => pc.readFails io
    | _ => false

def overlaps (s : Sys) : Label → Bool
  | .worker k _ => s.tasks[k]?.any (DoPc.overlaps s.world.sock.recvLists)
  | _ => false

/-- A list that is not empty has been posted to, so its callback is set. -/
theorem InOrder.set {s : Sys} {a : Label} (inv : InOrder s.world.incoming s.tasks)
    (fine : disturbed s a = false) (list : s.world.sock.recvList ≠ []) :
    s.world.sock.recvCallback.isSome = true := by
  have hposted : postedBuffers s.world.log ≠ [] := by
    intro hnil
    have horder : _ = postedBuffers s.world.log := inv.order
    rw [hnil] at horder
    exact list (List.append_eq_nil_iff.mp horder).2
  simp only [disturbed, Bool.or_eq_false_iff, Bool.and_eq_false_imp, Bool.not_eq_false'] at fine
  cases hcb : s.world.sock.recvCallback with
  | some cb => rfl
  | none =>
    have hempty := fine.1 (by rw [hcb]; rfl)
    exact absurd (List.isEmpty_iff.mp hempty) hposted

theorem readFails_next {w : World} {n : ℕ} {cw : Bool} {cb : Option Callback} {ver : BitVec 32}
    {hold : Hold} {io : Io} {o : Outcome} (h : readStep w n cw cb ver hold io = some o)
    (fine : (DoPc.read n cw cb ver hold).readFails io = false) (errno : ℤ) :
    o.next ≠ some (.readFailed n cw ver hold (some errno)) := by
  intro hnext
  cases io with
  | ok k =>
    simp only [readStep] at h
    split at h
    · cases h; cases hnext
    · cases h
  | again =>
    simp only [readStep] at h
    split at h
    · cases h
    · cases h; cases hnext
  | eof => cases fine
  | error => cases fine

theorem inOrder_step {b : Build} {s s' : Sys} {a : Label} (h : step b s a = some s')
    (one : s.world.sock.closed = false → OneWorker s)
    (inv : s.world.sock.closed = false → InOrder s.world.incoming s.tasks)
    (fine : disturbed s a = false) (apart : overlaps s a = false)
    (opened : s'.world.sock.closed = false) : InOrder s'.world.incoming s'.tasks := by
  cases step_stepped h with
  | @apiCall a r hsection =>
    have hinv := inv (section_orderly hsection opened).opened
    rcases section_incoming hsection with hsame | ⟨buff, pos, hpost⟩
    · rw [← hsame] at hinv
      exact hinv
    · have hnext := hinv.post pos
      rw [← hpost] at hnext
      exact hnext
  | collect event idle => exact inv opened
  | disable entered => exact inv opened
  | @onActive event err locking =>
    have hinv := inv (onActive_orderly opened).opened
    rw [← onActive_incoming s.world event err] at hinv
    exact hinv
  | post pos =>
    have hcount := (one opened).count
    have := Bool.toNat_le s.world.sock.doing
    have hnone : s.tasks = [] := List.eq_nil_of_length_eq_zero (by omega)
    have hinv := inv opened
    obtain ⟨hpositive, hidle, -, horder, hbytes, hlengths⟩ := hinv
    rw [hnone, List.flatMap_nil, List.append_nil] at horder hbytes
    rw [hnone]
    refine inOrder_free (fun q (hq : q ∈ some DoPc.queued) => ?_) hpositive (hidle hnone) horder
      hbytes hlengths
    cases hq
    rfl
  | @worker k io _ _ _ _ =>
    obtain ⟨pc, o, at_, hdo, hs⟩ := step_worker h
    rw [hs] at opened ⊢
    have ho : s.world.sock.closed = false := move_opened (doStep_move hdo) opened
    obtain ⟨hone, hk⟩ := (one ho).single at_
    have hinv := inv ho
    have hfine : pc.readFails io = false := by
      simp only [disturbed, Bool.or_eq_false_iff, at_, Option.any_some] at fine
      exact fine.2
    have hset := hinv.set fine
    rw [hone] at hinv
    have hapart : pc.overlaps s.world.sock.recvLists = false := by
      simpa only [overlaps, at_, Option.any_some] using apart
    have := hinv.worker (doStep_received hdo) ho hset (fun n cw cb ver hold errno hpc => by
      subst hpc
      exact readFails_next hdo hfine errno) hapart
    cases hn : o.next <;> simpa [Sys.resume, hone, hk, hn] using this

/-- While the receive callback stays set, no read fails and none is into buffers that overlap, until
Close: the buffers delivered, then those in the worker's hands, then those queued are the buffers
posted, and the characters delivered with those still to be delivered are the bytes read. -/
theorem recv_order {b : Build} {s : Sys}
    (h : Machine.Runs (step b) (fun s a => (disturbed s a || overlaps s a) = false) Sys.init s)
    (opened : s.world.sock.closed = false) :
    deliveredBuffers s.world.log ++ s.tasks.flatMap (DoPc.inHand s.world.sock.recvLists) ++
        s.world.sock.recvList = postedBuffers s.world.log ∧
      deliveredBytes s.world.log ++
        s.tasks.flatMap (DoPc.undelivered s.world.memory s.world.sock.recvLists) =
          readBytes s.world.log ∧
      ∀ d ∈ deliveries s.world.log, 0 < d.2.length ∧ d.2.length ≤ d.1.len := by
  have inv : InOrder s.world.incoming s.tasks := by
    refine h.invariant (I := fun s => s.world.sock.closed = false →
      InOrder s.world.incoming s.tasks) ?_ ?_ opened
    · exact fun _ => InOrder.init
    · intro u v a run inv fine hstep
      obtain ⟨hfine, hapart⟩ := Bool.or_eq_false_iff.mp fine
      exact inOrder_step hstep (reachable_oneWorker run.reaches) inv hfine hapart
  exact ⟨inv.order, inv.bytes, inv.lengths⟩

def splitRun : List Label :=
  [.start, .setRecvCallback (some 1), .recv (some ⟨0, 0, 2⟩), .recv (some ⟨0, 2, 2⟩),
    .arrive [5, 6, 7] false, .collect ⟨true, false, false⟩, .disable, .onActive 0, .post,
    .worker 0 .again, .worker 0 .again, .worker 0 .again, .worker 0 .again, .worker 0 (.ok 3),
    .worker 0 .again, .recv (some ⟨0, 0, 2⟩)]

theorem recv_order_split : ∃ s : Sys,
    Machine.exec (Machine.guarded (fun s a => !(disturbed s a || overlaps s a)) (step ⟨true⟩))
      Sys.init splitRun = some s ∧
    deliveredBytes s.world.log = [5, 6] ∧
    (deliveredBuffers s.world.log ++ s.tasks.flatMap (DoPc.inHand s.world.sock.recvLists) ++
        s.world.sock.recvList = postedBuffers s.world.log ∧
      deliveredBytes s.world.log ++
        s.tasks.flatMap (DoPc.undelivered s.world.memory s.world.sock.recvLists) =
          readBytes s.world.log ∧
      ∀ d ∈ deliveries s.world.log, 0 < d.2.length ∧ d.2.length ≤ d.1.len) := by
  have h : (Machine.exec (Machine.guarded (fun s a => !(disturbed s a || overlaps s a))
      (step ⟨true⟩)) Sys.init splitRun).map (fun s => (deliveredBytes s.world.log,
        s.world.sock.closed)) = some ([5, 6], false) := rfl
  obtain ⟨s, hs, hview⟩ := Option.map_eq_some_iff.mp h
  simp only [Prod.mk.injEq] at hview
  obtain ⟨hdelivered, hclosed⟩ := hview
  exact ⟨s, hs, hdelivered, recv_order (b := ⟨true⟩) (.avoiding _ hs) hclosed⟩

def twiceRun : List Label :=
  [.start, .setRecvCallback (some 1), .recv (some ⟨0, 0, 2⟩), .recv (some ⟨0, 0, 2⟩),
    .arrive [5, 6, 7] false, .collect ⟨true, false, false⟩, .disable, .onActive 0, .post,
    .worker 0 .again, .worker 0 .again, .worker 0 .again, .worker 0 .again, .worker 0 (.ok 3),
    .worker 0 .again, .worker 0 .again]

/-- The third byte overwrites the first before the callback sees it. -/
theorem recv_overwrites : ∃ s : Sys,
    Machine.exec (Machine.guarded (fun s a => !disturbed s a) (step ⟨true⟩)) Sys.init twiceRun =
      some s ∧
    readBytes s.world.log = [5, 6, 7] ∧
    deliveries s.world.log = [(⟨0, 0, 2⟩, [7, 6]), (⟨0, 0, 2⟩, [7])] ∧
    s.world.sock.closed = false := by
  have h : (Machine.exec (Machine.guarded (fun s a => !disturbed s a) (step ⟨true⟩)) Sys.init
      twiceRun).map (fun s => (readBytes s.world.log, deliveries s.world.log,
        s.world.sock.closed)) =
      some ([5, 6, 7], [(⟨0, 0, 2⟩, [7, 6]), (⟨0, 0, 2⟩, [7])], false) := rfl
  obtain ⟨s, hs, hview⟩ := Option.map_eq_some_iff.mp h
  simp only [Prod.mk.injEq] at hview
  exact ⟨s, hs, hview⟩

end Hwnet.TCPSocket
