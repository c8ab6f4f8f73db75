import Hwnet.TCPSocketUnsent

set_option autoImplicit false

/-!
# The full-write test

In sendInWorker `totalBytes` is an int, and the lengths it adds up are of type size_t. Whether the
list taken is cleared or put back is decided by that int.
-/
namespace Hwnet.TCPSocket

/-- `totalBytes += cur->len`: the int is widened, added to as a size_t, and cut to 32 bits. -/
def addLen (total : BitVec 32) (c : SendContext) : BitVec 32 :=
  (total.signExtend 64 + BitVec.ofNat 64 c.len).setWidth 32

def totalBytesInt (l : List SendContext) : BitVec 32 := l.foldl addLen 0

/-- `n >= totalBytes && cur == nullptr`, on which the list taken is cleared. -/
def fullWrite (l : List SendContext) (n : ℕ) : Bool :=
  decide ((totalBytesInt (batch l)).toInt ≤ n) && curNull l

/-- `n > 0 && (n < totalBytes || cur != nullptr)`, and the put-back of what is left. -/
def putBackInt (s : TCPSocket) (j : Fin 2) (n : ℕ) (total : BitVec 32) (curNull : Bool) :
    Option TCPSocket :=
  if 0 < n ∧ ((n : ℤ) < total.toInt ∨ curNull = false) then
    (trim n (s.sendLists j)).map fun l => (s.setSendList j l).addFront j
  else some s

/-- What sendInWorker does with the list taken, before and after it locks, when writev has taken
`n` bytes. Others only append to the current list meanwhile. -/
def afterWritev (s : TCPSocket) (j : Fin 2) (n : ℕ) : Option TCPSocket :=
  let l := s.sendLists j
  let s := if fullWrite l n then s.setSendList j [] else s
  putBackInt s j n (totalBytesInt (batch l)) (curNull l)

/-! ## The value of the int -/

theorem addLen_eq (total : BitVec 32) (c : SendContext) :
    addLen total c = total + BitVec.ofNat 32 c.len := by
  have hwiden : (total.signExtend 64).setWidth 32 = total := by
    ext i hi
    simp [BitVec.getLsbD_signExtend, hi]
    omega
  unfold addLen
  rw [BitVec.setWidth_add _ _ (by decide), BitVec.setWidth_ofNat_of_le (by decide), hwiden]

theorem foldl_addLen (total : BitVec 32) (l : List SendContext) :
    l.foldl addLen total = total + BitVec.ofNat 32 (totalBytes l) := by
  induction l generalizing total with
  | nil => simp [totalBytes]
  | cons c l ih =>
    rw [List.foldl_cons, ih, addLen_eq, BitVec.add_assoc, ← BitVec.ofNat_add]
    rfl

theorem totalBytesInt_eq (l : List SendContext) :
    totalBytesInt l = BitVec.ofNat 32 (totalBytes l) := by
  rw [totalBytesInt, foldl_addLen, BitVec.ofNat_eq_ofNat, BitVec.zero_add]

theorem toNat_totalBytesInt (l : List SendContext) :
    (totalBytesInt l).toNat = totalBytes l % 2 ^ 32 := by
  rw [totalBytesInt_eq, BitVec.toNat_ofNat]

/-- A count is below the int just where it is below the low 32 bits of the sum and these are not
negative. -/
theorem lt_totalBytesInt (l : List SendContext) (n : ℕ) :
    (n : ℤ) < (totalBytesInt l).toInt ↔
      n < totalBytes l % 2 ^ 32 ∧ totalBytes l % 2 ^ 32 < 2 ^ 31 := by
  rw [BitVec.toInt_eq_toNat_cond, toNat_totalBytesInt]
  split <;> omega

/-- Below 2 GiB the int is the number of bytes. -/
theorem toInt_ofNat {total : ℕ} (h : total < 2 ^ 31) :
    (BitVec.ofNat 32 total).toInt = total := by
  rw [BitVec.toInt_eq_toNat_cond, BitVec.toNat_ofNat]
  split <;> omega

theorem fullWrite_eq {l : List SendContext} (n : ℕ) (h : totalBytes (batch l) < 2 ^ 31) :
    fullWrite l n = true ↔ totalBytes (batch l) ≤ n ∧ curNull l = true := by
  rw [fullWrite, Bool.and_eq_true, decide_eq_true_iff, totalBytesInt_eq, toInt_ofNat h,
    Int.ofNat_le]

theorem putBackInt_eq (s : TCPSocket) (j : Fin 2) (n : ℕ) {total : ℕ} (null : Bool)
    (h : total < 2 ^ 31) :
    putBackInt s j n (BitVec.ofNat 32 total) null = putBackSend s j n total null := by
  have htest : (n : ℤ) < (BitVec.ofNat 32 total).toInt ↔ n < total := by
    rw [toInt_ofNat h]
    exact Int.ofNat_lt
  simp only [putBackInt, putBackSend, htest]

/-! ## What is kept -/

theorem trim_some {n : ℕ} {l : List SendContext} (h : n < totalBytes l) :
    ∃ l', trim n l = some l' := by
  induction l generalizing n with
  | nil => cases h
  | cons front rest ih =>
    rw [totalBytes_cons] at h
    unfold trim
    split
    · exact ih (by omega)
    · exact ⟨_, rfl⟩

/-- A list of more than 128 contexts has bytes beyond the batch. -/
theorem batch_lt {l : List SendContext} (pos : ∀ c ∈ l, 0 < c.len)
    (more : maxSendIovecSize < l.length) : totalBytes (batch l) < totalBytes l := by
  have hsplit : totalBytes (batch l) + totalBytes (l.drop maxSendIovecSize) = totalBytes l := by
    rw [← totalBytes_append, batch, List.take_append_drop]
  have hmore : 0 < (l.drop maxSendIovecSize).length := by
    rw [List.length_drop]
    omega
  obtain ⟨c, rest, hrest⟩ := List.exists_cons_of_length_pos hmore
  have hc : 0 < c.len := by
    refine pos c (List.mem_of_mem_drop (i := maxSendIovecSize) ?_)
    rw [hrest]
    exact List.mem_cons_self
  rw [hrest, totalBytes_cons] at hsplit
  omega

theorem putBack_lists {s : TCPSocket} {j : Fin 2} (taken : j = flip s.slistIdx)
    (l : List SendContext) :
    ((s.setSendList j l).addFront j).sendLists j = [] ∧
      ((s.setSendList j l).addFront j).ptrSendlist = l ++ s.ptrSendlist := by
  have hne : s.slistIdx ≠ j := by
    rw [taken]
    exact (flip_ne _).symm
  refine ⟨Function.update_self _ _ _, ?_⟩
  simp [addFront, setSendList, TCPSocket.ptrSendlist, Function.update_of_ne hne]

/-- The full-write branch is taken only where every byte was accepted; otherwise just the bytes not
accepted are kept, before the ones of the current list. -/
def Exact (s : TCPSocket) (j : Fin 2) (n : ℕ) : Prop :=
  if fullWrite (s.sendLists j) n then n = totalBytes (s.sendLists j)
  else ∃ s', afterWritev s j n = some s' ∧ s'.sendLists j = [] ∧
    listBytes s'.ptrSendlist = (listBytes (s.sendLists j)).drop n ++ listBytes s.ptrSendlist

theorem fullWrite_false {l : List SendContext} {n : ℕ} :
    fullWrite l n = false ↔ maxSendIovecSize < l.length ∨
      n < totalBytes (batch l) % 2 ^ 32 ∧ totalBytes (batch l) % 2 ^ 32 < 2 ^ 31 := by
  rw [fullWrite, Bool.and_eq_false_iff, decide_eq_false_iff_not, Int.not_le, lt_totalBytesInt,
    curNull, decide_eq_false_iff_not, Nat.not_le, or_comm]

/-- Where the full-write branch is not taken, just the bytes not accepted are put back. -/
theorem afterWritev_keeps {s : TCPSocket} {j : Fin 2} {n : ℕ} (taken : j = flip s.slistIdx)
    (pos : 0 < n) (part : fullWrite (s.sendLists j) n = false)
    (more : n < totalBytes (s.sendLists j)) :
    ∃ s', afterWritev s j n = some s' ∧ s'.sendLists j = [] ∧
      listBytes s'.ptrSendlist = (listBytes (s.sendLists j)).drop n ++ listBytes s.ptrSendlist := by
  obtain ⟨l', hl'⟩ := trim_some more
  obtain ⟨hother, hcur⟩ := putBack_lists taken l'
  have htest : (n : ℤ) < (totalBytesInt (batch (s.sendLists j))).toInt ∨
      curNull (s.sendLists j) = false := by
    rwa [fullWrite, Bool.and_eq_false_iff, decide_eq_false_iff_not, Int.not_le] at part
  refine ⟨(s.setSendList j l').addFront j, ?_, hother, ?_⟩
  · simp [afterWritev, putBackInt, part, pos, htest, hl']
  · rw [hcur, listBytes_append, trim_bytes hl']

/-- For a list taken and any count a writev may return: the full-write test is right if and only if
there are more than 128 contexts, or all was written, or the count is below the low 32 bits of the
batch's sum and these are not negative as an int. -/
theorem fullWrite_exact_iff {s : TCPSocket} {j : Fin 2} {n : ℕ} (taken : j = flip s.slistIdx)
    (lens : ∀ c ∈ s.sendLists j, 0 < c.len) (pos : 0 < n)
    (offered : n ≤ totalBytes (batch (s.sendLists j))) :
    Exact s j n ↔ maxSendIovecSize < (s.sendLists j).length ∨
      totalBytes (batch (s.sendLists j)) = n ∨
      n < totalBytes (batch (s.sendLists j)) % 2 ^ 32 ∧
        totalBytes (batch (s.sendLists j)) % 2 ^ 32 < 2 ^ 31 := by
  unfold Exact
  by_cases hmany : maxSendIovecSize < (s.sendLists j).length
  · have hpart : fullWrite (s.sendLists j) n = false := fullWrite_false.mpr (.inl hmany)
    have hlt := batch_lt lens hmany
    simp only [hpart, Bool.false_eq_true, if_false, hmany, true_or, iff_true]
    exact afterWritev_keeps taken pos hpart (by omega)
  · have hnull : curNull (s.sendLists j) = true := decide_eq_true (Nat.not_lt.mp hmany)
    have hbatch := batch_eq_of_curNull hnull
    rw [hbatch] at offered ⊢
    cases hfull : fullWrite (s.sendLists j) n with
    | true =>
      have hnot : ¬ (n < totalBytes (s.sendLists j) % 2 ^ 32 ∧
          totalBytes (s.sendLists j) % 2 ^ 32 < 2 ^ 31) := by
        intro h
        have hpart := fullWrite_false.mpr (.inr (by rwa [hbatch]))
        cases hfull.symm.trans hpart
      simp only [if_true, hmany, hnot, or_false, false_or]
      exact eq_comm
    | false =>
      have hint := (fullWrite_false.mp hfull).resolve_left hmany
      rw [hbatch] at hint
      simp only [Bool.false_eq_true, if_false]
      refine iff_of_true (afterWritev_keeps taken pos hfull ?_) (.inr (.inr hint))
      exact Nat.lt_of_lt_of_le hint.1 (Nat.mod_le _ _)

def takenSocket (l : List SendContext) : TCPSocket :=
  let s := TCPSocket.new 0
  { s.setSendList s.slistIdx l with slistIdx := flip s.slistIdx }

theorem fullWrite_exact_iff_two :
    Exact (takenSocket [getSendContext ⟨[7, 8], 0, 2⟩ 0]) 0 1 := by
  refine (fullWrite_exact_iff rfl (fun c hc => ?_) (by decide) (by decide)).mpr (by decide)
  rw [List.mem_singleton.mp hc]
  decide

/-- One Buffer of 2 GiB, of which writev takes 64 KiB: the int is negative and the list cleared. -/
theorem fullWrite_drops_data :
    ¬ Exact (takenSocket [getSendContext ⟨List.replicate (2 ^ 31) 0, 0, 2 ^ 31⟩ 0]) 0 65536 ∧
    fullWrite [getSendContext ⟨List.replicate (2 ^ 31) 0, 0, 2 ^ 31⟩ 0] 65536 = true ∧
    totalBytes [getSendContext ⟨List.replicate (2 ^ 31) 0, 0, 2 ^ 31⟩ 0] = 2 ^ 31 := by
  have hfull : fullWrite [getSendContext ⟨List.replicate (2 ^ 31) 0, 0, 2 ^ 31⟩ 0] 65536 = true :=
    rfl
  have htotal : totalBytes [getSendContext ⟨List.replicate (2 ^ 31) 0, 0, 2 ^ 31⟩ 0] = 2 ^ 31 :=
    rfl
  refine ⟨fun h => ?_, hfull, htotal⟩
  have hall := (if_pos hfull).mp h
  rw [takenSocket] at hall
  exact absurd (hall.trans htotal) (by decide)

/-! ## The worker with the int -/

def writevInt (w : World) (i : ℕ) (j : Fin 2) (localVer : BitVec 32) : Io → Option Outcome
  | .ok n =>
    let l := w.sock.sendLists j
    let total := totalBytes (batch l)
    if n ≤ total ∧ (0 < n ∨ total = 0) then
      let w' := w.note (.written ((listBytes (batch l)).take n))
      let w' := if fullWrite l n then { w' with sock := w'.sock.setSendList j [] } else w'
      some (goto w' (.written i j localVer (.ok n) total (curNull l)))
    else none
  | io => writevStep w i j localVer io

def writtenOkInt (w : World) (i : ℕ) (j : Fin 2) (n : ℕ) (total : BitVec 32) (curNull : Bool) :
    Option Outcome :=
  let s := if 0 < w.sock.sendTimeout then { w.sock with lastSendTime := w.now } else w.sock
  (putBackInt s j n total curNull).map fun s =>
    flushed { w with sock := { s with bytes4Send := s.bytes4Send - UInt64.ofNat n } } i
      w.sock.closedOnFlush

/-- The worker as the code has it: the sum that goes with `.written` is an int of 32 bits. -/
def doStepInt (b : Build) (w : World) (io : Io) : DoPc → Option Outcome
  | .writev i j localVer => writevInt w i j localVer io
  | .written i j _ (.ok n) total curNull => writtenOkInt w i j n (BitVec.ofNat 32 total) curNull
  | pc => doStep b w io pc

def intStep (b : Build) (s : Sys) : Label → Option Sys
  | .worker k io => (s.tasks[k]?.bind (doStepInt b s.world io)).map (s.resume k)
  | a => step b s a

def DoPc.overlong (w : World) : DoPc → Bool
  | .writev _ j _ => decide (2 ^ 31 ≤ totalBytes (batch (w.sock.sendLists j)))
  | .written _ _ _ _ total _ => decide (2 ^ 31 ≤ total)
  | _ => false

def overlong (s : Sys) : Label → Bool
  | .worker k _ => s.tasks[k]?.any (DoPc.overlong s.world)
  | _ => false

theorem doStepInt_eq {b : Build} {w : World} {pc : DoPc} (io : Io)
    (h : pc.overlong w = false) : doStepInt b w io pc = doStep b w io pc := by
  cases pc with
  | writev i j ver =>
    have hsum : totalBytes (batch (w.sock.sendLists j)) < 2 ^ 31 := by
      simpa [DoPc.overlong] using h
    cases io with
    | ok n => simp only [doStepInt, doStep, writevInt, writevStep, fullWrite_eq n hsum]
    | again | eof | error => rfl
  | written i j ver io' total null =>
    have hsum : total < 2 ^ 31 := by
      simpa [DoPc.overlong] using h
    cases io' with
    | ok n =>
      simp only [doStepInt, doStep, writtenStep, writtenOkInt, writtenOk,
        putBackInt_eq _ _ _ _ hsum]
    | again | eof | error => rfl
  | _ => rfl

/-- With batches below 2 GiB the int is the number of bytes and the unbounded count gives the same
steps. -/
theorem intStep_eq {b : Build} {s : Sys} {a : Label} (h : overlong s a = false) :
    intStep b s a = step b s a := by
  cases a with
  | worker k io =>
    simp only [intStep, step, workerStep]
    cases hpc : s.tasks[k]? with
    | none => rfl
    | some pc =>
      have hshort : pc.overlong s.world = false := by
        simpa [overlong, hpc] using h
      simp only [Option.bind_some, doStepInt_eq io hshort]
  | _ => rfl

end Hwnet.TCPSocket
