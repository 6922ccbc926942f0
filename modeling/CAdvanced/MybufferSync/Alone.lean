import CAdvanced.MybufferSync.Conservation

/-!
# MybufferSync — Alone

A call that runs alone does what the one function of the same name does in a single step:
`driverRead` and `driverWrite` are the runs of one thread from its call to its return, with
nobody else moving, and with a signal for the call that would sleep.
-/

namespace CAdvanced.MybufferSync.Driver

open Interleave System

variable {β ι : Type} [DecidableEq ι]

/-- The device, without the locks and the queues. -/
def Shared.device (s : Shared β ι) : Mybuffer β :=
  ⟨s.kernelmem, s.bytesAvailable, s.bytesThatCanBeWritten⟩

/-- The call is about to return the reply `r`, and the device is the one that `r` leaves. -/
def Replies (r : Reply β) (s : Shared β ι) (t : Option (Frame β)) : Prop :=
  s.device = r.device ∧ ∃ f, t = some f
    ∧ f.pc = .ret r.ret ∧ f.delivered = r.delivered ∧ f.offset = r.offset

/-! ## The steps before the lock -/

section Steps
variable [Zero β] {i : ι} {e : Env} {s : Shared β ι} {f : Frame β}

theorem code_testNonblock (hpc : f.pc = .testNonblock)
    (h : s.Possible f.side ∨ (callFile f.call).nonblock = false) :
    code i (.step e) s (some f) = some (s, some (f.goto (.wait .test))) := by
  have hnot : ¬ (¬ s.Possible f.side ∧ (callFile f.call).nonblock = true) := by
    rintro ⟨hside, hfile⟩
    exact h.elim hside fun hblock => absurd (hblock.symm.trans hfile) nofun
  obtain ⟨copy, hcode⟩ := code_step i e s f
  rw [hcode, driver, hpc]
  dsimp only
  rw [if_neg hnot]

theorem code_eagain (hpc : f.pc = .testNonblock) (h : ¬ s.Possible f.side)
    (hfile : (callFile f.call).nonblock = true) :
    code i (.step e) s (some f) = some (s, some (f.goto (.ret (-eagain)))) := by
  obtain ⟨copy, hcode⟩ := code_step i e s f
  rw [hcode, driver, hpc]
  dsimp only
  rw [if_pos ⟨h, hfile⟩]

/-- A step of the wait. -/
theorem code_wait {p : WaitPc} {q : WaitQueue ι} {r : WaitCtl} (hpc : f.pc = .wait p)
    (hwait : waitEvent i (s.Possible f.side) e.signal (s.queue f.side) p = some (q, r)) :
    code i (.step e) s (some f) = some (s.setQueue f.side q,
      some (f.goto (r.resume Pc.wait .spinLock (.ret (-erestartsys))))) := by
  obtain ⟨copy, hcode⟩ := code_step i e s f
  rw [hcode, driver, hpc]
  dsimp only
  rw [hwait]
  rfl

theorem code_spinLock (hpc : f.pc = .spinLock) (hfree : s.lock f.side = none) :
    code i (.step e) s (some f)
      = some (s.setLock f.side (some i), some (f.goto .readCounter)) := by
  obtain ⟨copy, hcode⟩ := code_step i e s f
  rw [hcode, driver, hpc]
  dsimp only
  rw [hfree]
  rfl

end Steps

/-! ## From the call to the return -/

section Solo
variable [Zero β] {i : ι} {e : Env} {s : Shared β ι} {call : Call β}

theorem soloRun_refused (h : ¬ s.Possible (callSide call))
    (hfile : (callFile call).nonblock = true) :
    soloRun (code i) [.call call, .step e] (s, none)
      = some (s, some ((enter call).goto (.ret (-eagain)))) := by
  rw [soloRun_cons (y := (s, some (enter call))) rfl,
    soloRun_cons (code_eagain (f := enter call) rfl h hfile)]
  rfl

/-- With a signal pending, a wait for what does not hold is given up. -/
theorem soloRun_interrupted (h : ¬ s.Possible (callSide call))
    (hfile : (callFile call).nonblock = false) (hsignal : e.signal = true) :
    ∃ q, soloRun (code i) (.call call :: List.replicate 4 (.step e)) (s, none)
      = some (s.setQueue (callSide call) q,
        some ((enter call).goto (.ret (-erestartsys)))) := by
  have htest : waitEvent i (decide (s.Possible (callSide call))) e.signal
      (s.queue (callSide call)) .test = some (s.queue (callSide call), .goto .prepare) := by
    simp [waitEvent, h]
  have hprepare : waitEvent i (decide (s.Possible (callSide call))) e.signal
      (s.queue (callSide call)) .prepare
      = some ((s.queue (callSide call)).leave i, .goto (.recheck true)) := by
    simp [waitEvent, hsignal]
  have h₁ := code_wait (f := (enter call).goto (.wait .test)) rfl htest
  have h₂ := code_wait (f := (enter call).goto (.wait .prepare)) rfl hprepare
  rw [show ((enter call).goto (.wait .test)).side = callSide call from rfl, setQueue_self] at h₁
  generalize (s.queue (callSide call)).leave i = q at h₂
  have hrecheck : waitEvent i (decide ((s.setQueue (callSide call) q).Possible (callSide call)))
      e.signal ((s.setQueue (callSide call) q).queue (callSide call)) (.recheck true)
      = some ((s.setQueue (callSide call) q).queue (callSide call), .interrupted) := by
    have hstill : ¬ (s.setQueue (callSide call) q).Possible (callSide call) := h
    simp [waitEvent, hstill]
  have h₃ := code_wait (f := (enter call).goto (.wait (.recheck true))) rfl hrecheck
  rw [show ((enter call).goto (.wait (.recheck true))).side = callSide call from rfl,
    setQueue_self] at h₃
  refine ⟨q, ?_⟩
  rw [soloRun_cons (y := (s, some (enter call))) rfl, List.replicate_succ,
    soloRun_cons (code_testNonblock (f := enter call) rfl (.inr hfile)), List.replicate_succ,
    soloRun_cons h₁, List.replicate_succ, soloRun_cons h₂, List.replicate_succ,
    soloRun_cons h₃]
  rfl

/-- A call that need not wait gets to its lock. -/
theorem soloRun_locked (call : Call β) (k : Nat) (h : s.Possible (callSide call))
    (hfree : s.lock (callSide call) = none) :
    soloRun (code i) (.call call :: List.replicate (k + 3) (.step e)) (s, none)
      = soloRun (code i) (List.replicate k (.step e))
        (s.setLock (callSide call) (some i), some ((enter call).goto .readCounter)) := by
  have hwait : waitEvent i (decide (s.Possible (callSide call))) e.signal
      (s.queue (callSide call)) .test = some (s.queue (callSide call), .ready) := by
    simp [waitEvent, h]
  have hready := code_wait (f := (enter call).goto (.wait .test)) rfl hwait
  rw [show ((enter call).goto (.wait .test)).side = callSide call from rfl, setQueue_self]
    at hready
  have hlock := code_spinLock (i := i) (e := e) (f := (enter call).goto .spinLock) rfl hfree
  rw [soloRun_cons (y := (s, some (enter call))) rfl, List.replicate_succ,
    soloRun_cons (code_testNonblock (f := enter call) rfl (.inl h)), List.replicate_succ,
    soloRun_cons hready, List.replicate_succ]
  exact soloRun_cons hlock

/-- From the copy to the return. -/
theorem soloRun_copied {f : Frame β} (hpc : f.pc = .atomicSub) :
    soloRun (code i) (List.replicate 4 (.step e)) (s, some f)
      = some ((((s.add f.side (-f.copied)).add f.side.other f.copied).setLock f.side none).setQueue
          f.side.other fun _ => false,
        some { f with pc := .ret f.copied, offset := f.offset + f.copied }) := by
  obtain ⟨call, pc, toCopy, notCopied, delivered, offset⟩ := f
  cases hpc
  cases call with
  | read file n => rfl
  | write file buffer => rfl

end Solo

omit [DecidableEq ι] in
/-- What the two counters are after the call. -/
theorem device_moved (s : Shared β ι) (side : Side) (n : Int) (m : Mutex ι) (q : WaitQueue ι) :
    ((((s.add side (-n)).add side.other n).setLock side m).setQueue side.other q).device
      = match side with
        | .read => ⟨s.kernelmem, s.bytesAvailable - n, s.bytesThatCanBeWritten + n⟩
        | .write => ⟨s.kernelmem, s.bytesAvailable + n, s.bytesThatCanBeWritten - n⟩ := by
  cases side <;>
    simp [Shared.device, Shared.bytesAvailable, Shared.bytesThatCanBeWritten, Shared.setQueue,
      Shared.setLock, Shared.add, Side.other, Int.sub_eq_add_neg]

variable [Zero β]

theorem soloRun_read {i : ι} {s : Shared β ι} {file : File} {n refused : Nat}
    (hfree : s.lock .read = none) (hpossible : s.Possible .read) :
    ∃ s' t, soloRun (code i) (.call (.read file n) :: List.replicate 9 (.step ⟨true, refused⟩))
        (s, none) = some (s', t)
      ∧ Replies (MybufferSync.driverRead s.device file n refused) s' t := by
  let toCopy := min (sizeT (s.counter .read)) n
  let f : Frame β := ⟨.read file n, .atomicSub, toCopy, min toCopy refused,
    s.kernelmem.take (toCopy - refused), file.offset⟩
  have hcopied : f.copied = toCopy - refused := by
    show toCopy - min toCopy refused = toCopy - refused
    omega
  have hrun : soloRun (code i)
      (.call (.read file n) :: List.replicate 9 (.step ⟨true, refused⟩)) (s, none)
      = soloRun (code i) (List.replicate 4 (.step ⟨true, refused⟩))
        (s.setLock .read (some i), some f) :=
    (soloRun_locked (.read file n) 6 hpossible hfree).trans rfl
  have hdevice : s.device.ReadPossible := hpossible
  rw [driverRead_possible hdevice]
  refine ⟨_, _, hrun.trans (soloRun_copied rfl), ?_, _, rfl, ?_, rfl, ?_⟩
  · rw [device_moved, hcopied]
    rfl
  · rw [hcopied]
    rfl
  · rw [hcopied]
    rfl

theorem soloRun_write {i : ι} {s : Shared β ι} {file : File} {buffer : List β} {refused : Nat}
    (hfree : s.lock .write = none) (hpossible : s.Possible .write) :
    ∃ s' t, soloRun (code i) (.call (.write file buffer)
          :: List.replicate 9 (.step ⟨true, refused⟩)) (s, none) = some (s', t)
      ∧ Replies (MybufferSync.driverWrite s.device file buffer refused) s' t := by
  let toCopy := min (sizeT (s.counter .write)) buffer.length
  let f : Frame β := ⟨.write file buffer, .atomicSub, toCopy, min toCopy refused, [], file.offset⟩
  have hcopied : f.copied = toCopy - refused := by
    show toCopy - min toCopy refused = toCopy - refused
    omega
  have hrun : soloRun (code i)
      (.call (.write file buffer) :: List.replicate 9 (.step ⟨true, refused⟩)) (s, none)
      = soloRun (code i) (List.replicate 4 (.step ⟨true, refused⟩))
        ({ s.setLock .write (some i) with
          kernelmem := (copyFromUser s.kernelmem buffer toCopy refused).1 }, some f) :=
    (soloRun_locked (.write file buffer) 6 hpossible hfree).trans rfl
  have hdevice : s.device.WritePossible := hpossible
  rw [driverWrite_possible hdevice]
  refine ⟨_, _, hrun.trans (soloRun_copied rfl), ?_, _, rfl, ?_, rfl, ?_⟩
  · rw [device_moved, hcopied]
    rfl
  · rw [hcopied]
    rfl
  · rw [hcopied]
    rfl

/-! ## The functions are the runs -/

/-- The call, alone, replies `r`: the thread gets to its return, and the others stay where
they are. -/
def RepliesAlone (c : State β ι) (i : ι) (call : Call β) (refused : Nat) (r : Reply β) : Prop :=
  ∃ k c', (mybuffer β ι).exec
      ((i, .call call) :: List.replicate k (i, .step ⟨true, refused⟩)) c = some c'
    ∧ Replies r c'.shared (c'.threads i) ∧ ∀ j, j ≠ i → c'.threads j = c.threads j

theorem repliesAlone_of_soloRun {c : State β ι} {i : ι} {call : Call β} {refused k : Nat}
    {r : Reply β} (hout : c.threads i = none)
    (h : ∃ s t, soloRun (code i) (.call call :: List.replicate k (.step ⟨true, refused⟩))
      (c.shared, none) = some (s, t) ∧ Replies r s t) :
    RepliesAlone c i call refused r := by
  obtain ⟨s, t, hrun, hreplies⟩ := h
  rw [← hout] at hrun
  have hexec := exec_of_soloRun (S := mybuffer β ι) (f := code) (fun _ _ => rfl) hrun
  rw [List.map_cons, List.map_replicate] at hexec
  refine ⟨k, _, hexec, ?_, fun j hj => Function.update_of_ne hj _ _⟩
  simpa using hreplies

/-- A call that cannot go on is refused, or gives up its wait. -/
theorem repliesAlone_impossible {c : State β ι} {i : ι} (hout : c.threads i = none)
    (call : Call β) (refused : Nat) (h : ¬ c.shared.Possible (callSide call)) :
    RepliesAlone c i call refused ⟨c.shared.device,
      if (callFile call).nonblock then -eagain else -erestartsys, [], (callFile call).offset⟩ := by
  cases hfile : (callFile call).nonblock with
  | true =>
      refine repliesAlone_of_soloRun (k := 1) hout ⟨_, _, soloRun_refused h hfile, ?_⟩
      exact ⟨rfl, _, rfl, rfl, rfl, rfl⟩
  | false =>
      obtain ⟨q, hrun⟩ := soloRun_interrupted (i := i) (e := ⟨true, refused⟩) h hfile rfl
      exact repliesAlone_of_soloRun (k := 4) hout ⟨_, _, hrun, rfl, _, rfl, rfl, rfl, rfl⟩

/-- **`driver_read` alone** is the function `driverRead`. -/
theorem driverRead_alone {c : State β ι} {i : ι} (hout : c.threads i = none)
    (hfree : c.shared.lock .read = none) (file : File) (n refused : Nat) :
    RepliesAlone c i (.read file n) refused
      (MybufferSync.driverRead c.shared.device file n refused) := by
  by_cases h : c.shared.Possible .read
  · exact repliesAlone_of_soloRun hout (soloRun_read hfree h)
  · have hdevice : ¬ c.shared.device.ReadPossible := h
    rw [driverRead_empty hdevice]
    exact repliesAlone_impossible hout (.read file n) refused h

/-- **`driver_write` alone** is the function `driverWrite`. -/
theorem driverWrite_alone {c : State β ι} {i : ι} (hout : c.threads i = none)
    (hfree : c.shared.lock .write = none) (file : File) (buffer : List β) (refused : Nat) :
    RepliesAlone c i (.write file buffer) refused
      (MybufferSync.driverWrite c.shared.device file buffer refused) := by
  by_cases h : c.shared.Possible .write
  · exact repliesAlone_of_soloRun hout (soloRun_write hfree h)
  · have hdevice : ¬ c.shared.device.WritePossible := h
    rw [driverWrite_full hdevice]
    exact repliesAlone_impossible hout (.write file buffer) refused h

end CAdvanced.MybufferSync.Driver
