import CAdvanced.Interleave.Sync
import CAdvanced.Interleave.Threads
import CAdvanced.Interleave.WaitQueue
import CAdvanced.MybufferSync.Model

/-!
# MybufferSync — Driver

The same driver under calls that run at the same time. A step is one atomic operation,
one step of a lock or of a wait, or one copy, so a call is a program counter with the
local variables. `driver_read` and `driver_write` are one piece of code on the two sides
of the device (`Side`): each waits until its own counter is not zero, takes its own lock,
subtracts from its own counter, adds to the other one and wakes the other queue. They
differ in the copy.
-/

namespace CAdvanced.MybufferSync.Driver

open Interleave

/-- Which of the two functions. The side of `driver_read` has `bytes_available`, `rlock`
and `wq_read`; that of `driver_write` has `bytes_that_can_be_written`, `wlock` and
`wq_write`. -/
inductive Side where
  | read
  | write
  deriving DecidableEq, Repr

def Side.other : Side → Side
  | .read => .write
  | .write => .read

/-- What the calls share. -/
structure Shared (β ι : Type) where
  kernelmem : List β
  counter : Side → Int
  lock : Side → Mutex ι
  queue : Side → WaitQueue ι

/-- Where a call stands. -/
inductive Pc where
  | testNonblock
  | wait (p : WaitPc)
  | spinLock
  | readCounter
  | copy
  | atomicSub
  | atomicAdd
  | spinUnlock
  | wakeUp
  | ret (r : Int)
  deriving DecidableEq, Repr

/-- A call in progress: what it was called with, where it stands, `to_copy`, `not_copied`,
the bytes that it has copied to the user, and `*offset`. -/
structure Frame (β : Type) where
  call : Call β
  pc : Pc
  toCopy : Nat
  notCopied : Nat
  delivered : List β
  offset : Int
  deriving DecidableEq, Repr

/-- What the environment decides in a step: whether a signal is pending, and how many
bytes the memory of the user refuses. -/
structure Env where
  signal : Bool
  refused : Nat
  deriving DecidableEq, Repr

/-- A thread calls the driver, or takes the next step of its call. -/
inductive Action (β : Type) where
  | call (c : Call β)
  | step (e : Env)
  deriving DecidableEq, Repr

section Code
variable {β ι : Type}

/-- `bytes_available`. -/
def Shared.bytesAvailable (s : Shared β ι) : Int := s.counter .read

/-- `bytes_that_can_be_written`. -/
def Shared.bytesThatCanBeWritten (s : Shared β ι) : Int := s.counter .write

/-- `READ_POSSIBLE` or `WRITE_POSSIBLE`. -/
def Shared.Possible (s : Shared β ι) (side : Side) : Prop := s.counter side ≠ 0

instance (s : Shared β ι) (side : Side) : Decidable (s.Possible side) :=
  inferInstanceAs (Decidable (_ ≠ _))

/-- `atomic_add` and `atomic_sub`. -/
def Shared.add (s : Shared β ι) (side : Side) (n : Int) : Shared β ι :=
  { s with counter := Function.update s.counter side (s.counter side + n) }

/-- A lock or an unlock. -/
def Shared.setLock (s : Shared β ι) (side : Side) (m : Mutex ι) : Shared β ι :=
  { s with lock := Function.update s.lock side m }

def Shared.setQueue (s : Shared β ι) (side : Side) (q : WaitQueue ι) : Shared β ι :=
  { s with queue := Function.update s.queue side q }

def callSide : Call β → Side
  | .read _ _ => .read
  | .write _ _ => .write

def callFile : Call β → File
  | .read file _ => file
  | .write file _ => file

/-- `max_bytes_to_read` or `max_bytes_to_write`. -/
def callSize : Call β → Nat
  | .read _ maxBytesToRead => maxBytesToRead
  | .write _ buffer => buffer.length

def Frame.side (f : Frame β) : Side := callSide f.call

def Frame.size (f : Frame β) : Nat := callSize f.call

def Frame.goto (f : Frame β) (p : Pc) : Frame β := { f with pc := p }

/-- `to_copy - not_copied`. -/
def Frame.copied (f : Frame β) : Nat := f.toCopy - f.notCopied

/-- A call that has just come. -/
def enter (c : Call β) : Frame β := ⟨c, .testNonblock, 0, 0, [], (callFile c).offset⟩

variable [DecidableEq ι]

/-- One step of the code that the two functions share; `copy` is the step in which they
differ. -/
def driver (side : Side) (file : File) (maxBytes : Nat)
    (copy : Shared β ι → Frame β → Shared β ι × Frame β) (i : ι) (signal : Bool)
    (s : Shared β ι) (f : Frame β) : Option (Shared β ι × Option (Frame β)) :=
  match f.pc with
  | .testNonblock =>
      some (s, some (f.goto
        (if ¬ s.Possible side ∧ file.nonblock then .ret (-eagain) else .wait .test)))
  | .wait p =>
      (waitEvent i (s.Possible side) signal (s.queue side) p).map fun r =>
        (s.setQueue side r.1,
          some (f.goto (r.2.resume Pc.wait .spinLock (.ret (-erestartsys)))))
  | .spinLock =>
      ((s.lock side).lock i).map fun m => (s.setLock side m, some (f.goto .readCounter))
  | .readCounter =>
      some (s, some { f with pc := .copy, toCopy := min (sizeT (s.counter side)) maxBytes })
  | .copy => some ((copy s f).1, some ((copy s f).2.goto .atomicSub))
  | .atomicSub => some (s.add side (-f.copied), some (f.goto .atomicAdd))
  | .atomicAdd => some (s.add side.other f.copied, some (f.goto .spinUnlock))
  | .spinUnlock =>
      some (s.setLock side (s.lock side).unlock,
        some { f with pc := .wakeUp, offset := f.offset + f.copied })
  | .wakeUp =>
      some (s.setQueue side.other (s.queue side.other).wakeUp, some (f.goto (.ret f.copied)))
  | .ret _ => some (s, none)

/-- One step of `driver_read(instance, buffer, max_bytes_to_read, offset)`. -/
def driverRead (file : File) (maxBytesToRead : Nat) (i : ι) (e : Env) (s : Shared β ι)
    (f : Frame β) : Option (Shared β ι × Option (Frame β)) :=
  let copy := fun (s : Shared β ι) (f : Frame β) =>
    let r := copyToUser s.kernelmem f.toCopy e.refused
    (s, { f with delivered := r.1, notCopied := r.2 })
  driver .read file maxBytesToRead copy i e.signal s f

/-- One step of `driver_write(instance, buffer, max_bytes_to_write, offset)`, where
`buffer` has `max_bytes_to_write` bytes. -/
def driverWrite [Zero β] (file : File) (buffer : List β) (i : ι) (e : Env) (s : Shared β ι)
    (f : Frame β) : Option (Shared β ι × Option (Frame β)) :=
  let copy := fun (s : Shared β ι) (f : Frame β) =>
    let r := copyFromUser s.kernelmem buffer f.toCopy e.refused
    ({ s with kernelmem := r.1 }, { f with notCopied := r.2 })
  driver .write file buffer.length copy i e.signal s f

/-- A step of thread `i`. -/
def code [Zero β] (i : ι) : Action β → Shared β ι → Option (Frame β) →
    Option (Shared β ι × Option (Frame β))
  | .call c, s, none => some (s, some (enter c))
  | .step e, s, some f =>
      match f.call with
      | .read file maxBytesToRead => driverRead file maxBytesToRead i e s f
      | .write file buffer => driverWrite file buffer i e s f
  | _, _, _ => none

/-- The driver and its users. -/
abbrev State (β ι : Type) := Conf ι (Shared β ι) (Option (Frame β))

/-- The freshly loaded module, and nobody in it. -/
def start [Zero β] : State β ι where
  shared := {
    kernelmem := (templateInit : Mybuffer β).kernelmem
    counter := fun
      | .read => (templateInit : Mybuffer β).bytesAvailable
      | .write => (templateInit : Mybuffer β).bytesThatCanBeWritten
    lock := fun _ => none
    queue := fun _ _ => false }
  threads := fun _ => none

/-- Every thread may call the driver again and again. -/
def mybuffer (β ι : Type) [Zero β] [DecidableEq ι] : System (State β ι) (ι × Action β) :=
  ⟨start, fun l c => c.step (code l.1 l.2) l.1⟩

end Code

/-! ## What a step does -/

section Effect
variable {β ι : Type}

/-- The call has seen its condition hold, and not taken its lock yet. -/
def Pc.passed : Pc → Bool
  | .wait .finish | .spinLock => true
  | _ => false

/-- Where a call may go on from its wait: it waits on, or takes the lock, or gives up. -/
structure Waits (s : Shared β ι) (f : Frame β) (p : Pc) : Prop where
  goal : (∃ q, p = .wait q) ∨ p = .spinLock ∨ p = .ret (-eagain) ∨ p = .ret (-erestartsys)
  sleeps : p = .wait .asleep → ¬ s.Possible f.side
  passes : p.passed = true → f.pc = .wait .finish ∨ s.Possible f.side

/-- What a step of thread `i` does. -/
inductive Effect (i : ι) (s : Shared β ι) :
    Option (Frame β) → Shared β ι → Option (Frame β) → Prop
  | enter (c : Call β) : Effect i s none s (some (enter c))
  | wait {f : Frame β} {q : WaitQueue ι} {p : Pc} (hpc : f.pc = .testNonblock ∨ ∃ p, f.pc = .wait p)
      (hq : ∀ j, j ≠ i → q j = s.queue f.side j) (hp : Waits s f p) :
      Effect i s (some f) (s.setQueue f.side q) (some (f.goto p))
  | spinLock {f : Frame β} (hpc : f.pc = .spinLock) (hfree : s.lock f.side = none) :
      Effect i s (some f) (s.setLock f.side (some i)) (some (f.goto .readCounter))
  | readCounter {f : Frame β} (hpc : f.pc = .readCounter) :
      Effect i s (some f) s
        (some { f with pc := .copy, toCopy := min (sizeT (s.counter f.side)) f.size })
  | copy {f : Frame β} {mem : List β} {refused : Nat} {delivered : List β} (hpc : f.pc = .copy)
      (hmem : f.toCopy ≤ s.kernelmem.length → f.toCopy ≤ f.size →
        mem.length = s.kernelmem.length) :
      Effect i s (some f) { s with kernelmem := mem }
        (some { f with
          pc := .atomicSub, notCopied := min f.toCopy refused, delivered := delivered })
  | atomicSub {f : Frame β} (hpc : f.pc = .atomicSub) :
      Effect i s (some f) (s.add f.side (-f.copied)) (some (f.goto .atomicAdd))
  | atomicAdd {f : Frame β} (hpc : f.pc = .atomicAdd) :
      Effect i s (some f) (s.add f.side.other f.copied) (some (f.goto .spinUnlock))
  | spinUnlock {f : Frame β} (hpc : f.pc = .spinUnlock) :
      Effect i s (some f) (s.setLock f.side none)
        (some { f with pc := .wakeUp, offset := f.offset + f.copied })
  | wakeUp {f : Frame β} (hpc : f.pc = .wakeUp) :
      Effect i s (some f) (s.setQueue f.side.other fun _ => false)
        (some (f.goto (.ret f.copied)))
  | ret {f : Frame β} {r : Int} (hpc : f.pc = .ret r) : Effect i s (some f) s none

theorem add_counter (s : Shared β ι) (side : Side) (n : Int) (d : Side) :
    (s.add side n).counter d = s.counter d + if d = side then n else 0 := by
  unfold Shared.add
  by_cases hd : d = side
  · subst hd
    simp
  · simp [hd]

theorem setLock_lock (s : Shared β ι) (side d : Side) (m : Mutex ι) :
    (s.setLock side m).lock d = if d = side then m else s.lock d := by
  unfold Shared.setLock
  by_cases hd : d = side
  · subst hd
    simp
  · simp [hd]

theorem setQueue_queue (s : Shared β ι) (side d : Side) (q : WaitQueue ι) :
    (s.setQueue side q).queue d = if d = side then q else s.queue d := by
  unfold Shared.setQueue
  by_cases hd : d = side
  · subst hd
    simp
  · simp [hd]

theorem setQueue_self (s : Shared β ι) (side : Side) : s.setQueue side (s.queue side) = s := by
  rw [Shared.setQueue, Function.update_eq_self]

/-- The length of `kernelmem` after a `copy_from_user` that fits. -/
theorem copyFromUser_length [Zero β] {mem buffer : List β} {n refused : Nat}
    (hmem : n ≤ mem.length) (hbuffer : n ≤ buffer.length) :
    (copyFromUser mem buffer n refused).1.length = mem.length := by
  simp only [copyFromUser, List.length_append, List.length_take, List.length_replicate,
    List.length_drop]
  omega

variable [DecidableEq ι]

/-- The steps that the two functions share. -/
theorem driver_effect {side : Side} {file : File} {maxBytes : Nat}
    {copy : Shared β ι → Frame β → Shared β ι × Frame β} {i : ι} {signal : Bool}
    {s s' : Shared β ι} {f : Frame β} {t' : Option (Frame β)} (hside : f.side = side)
    (hsize : f.size = maxBytes)
    (hcopy : f.pc = .copy →
      Effect i s (some f) (copy s f).1 (some ((copy s f).2.goto .atomicSub)))
    (h : driver side file maxBytes copy i signal s f = some (s', t')) :
    Effect i s (some f) s' t' := by
  subst hside hsize
  unfold driver at h
  cases hpc : f.pc with
  | testNonblock =>
      rw [hpc] at h
      cases h
      have hwaits : Waits s f
          (if ¬ s.Possible f.side ∧ file.nonblock then .ret (-eagain) else .wait .test) := by
        split
        · exact ⟨by simp, by simp, by simp [Pc.passed]⟩
        · exact ⟨by simp, by simp, by simp [Pc.passed]⟩
      have heffect := Effect.wait (i := i) (.inl hpc) (fun _ _ => rfl) hwaits
      rwa [setQueue_self] at heffect
  | wait p =>
      rw [hpc] at h
      simp only [Option.map_eq_some_iff, Prod.exists] at h
      obtain ⟨q, r, hwait, h⟩ := h
      cases h
      have hstep := waitEvent_step hwait
      refine .wait (.inr ⟨p, hpc⟩) hstep.others ?_
      cases r with
      | goto p' =>
          refine ⟨.inl ⟨p', rfl⟩, fun hp => ?_, fun hp => ?_⟩
          · have hsleep := hstep.sleeps (by cases hp; rfl)
            exact of_decide_eq_false hsleep
          · have hpasses := hstep.passes (.inl (by cases p' <;> first | rfl | cases hp))
            exact hpasses.imp (fun hfinish => by rw [hpc, hfinish]) of_decide_eq_true
      | ready =>
          refine ⟨.inr (.inl rfl), nofun, fun _ => ?_⟩
          have hpasses := hstep.passes (.inr rfl)
          exact hpasses.imp (fun hfinish => by rw [hpc, hfinish]) of_decide_eq_true
      | interrupted => exact ⟨.inr (.inr (.inr rfl)), nofun, nofun⟩
  | spinLock =>
      rw [hpc] at h
      simp only [Option.map_eq_some_iff, Mutex.lock_eq_some] at h
      obtain ⟨m, ⟨hfree, rfl⟩, h⟩ := h
      cases h
      exact .spinLock hpc hfree
  | readCounter =>
      rw [hpc] at h
      cases h
      exact .readCounter hpc
  | copy =>
      rw [hpc] at h
      cases h
      exact hcopy hpc
  | atomicSub =>
      rw [hpc] at h
      cases h
      exact .atomicSub hpc
  | atomicAdd =>
      rw [hpc] at h
      cases h
      exact .atomicAdd hpc
  | spinUnlock =>
      rw [hpc] at h
      cases h
      exact .spinUnlock hpc
  | wakeUp =>
      rw [hpc] at h
      cases h
      exact .wakeUp hpc
  | ret r =>
      rw [hpc] at h
      cases h
      exact .ret hpc

theorem driverRead_effect {file : File} {n : Nat} {i : ι} {e : Env} {s s' : Shared β ι}
    {f : Frame β} {t' : Option (Frame β)} (hcall : f.call = .read file n)
    (h : driverRead file n i e s f = some (s', t')) : Effect i s (some f) s' t' := by
  have hside : f.side = .read := by rw [Frame.side, hcall, callSide]
  have hsize : f.size = n := by rw [Frame.size, hcall, callSize]
  unfold driverRead at h
  refine driver_effect hside hsize (fun hpc => ?_) h
  exact .copy hpc fun _ _ => rfl

theorem driverWrite_effect [Zero β] {file : File} {buffer : List β} {i : ι} {e : Env}
    {s s' : Shared β ι} {f : Frame β} {t' : Option (Frame β)}
    (hcall : f.call = .write file buffer)
    (h : driverWrite file buffer i e s f = some (s', t')) : Effect i s (some f) s' t' := by
  have hside : f.side = .write := by rw [Frame.side, hcall, callSide]
  have hsize : f.size = buffer.length := by rw [Frame.size, hcall, callSize]
  unfold driverWrite at h
  refine driver_effect hside hsize (fun hpc => ?_) h
  exact .copy hpc fun hmem hbuffer => copyFromUser_length hmem (hsize ▸ hbuffer)

theorem code_effect [Zero β] {i : ι} {a : Action β} {s s' : Shared β ι}
    {t t' : Option (Frame β)} (h : code i a s t = some (s', t')) : Effect i s t s' t' := by
  cases a with
  | call c =>
      cases t with
      | none =>
          cases h
          exact .enter c
      | some f => cases h
  | step e =>
      cases t with
      | none => cases h
      | some f =>
          cases hcall : f.call with
          | read file n =>
              simp only [code, hcall] at h
              exact driverRead_effect hcall h
          | write file buffer =>
              simp only [code, hcall] at h
              exact driverWrite_effect hcall h

/-- A step of a call runs the code that the two functions share. -/
theorem code_step [Zero β] (i : ι) (e : Env) (s : Shared β ι) (f : Frame β) :
    ∃ copy, code i (.step e) s (some f)
      = driver f.side (callFile f.call) f.size copy i e.signal s f := by
  cases hcall : f.call with
  | read file n =>
      simp only [code, hcall, driverRead, Frame.side, Frame.size, callSide, callFile, callSize]
      exact ⟨_, rfl⟩
  | write file buffer =>
      simp only [code, hcall, driverWrite, Frame.side, Frame.size, callSide, callFile, callSize]
      exact ⟨_, rfl⟩

/-- One step of the driver. -/
theorem next_effect [Zero β] {l : ι × Action β} {c c' : State β ι}
    (h : (mybuffer β ι).next l c = some c') :
    Effect l.1 c.shared (c.threads l.1) c'.shared (c'.threads l.1) :=
  code_effect (Conf.step_mover h)

end Effect

end CAdvanced.MybufferSync.Driver
