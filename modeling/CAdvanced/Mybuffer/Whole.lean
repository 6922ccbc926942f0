import CAdvanced.Mybuffer.Concurrent
import CAdvanced.Mybuffer.Reads

/-!
# Mybuffer — Whole

Which reads see one whole message. A read returns the first bytes of the buffer, as many as
`buffer->length` said when the read loaded it; a write puts its message there first and its
length afterwards. So a read sees a whole message if the length that it loaded is that of
the message which was copied last before the read copies (`Log`); otherwise it sees the
beginning of this message, or this message and bytes of an earlier one behind it.
-/

namespace CAdvanced.Mybuffer.Concurrent

open Interleave System CInt

variable {β ι : Type}

/-! ## What a run shows -/

/-- A step in which a read or a write of the shared memory matters. -/
inductive Event (β ι : Type) where
  | loaded (i : ι) (length : Nat)
  | copied (message : List β)
  | returned (i : ι)
  deriving DecidableEq, Repr

/-- The load of `buffer->length` by `driver_read`, and the two copies. -/
def event (m : Move β ι) (c : Conf ι (Shared β ι) (Worker β)) : Option (Event β ι) :=
  match (c.threads m.tid).pc with
  | .read _ _ .loadLength => some (.loaded m.tid c.shared.buffer.length)
  | .read _ _ (.copyToUser _) => some (.returned m.tid)
  | .write user .copyFromUser => some (.copied (user.take maxBufferSize))
  | _ => none

/-- The message that a write copies. -/
def Event.message : Event β ι → Option (List β)
  | .copied message => some message
  | _ => none

/-- The messages that have been copied to the buffer. -/
def messages (es : List (Event β ι)) : List (List β) := es.filterMap Event.message

/-- What the events say: the length that each thread has loaded, the last message that was
copied and is not empty, and how many reads have copied with a length that is neither zero
nor that of this message. -/
structure Log (β ι : Type) where
  loaded : ι → Nat
  last : List β
  torn : Nat

/-- The last message after another one is copied. -/
def lastMessage (last : List β) : List β → List β
  | [] => last
  | message => message

section Log
variable [DecidableEq ι]

def Log.note (log : Log β ι) : Event β ι → Log β ι
  | .loaded i length => { log with loaded := Function.update log.loaded i length }
  | .copied message => { log with last := lastMessage log.last message }
  | .returned i =>
      { log with torn := log.torn
          + if log.loaded i = 0 ∨ log.loaded i = log.last.length then 0 else 1 }

/-- The events so far. -/
def log (es : List (Event β ι)) : Log β ι := es.foldl Log.note ⟨fun _ => 0, [], 0⟩

@[simp] theorem log_nil : log ([] : List (Event β ι)) = ⟨fun _ => 0, [], 0⟩ := rfl

@[simp] theorem log_snoc (es : List (Event β ι)) (e : Event β ι) :
    log (es ++ [e]) = (log es).note e := by
  rw [log, List.foldl_append]
  rfl

omit [DecidableEq ι] in
@[simp] theorem messages_snoc (es : List (Event β ι)) (e : Event β ι) :
    messages (es ++ [e]) = messages es ++ e.message.toList := by
  rw [messages, List.filterMap_append]
  cases h : e.message <;> simp [messages, h]

/-- The last message is one of those that were copied; and if there is none, all were
empty. -/
structure Log.Last (log : Log β ι) (ms : List (List β)) : Prop where
  mem : log.last ≠ [] → log.last ∈ ms
  nil : log.last = [] → ∀ m ∈ ms, m = []

end Log

/-! ## What is asked of a read -/

/-- The reply is that of an interrupted call, or it is one of the messages. -/
def Whole (ms : List (List β)) (r : Reply β) : Prop :=
  r.ret = -erestartsys ∨ ∃ m ∈ ms, r.ret = m.length ∧ r.delivered = m

/-- A read at the beginning of its instance, with room for the whole buffer. -/
def Call.WholeRead : Call β → Prop
  | .read offset count => offset = 0 ∧ maxBufferSize ≤ count ∧ count ≤ maxRwCount
  | .write _ => True

/-- Some message has this length. -/
def Sized (ms : List (List β)) (n : Nat) : Prop := ∃ m ∈ ms, m.length = n

theorem Sized.mono {ms ms' : List (List β)} {n : Nat} (h : Sized ms n) : Sized (ms ++ ms') n := by
  obtain ⟨m, hm, hn⟩ := h
  exact ⟨m, List.mem_append_left ms' hm, hn⟩

/-! ## The invariant -/

/-- A read that has found the buffer filled. -/
def Worker.past (w : Worker β) : Bool :=
  match w.pc with
  | .read _ _ (.wait .finish) | .read _ _ .loadLength | .read _ _ (.copyToUser _) => true
  | _ => false

/-- What the local variables of a thread say, where `loaded` is the length it has loaded. -/
def Pc.Knows (ms : List (List β)) (loaded : Nat) : Pc β → Prop
  | .read offset count p =>
      (offset = 0 ∧ maxBufferSize ≤ count ∧ count ≤ maxRwCount)
        ∧ ∀ n, p = .copyToUser n → n = loaded ∧ loaded ≤ maxBufferSize ∧ Sized ms loaded
  | .write _ (.storeLength n k) => n ≤ maxBufferSize ∧ k = 0 ∧ Sized ms n
  | _ => True

theorem Pc.Knows.mono {ms ms' : List (List β)} {loaded : Nat} {p : Pc β} (h : p.Knows ms loaded) :
    p.Knows (ms ++ ms') loaded := by
  cases p with
  | idle => exact True.intro
  | read offset count p =>
      refine ⟨h.1, fun n hn => ?_⟩
      obtain ⟨heq, hle, hsized⟩ := h.2 n hn
      exact ⟨heq, hle, hsized.mono⟩
  | write user p =>
      cases p with
      | storeLength n k => exact ⟨h.1, h.2.1, h.2.2.mono⟩
      | copyFromUser | wakeUp ret => exact True.intro

variable [DecidableEq ι]

/-- The invariant, after the events `es`. -/
structure Inv (c : Conf ι (Shared β ι) (Worker β)) (es : List (Event β ι)) : Prop where
  size : c.shared.buffer.buffer.length = maxBufferSize
  length_le : c.shared.buffer.length ≤ maxBufferSize
  content : (log es).last <+: c.shared.buffer.buffer
  last : (log es).Last (messages es)
  filled : Sized (messages es) c.shared.buffer.length
    ∨ (c.shared.buffer.length = 0 ∧ ∀ i, (c.threads i).past = false)
  knows : ∀ i, (c.threads i).pc.Knows (messages es) ((log es).loaded i)
  calls : ∀ i, ∀ call ∈ (c.threads i).calls, call.WholeRead

omit [DecidableEq ι] in
theorem Log.Last.copied {log : Log β ι} {ms : List (List β)} (h : log.Last ms)
    (message : List β) :
    Log.Last { log with last := lastMessage log.last message } (ms ++ [message]) := by
  cases message with
  | nil =>
      refine ⟨fun hne => List.mem_append_left _ (h.mem hne), fun hnil m hm => ?_⟩
      rcases List.mem_append.mp hm with hold | hnew
      · exact h.nil hnil m hold
      · exact List.mem_singleton.mp hnew
  | cons b bs =>
      refine ⟨fun _ => List.mem_append_right _ (List.mem_singleton_self _), nofun⟩

section Step
variable {c c' : Conf ι (Shared β ι) (Worker β)} {es : List (Event β ι)} {i : ι}

omit [DecidableEq ι] in
theorem forall_threads {P : ι → Worker β → Prop}
    (hothers : ∀ j, j ≠ i → c'.threads j = c.threads j) (hmover : P i (c'.threads i))
    (hrest : ∀ j, j ≠ i → P j (c.threads j)) (j : ι) : P j (c'.threads j) := by
  by_cases hj : j = i
  · subst hj
    exact hmover
  · rw [hothers j hj]
    exact hrest j hj

/-- What the mover knows afterwards, where nothing is shown. -/
theorem Inv.knows_after (hI : Inv c es) (hothers : ∀ j, j ≠ i → c'.threads j = c.threads j)
    (hknows : (c'.threads i).pc.Knows (messages es) ((log es).loaded i)) (j : ι) :
    (c'.threads j).pc.Knows (messages es) ((log es).loaded j) :=
  forall_threads (P := fun j w => w.pc.Knows (messages es) ((log es).loaded j)) hothers hknows
    (fun j _ => hI.knows j) j

/-- No call is added by a step. -/
theorem Inv.calls_after (hI : Inv c es) (hothers : ∀ j, j ≠ i → c'.threads j = c.threads j)
    (hcalls : ∀ call ∈ (c'.threads i).calls, call ∈ (c.threads i).calls) (j : ι) :
    ∀ call ∈ (c'.threads j).calls, call.WholeRead :=
  forall_threads (P := fun _ w => ∀ call ∈ w.calls, call.WholeRead) hothers
    (fun call hcall => hI.calls i call (hcalls call hcall)) (fun j _ => hI.calls j) j

/-- A step that leaves the buffer alone and shows nothing. -/
theorem Inv.quiet (hI : Inv c es) (hothers : ∀ j, j ≠ i → c'.threads j = c.threads j)
    (hbuffer : c'.shared.buffer = c.shared.buffer)
    (hknows : (c'.threads i).pc.Knows (messages es) ((log es).loaded i))
    (hpast : (c'.threads i).past = true →
      (c.threads i).past = true ∨ c.shared.buffer.length ≠ 0)
    (hcalls : ∀ call ∈ (c'.threads i).calls, call ∈ (c.threads i).calls) : Inv c' es := by
  refine ⟨hbuffer ▸ hI.size, hbuffer ▸ hI.length_le, hbuffer ▸ hI.content, hI.last, ?filled,
    hI.knows_after hothers hknows, hI.calls_after hothers hcalls⟩
  case filled =>
    rw [hbuffer]
    refine hI.filled.imp_right fun ⟨hzero, hnobody⟩ => ⟨hzero, ?_⟩
    refine forall_threads (P := fun _ w => w.past = false) hothers ?_ fun j _ => hnobody j
    refine Bool.eq_false_iff.mpr fun htrue => ?_
    rcases hpast htrue with hold | hfilled
    · rw [hnobody i] at hold
      cases hold
    · exact hfilled hzero

/-- A step that shows the event `e`; nobody gets past the wait in it. -/
theorem Inv.shows (hI : Inv c es) (e : Event β ι)
    (hothers : ∀ j, j ≠ i → c'.threads j = c.threads j)
    (hsize : c'.shared.buffer.buffer.length = maxBufferSize)
    (hlength : c'.shared.buffer.length = c.shared.buffer.length)
    (hcontent : ((log es).note e).last <+: c'.shared.buffer.buffer)
    (hlast : ((log es).note e).Last (messages es ++ e.message.toList))
    (hloaded : ∀ j, j ≠ i → ((log es).note e).loaded j = (log es).loaded j)
    (hknows : (c'.threads i).pc.Knows (messages es ++ e.message.toList)
      (((log es).note e).loaded i))
    (hpast : (c'.threads i).past = true → (c.threads i).past = true)
    (hcalls : (c'.threads i).calls = (c.threads i).calls) : Inv c' (es ++ [e]) := by
  refine ⟨hsize, hlength ▸ hI.length_le, log_snoc es e ▸ hcontent, ?last, ?filled, ?knows,
    hI.calls_after hothers fun call hcall => hcalls ▸ hcall⟩
  case last =>
    rw [log_snoc, messages_snoc]
    exact hlast
  case filled =>
    rw [hlength, messages_snoc]
    refine hI.filled.imp Sized.mono fun ⟨hzero, hnobody⟩ => ⟨hzero, ?_⟩
    refine forall_threads (P := fun _ w => w.past = false) hothers ?_ fun j _ => hnobody j
    refine Bool.eq_false_iff.mpr fun htrue => ?_
    exact Bool.eq_false_iff.mp (hnobody i) (hpast htrue)
  case knows =>
    rw [log_snoc, messages_snoc]
    refine forall_threads (P := fun j w => w.pc.Knows (messages es ++ e.message.toList)
      (((log es).note e).loaded j)) hothers hknows fun j hj => ?_
    rw [hloaded j hj]
    exact (hI.knows j).mono

/-- The store of a length that a message has. -/
theorem Inv.stores (hI : Inv c es) {n : Nat}
    (hothers : ∀ j, j ≠ i → c'.threads j = c.threads j)
    (hbuffer : c'.shared.buffer = { c.shared.buffer with length := n })
    (hn : n ≤ maxBufferSize) (hsized : Sized (messages es) n)
    (hknows : (c'.threads i).pc.Knows (messages es) ((log es).loaded i))
    (hcalls : (c'.threads i).calls = (c.threads i).calls) : Inv c' es := by
  refine ⟨?_, ?_, ?_, hI.last, ?_, hI.knows_after hothers hknows,
    hI.calls_after hothers fun call hcall => hcalls ▸ hcall⟩
  · rw [hbuffer]
    exact hI.size
  · rw [hbuffer]
    exact hn
  · rw [hbuffer]
    exact hI.content
  · rw [hbuffer]
    exact .inl hsized

end Step

/-! ## One step -/

/-- The length that a whole read loads is what it copies. -/
theorem toCopy_whole {length count : Nat} (hlength : length ≤ maxBufferSize)
    (hcount : maxBufferSize ≤ count) (hmax : count ≤ maxRwCount) :
    toCopy length 0 count = length ∧ unsigned 64 (toCopy length 0 count) = length := by
  have hmin : min (length - (0 : Int).toNat) count = length := by
    rw [Int.toNat_zero, Nat.sub_zero]
    omega
  rw [toCopy_of_le (Int.le_refl 0) (Int.natCast_nonneg length) hlength, hmin]
  exact signed_natCast (by omega)

section Run
variable [Zero β] {calls : ι → List (Call β)} {c c' : Conf ι (Shared β ι) (Worker β)}
  {es : List (Event β ι)} {m : Move β ι}

/-- A step of a wait. -/
theorem Inv.wait {offset : Int} {count : Nat} {p : WaitPc} {cs : List (Call β)}
    {rs : List (Reply β)} {ws : List Nat} (hI : Inv c es)
    (hw : c.threads m.tid = ⟨.read offset count (.wait p), cs, rs, ws⟩)
    (h : (program calls).next m c = some c') : Inv c' es := by
  have hmover := Conf.step_mover h
  have hothers := fun j hj => Conf.step_threads_ne h (j := j) hj
  have hknows := hI.knows m.tid
  rw [hw] at hmover hknows
  simp only [worker, driverRead, Option.map_map, Option.map_eq_some_iff] at hmover
  obtain ⟨⟨q, r⟩, hwait, heq⟩ := hmover
  simp only [Function.comp_apply, Prod.mk.injEq] at heq
  obtain ⟨hs, hw'⟩ := heq
  have hpasses := (waitEvent_step hwait).passes
  refine hI.quiet hothers (by rw [← hs]) ?_ ?_ ?_
  · rw [← hw']
    cases r with
    | goto p' => exact ⟨hknows.1, nofun⟩
    | ready => exact ⟨hknows.1, nofun⟩
    | interrupted => exact True.intro
  · -- whoever gets past has seen the buffer filled
    have hpast : r = .goto .finish ∨ r = .ready →
        (c.threads m.tid).past = true ∨ c.shared.buffer.length ≠ 0 := by
      intro hr
      rcases hpasses hr with rfl | hfilled
      · rw [hw]
        exact .inl rfl
      · exact .inr (of_decide_eq_true hfilled)
    rw [← hw']
    cases r with
    | goto p' =>
        cases p' with
        | finish => exact fun _ => hpast (.inl rfl)
        | test | prepare | recheck interrupted | asleep => exact nofun
    | ready => exact fun _ => hpast (.inr rfl)
    | interrupted => exact nofun
  · rw [← hw', hw]
    cases r <;> exact fun _ hcall => hcall

/-- The load of the length. -/
theorem Inv.load {offset : Int} {count : Nat} {cs : List (Call β)} {rs : List (Reply β)}
    {ws : List Nat} (hI : Inv c es)
    (hw : c.threads m.tid = ⟨.read offset count .loadLength, cs, rs, ws⟩)
    (h : (program calls).next m c = some c') :
    Inv c' (es ++ [.loaded m.tid c.shared.buffer.length]) := by
  have hmover := Conf.step_mover h
  have hothers := fun j hj => Conf.step_threads_ne h (j := j) hj
  have hknows := hI.knows m.tid
  rw [hw] at hmover hknows
  simp only [worker, driverRead, Option.map_some, Option.some.injEq, Prod.mk.injEq] at hmover
  obtain ⟨hs, hw'⟩ := hmover
  obtain ⟨⟨rfl, hcount, hmax⟩, -⟩ := hknows
  have hsized : Sized (messages es) c.shared.buffer.length := by
    refine hI.filled.resolve_right fun ⟨_, hnobody⟩ => ?_
    have hpast := hnobody m.tid
    rw [hw] at hpast
    cases hpast
  refine hI.shows _ hothers (by rw [← hs]; exact hI.size) (by rw [← hs])
    (by rw [← hs]; exact hI.content) ?_ ?_ ?_ ?_ ?_
  · exact (List.append_nil (messages es)).symm ▸ ⟨hI.last.mem, hI.last.nil⟩
  · intro j hj
    exact Function.update_of_ne hj _ _
  · rw [← hw']
    refine ⟨⟨rfl, hcount, hmax⟩, fun n hn => ?_⟩
    obtain rfl := ReadPc.copyToUser.inj hn
    simp only [Log.note, Function.update_self]
    exact ⟨(toCopy_whole hI.length_le hcount hmax).1, hI.length_le, hsized.mono⟩
  · rw [hw]
    exact fun _ => rfl
  · rw [← hw', hw]

/-- The copy to the buffer. -/
theorem Inv.copy {user : List β} {cs : List (Call β)} {rs : List (Reply β)} {ws : List Nat}
    (hI : Inv c es) (hw : c.threads m.tid = ⟨.write user .copyFromUser, cs, rs, ws⟩)
    (h : (program calls).next m c = some c') :
    Inv c' (es ++ [.copied (user.take maxBufferSize)]) := by
  have hmover := Conf.step_mover h
  have hothers := fun j hj => Conf.step_threads_ne h (j := j) hj
  rw [hw] at hmover
  simp only [worker, driverWrite, Option.some.injEq, Prod.mk.injEq] at hmover
  obtain ⟨hs, hw'⟩ := hmover
  have hbuffer : c'.shared.buffer.buffer = user.take maxBufferSize
      ++ c.shared.buffer.buffer.drop (user.take maxBufferSize).length := by
    rw [← hs]
    exact copyFromUser_message _ _
  refine hI.shows _ hothers ?_ (by rw [← hs]) ?_ (hI.last.copied _) (fun _ _ => rfl) ?_ ?_ ?_
  · rw [hbuffer, List.length_append, List.length_drop, hI.size, List.length_take]
    omega
  · rw [hbuffer, Log.note]
    cases htake : user.take maxBufferSize with
    | nil => exact hI.content
    | cons b bs => exact List.prefix_append _ _
  · rw [← hw']
    refine ⟨Nat.min_le_right _ _, Nat.min_zero _, user.take maxBufferSize,
      List.mem_append_right _ (List.mem_singleton_self _), ?_⟩
    rw [List.length_take, Nat.min_comm]
  · rw [← hw']
    exact nofun
  · rw [← hw', hw]

/-- The copy to the user, after which the read returns. -/
theorem Inv.reply {offset n : Int} {count : Nat} {cs : List (Call β)} {rs : List (Reply β)}
    {ws : List Nat} (hI : Inv c es)
    (hw : c.threads m.tid = ⟨.read offset count (.copyToUser n), cs, rs, ws⟩)
    (h : (program calls).next m c = some c') :
    Inv c' (es ++ [.returned m.tid])
      ∧ ∃ r : Reply β, (c'.threads m.tid).replies = r :: rs
        ∧ r.ret = (log es).loaded m.tid
        ∧ r.delivered = c.shared.buffer.buffer.take ((log es).loaded m.tid)
        ∧ Sized (messages es) ((log es).loaded m.tid) := by
  have hmover := Conf.step_mover h
  have hothers := fun j hj => Conf.step_threads_ne h (j := j) hj
  have hknows := hI.knows m.tid
  rw [hw] at hmover hknows
  simp only [worker, driverRead, Option.map_some, Option.some.injEq, Prod.mk.injEq] at hmover
  obtain ⟨hs, hw'⟩ := hmover
  obtain ⟨-, hloaded⟩ := hknows
  obtain ⟨rfl, hle, hsized⟩ := hloaded n rfl
  constructor
  · refine hI.shows _ hothers (by rw [← hs]; exact hI.size) (by rw [← hs])
      (by rw [← hs]; exact hI.content) ?_ (fun _ _ => rfl) ?_ ?_ ?_
    · exact (List.append_nil (messages es)).symm ▸ ⟨hI.last.mem, hI.last.nil⟩
    · rw [← hw']
      exact True.intro
    · rw [← hw']
      exact nofun
    · rw [← hw', hw]
  · have hlong : unsigned 64 ((log es).loaded m.tid : Int) = (log es).loaded m.tid := by
      refine Int.ofNat.inj (unsigned_of_fits (Int.natCast_nonneg _) ?_)
      unfold maxBufferSize at hle
      omega
    simp only [copyToUser, hlong, Nat.min_zero, ne_eq, not_true, if_false, Nat.sub_zero] at hw'
    rw [← hw']
    refine ⟨_, rfl, rfl, ?_, hsized⟩
    exact memory_take _ _ (hI.size ▸ hle)

theorem Inv.step (hI : Inv c es) (h : (program calls).next m c = some c') :
    Inv c' (es ++ (event m c).toList) := by
  have hmover := Conf.step_mover h
  have hothers := fun j hj => Conf.step_threads_ne h (j := j) hj
  have hknows := hI.knows m.tid
  have hcalls := hI.calls m.tid
  rw [event]
  rcases hw : c.threads m.tid with ⟨pc, cs, rs, ws⟩
  rw [hw] at hmover hknows hcalls
  cases pc with
  | idle =>
      rw [Option.toList_none, List.append_nil]
      cases cs with
      | nil => cases hmover
      | cons call cs =>
          cases call with
          | read offset count =>
              obtain ⟨hs, hw'⟩ := Prod.mk.inj (Option.some.inj hmover)
              refine hI.quiet hothers (by rw [← hs]) ?_ ?_ ?_
              · rw [← hw']
                exact ⟨hcalls _ (List.mem_cons_self ..), nofun⟩
              · rw [← hw']
                exact nofun
              · rw [← hw', hw]
                exact fun call hcall => List.mem_cons_of_mem _ hcall
          | write user =>
              obtain ⟨hs, hw'⟩ := Prod.mk.inj (Option.some.inj hmover)
              refine hI.quiet hothers (by rw [← hs]) ?_ ?_ ?_
              · rw [← hw']
                exact True.intro
              · rw [← hw']
                exact nofun
              · rw [← hw', hw]
                exact fun call hcall => List.mem_cons_of_mem _ hcall
  | read offset count p =>
      cases p with
      | wait p =>
          rw [Option.toList_none, List.append_nil]
          exact hI.wait hw h
      | loadLength => exact hI.load hw h
      | copyToUser n => exact (hI.reply hw h).1
  | write user p =>
      cases p with
      | copyFromUser => exact hI.copy hw h
      | storeLength n k =>
          rw [Option.toList_none, List.append_nil]
          obtain ⟨hs, hw'⟩ := Prod.mk.inj (Option.some.inj hmover)
          obtain ⟨hle, rfl, hsized⟩ := hknows
          refine hI.stores hothers (n := n) (by rw [← hs]; rfl) hle hsized ?_ ?_
          · rw [← hw']
            exact True.intro
          · rw [← hw', hw]
            rfl
      | wakeUp ret =>
          rw [Option.toList_none, List.append_nil]
          obtain ⟨hs, hw'⟩ := Prod.mk.inj (Option.some.inj hmover)
          refine hI.quiet hothers (by rw [← hs]; rfl) ?_ ?_ ?_
          · rw [← hw']
            exact True.intro
          · rw [← hw']
            exact nofun
          · rw [← hw', hw]
            exact fun _ hcall => hcall

/-! ## The replies -/

/-- The replies of the threads after the events `es`: all are whole as long as no read has
been torn; and a torn read has begun with the bytes of a message of another length. -/
structure Replies (c : Conf ι (Shared β ι) (Worker β)) (es : List (Event β ι)) : Prop where
  whole : (log es).torn = 0 → ∀ i, ∀ r ∈ (c.threads i).replies, Whole (messages es) r
  torn : (log es).torn ≠ 0 → ∃ i, ∃ r ∈ (c.threads i).replies, ∃ m ∈ messages es,
    0 < r.ret ∧ r.ret ≠ m.length ∧ r.delivered.head? = m.head?

omit [DecidableEq ι] [Zero β] in
theorem Whole.mono {ms ms' : List (List β)} {r : Reply β} (h : Whole ms r) :
    Whole (ms ++ ms') r := by
  refine h.imp_right fun ⟨m, hm, hr⟩ => ⟨m, List.mem_append_left ms' hm, hr⟩

/-- Without a return, replies are kept, and none comes but that of an interrupted call. -/
theorem replies_step (h : (program calls).next m c = some c')
    (hreturned : event m c ≠ some (.returned m.tid)) (i : ι) :
    (∀ r ∈ (c.threads i).replies, r ∈ (c'.threads i).replies)
      ∧ ∀ r ∈ (c'.threads i).replies, r ∈ (c.threads i).replies ∨ r.ret = -erestartsys := by
  by_cases hi : i = m.tid
  · subst hi
    have hmover := Conf.step_mover h
    rw [event] at hreturned
    rcases hw : c.threads m.tid with ⟨pc, cs, rs, ws⟩
    rw [hw] at hmover hreturned
    have hkept : ∀ w : Worker β, w.replies = rs → w = c'.threads m.tid →
        (∀ r ∈ rs, r ∈ (c'.threads m.tid).replies)
          ∧ ∀ r ∈ (c'.threads m.tid).replies, r ∈ rs ∨ r.ret = -erestartsys := by
      rintro _ rfl rfl
      exact ⟨fun _ hr => hr, fun _ hr => .inl hr⟩
    cases pc with
    | idle =>
        cases cs with
        | nil => cases hmover
        | cons call cs =>
            cases call with
            | read offset count => exact hkept _ rfl (Prod.mk.inj (Option.some.inj hmover)).2
            | write user => exact hkept _ rfl (Prod.mk.inj (Option.some.inj hmover)).2
    | read offset count p =>
        cases p with
        | loadLength =>
            exact hkept ⟨_, cs, rs, ws⟩ rfl (Prod.mk.inj (Option.some.inj hmover)).2
        | copyToUser n => exact absurd rfl hreturned
        | wait p =>
            simp only [worker, driverRead, Option.map_map, Option.map_eq_some_iff] at hmover
            obtain ⟨⟨q, r⟩, -, heq⟩ := hmover
            simp only [Function.comp_apply, Prod.mk.injEq] at heq
            obtain ⟨-, hw'⟩ := heq
            cases r with
            | goto p' => exact hkept ⟨_, cs, rs, ws⟩ rfl hw'
            | ready => exact hkept ⟨_, cs, rs, ws⟩ rfl hw'
            | interrupted =>
                rw [← hw']
                refine ⟨fun _ hr => List.mem_cons_of_mem _ hr, fun r hr => ?_⟩
                rcases List.mem_cons.mp hr with rfl | hold
                · exact .inr rfl
                · exact .inl hold
    | write user p =>
        have hw' := (Prod.mk.inj (Option.some.inj hmover)).2
        cases p with
        | copyFromUser | storeLength n k => exact hkept ⟨_, cs, rs, ws⟩ rfl hw'
        | wakeUp ret => exact hkept ⟨_, cs, rs, _⟩ rfl hw'
  · rw [Conf.step_threads_ne h hi]
    exact ⟨fun _ hr => hr, fun _ hr => .inl hr⟩

omit [Zero β] in
/-- A step that is no return does not tear. -/
theorem torn_of_not_returned (es : List (Event β ι)) {e : Option (Event β ι)}
    (he : ∀ i, e ≠ some (.returned i)) : (log (es ++ e.toList)).torn = (log es).torn := by
  cases e with
  | none => rw [Option.toList_none, List.append_nil]
  | some e =>
      rw [Option.toList_some, log_snoc]
      cases e with
      | loaded i length | copied message => rfl
      | returned i => exact absurd rfl (he i)

omit [DecidableEq ι] [Zero β] in
/-- A reply of `n` bytes, as many as the last message has, is that message; any other reply
that is not empty has another length than the message with which it begins. -/
theorem reply_whole_or_torn {b : List β} {ms : List (List β)} {log : Log β ι}
    (hlog : log.Last ms) (hcontent : log.last <+: b) {r : Reply β} {n : Nat}
    (hret : r.ret = n) (hdelivered : r.delivered = b.take n) (hsized : Sized ms n) :
    ((n = 0 ∨ n = log.last.length) → Whole ms r)
      ∧ (¬ (n = 0 ∨ n = log.last.length) →
        ∃ m ∈ ms, 0 < r.ret ∧ r.ret ≠ m.length ∧ r.delivered.head? = m.head?) := by
  obtain ⟨m, hm, hmn⟩ := hsized
  obtain ⟨rest, rfl⟩ := hcontent
  constructor
  · intro hn
    by_cases hzero : n = 0
    · subst hzero
      refine .inr ⟨m, hm, ?_, ?_⟩
      · rw [hret, hmn]
      · rw [hdelivered, List.take_zero, List.length_eq_zero_iff.mp hmn]
    · have hlast := hn.resolve_left hzero
      have hne : log.last ≠ [] := by
        intro hnil
        rw [hnil] at hlast
        exact hzero hlast
      refine .inr ⟨log.last, hlog.mem hne, ?_, ?_⟩
      · rw [hret, hlast]
      · rw [hdelivered, hlast, List.take_left]
  · intro hn
    obtain ⟨hzero, hlen⟩ := not_or.mp hn
    -- a message that is not empty has been copied
    have hne : log.last ≠ [] := by
      intro hnil
      rw [hlog.nil hnil m hm] at hmn
      exact hzero hmn.symm
    refine ⟨log.last, hlog.mem hne, ?_, ?_, ?_⟩
    · rw [hret]
      exact Int.natCast_pos.mpr (Nat.pos_of_ne_zero hzero)
    · rw [hret]
      exact fun h => hlen (Int.ofNat.inj h)
    · obtain ⟨b, bs, hlast⟩ := List.exists_cons_of_ne_nil hne
      obtain ⟨k, rfl⟩ := Nat.exists_eq_succ_of_ne_zero hzero
      rw [hdelivered, hlast]
      rfl

omit [DecidableEq ι] [Zero β] in
/-- A read that returns stands at its copy. -/
theorem event_returned {i : ι} (h : event m c = some (.returned i)) :
    i = m.tid ∧ ∃ offset count n cs rs ws,
      c.threads m.tid = ⟨.read offset count (.copyToUser n), cs, rs, ws⟩ := by
  rw [event] at h
  generalize c.threads m.tid = w at h ⊢
  obtain ⟨pc, cs, rs, ws⟩ := w
  cases pc with
  | idle => cases h
  | read offset count p =>
      cases p with
      | copyToUser n =>
          cases h
          exact ⟨rfl, offset, count, n, cs, rs, ws, rfl⟩
      | wait p | loadLength => cases h
  | write user p => cases p <;> cases h

theorem Replies.silent (hR : Replies c es) (h : (program calls).next m c = some c')
    (hnot : ∀ i, event m c ≠ some (.returned i)) :
    Replies c' (es ++ (event m c).toList) := by
  have hreplies := replies_step h (hnot m.tid)
  have hmessages : ∃ ms, messages (es ++ (event m c).toList) = messages es ++ ms :=
    ⟨_, List.filterMap_append⟩
  obtain ⟨ms, hms⟩ := hmessages
  constructor
  · intro htorn i r hr
    rw [torn_of_not_returned es hnot] at htorn
    rw [hms]
    rcases (hreplies i).2 r hr with hold | hinterrupted
    · exact (hR.whole htorn i r hold).mono
    · exact .inl hinterrupted
  · intro htorn
    rw [torn_of_not_returned es hnot] at htorn
    obtain ⟨i, r, hr, msg, hmsg, htear⟩ := hR.torn htorn
    rw [hms]
    exact ⟨i, r, (hreplies i).1 r hr, msg, List.mem_append_left _ hmsg, htear⟩

theorem Replies.returns {offset n : Int} {count : Nat} {cs : List (Call β)}
    {rs : List (Reply β)} {ws : List Nat} (hI : Inv c es) (hR : Replies c es)
    (hw : c.threads m.tid = ⟨.read offset count (.copyToUser n), cs, rs, ws⟩)
    (h : (program calls).next m c = some c') : Replies c' (es ++ [.returned m.tid]) := by
  obtain ⟨-, r, hreplies, hret, hdelivered, hsized⟩ := hI.reply hw h
  obtain ⟨hwhole, htears⟩ := reply_whole_or_torn hI.last hI.content hret hdelivered hsized
  have hothers := fun j hj => Conf.step_threads_ne h (j := j) hj
  have hold : ∀ i, ∀ r ∈ (c.threads i).replies, r ∈ (c'.threads i).replies := by
    intro i r' hr'
    by_cases hi : i = m.tid
    · subst hi
      rw [hw] at hr'
      rw [hreplies]
      exact List.mem_cons_of_mem _ hr'
    · rw [hothers i hi]
      exact hr'
  have hmessages : messages (es ++ [.returned m.tid]) = messages es := by
    rw [messages_snoc]
    exact List.append_nil _
  rw [← List.append_nil (messages es)] at hmessages
  constructor
  · rw [log_snoc, hmessages, List.append_nil, Log.note]
    intro htorn
    obtain ⟨htorn, hfits⟩ := Nat.add_eq_zero_iff.mp htorn
    have hfits := (ite_eq_left_iff.mp hfits).mt Nat.one_ne_zero
    refine forall_threads (P := fun _ w => ∀ r ∈ w.replies, Whole (messages es) r) hothers ?_
      fun j _ => hR.whole htorn j
    rw [hreplies]
    intro r' hr'
    rcases List.mem_cons.mp hr' with rfl | hr'
    · exact hwhole (not_not.mp hfits)
    · exact hR.whole htorn m.tid r' (by rw [hw]; exact hr')
  · rw [log_snoc, hmessages, List.append_nil, Log.note]
    intro htorn
    by_cases hfits : (log es).loaded m.tid = 0 ∨ (log es).loaded m.tid = (log es).last.length
    · rw [if_pos hfits] at htorn
      obtain ⟨i, r', hr', htear⟩ := hR.torn htorn
      exact ⟨i, r', hold i r' hr', htear⟩
    · refine ⟨m.tid, r, ?_, htears hfits⟩
      rw [hreplies]
      exact List.mem_cons_self ..

theorem Replies.step (hI : Inv c es) (hR : Replies c es)
    (h : (program calls).next m c = some c') : Replies c' (es ++ (event m c).toList) := by
  by_cases hreturned : ∃ i, event m c = some (.returned i)
  · obtain ⟨i, hi⟩ := hreturned
    obtain ⟨rfl, offset, count, n, cs, rs, ws, hw⟩ := event_returned hi
    rw [hi]
    exact hR.returns hI hw h
  · exact hR.silent h (not_exists.mp hreturned)

/-! ## Over a run -/

/-- What a run shows of itself. -/
def events (calls : ι → List (Call β)) (ls : List (Move β ι)) : List (Event β ι) :=
  (program calls).trace event ls (initial calls)

theorem inv_initial (hcalls : ∀ i, ∀ call ∈ calls i, call.WholeRead) :
    Inv (initial calls) ([] : List (Event β ι)) where
  size := List.length_replicate
  length_le := Nat.zero_le _
  content := List.nil_prefix
  last := ⟨fun h => absurd rfl h, fun _ => nofun⟩
  filled := .inr ⟨rfl, fun _ => rfl⟩
  knows _ := True.intro
  calls := hcalls

theorem replies_initial : Replies (initial calls) ([] : List (Event β ι)) where
  whole _ _ := nofun
  torn h := absurd rfl h

theorem invariant (hcalls : ∀ i, ∀ call ∈ calls i, call.WholeRead) {ls : List (Move β ι)}
    (h : (program calls).Reaches ls c) :
    Inv c (events calls ls) ∧ Replies c (events calls ls) := by
  have hbalance := trace_balance (S := program calls) (p := event) (q := fun _ _ => none)
    (G := fun c es => Inv c es ∧ Replies c es) ?_ ⟨inv_initial hcalls, replies_initial⟩ h
  · obtain ⟨es, hinv, heq⟩ := hbalance
    rw [trace_none] at heq
    obtain rfl : events calls ls = es := heq
    exact hinv
  · rintro m c c' es ⟨hI, hR⟩ hstep
    exact ⟨_, ⟨hI.step hstep, hR.step hI hstep⟩, rfl⟩

/-- **Reads see whole messages** in every run in which each read that copies has loaded the
length of the message that was copied last, or zero. If messages of different lengths
differ in their first byte, these are all such runs. -/
theorem reads_whole_iff (hcalls : ∀ i, ∀ call ∈ calls i, call.WholeRead) {ls : List (Move β ι)}
    (h : (program calls).Reaches ls c) :
    ((log (events calls ls)).torn = 0 →
        ∀ i, ∀ r ∈ (c.threads i).replies, Whole (messages (events calls ls)) r)
      ∧ ((∀ m ∈ messages (events calls ls), ∀ m' ∈ messages (events calls ls),
            m.head? = m'.head? → m.length = m'.length) →
          (∀ i, ∀ r ∈ (c.threads i).replies, Whole (messages (events calls ls)) r) →
            (log (events calls ls)).torn = 0) := by
  obtain ⟨-, hR⟩ := invariant hcalls h
  refine ⟨hR.whole, fun hfirst hwhole => ?_⟩
  by_contra htorn
  obtain ⟨i, r, hr, m, hm, hpos, hlen, hhead⟩ := hR.torn htorn
  rcases hwhole i r hr with hinterrupted | ⟨m', hm', hret, hdelivered⟩
  · rw [hinterrupted] at hpos
    exact absurd hpos (by decide)
  · rw [hdelivered] at hhead
    rw [hret, hfirst m' hm' m hm hhead] at hlen
    exact hlen rfl

end Run

/-- Thread 0 writes four bytes, and then two; thread 1 reads. -/
def writerAndReader (i : Fin 2) : List (Call Nat) :=
  if i = 0 then [.write [1, 2, 3, 4], .write [5, 6]] else [.read 0 512]

theorem writerAndReader_whole : ∀ i, ∀ call ∈ writerAndReader i, call.WholeRead := by
  intro i call hcall
  unfold writerAndReader at hcall
  split at hcall
  · simp only [List.mem_cons, List.not_mem_nil, or_false] at hcall
    rcases hcall with rfl | rfl <;> exact True.intro
  · obtain rfl := List.mem_singleton.mp hcall
    exact ⟨rfl, by decide, by decide⟩

/-- The read comes between the two writes. -/
theorem reads_whole_iff_between :
    ∃ (ls : List (Move Nat (Fin 2))) (c : Conf (Fin 2) (Shared Nat (Fin 2)) (Worker Nat)),
      (program writerAndReader).Reaches ls c
      ∧ (c.threads 1).replies = [⟨4, [1, 2, 3, 4], 4⟩]
      ∧ ∀ i, ∀ r ∈ (c.threads i).replies, Whole (messages (events writerAndReader ls)) r := by
  let move (i : Fin 2) : Move Nat (Fin 2) := ⟨i, false, fun _ => 0⟩
  let ls := List.replicate 4 (move 0) ++ List.replicate 4 (move 1) ++ List.replicate 4 (move 0)
  obtain ⟨c, hrun, hc⟩ := Option.any_eq_true _ _ |>.mp
    (show ((program writerAndReader).exec ls (initial writerAndReader)).any (fun c =>
      (c.threads 1).replies = [⟨4, [1, 2, 3, 4], 4⟩]) = true by decide +kernel)
  exact ⟨ls, c, hrun, of_decide_eq_true hc,
    (reads_whole_iff writerAndReader_whole hrun).1 (by decide +kernel)⟩

/-- The second write copies its two bytes between the load and the copy of the read. -/
theorem not_reads_whole :
    ¬ ∀ (ls : List (Move Nat (Fin 2))) (c : Conf (Fin 2) (Shared Nat (Fin 2)) (Worker Nat)),
      (program writerAndReader).Reaches ls c →
        ∀ i, ∀ r ∈ (c.threads i).replies, Whole (messages (events writerAndReader ls)) r := by
  intro hall
  let move (i : Fin 2) : Move Nat (Fin 2) := ⟨i, false, fun _ => 0⟩
  let ls := List.replicate 4 (move 0) ++ List.replicate 3 (move 1) ++ List.replicate 2 (move 0)
    ++ [move 1]
  obtain ⟨c, hrun, hc⟩ := Option.any_eq_true _ _ |>.mp
    (show ((program writerAndReader).exec ls (initial writerAndReader)).any (fun c =>
      (c.threads 1).replies = [⟨4, [5, 6, 3, 4], 4⟩]) = true by decide +kernel)
  have hmessages : messages (events writerAndReader ls) = [[1, 2, 3, 4], [5, 6]] := by
    decide +kernel
  have hwhole := hall ls c hrun 1
  rw [of_decide_eq_true hc, hmessages] at hwhole
  rcases hwhole _ (List.mem_singleton_self _) with hinterrupted | ⟨m, hm, hret, hdelivered⟩
  · exact absurd hinterrupted (by decide)
  · simp only [List.mem_cons, List.not_mem_nil, or_false] at hm
    rcases hm with rfl | rfl
    · exact absurd hdelivered (by decide)
    · exact absurd hret (by decide)

end CAdvanced.Mybuffer.Concurrent
