import CAdvanced.MybufferSync.Conservation

/-!
# MybufferSync — Delivery

A wait ends because the counter is not zero, but the lock is taken later and nothing looks
at the condition again, so another call of the same side may have used the counter up.
Such a call goes on with a `to_copy` of zero (`late`) and returns 0. The books are exact:

  returns of 0 + calls on their way to one = reads of the counter that came too late.
-/

namespace CAdvanced.MybufferSync.Driver

open Interleave System

variable {β ι : Type}

/-- What a call returns, with the bytes that its copy left out, the bytes that it copied to
the user, and `*offset`. -/
structure Return (β : Type) where
  call : Call β
  ret : Int
  notCopied : Nat
  delivered : List β
  offset : Int
  deriving DecidableEq, Repr

def Frame.returned (f : Frame β) : Option (Return β) :=
  match f.pc with
  | .ret r => some ⟨f.call, r, f.notCopied, f.delivered, f.offset⟩
  | _ => none

/-- What a step of a run returns. -/
def returns (l : ι × Action β) (c : State β ι) : Option (Return β) :=
  (c.threads l.1).bind Frame.returned

/-- A call with a positive size that is neither refused nor interrupted, and whose copy does
not fault, returns a positive number. -/
def Return.Delivers (r : Return β) : Prop :=
  0 < callSize r.call → r.notCopied = 0 → r.ret ≠ -eagain → r.ret ≠ -erestartsys → 0 < r.ret

instance (r : Return β) : Decidable r.Delivers :=
  inferInstanceAs (Decidable (_ → _ → _ → _ → _))

/-- A call with a positive size reads the counter for its `to_copy` when the condition that
it has waited for does not hold any more. -/
def late (l : ι × Action β) (c : State β ι) : Bool :=
  match c.threads l.1 with
  | none => false
  | some f => f.pc = .readCounter ∧ 0 < f.size ∧ ¬ c.shared.Possible f.side

/-! ## The way to a return of zero -/

/-- The call has its `to_copy`, or returns what it has copied. -/
def Pc.served : Pc → Bool
  | .copy | .atomicSub | .atomicAdd | .spinUnlock | .wakeUp => true
  | .ret r => 0 ≤ r
  | _ => false

/-- The call is on its way to a return of zero. -/
def Frame.starved (f : Frame β) : Bool := f.pc.served ∧ 0 < f.size ∧ f.toCopy = 0

def emptyHanded : Option (Frame β) → Nat
  | none => 0
  | some f => f.starved.toNat

/-- A step that returns zero bytes. -/
def returnsNothing (l : ι × Action β) (c : State β ι) : Bool :=
  match returns l c with
  | none => false
  | some r => ¬ r.Delivers

/-- What a call knows about its own variables. -/
structure Frame.Ok (f : Frame β) : Prop where
  notCopied : f.pc ≠ .copy → f.pc.served = true → f.notCopied ≤ f.toCopy
  ret : ∀ r, f.pc = .ret r → r = f.copied ∨ r = -eagain ∨ r = -erestartsys

variable {i : ι} {s s' : Shared β ι} {t t' : Option (Frame β)}

theorem Waits.not_served {f : Frame β} {p : Pc} (h : Waits s f p) : p.served = false := by
  rcases h.goal with ⟨q, rfl⟩ | rfl | rfl | rfl <;> rfl

theorem Effect.ok (h : Effect i s t s' t') (ht : ∀ f, t = some f → f.Ok) :
    ∀ f, t' = some f → f.Ok := by
  intro f' hf'
  cases h with
  | enter c =>
      cases hf'
      exact ⟨nofun, nofun⟩
  | @wait f q p hpc hq hp =>
      cases hf'
      refine ⟨fun _ hserved => ?_, fun r hr => ?_⟩
      · exact absurd (hserved.symm.trans hp.not_served) nofun
      · have hp' : p = .ret r := hr
        rcases hp.goal with ⟨q, hgoal⟩ | hgoal | hgoal | hgoal
        · cases hp'.symm.trans hgoal
        · cases hp'.symm.trans hgoal
        · cases hp'.symm.trans hgoal
          exact .inr (.inl rfl)
        · cases hp'.symm.trans hgoal
          exact .inr (.inr rfl)
  | spinLock hpc | readCounter hpc =>
      cases hf'
      exact ⟨nofun, nofun⟩
  | copy hpc =>
      cases hf'
      exact ⟨fun _ _ => Nat.min_le_left _ _, nofun⟩
  | @atomicSub f hpc | @atomicAdd f hpc | @spinUnlock f hpc =>
      cases hf'
      exact ⟨fun _ _ => (ht f rfl).notCopied (by simp [hpc]) (by rw [hpc]; rfl), nofun⟩
  | @wakeUp f hpc =>
      cases hf'
      refine ⟨fun _ _ => (ht f rfl).notCopied (by simp [hpc]) (by rw [hpc]; rfl), ?_⟩
      intro r hr
      cases hr
      exact .inl rfl
  | ret => cases hf'

/-- A call on its way to a return of zero stays so while it goes on. -/
theorem starved_congr {f f' : Frame β} (hcall : f'.call = f.call)
    (htoCopy : f'.toCopy = f.toCopy) (hpc : f'.pc.served = f.pc.served) :
    f'.starved = f.starved := by
  unfold Frame.starved Frame.size
  rw [hcall, htoCopy, hpc]

theorem starved_of_not_served {f : Frame β} (h : f.pc.served = false) : f.starved = false :=
  decide_eq_false fun hserved => absurd (h.symm.trans hserved.1) nofun

/-- A call returns nothing just when it has been on its way to that. -/
theorem Frame.Ok.delivers {f : Frame β} (hf : f.Ok) {r : Int} (hpc : f.pc = .ret r) :
    Return.Delivers ⟨f.call, r, f.notCopied, f.delivered, f.offset⟩ ↔ f.starved = false := by
  have hret := hf.ret r hpc
  have hle := hf.notCopied (by simp [hpc])
  have hserved : f.pc.served = true ↔ 0 ≤ r := by
    rw [hpc]
    exact decide_eq_true_iff
  unfold Frame.copied eagain erestartsys at hret
  rw [hserved] at hle
  rw [Frame.starved, decide_eq_false_iff_not, hserved]
  constructor
  · rintro hdelivers ⟨hr, hsize, hzero⟩
    have hnotCopied := hle hr
    have hnone : f.notCopied = 0 := by omega
    have hnotNeg : ∀ k : Int, 0 < k → r ≠ -k := by omega
    have hpos : 0 < r := hdelivers hsize hnone (hnotNeg 11 (by decide)) (hnotNeg 512 (by decide))
    omega
  · intro hnot hsize hnotCopied hagain hrestart
    unfold eagain at hagain
    unfold erestartsys at hrestart
    dsimp only at hsize hnotCopied hagain hrestart ⊢
    by_contra hpos
    exact hnot ⟨by omega, hsize, by omega⟩

/-- A `to_copy` is zero just when the counter is, or the size. -/
theorem min_sizeT_eq_zero {n : Int} (h0 : 0 ≤ n) (hmax : n ≤ maxBufferSize) {size : Nat}
    (hsize : 0 < size) : min (sizeT n) size = 0 ↔ n = 0 := by
  unfold sizeT
  unfold maxBufferSize at hmax
  omega

/-- **The books of a step**. -/
theorem Effect.starves {l : ι × Action β} {c : State β ι}
    (h : Effect l.1 c.shared (c.threads l.1) s' t') (hok : ∀ f, c.threads l.1 = some f → f.Ok)
    (hnonneg : ∀ side, 0 ≤ c.shared.counter side)
    (hmax : ∀ side, c.shared.counter side ≤ maxBufferSize) :
    emptyHanded t' + (returnsNothing l c).toNat
      = emptyHanded (c.threads l.1) + (late l c).toNat := by
  unfold returnsNothing returns late
  generalize c.threads l.1 = t at h hok
  cases h with
  | enter call => rfl
  | @wait f q p hpc hq hp =>
      have hbefore : f.pc.served = false ∧ f.pc ≠ .readCounter ∧ f.returned = none := by
        unfold Frame.returned
        rcases hpc with hpc | ⟨p, hpc⟩ <;> simp [hpc, Pc.served]
      have hafter : (f.goto p).starved = false := starved_of_not_served hp.not_served
      simp [emptyHanded, hafter, starved_of_not_served hbefore.1, hbefore.2]
  | @spinLock f hpc hfree =>
      have hbefore : f.starved = false := starved_of_not_served (by rw [hpc]; rfl)
      have hafter : (f.goto .readCounter).starved = false := starved_of_not_served rfl
      simp [emptyHanded, hbefore, hafter, hpc, Frame.returned]
  | @readCounter f hpc =>
      have hbefore : f.starved = false := starved_of_not_served (by rw [hpc]; rfl)
      have hafter : Frame.starved
            { f with pc := .copy, toCopy := min (sizeT (c.shared.counter f.side)) f.size }
          = decide (0 < f.size ∧ ¬ c.shared.Possible f.side) := by
        unfold Frame.starved Shared.Possible
        refine decide_eq_decide.mpr ⟨?_, ?_⟩
        · rintro ⟨-, hsize, hzero⟩
          exact ⟨hsize, not_not.mpr
            ((min_sizeT_eq_zero (hnonneg f.side) (hmax f.side) hsize).mp hzero)⟩
        · rintro ⟨hsize, hzero⟩
          exact ⟨rfl, hsize,
            (min_sizeT_eq_zero (hnonneg f.side) (hmax f.side) hsize).mpr (not_not.mp hzero)⟩
      simp only [emptyHanded, hbefore, hafter, hpc, Option.bind_some, Frame.returned]
      simp
  | @ret f r hpc =>
      have hdelivers := (hok f rfl).delivers hpc
      simp only [emptyHanded, Option.bind_some, Frame.returned, hpc, hdelivers]
      cases f.starved <;> simp
  | copy hpc | atomicSub hpc | atomicAdd hpc | spinUnlock hpc | wakeUp hpc =>
      simp only [emptyHanded, Option.bind_some, Frame.returned, hpc]
      rw [starved_congr]
      · rfl
      · rfl
      · rfl
      · rw [hpc]
        rfl

/-! ## Over a run -/

variable [Fintype ι]

/-- What is known in every reachable state. -/
structure Known (c : State β ι) : Prop where
  inv : Inv c
  ok : ∀ i f, c.threads i = some f → f.Ok

variable [Zero β] [DecidableEq ι]

theorem Known.step {l : ι × Action β} {c c' : State β ι} (hK : Known c)
    (h : (mybuffer β ι).next l c = some c') : Known c' := by
  refine ⟨hK.inv.step h, ?_⟩
  apply Conf.step_forall (A := fun _ t => ∀ f, t = some f → Frame.Ok f) h
  · exact (next_effect h).ok (hK.ok l.1)
  · exact fun j _ => hK.ok j

theorem known_inductive : (mybuffer β ι).Inductive Known :=
  ⟨⟨inv_start, fun _ _ => nofun⟩, Known.step⟩

/-- **The books**: the returns of nothing, with the calls that are on their way to one, are
the reads of a counter that came too late. -/
theorem starved_balance {ls : List (ι × Action β)} {c : State β ι}
    (h : (mybuffer β ι).Reaches ls c) :
    total emptyHanded c.threads + (mybuffer β ι).count returnsNothing ls
      = (mybuffer β ι).count late ls := by
  have hledger : (total emptyHanded c.threads : Int) + (mybuffer β ι).count returnsNothing ls
      = total emptyHanded (start : State β ι).threads + (mybuffer β ι).count late ls := by
    refine exec_ledger (S := mybuffer β ι) known_inductive
      (g := fun c => (total emptyHanded c.threads : Int)) ?_ known_inductive.init h
    intro l c c' hK hnext
    have hbooks := (next_effect hnext).starves (hK.ok l.1) hK.inv.nonneg hK.inv.le_max
    have htotal := Conf.total_step emptyHanded hnext
    omega
  have hstart : total emptyHanded (start : State β ι).threads = 0 := total_eq_zero fun _ => rfl
  omega

/-- What a run has returned. -/
def returned (ls : List (ι × Action β)) : List (Return β) :=
  (mybuffer β ι).trace returns ls start

/-- A run returns nothing but good numbers of bytes if no step of it returns nothing. -/
theorem returned_delivers {ls : List (ι × Action β)} {c : State β ι}
    (h : (mybuffer β ι).Reaches ls c) :
    (mybuffer β ι).count returnsNothing ls = 0 ↔ ∀ r ∈ returned ls, r.Delivers := by
  refine tally_eq_zero_iff (S := mybuffer β ι) (p := returnsNothing) known_inductive ?_
    known_inductive.init h
  intro l c c' _ _
  unfold returnsNothing
  cases returns l c with
  | none => simp
  | some r => simp

/-- **A wait that ends delivers something** in a run in which no counter is read too late;
and when all calls of a run have returned, only then. -/
theorem wait_delivers_iff {ls : List (ι × Action β)} {c : State β ι}
    (h : (mybuffer β ι).Reaches ls c) :
    ((mybuffer β ι).count late ls = 0 → ∀ r ∈ returned ls, r.Delivers)
      ∧ ((∀ i, c.threads i = none) →
        ((∀ r ∈ returned ls, r.Delivers) ↔ (mybuffer β ι).count late ls = 0)) := by
  have hbalance := starved_balance h
  rw [← returned_delivers h]
  refine ⟨fun hlate => by omega, fun hdone => ?_⟩
  have hnobody : total emptyHanded c.threads = 0 := by
    apply total_eq_zero
    intro i
    rw [hdone i]
    rfl
  omega

/-- A writer, and then a reader: both return 3. -/
theorem wait_delivers_iff_one_by_one :
    ∃ ls : List (Fin 2 × Action Nat), (returned ls).map Return.ret = [3, 3]
      ∧ ∀ r ∈ returned ls, r.Delivers := by
  let ls : List (Fin 2 × Action Nat) :=
    (0, .call (.write ⟨false, 0⟩ [5, 6, 7])) :: List.replicate 10 (0, .step ⟨false, 0⟩)
      ++ (1, .call (.read ⟨false, 0⟩ 8)) :: List.replicate 10 (1, .step ⟨false, 0⟩)
  obtain ⟨c, hrun, hc⟩ := Option.any_eq_true _ _ |>.mp
    (show ((mybuffer Nat (Fin 2)).exec ls start).any (fun c => ∀ i, c.threads i = none) = true
      by decide +kernel)
  have hlate : (mybuffer Nat (Fin 2)).count late ls = 0 := by decide +kernel
  exact ⟨ls, by decide +kernel, ((wait_delivers_iff hrun).2 (of_decide_eq_true hc)).mpr hlate⟩

/-- Two readers see the one byte that is there; the second one returns 0. -/
theorem not_wait_delivers :
    ¬ ∀ (ls : List (Fin 3 × Action Nat)) (c : State Nat (Fin 3)),
      (mybuffer Nat (Fin 3)).Reaches ls c → ∀ r ∈ returned ls, r.Delivers := by
  intro hall
  let ls : List (Fin 3 × Action Nat) :=
    (2, .call (.write ⟨false, 0⟩ [5])) :: List.replicate 10 (2, .step ⟨false, 0⟩)
      ++ (0, .call (.read ⟨false, 0⟩ 8)) :: List.replicate 2 (0, .step ⟨false, 0⟩)
      ++ (1, .call (.read ⟨false, 0⟩ 8)) :: List.replicate 2 (1, .step ⟨false, 0⟩)
      ++ List.replicate 8 (0, .step ⟨false, 0⟩) ++ List.replicate 8 (1, .step ⟨false, 0⟩)
  obtain ⟨c, hrun⟩ := Option.isSome_iff_exists.mp
    (show ((mybuffer Nat (Fin 3)).exec ls start).isSome by decide +kernel)
  have hzero : (⟨.read ⟨false, 0⟩ 8, 0, 0, [], 0⟩ : Return Nat) ∈ returned ls := by
    decide +kernel
  exact absurd (hall ls c hrun _ hzero) (by decide)

/-! ## One call of each side at a time -/

/-- A call comes while another one of its side is in progress. -/
def joins (l : ι × Action β) (c : State β ι) : Bool :=
  match l.2 with
  | .call call => ∃ i, (c.threads i).any fun f => f.side = callSide call
  | .step _ => false

/-- Of each side there is at most one call, and what it has waited for still holds. -/
structure OneEach (c : State β ι) : Prop where
  unique : ∀ i j f g, c.threads i = some f → c.threads j = some g → f.side = g.side → i = j
  ready : ∀ i f, c.threads i = some f → f.pc.passed = true ∨ f.pc = .readCounter →
    c.shared.Possible f.side

omit [Fintype ι] [Zero β] [DecidableEq ι] in
/-- A call goes on as the call that it is. -/
theorem Effect.side {f f' : Frame β} (h : Effect i s (some f) s' (some f')) :
    f'.side = f.side := by
  cases h <;> rfl

omit [Fintype ι] [Zero β] [DecidableEq ι] in
/-- A call leaves its wait when the condition holds. -/
theorem Effect.ready (h : Effect i s t s' t') {f' : Frame β} (hf' : t' = some f')
    (hpc' : f'.pc.passed = true ∨ f'.pc = .readCounter)
    (hready : ∀ f, t = some f → f.pc.passed = true ∨ f.pc = .readCounter →
      s.Possible f.side) : s'.Possible f'.side := by
  cases h with
  | @wait f q p hpc hq hp =>
      cases hf'
      have hpassed := hpc'.resolve_right fun hread => by
        rcases hp.goal with ⟨q, hgoal⟩ | hgoal | hgoal | hgoal <;> cases hread.symm.trans hgoal
      rcases hp.passes hpassed with hfinish | hpossible
      · exact hready f rfl (.inl (by rw [hfinish]; rfl))
      · exact hpossible
  | @spinLock f hpc hfree =>
      cases hf'
      exact hready f rfl (.inl (by rw [hpc]; rfl))
  | ret => cases hf'
  | _ =>
      cases hf'
      exact hpc'.elim nofun nofun

omit [Fintype ι] [Zero β] [DecidableEq ι] in
/-- Only a call of its own side makes a counter zero, by subtracting all that is there. -/
theorem Effect.still_possible (h : Effect i s t s' t') {side : Side}
    (hnonneg : 0 ≤ s.counter side)
    (hother : ∀ f, t = some f → f.pc = .atomicSub → f.side = side → s.counter side ≠ f.copied)
    (hpossible : s.Possible side) : s'.Possible side := by
  unfold Shared.Possible at *
  rcases h.counter_cases side with hle | ⟨f, hf, hpc, hside, heq⟩
  · omega
  · have hleft := hother f hf hpc hside
    omega

/-- The side of the mover, after its step, is that of nobody else before it. -/
theorem OneEach.mover {l : ι × Action β} {c c' : State β ι} (hO : OneEach c)
    (h : (mybuffer β ι).next l c = some c') (hjoins : joins l c = false) {f' g : Frame β}
    {j : ι} (hf' : c'.threads l.1 = some f') (hj : j ≠ l.1) (hg : c.threads j = some g) :
    f'.side ≠ g.side := by
  have hmove : code l.1 l.2 c.shared (c.threads l.1) = some (c'.shared, c'.threads l.1) :=
    Conf.step_mover h
  intro hside
  cases hf : c.threads l.1 with
  | some f =>
      have heffect := next_effect h
      rw [hf, hf'] at heffect
      exact hj (hO.unique j l.1 g f hg hf (hside.symm.trans heffect.side))
  | none =>
      -- the call has just come
      obtain ⟨i, action⟩ := l
      rw [hf] at hmove
      cases action with
      | step e => cases hmove
      | call call =>
          simp only [code, Option.some.injEq, Prod.mk.injEq] at hmove
          have hf'' := hmove.2.trans hf'
          cases hf''
          have hnone := of_decide_eq_false hjoins
          refine hnone ⟨j, ?_⟩
          rw [hg]
          exact decide_eq_true hside.symm

theorem OneEach.step {l : ι × Action β} {c c' : State β ι} (hI : Inv c) (hO : OneEach c)
    (h : (mybuffer β ι).next l c = some c') (hjoins : joins l c = false) : OneEach c' := by
  have heffect := next_effect h
  refine ⟨?unique, ?ready⟩
  case unique =>
    intro i j f g hf hg hside
    by_cases hi : i = l.1
    · subst hi
      by_contra hij
      rw [Conf.step_threads_ne h (Ne.symm hij)] at hg
      exact hO.mover h hjoins hf (Ne.symm hij) hg hside
    · by_cases hj : j = l.1
      · subst hj
        rw [Conf.step_threads_ne h hi] at hf
        exact absurd hside.symm (hO.mover h hjoins hg hi hf)
      · rw [Conf.step_threads_ne h hi] at hf
        rw [Conf.step_threads_ne h hj] at hg
        exact hO.unique i j f g hf hg hside
  case ready =>
    intro i f hf hpc
    by_cases hi : i = l.1
    · subst hi
      exact heffect.ready hf hpc (hO.ready l.1)
    · rw [Conf.step_threads_ne h hi] at hf
      refine heffect.still_possible (hI.nonneg _) ?_ (hO.ready i f hf hpc)
      intro g hg _ hside
      exact absurd (hO.unique i l.1 f g hf hg hside.symm) hi

omit [Fintype ι] [DecidableEq ι] in
theorem oneEach_start : OneEach (start : State β ι) :=
  ⟨fun _ _ _ _ => nofun, fun _ _ => nofun⟩

/-- **One at a time**: a run in which no call comes while another one of its side is in
progress never reads a counter too late. -/
theorem not_late_of_one_each {ls : List (ι × Action β)} {c : State β ι}
    (h : (mybuffer β ι).Reaches ls c) (hjoins : (mybuffer β ι).count joins ls = 0) :
    (mybuffer β ι).count late ls = 0 := by
  have hbudget : (mybuffer β ι).tally late ls start ≤ 0 := by
    refine tally_le_of_budget (S := mybuffer β ι) (I := fun c => Inv c ∧ OneEach c)
      (b := fun _ => 0) ?_ ⟨inv_start, oneEach_start⟩ h hjoins
    intro l c c' hc hnext hl
    refine ⟨⟨hc.1.step hnext, hc.2.step hc.1 hnext hl⟩, ?_⟩
    have hnot : late l c = false := by
      unfold late
      cases hf : c.threads l.1 with
      | none => rfl
      | some f =>
          refine decide_eq_false ?_
          rintro ⟨hpc, -, hnot⟩
          exact hnot (hc.2.ready l.1 f hf (.inr hpc))
    rw [hnot]
    rfl
  exact Nat.le_zero.mp hbudget

end CAdvanced.MybufferSync.Driver
