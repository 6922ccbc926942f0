import CAdvanced.Interleave.Sync
import CAdvanced.Interleave.Termination
import Mathlib.Algebra.GroupWithZero.Nat

/-!
# Interleave — objects behind one mutex

Each operation of the object takes the mutex, runs its body, some steps long, and lets go
of the mutex. Clients call operations one after the other, each from a list of its own, and
the scheduler picks who takes the next step.

* `Object.Implements` — what the bodies do when they are let alone;
* `Object.linearizable` — then clients that run at the same time get what the operations
  would give them one at a time, in the order in which the mutex was let go;
* `Object.ends` — and they all come to their end.
-/

namespace Interleave

open Interleave.System

/-- The code of an object: where the body of an operation begins, and one step of a body,
to its next point or to its result. -/
structure Object (σ ω ρ π : Type*) where
  init : σ
  entry : ω → π
  body : σ → π → σ × (π ⊕ ρ)

/-- The object with its mutex. -/
structure Guarded (κ σ : Type*) where
  lock : Mutex κ
  object : σ

/-- Where a client stands in a call. -/
inductive ClientPc (ω ρ π : Type*) where
  | idle
  | body (op : ω) (p : π)
  | unlock (op : ω) (r : ρ)

/-- A client: where it stands, what it has still to call, and what it has been given. -/
structure Client (ω ρ π : Type*) where
  pc : ClientPc ω ρ π
  todo : List ω
  results : List (ω × ρ)

variable {ι κ σ ω ρ π : Type*}

namespace Client

/-- Whether the client is between taking the mutex and letting go of it. -/
def inside (t : Client ω ρ π) : Nat :=
  match t.pc with
  | .idle => 0
  | _ => 1

/-- The client has no call left to make. -/
def finished (t : Client ω ρ π) : Bool :=
  match t.pc, t.todo with
  | .idle, [] => true
  | _, _ => false

/-- The operation that the client is in. -/
def current (t : Client ω ρ π) : List ω :=
  match t.pc with
  | .idle => []
  | .body op _ | .unlock op _ => [op]

/-- What the client is about to be given: it has only to let go of the mutex. -/
def answer (t : Client ω ρ π) : Option (ω × ρ) :=
  match t.pc with
  | .unlock op r => some (op, r)
  | _ => none

end Client

namespace Object
variable (o : Object σ ω ρ π)

/-- One step of the client `me`. -/
def client (me : κ) (s : Guarded κ σ) : Client ω ρ π → Option (Guarded κ σ × Client ω ρ π)
  | ⟨.idle, [], _⟩ => none
  | ⟨.idle, op :: todo, results⟩ => (s.lock.lock me).map fun m =>
      ({ s with lock := m }, ⟨.body op (o.entry op), todo, results⟩)
  | ⟨.body op p, todo, results⟩ =>
      let x := o.body s.object p
      some ({ s with object := x.1 }, ⟨x.2.elim (.body op) (.unlock op), todo, results⟩)
  | ⟨.unlock op r, todo, results⟩ =>
      some ({ s with lock := s.lock.unlock }, ⟨.idle, todo, results ++ [(op, r)]⟩)

/-- The clients, each with the calls it is going to make, and the mutex free. -/
def initial (programs : ι → List ω) : Conf ι (Guarded κ σ) (Client ω ρ π) :=
  ⟨⟨none, o.init⟩, fun i => ⟨.idle, programs i, []⟩⟩

/-- The clients at work; `own i` is the name under which client `i` takes the mutex. -/
def system [DecidableEq ι] (own : ι → κ) (programs : ι → List ω) :
    System (Conf ι (Guarded κ σ) (Client ω ρ π)) ι :=
  ⟨o.initial programs, fun i c => c.step (o.client (own i)) i⟩

/-- A call is over when it lets go of the mutex: who made it, and what it was given. -/
def commit (i : ι) (c : Conf ι (Guarded κ σ) (Client ω ρ π)) : Option (ι × ω × ρ) :=
  (c.threads i).answer.map fun x => (i, x)

/-- The calls that are over, in the order in which they let go of the mutex. -/
def log [DecidableEq ι] (own : ι → κ) (programs : ι → List ω) (ls : List ι) :
    List (ι × ω × ρ) :=
  (o.system own programs).trace commit ls (o.system own programs).init

/-- The same object, with operations that happen at once. -/
def atomic [DecidableEq ρ] (apply : ω → σ → σ × ρ) : System σ (ι × ω × ρ) :=
  ⟨o.init, fun l s => if (apply l.2.1 s).2 = l.2.2 then some (apply l.2.1 s).1 else none⟩

/-- The body at `p`, let alone, makes `x.1` of the object and returns `x.2`. -/
inductive Does : σ → π → σ × ρ → Prop
  | ret {s t : σ} {p : π} {r : ρ} (h : o.body s p = (t, .inr r)) : Does s p (t, r)
  | goto {s t : σ} {p q : π} {x : σ × ρ} (h : o.body s p = (t, .inl q)) (rest : Does t q x) :
      Does s p x

/-- The bodies do what `apply` says, and `cost p` is how many steps they have left at `p`. -/
structure Implements (apply : ω → σ → σ × ρ) (cost : π → Nat) : Prop where
  does : ∀ op s, o.Does s (o.entry op) (apply op s)
  goto : ∀ {s p t q}, o.body s p = (t, .inl q) → cost q + 1 = cost p
  ret : ∀ {s p t r}, o.body s p = (t, .inr r) → cost p = 1

variable {o} {apply : ω → σ → σ × ρ} {cost : π → Nat}

theorem Does.of_inl {s t : σ} {p q : π} {x : σ × ρ} (h : o.Does s p x)
    (hbody : o.body s p = (t, .inl q)) : o.Does t q x := by
  cases h with
  | ret hret => cases hbody.symm.trans hret
  | goto hgoto rest =>
      cases hbody.symm.trans hgoto
      exact rest

theorem Does.of_inr {s t : σ} {p : π} {r : ρ} {x : σ × ρ} (h : o.Does s p x)
    (hbody : o.body s p = (t, .inr r)) : x = (t, r) := by
  cases h with
  | ret hret =>
      cases hbody.symm.trans hret
      rfl
  | goto hgoto rest => cases hbody.symm.trans hgoto

/-! ## One client -/

/-- All that a step of the client `me` can be. -/
inductive ClientStep (o : Object σ ω ρ π) (me : κ) :
    Guarded κ σ → Client ω ρ π → Guarded κ σ → Client ω ρ π → Prop
  | call {x : σ} {op : ω} {todo : List ω} {results : List (ω × ρ)} :
      ClientStep o me ⟨none, x⟩ ⟨.idle, op :: todo, results⟩
        ⟨some me, x⟩ ⟨.body op (o.entry op), todo, results⟩
  | goto {m : Mutex κ} {x y : σ} {op : ω} {p q : π} {todo : List ω} {results : List (ω × ρ)}
      (h : o.body x p = (y, .inl q)) :
      ClientStep o me ⟨m, x⟩ ⟨.body op p, todo, results⟩ ⟨m, y⟩ ⟨.body op q, todo, results⟩
  | ret {m : Mutex κ} {x y : σ} {op : ω} {p : π} {r : ρ} {todo : List ω}
      {results : List (ω × ρ)} (h : o.body x p = (y, .inr r)) :
      ClientStep o me ⟨m, x⟩ ⟨.body op p, todo, results⟩ ⟨m, y⟩ ⟨.unlock op r, todo, results⟩
  | unlock {m : Mutex κ} {x : σ} {op : ω} {r : ρ} {todo : List ω} {results : List (ω × ρ)} :
      ClientStep o me ⟨m, x⟩ ⟨.unlock op r, todo, results⟩
        ⟨none, x⟩ ⟨.idle, todo, results ++ [(op, r)]⟩

theorem client_step {me : κ} {s s' : Guarded κ σ} {t t' : Client ω ρ π}
    (h : o.client me s t = some (s', t')) : ClientStep o me s t s' t' := by
  obtain ⟨pc, todo, results⟩ := t
  obtain ⟨m, x⟩ := s
  cases pc with
  | idle =>
      cases todo with
      | nil => cases h
      | cons op todo =>
          simp only [client, Option.map_eq_some_iff, Mutex.lock_eq_some, Prod.mk.injEq] at h
          obtain ⟨m', ⟨rfl, rfl⟩, rfl, rfl⟩ := h
          exact .call
  | body op p =>
      cases hx : o.body x p with
      | mk y z =>
          rw [client, hx] at h
          cases z with
          | inl q =>
              cases h
              exact .goto hx
          | inr r =>
              cases h
              exact .ret hx
  | unlock op r =>
      cases h
      exact .unlock

/-- What is known where a client stands, if the object was `a` when it took the mutex. -/
def At (o : Object σ ω ρ π) (apply : ω → σ → σ × ρ) (a s : σ) (t : Client ω ρ π) : Prop :=
  match t.pc with
  | .idle => True
  | .body op p => o.Does s p (apply op a)
  | .unlock op r => apply op a = (s, r)

/-- Who is outside knows nothing, and nothing can be done to that. -/
theorem at_of_outside {a s : σ} {t : Client ω ρ π} (h : t.inside = 0) : o.At apply a s t := by
  obtain ⟨pc, todo, results⟩ := t
  cases pc with
  | idle => trivial
  | _ => cases h

/-! ## Clients at the same time -/

variable [Fintype ι]

/-- The clients agree with an object `a` whose operations happen at once: one client at most
is inside, and the object is `a` when it is free. -/
structure Agrees (o : Object σ ω ρ π) (apply : ω → σ → σ × ρ)
    (c : Conf ι (Guarded κ σ) (Client ω ρ π)) (a : σ) : Prop where
  token : c.shared.lock.isNone.toNat + total Client.inside c.threads = 1
  free : c.shared.lock = none → c.shared.object = a
  at_ : ∀ i, o.At apply a c.shared.object (c.threads i)

variable {c c' : Conf ι (Guarded κ σ) (Client ω ρ π)} {a : σ}

/-- While the mutex is free or `i` is inside, the others are outside. -/
theorem Agrees.outside (h : Agrees o apply c a) {i : ι}
    (hi : c.shared.lock = none ∨ (c.threads i).inside = 1) (j : ι) (hj : j ≠ i) :
    (c.threads j).inside = 0 := by
  have htoken := h.token
  have hsum := add_le_total Client.inside c.threads hj
  rcases hi with hfree | hin
  · rw [hfree, Option.isNone_none, Bool.toNat_true] at htoken
    omega
  · omega

/-- While one is inside, the mutex is taken. -/
theorem Agrees.locked (h : Agrees o apply c a) {i : ι} (hi : (c.threads i).inside = 1) :
    c.shared.lock ≠ none := by
  have htoken := h.token
  have hle := le_total Client.inside c.threads i
  intro hfree
  rw [hfree, Option.isNone_none, Bool.toNat_true] at htoken
  omega

variable [DecidableEq ι]

/-- What `a` agrees with after a step, from what the mover did. -/
theorem Agrees.of_step {f : Guarded κ σ → Client ω ρ π →
      Option (Guarded κ σ × Client ω ρ π)} {i : ι} {b : σ}
    (h : Agrees o apply c a) (hstep : c.step f i = some c')
    (hi : c.shared.lock = none ∨ (c.threads i).inside = 1)
    (htoken : c'.shared.lock.isNone.toNat + (c'.threads i).inside
      = c.shared.lock.isNone.toNat + (c.threads i).inside)
    (hfree : c'.shared.lock = none → c'.shared.object = b)
    (hat : o.At apply b c'.shared.object (c'.threads i)) : Agrees o apply c' b where
  token := (Conf.step_total (g := fun s => s.lock.isNone.toNat) hstep htoken).trans h.token
  free := hfree
  at_ := Conf.step_forall (A := fun s t => o.At apply b s.object t) hstep hat fun j hj =>
    at_of_outside (h.outside hi j hj)

theorem agrees_init (own : ι → κ) (programs : ι → List ω) :
    Agrees o apply (o.system own programs).init o.init where
  token := by
    have hnone : total Client.inside (o.system own programs).init.threads = 0 :=
      total_eq_zero fun _ => rfl
    rw [hnone]
    rfl
  free _ := rfl
  at_ _ := trivial

/-- **One step** of the clients is none of the object whose operations happen at once, or
the operation of the client that lets go of the mutex. -/
theorem Agrees.step [DecidableEq ρ] (himpl : o.Implements apply cost)
    (h : Agrees o apply c a) {own : ι → κ} {i : ι}
    (hstep : c.step (o.client (own i)) i = some c') :
    ∃ b, (o.atomic apply).exec (commit i c).toList a = some b ∧ Agrees o apply c' b := by
  have hmover := client_step (Conf.step_mover hstep)
  have hat := h.at_ i
  have hfree := h.free
  have hlocked := h.locked (i := i)
  have hnext := fun b => h.of_step (b := b) hstep
  rw [commit]
  generalize c.shared = s, c.threads i = t, c'.shared = s', c'.threads i = t' at *
  cases hmover with
  | call =>
      refine ⟨a, rfl, hnext a (.inl rfl) rfl (nomatch ·) ?_⟩
      rw [← hfree rfl]
      exact himpl.does _ _
  | goto hbody =>
      exact ⟨a, rfl, hnext a (.inr rfl) rfl (fun hnone => absurd hnone (hlocked rfl))
        (hat.of_inl hbody)⟩
  | ret hbody =>
      exact ⟨a, rfl, hnext a (.inr rfl) rfl (fun hnone => absurd hnone (hlocked rfl))
        (hat.of_inr hbody)⟩
  | @unlock m x op r =>
      have hdone : apply op a = (x, r) := hat
      refine ⟨x, exec_singleton.trans ?_, hnext x (.inr rfl) ?_ (fun _ => rfl) trivial⟩
      · show (if (apply op a).2 = r then some (apply op a).1 else none) = some x
        rw [hdone, if_pos rfl]
      · obtain ⟨k, rfl⟩ := Option.ne_none_iff_exists'.mp (hlocked rfl)
        rfl

/-! ## What the clients are given -/

/-- A client has called, is in, or is going to call what it is meant to call. -/
theorem client_calls {me : κ} {s s' : Guarded κ σ} {t t' : Client ω ρ π}
    (h : o.client me s t = some (s', t')) :
    t'.results.map Prod.fst ++ t'.current ++ t'.todo
      = t.results.map Prod.fst ++ t.current ++ t.todo := by
  cases client_step h <;> simp [Client.current]

theorem client_results {me : κ} {s s' : Guarded κ σ} {t t' : Client ω ρ π}
    (h : o.client me s t = some (s', t')) : t.results ++ t.answer.toList = t'.results := by
  cases client_step h <;> simp [Client.answer]

omit [Fintype ι] in
theorem calls {own : ι → κ} {programs : ι → List ω}
    (h : (o.system own programs).Reachable c) (i : ι) :
    (c.threads i).results.map Prod.fst ++ (c.threads i).current ++ (c.threads i).todo
      = programs i := by
  have hind : (o.system own programs).Inductive fun c => ∀ i,
      (c.threads i).results.map Prod.fst ++ (c.threads i).current ++ (c.threads i).todo
        = programs i := by
    refine ⟨fun _ => rfl, fun {j c c'} hc hstep i => ?_⟩
    by_cases hij : i = j
    · rw [hij, client_calls (Conf.step_mover hstep)]
      exact hc j
    · rw [Conf.step_threads_ne hstep hij]
      exact hc i
  exact hind.reachable h i

omit [Fintype ι] in
theorem results {own : ι → κ} {programs : ι → List ω} {ls : List ι}
    (h : (o.system own programs).Reaches ls c) (i : ι) :
    (c.threads i).results
      = (o.log own programs ls).filterMap fun e => if e.1 = i then some e.2 else none := by
  rw [log, trace_filterMap]
  obtain ⟨x, hx, hall⟩ := trace_balance (S := o.system own programs)
    (G := fun c x => (c.threads i).results = x)
    (p := fun j c => (commit j c).bind fun e => if e.1 = i then some e.2 else none)
    (q := fun _ _ => none) (by
      rintro j c c' _ rfl hstep
      refine ⟨_, rfl, ?_⟩
      by_cases hij : j = i
      · subst hij
        have hone := client_results (Conf.step_mover hstep)
        cases ha : (c.threads j).answer with
        | none => simpa [commit, ha] using hone
        | some x => simpa [commit, ha] using hone
      · rw [Conf.step_threads_ne hstep (Ne.symm hij)]
        cases ha : (c.threads j).answer with
        | none => simp [commit, ha]
        | some x => simp [commit, ha, hij]) (x := []) rfl h
  rw [hx]
  simpa using hall.symm

/-- **Refinement**: the calls that are over are a run of the object whose operations happen
at once. -/
theorem agrees [DecidableEq ρ] (himpl : o.Implements apply cost) {own : ι → κ}
    {programs : ι → List ω} {ls : List ι} (h : (o.system own programs).Reaches ls c) :
    ∃ a, (o.atomic apply).exec (o.log own programs ls) o.init = some a ∧ Agrees o apply c a := by
  have hsim : (o.system own programs).Simulation (o.atomic apply) commit (Agrees o apply) :=
    ⟨agrees_init own programs, fun hc hstep => hc.step himpl hstep⟩
  exact hsim.exec hsim.init h

/-- **Linearizability**: clients that run at the same time, whatever the scheduler does, are
given what the object would give them if its operations happened at once, in the order in
which they let go of the mutex; and that is the object while the mutex is free. What a client
has been given is its part of this, for the calls that it is meant to make. -/
theorem linearizable [DecidableEq ρ] (himpl : o.Implements apply cost) {own : ι → κ}
    {programs : ι → List ω} {ls : List ι} (h : (o.system own programs).Reaches ls c) :
    (∃ a, (o.atomic apply).exec (o.log own programs ls) o.init = some a
      ∧ (c.shared.lock = none → c.shared.object = a))
    ∧ ∀ i, (c.threads i).results
          = (o.log own programs ls).filterMap (fun e => if e.1 = i then some e.2 else none)
        ∧ (c.threads i).results.map Prod.fst ++ (c.threads i).current ++ (c.threads i).todo
          = programs i := by
  obtain ⟨a, ha, hagrees⟩ := agrees himpl h
  exact ⟨⟨a, ha, hagrees.free⟩, fun i => ⟨results h i, calls h.reachable i⟩⟩

/-! ## The end -/

/-- The steps that a client has left. -/
def left (o : Object σ ω ρ π) (cost : π → Nat) (t : Client ω ρ π) : Nat :=
  (t.todo.map fun op => cost (o.entry op) + 2).sum + match t.pc with
    | .idle => 0
    | .body _ p => cost p + 1
    | .unlock _ _ => 1

theorem client_left (himpl : o.Implements apply cost) {me : κ} {s s' : Guarded κ σ}
    {t t' : Client ω ρ π} (h : o.client me s t = some (s', t')) :
    o.left cost t' + 1 = o.left cost t := by
  cases client_step h with
  | call =>
      simp only [left, List.map_cons, List.sum_cons]
      omega
  | goto hbody =>
      have := himpl.goto hbody
      simp only [left]
      omega
  | ret hbody =>
      have := himpl.ret hbody
      simp only [left]
      omega
  | unlock => simp [left]

theorem of_finished (o : Object σ ω ρ π) (cost : π → Nat) {t : Client ω ρ π}
    (h : t.finished = true) :
    t.inside = 0 ∧ o.left cost t = 0 := by
  obtain ⟨pc, todo, results⟩ := t
  cases pc with
  | idle =>
      cases todo with
      | nil => exact ⟨rfl, rfl⟩
      | cons op todo => cases h
  | _ => cases h

/-- Who has not finished can move, or waits for the mutex. -/
theorem client_isSome {me : κ} {s : Guarded κ σ} {t : Client ω ρ π} (h : t.finished = false)
    (hfree : t.inside = 1 ∨ s.lock = none) : (o.client me s t).isSome := by
  obtain ⟨pc, todo, results⟩ := t
  cases pc with
  | idle =>
      cases todo with
      | nil => cases h
      | cons op todo =>
          rw [client, hfree.resolve_left Nat.zero_ne_one]
          rfl
  | _ => rfl

/-- **The clients end**, whatever the scheduler does, and always after the same number of
steps, with all calls made. -/
theorem ends [DecidableEq ρ] (himpl : o.Implements apply cost) (own : ι → κ)
    (programs : ι → List ω) :
    (o.system own programs).EndsWithin
      (∑ i, ((programs i).map fun op => cost (o.entry op) + 2).sum) fun ls c =>
        ls.length = ∑ i, ((programs i).map fun op => cost (o.entry op) + 2).sum
          ∧ (∀ i, (c.threads i).finished = true)
          ∧ ∃ a, (o.atomic apply).exec (o.log own programs ls) o.init = some a
            ∧ c.shared = ⟨none, a⟩ := by
  have hlength : ∀ {ls : List ι} {c}, (o.system own programs).Reaches ls c →
      ls.length + total (o.left cost) c.threads
        = ∑ i, ((programs i).map fun op => cost (o.entry op) + 2).sum := fun hrun =>
    threads_length_eq (fun _ _ => rfl) inductive_true (fun _ hstep => client_left himpl hstep) hrun
  constructor
  · intro ls c hrun
    have := hlength hrun
    omega
  · intro ls c hrun hstuck
    obtain ⟨a, ha, hagrees⟩ := agrees himpl hrun
    have hall : ∀ i, (c.threads i).finished = true := by
      intro i
      by_contra hi
      rw [Bool.not_eq_true] at hi
      by_cases hfree : c.shared.lock = none
      · exact hstuck ⟨i, Conf.step_isSome (client_isSome hi (.inr hfree))⟩
      · -- somebody is inside, and can go on
        have htoken := hagrees.token
        rw [Option.isNone_eq_false_iff.mpr (Option.isSome_iff_ne_none.mpr hfree)] at htoken
        have hpos : 0 < total Client.inside c.threads := by
          rw [Bool.toNat_false] at htoken
          omega
        obtain ⟨j, hj⟩ := exists_of_total_pos hpos
        have hle := le_total Client.inside c.threads j
        have hunfinished : (c.threads j).finished = false := by
          by_contra hdone
          have := (of_finished o cost ((Bool.not_eq_false _).mp hdone)).1
          omega
        exact hstuck ⟨j, Conf.step_isSome (client_isSome hunfinished (.inl (by omega)))⟩
    have hleft := total_eq_zero fun i => (of_finished o cost (hall i)).2
    have hinside := total_eq_zero fun i => (of_finished o cost (hall i)).1
    have hlen := hlength hrun
    have htoken := hagrees.token
    rw [hinside] at htoken
    have hfree : c.shared.lock = none := by
      cases hlock : c.shared.lock with
      | none => rfl
      | some k =>
          rw [hlock] at htoken
          cases htoken
    refine ⟨by omega, hall, a, ha, ?_⟩
    rw [← hagrees.free hfree, ← hfree]

end Object
end Interleave
