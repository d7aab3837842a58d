import Inger.L1Pool.Signals

/-!
# Signal dispositions (`PreemptionSignal`)

A thread's `PreemptionSignal` takes a signal from the pool, registers
`preempt` as its handler, blocks it and starts a timer; its destructor deletes
the timer and calls `sigaction` with `()` as the new action, reporting a failure
as "unable to unregister signal handler"; then the field `signal` is dropped,
which gives the signal back to the pool. `Actionable` passes `()` to the C
function as a null pointer, which makes the call a query.

The table of dispositions belongs to the process. `A` is the type of actions
(handler, mask and flags) and `preempt : A` the one libinger registers; before
its first call no signal has that action. All system calls succeed; the mask and
the timer have no influence on the table and are left out. The steps of several
threads interleave: taking the signal, registering and the rest of `new`, the
destructor, and giving the signal back.

* `signals_exclusive`: no signal is with two threads at a time.
* `table_reachable`: `preempt` is the action of the signals that have ever been
  registered, whether or not anybody holds them.
* `dispositions_iff`: so the dispositions follow ownership exactly as long as
  every signal that was ever registered has a live holder.
-/
namespace Inger.L1.Dispositions

open Reusable Signals Tokens

variable {A : Type}

/-- What `sigaction` accepts as the new action.
mirrors internal/libsignal/src/lib.rs:184-198 -/
inductive Actionable (A : Type) where
  | sigaction (sa : A)
  | unit

/-- mirrors internal/libsignal/src/lib.rs:184-198 -/
def Actionable.maybe : Actionable A → Option A
  | .sigaction sa => some sa
  | .unit => none

/-- `sigaction`: with a null pointer the C function only queries.
mirrors internal/libsignal/src/lib.rs:200-214 -/
def sigaction (table : Signal → A) (signal : Signal) (new : Actionable A) : Signal → A :=
  match new.maybe with
  | some sa => Function.update table signal sa
  | none => table

/-- A thread's SIGNALER, with `PreemptionSignal::new` and the destructor in
progress: nothing, the local `signal` of `new`, a `PreemptionSignal`, and the
field `signal` after `drop` has run. -/
inductive Signaler where
  | none
  | assigned (signal : Signal)
  | live (signal : Signal)
  | dropped (signal : Signal)
  deriving DecidableEq

def Signaler.signals : Signaler → Multiset Signal
  | .none => 0
  | .assigned signal => {signal}
  | .live signal => {signal}
  | .dropped signal => {signal}

/-- `registered` is ghost: the signals `preempt` has been registered for. -/
structure Process (A : Type) where
  pool : Pool Signal
  threads : List Signaler
  table : Signal → A
  registered : Sigset

inductive Ev where
  | spawn
  | assign (t : Nat)
  | register (t : Nat)
  | drop (t : Nat)
  | release (t : Nat)
  deriving DecidableEq, Repr

/-- `PreemptionSignal::new` (assign, register), its destructor (drop) and the
destructor of the field `signal` (release). A thread that finds no signal
panics and may try again.
mirrors src/preemption.rs:187-227,229-240 -/
def step (preempt : A) (s : Process A) : Ev → Option (Process A)
  | .spawn => some { s with threads := s.threads ++ [.none] }
  | .assign t =>
    match s.threads[t]? with
    | some .none =>
      match tryFrom nextSignal s.pool with
      | (some signal, p) => some { s with pool := p, threads := s.threads.set t (.assigned signal) }
      | (none, p) => some { s with pool := p }
    | _ => none
  | .register t =>
    match s.threads[t]? with
    | some (.assigned signal) =>
      some { s with
        threads := s.threads.set t (.live signal)
        table := sigaction s.table signal (.sigaction preempt)
        registered := insert signal s.registered }
    | _ => none
  | .drop t =>
    match s.threads[t]? with
    | some (.live signal) =>
      some { s with
        threads := s.threads.set t (.dropped signal)
        table := sigaction s.table signal .unit }
    | _ => none
  | .release t =>
    match s.threads[t]? with
    | some (.dropped signal) =>
      some { s with pool := Reusable.release s.pool signal, threads := s.threads.set t .none }
    | _ => none

/-- Before the first call: no signal has libinger's action. -/
def initial (table : Signal → A) : Process A := ⟨.new, [], table, ∅⟩

def machine (preempt : A) : LTS (Process A) Ev :=
  LTS.ofFn (fun s => ∃ table, (∀ signal, table signal ≠ preempt) ∧ s = initial table) (step preempt)

/-! ## Every signal is with one thread -/

def Conserved (s : Process A) : Prop :=
  held Signaler.signals s.threads + (s.pool.free : Multiset Signal) =
    produced nextSignal s.pool.calls

/-- A thread whose hold on its signal only changes its form. -/
theorem Conserved.set {s : Process A} (h : Conserved s) {t : Nat} {c c' : Signaler}
    (ht : s.threads[t]? = some c) (hc : c'.signals = c.signals) :
    held Signaler.signals (s.threads.set t c') + (s.pool.free : Multiset Signal) =
      produced nextSignal s.pool.calls := by
  obtain ⟨m, hm, hm'⟩ := held_set (f := Signaler.signals) ht c'
  rw [hm', hc, ← hm]
  exact h

theorem Conserved.step {preempt : A} {s s' : Process A} {e : Ev} (h : Conserved s)
    (hs : step preempt s e = some s') : Conserved s' := by
  cases e with
  | spawn =>
    cases hs
    simpa [Conserved, held_append, Signaler.signals] using h
  | assign t =>
    simp only [Dispositions.step] at hs
    split at hs
    · rename_i ht
      have hc := tryFrom_conserves nextSignal s.pool _ h
      obtain ⟨m, hm, hm'⟩ := held_set (f := Signaler.signals) ht
        (match (tryFrom nextSignal s.pool).1 with
         | some signal => .assigned signal
         | none => .none)
      split at hs
      · rename_i signal p hp
        cases hs
        rw [hp] at hc hm'
        rw [hm] at hc
        simpa [Conserved, hm', Signaler.signals, add_assoc] using hc
      · rename_i p hp
        cases hs
        rw [hp] at hc
        simpa [Conserved] using hc
    · cases hs
  | register t =>
    simp only [Dispositions.step] at hs
    split at hs
    · rename_i signal ht
      cases hs
      exact h.set ht rfl
    · cases hs
  | drop t =>
    simp only [Dispositions.step] at hs
    split at hs
    · rename_i signal ht
      cases hs
      exact h.set ht rfl
    · cases hs
  | release t =>
    simp only [Dispositions.step] at hs
    split at hs
    · rename_i signal ht
      cases hs
      obtain ⟨m, hm, hm'⟩ := held_set (f := Signaler.signals) ht .none
      refine release_conserves nextSignal s.pool _ signal ?_
      rw [hm', ← h, hm]
      simp [Signaler.signals]
    · cases hs

theorem conserved_reachable {preempt : A} {s : Process A} (hr : (machine preempt).Reachable s) :
    Conserved s := by
  refine LTS.Inductive.reachable (M := machine preempt) ⟨?_, ?_⟩ s hr
  · rintro s ⟨table, -, rfl⟩
    rfl
  · intro s e s' h hs
    exact h.step hs

/-- A signal is with one thread at most, from the moment the pool hands it
out until it is back there. -/
theorem signals_exclusive {preempt : A} {s : Process A} (hr : (machine preempt).Reachable s)
    (hn : s.pool.calls < 2 ^ 64) {t t' : Nat} {c c' : Signaler} {signal : Signal}
    (ht : s.threads[t]? = some c) (ht' : s.threads[t']? = some c') (hc : signal ∈ c.signals)
    (hc' : signal ∈ c'.signals) : t = t' := by
  have hnd : (held Signaler.signals s.threads + (s.pool.free : Multiset Signal)).Nodup := by
    rw [conserved_reachable hr]
    exact produced_nodup (nextSignal_distinct hn.le)
  exact held_unique hnd ht ht' hc hc'

/-! ## The table of dispositions -/

/-- A live `PreemptionSignal` holds the signal. -/
def Process.Held (s : Process A) (signal : Signal) : Prop := Signaler.live signal ∈ s.threads

instance (s : Process A) (signal : Signal) : Decidable (s.Held signal) :=
  inferInstanceAs (Decidable (Signaler.live signal ∈ s.threads))

/-- The table and the ghost set, after a step: only a registration writes
either, and it makes its thread the holder. -/
inductive Registers (preempt : A) (s s' : Process A) : Prop
  | none (htab : s'.table = s.table) (hreg : s'.registered = s.registered)
      (hheld : ∀ signal, s'.Held signal → s.Held signal)
  | one (signal : Signal) (htab : s'.table = Function.update s.table signal preempt)
      (hreg : s'.registered = insert signal s.registered)
      (hheld : ∀ signal', s'.Held signal' → signal' = signal ∨ s.Held signal')

/-- Only `register` makes a thread a holder. -/
theorem held_of_set {s : Process A} {t : Nat} {c : Signaler} {signal : Signal}
    (h : Signaler.live signal ∈ s.threads.set t c) : c = .live signal ∨ s.Held signal := by
  rcases List.mem_or_eq_of_mem_set h with h | h
  · exact .inr h
  · exact .inl h.symm

theorem step_registers {preempt : A} {s s' : Process A} {e : Ev} (hs : step preempt s e = some s') :
    Registers preempt s s' := by
  cases e with
  | spawn =>
    cases hs
    refine .none rfl rfl fun signal h => ?_
    simpa [Process.Held] using h
  | assign t =>
    simp only [step] at hs
    split at hs
    · split at hs
      · cases hs
        refine .none rfl rfl fun signal h => ?_
        exact (held_of_set h).resolve_left (by simp)
      · cases hs
        exact .none rfl rfl fun signal h => h
    · cases hs
  | register t =>
    simp only [step] at hs
    split at hs
    · rename_i signal ht
      cases hs
      refine .one signal rfl rfl fun signal' h => ?_
      exact (held_of_set h).imp_left fun h => (Signaler.live.inj h).symm
    · cases hs
  | drop t =>
    simp only [step] at hs
    split at hs
    · cases hs
      -- The query leaves the table as it is.
      refine .none rfl rfl fun signal h => ?_
      exact (held_of_set h).resolve_left (by simp)
    · cases hs
  | release t =>
    simp only [step] at hs
    split at hs
    · cases hs
      refine .none rfl rfl fun signal h => ?_
      exact (held_of_set h).resolve_left (by simp)
    · cases hs

/-- What the table says of each signal. -/
structure Recorded (preempt : A) (s : Process A) : Prop where
  table : ∀ signal, s.table signal = preempt ↔ signal ∈ s.registered
  held : ∀ signal, s.Held signal → signal ∈ s.registered

theorem Recorded.step {preempt : A} {s s' : Process A} (h : Recorded preempt s)
    (hs : Registers preempt s s') : Recorded preempt s' := by
  cases hs with
  | none htab hreg hheld =>
    refine ⟨fun signal => ?_, fun signal hh => ?_⟩
    · rw [htab, hreg]
      exact h.table signal
    · rw [hreg]
      exact h.held signal (hheld signal hh)
  | one signal htab hreg hheld =>
    refine ⟨fun signal' => ?_, fun signal' hh => ?_⟩
    · rw [htab, hreg, Finset.mem_insert]
      by_cases he : signal' = signal
      · simp [he]
      · simp [he, h.table signal']
    · rw [hreg, Finset.mem_insert]
      exact (hheld signal' hh).imp_right (h.held signal')

/-- `preempt` is the action of exactly the signals that have been registered
at some time. -/
theorem table_reachable {preempt : A} {s : Process A} (hr : (machine preempt).Reachable s) :
    Recorded preempt s := by
  refine LTS.Inductive.reachable (M := machine preempt) ⟨?_, ?_⟩ s hr
  · rintro s ⟨table, htable, rfl⟩
    refine ⟨fun signal => ?_, fun signal h => ?_⟩
    · simp [initial, htable signal]
    · simp [initial, Process.Held] at h
  · intro s e s' h hs
    exact h.step (step_registers hs)

/-- Dispositions follow ownership. -/
def Follows (preempt : A) (s : Process A) : Prop :=
  ∀ signal, s.table signal = preempt ↔ s.Held signal

/-- **Dispositions follow ownership** in a reachable state exactly when
every signal that has ever been registered has a live holder: the handler of a
signal whose holder has exited stays until another thread takes the signal. -/
theorem dispositions_iff (preempt : A) (s : Process A) (hr : (machine preempt).Reachable s) :
    Follows preempt s ↔ ∀ signal ∈ s.registered, s.Held signal := by
  have h := table_reachable hr
  constructor
  · intro hf signal hmem
    exact (hf signal).mp ((h.table signal).mpr hmem)
  · intro hheld signal
    exact ⟨fun ht => hheld signal ((h.table signal).mp ht),
      fun hh => (h.table signal).mpr (h.held signal hh)⟩

/-- A list of steps, executed from a table without libinger's action. -/
theorem machine_of_exec (ls : List Ev) (p : Process Bool → Bool)
    (h : (LTS.exec (step true) (initial fun _ => false) ls).map p = some true) :
    ∃ s, (machine true).Reachable s ∧ p s = true :=
  LTS.reach_of_exec ⟨_, fun _ => Bool.false_ne_true, rfl⟩ h

/-- A thread acquires SIGALRM and runs on: the dispositions follow. -/
theorem dispositions_iff_holder :
    ∃ s, (machine true).Reachable s ∧ s.Held .Alarm ∧ Follows true s := by
  obtain ⟨s, hr, hp⟩ := machine_of_exec [.spawn, .assign 0, .register 0]
    (fun s => decide (s.registered = {.Alarm} ∧ s.Held .Alarm)) (by decide)
  obtain ⟨hreg, hheld⟩ := of_decide_eq_true hp
  refine ⟨s, hr, hheld, (dispositions_iff true s hr).mpr fun signal hmem => ?_⟩
  rw [hreg, Finset.mem_singleton] at hmem
  exact hmem ▸ hheld

/-- A thread acquires SIGALRM and exits: nobody holds the signal, its action
is still libinger's. -/
theorem exited_thread_handler :
    ∃ s, (machine true).Reachable s ∧ s.threads = [.none] ∧ s.table .Alarm = true ∧
      ¬ Follows true s := by
  obtain ⟨s, hr, hp⟩ := machine_of_exec
    [.spawn, .assign 0, .register 0, .drop 0, .release 0]
    (fun s => decide (s.threads = [.none] ∧ s.table .Alarm = true)) (by decide)
  obtain ⟨hth, htab⟩ := of_decide_eq_true hp
  refine ⟨s, hr, hth, htab, fun hf => ?_⟩
  have hheld := (hf .Alarm).mp htab
  rw [Process.Held, hth] at hheld
  simp at hheld

end Inger.L1.Dispositions
