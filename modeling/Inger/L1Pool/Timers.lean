import Inger.L1Pool.Dispositions
import Mathlib.Data.Finset.Erase
import Mathlib.Tactic.Abel

/-!
# Timers (`PreemptionSignal::new`, `timer_create`, `timer_settime`, `timer_delete`)

`Dispositions` follows the handler of a preemption signal; here are its timers
too, one step per system call, each of which may fail. `new` takes a signal from
the pool, registers the handler, blocks the signal, creates a timer that sends it
and arms the timer for every `quantum` microseconds; `?` leaves it early, which
drops the signal (it goes back to the pool) and makes `resume` abort the process.
A `Timer` is a plain number without a destructor: where `timer_settime` fails the
timer is lost, not armed; where `timer_delete` fails in the destructor of
`PreemptionSignal` that is reported, and the timer is lost and goes on.

Timers signal the process. What arrives is pending until some thread takes it;
the masks of the threads are part of `L2Machine`.

* `ticks_find_handler`: whatever fails, in every order of the threads' steps, a
  signal that a timer sends has libinger's handler, also after the thread that made
  the timer has exited. The default action of most of them ends the process.
* `timers_follow_holders`: as long as no timer has been lost, the armed timers are
  exactly those of the live `PreemptionSignal`s: one for each holder, and none that
  sends a signal that is free.
* `failed_delete_doubles_ticks`: after a failed `timer_delete` the next holder of
  the signal is sent the ticks of two timers.
* `timers_refine_dispositions`: without the timers this is `Dispositions`.
-/
namespace Inger.L1.Timers

open Reusable Signals Tokens
open Dispositions (Actionable sigaction)

variable {A : Type}

/-- mirrors src/preemption.rs:212-219 -/
structure Timespec where
  tvSec : Int64
  tvNsec : Int64
  deriving DecidableEq

/-- mirrors src/preemption.rs:211-220 -/
structure Itimerspec where
  itInterval : Timespec
  itValue : Timespec
  deriving DecidableEq

/-- The cast and the product of a release build.
mirrors src/preemption.rs:210-220 -/
def itimerspec (quantum : UInt64) : Itimerspec :=
  ⟨⟨0, quantum.toInt64 * 1000⟩, ⟨0, quantum.toInt64 * 1000⟩⟩

/-- A timer of the process: the signal it sends (`Sigevent::signal`) and, once it
is armed, when.
mirrors src/timer.rs:36-43,67-105 -/
structure Timer where
  signal : Signal
  it : Option Itimerspec
  deriving DecidableEq

/-- A thread's SIGNALER with `new` and the destructor in progress: the local
`signal` of `new` behind each of its calls, a `PreemptionSignal`, an early return,
and the destructor behind `timer_delete` and behind `sigaction`. -/
inductive Signaler where
  | none
  | assigned (signal : Signal)
  | registered (signal : Signal)
  | masked (signal : Signal)
  | created (signal : Signal) (timer : Nat)
  | live (signal : Signal) (timer : Nat)
  | failing (signal : Signal)
  | aborting
  | deleted (signal : Signal)
  | dropped (signal : Signal)
  deriving DecidableEq

def Signaler.signals : Signaler → Multiset Signal
  | .none => 0
  | .assigned signal => {signal}
  | .registered signal => {signal}
  | .masked signal => {signal}
  | .created signal _ => {signal}
  | .live signal _ => {signal}
  | .failing signal => {signal}
  | .aborting => 0
  | .deleted signal => {signal}
  | .dropped signal => {signal}

def Signaler.timers : Signaler → Multiset Nat
  | .created _ timer => {timer}
  | .live _ timer => {timer}
  | _ => 0

/-- `new` has returned early. -/
def Signaler.failed : Signaler → Bool
  | .failing _ => true
  | .aborting => true
  | _ => false

/-- What `Dispositions` sees of a thread, as long as `new` has not returned early. -/
def Signaler.disposition : Signaler → Dispositions.Signaler
  | .none => .none
  | .assigned signal => .assigned signal
  | .registered signal => .live signal
  | .masked signal => .live signal
  | .created signal _ => .live signal
  | .live signal _ => .live signal
  | .failing _ => .none
  | .aborting => .none
  | .deleted signal => .live signal
  | .dropped signal => .dropped signal

/-- `lost` and `deleted` are ghost: the timers that nobody will delete, and those
that have been. `made` numbers the next timer. -/
structure Process (A : Type) where
  pool : Pool Signal
  threads : List Signaler
  table : Signal → A
  timers : Nat → Option Timer
  made : Nat
  pending : Sigset
  lost : Multiset Nat
  deleted : Multiset Nat
  aborted : Bool

/-- The steps of a thread, with what the system answers, a tick of a timer and
the arrival of a signal at a thread. -/
inductive Ev where
  | spawn
  | assign (t : Nat)
  | sigaction (t : Nat) (ok : Bool)
  | mask (t : Nat) (ok : Bool)
  | create (t : Nat) (ok : Bool)
  | settime (t : Nat) (ok : Bool)
  | delete (t : Nat) (ok : Bool)
  | unregister (t : Nat) (ok : Bool)
  | release (t : Nat)
  | abort (t : Nat)
  | tick (i : Nat)
  | take (signal : Signal)
  deriving DecidableEq, Repr

namespace Process

def set (s : Process A) (t : Nat) (c : Signaler) : Process A :=
  { s with threads := s.threads.set t c }

end Process

/-- mirrors src/preemption.rs:187-227,229-240, src/timer.rs:71-116 and
src/linger.rs:228-230 -/
def step (preempt : A) (quantum : UInt64) (s : Process A) (e : Ev) : Option (Process A) :=
  if s.aborted then none
  else
    match e with
    | .spawn => some { s with threads := s.threads ++ [.none] }
    | .assign t =>
      match s.threads[t]? with
      | some .none =>
        match tryFrom nextSignal s.pool with
        | (some signal, p) => some ({ s with pool := p }.set t (.assigned signal))
        -- The panic unwinds `resume`; the thread may try again.
        | (none, p) => some { s with pool := p }
      | _ => none
    | .sigaction t ok =>
      match s.threads[t]? with
      | some (.assigned signal) =>
        if ok then
          some ({ s with table := sigaction s.table signal (.sigaction preempt) }.set t
            (.registered signal))
        else some (s.set t (.failing signal))
      | _ => none
    | .mask t ok =>
      match s.threads[t]? with
      | some (.registered signal) => some (s.set t (if ok then .masked signal else .failing signal))
      | _ => none
    | .create t ok =>
      match s.threads[t]? with
      | some (.masked signal) =>
        if ok then
          some ({ s with
            timers := Function.update s.timers s.made (some ⟨signal, none⟩)
            made := s.made + 1 }.set t (.created signal s.made))
        else some (s.set t (.failing signal))
      | _ => none
    | .settime t ok =>
      match s.threads[t]? with
      | some (.created signal timer) =>
        if ok then
          some ({ s with
            timers := Function.update s.timers timer (some ⟨signal, some (itimerspec quantum)⟩)
              }.set t (.live signal timer))
        else some ({ s with lost := timer ::ₘ s.lost }.set t (.failing signal))
      | _ => none
    | .delete t ok =>
      match s.threads[t]? with
      | some (.live signal timer) =>
        if ok then
          some ({ s with
            timers := Function.update s.timers timer none
            deleted := timer ::ₘ s.deleted }.set t (.deleted signal))
        else some ({ s with lost := timer ::ₘ s.lost }.set t (.deleted signal))
      | _ => none
    | .unregister t _ =>
      match s.threads[t]? with
      | some (.deleted signal) =>
        -- A query, and its failure is only reported.
        some ({ s with table := sigaction s.table signal .unit }.set t (.dropped signal))
      | _ => none
    | .release t =>
      match s.threads[t]? with
      | some (.dropped signal) =>
        some ({ s with pool := Reusable.release s.pool signal }.set t .none)
      | some (.failing signal) =>
        some ({ s with pool := Reusable.release s.pool signal }.set t .aborting)
      | _ => none
    | .abort t =>
      match s.threads[t]? with
      | some .aborting => some { s with aborted := true }
      | _ => none
    | .tick i =>
      match s.timers i with
      | some ⟨signal, some _⟩ => some { s with pending := insert signal s.pending }
      | _ => none
    | .take signal =>
      if signal ∈ s.pending then some { s with pending := s.pending.erase signal } else none

def initial (table : Signal → A) : Process A :=
  ⟨.new, [], table, fun _ => none, 0, ∅, 0, 0, false⟩

def machine (preempt : A) (quantum : UInt64) : LTS (Process A) Ev :=
  LTS.ofFn (fun s => ∃ table, (∀ signal, table signal ≠ preempt) ∧ s = initial table)
    (step preempt quantum)

/-! ## The steps by what they do -/

/-- `c` and `c'` have the same signal and the same timer. -/
structure Signaler.Same (c c' : Signaler) : Prop where
  signals : c'.signals = c.signals
  timers : c'.timers = c.timers

inductive Moves (preempt : A) (quantum : UInt64) (s : Process A) : Process A → Prop
  | spawn : Moves preempt quantum s { s with threads := s.threads ++ [.none] }
  | assign (t : Nat) (signal : Signal) (p : Pool Signal) (at_ : s.threads[t]? = some .none)
      (pool : tryFrom nextSignal s.pool = (some signal, p)) :
      Moves preempt quantum s ({ s with pool := p }.set t (.assigned signal))
  | refuse (t : Nat) (p : Pool Signal) (at_ : s.threads[t]? = some .none)
      (pool : tryFrom nextSignal s.pool = (none, p)) :
      Moves preempt quantum s { s with pool := p }
  | register (t : Nat) (signal : Signal) (at_ : s.threads[t]? = some (.assigned signal)) :
      Moves preempt quantum s
        ({ s with table := Function.update s.table signal preempt }.set t (.registered signal))
  | goes (t : Nat) (c c' : Signaler) (at_ : s.threads[t]? = some c) (same : c.Same c')
      (registered : ∀ signal, c' = .masked signal → c = .registered signal)
      (plain : c'.timers = 0 ∧ ∀ signal, c' ≠ .registered signal) (early : c.failed = false)
      (view : c'.failed = false →
        c'.disposition = c.disposition ∨ ∃ signal, c = .deleted signal ∧ c' = .dropped signal) :
      Moves preempt quantum s (s.set t c')
  | create (t : Nat) (signal : Signal) (at_ : s.threads[t]? = some (.masked signal)) :
      Moves preempt quantum s
        ({ s with
          timers := Function.update s.timers s.made (some ⟨signal, none⟩)
          made := s.made + 1 }.set t (.created signal s.made))
  | arm (t : Nat) (signal : Signal) (timer : Nat)
      (at_ : s.threads[t]? = some (.created signal timer)) :
      Moves preempt quantum s
        ({ s with
          timers := Function.update s.timers timer (some ⟨signal, some (itimerspec quantum)⟩) }.set
            t (.live signal timer))
  | lose (t : Nat) (c c' : Signaler) (timer : Nat) (at_ : s.threads[t]? = some c)
      (signals : c'.signals = c.signals) (timers : c.timers = {timer})
      (plain : c'.timers = 0 ∧ ∀ signal, c' ≠ .registered signal ∧ c' ≠ .masked signal)
      (early : c.failed = false) (view : c'.failed = false → c'.disposition = c.disposition) :
      Moves preempt quantum s ({ s with lost := timer ::ₘ s.lost }.set t c')
  | delete (t : Nat) (signal : Signal) (timer : Nat)
      (at_ : s.threads[t]? = some (.live signal timer)) :
      Moves preempt quantum s
        ({ s with
          timers := Function.update s.timers timer none
          deleted := timer ::ₘ s.deleted }.set t (.deleted signal))
  | release (t : Nat) (c c' : Signaler) (signal : Signal) (at_ : s.threads[t]? = some c)
      (signals : c.signals = {signal}) (timers : c.timers = 0) (gone : c' = .none ∨ c' = .aborting)
      (view : c'.failed = false → c = .dropped signal ∧ c' = .none) :
      Moves preempt quantum s ({ s with pool := Reusable.release s.pool signal }.set t c')
  | abort : Moves preempt quantum s { s with aborted := true }
  | tick (i : Nat) (timer : Timer) (at_ : s.timers i = some timer) :
      Moves preempt quantum s { s with pending := insert timer.signal s.pending }
  | take (signal : Signal) : Moves preempt quantum s { s with pending := s.pending.erase signal }

section
variable {preempt : A} {quantum : UInt64} {s s' : Process A} {e : Ev}

theorem step_moves (hs : step preempt quantum s e = some s') : Moves preempt quantum s s' := by
  unfold step at hs
  split at hs
  · cases hs
  cases e with
  | spawn => cases hs; exact .spawn
  | assign t =>
    dsimp only at hs
    split at hs
    · rename_i ht
      split at hs
      · rename_i signal p hp
        cases hs
        exact .assign t signal p ht hp
      · rename_i p hp
        cases hs
        exact .refuse t p ht hp
    · cases hs
  | sigaction t ok =>
    dsimp only at hs
    split at hs
    · rename_i signal ht
      split at hs <;> cases hs
      · exact .register t signal ht
      · exact .goes t _ _ ht ⟨rfl, rfl⟩ (by simp) ⟨rfl, by simp⟩ rfl (by simp [Signaler.failed])
    · cases hs
  | mask t ok =>
    dsimp only at hs
    split at hs
    · rename_i signal ht
      cases hs
      cases ok
      · exact .goes t _ _ ht ⟨rfl, rfl⟩ (by simp) ⟨rfl, by simp⟩ rfl (by simp [Signaler.failed])
      · exact .goes t _ _ ht ⟨rfl, rfl⟩ (by simp) ⟨rfl, by simp⟩ rfl fun _ => .inl rfl
    · cases hs
  | create t ok =>
    dsimp only at hs
    split at hs
    · rename_i signal ht
      split at hs <;> cases hs
      · exact .create t signal ht
      · exact .goes t _ _ ht ⟨rfl, rfl⟩ (by simp) ⟨rfl, by simp⟩ rfl (by simp [Signaler.failed])
    · cases hs
  | settime t ok =>
    dsimp only at hs
    split at hs
    · rename_i signal timer ht
      split at hs <;> cases hs
      · exact .arm t signal timer ht
      · exact .lose t _ _ timer ht rfl rfl ⟨rfl, by simp⟩ rfl (by simp [Signaler.failed])
    · cases hs
  | delete t ok =>
    dsimp only at hs
    split at hs
    · rename_i signal timer ht
      split at hs <;> cases hs
      · exact .delete t signal timer ht
      · exact .lose t _ _ timer ht rfl rfl ⟨rfl, by simp⟩ rfl fun _ => rfl
    · cases hs
  | unregister t ok =>
    dsimp only at hs
    split at hs
    · rename_i signal ht
      cases hs
      exact .goes t _ _ ht ⟨rfl, rfl⟩ (by simp) ⟨rfl, by simp⟩ rfl fun _ => .inr ⟨signal, rfl, rfl⟩
    · cases hs
  | release t =>
    dsimp only at hs
    split at hs
    · rename_i signal ht
      cases hs
      exact .release t _ _ signal ht rfl rfl (.inl rfl) fun _ => ⟨rfl, rfl⟩
    · rename_i signal ht
      cases hs
      exact .release t _ _ signal ht rfl rfl (.inr rfl) (by simp [Signaler.failed])
    · cases hs
  | abort t =>
    dsimp only at hs
    split at hs
    · cases hs; exact .abort
    · cases hs
  | tick i =>
    dsimp only at hs
    split at hs
    · rename_i signal it hi
      cases hs
      exact .tick i ⟨signal, some it⟩ hi
    · cases hs
  | take signal =>
    dsimp only at hs
    split at hs
    · cases hs; exact .take signal
    · cases hs

/-! ## Every signal and every timer is in one place -/

def Conserved (s : Process A) : Prop :=
  held Signaler.signals s.threads + (s.pool.free : Multiset Signal) =
    produced nextSignal s.pool.calls

/-- A thread keeps its signal. -/
theorem held_same {f : Signaler → Multiset Signal} {l : List Signaler} {t : Nat} {c c' : Signaler}
    (ht : l[t]? = some c) (hc : f c' = f c) : held f (l.set t c') = held f l := by
  obtain ⟨m, hm, hm'⟩ := held_set (f := f) ht c'
  rw [hm', hc, hm]

theorem Conserved.moves (h : Conserved s) (hm : Moves preempt quantum s s') : Conserved s' := by
  -- The pool is as it was.
  have keeps {t : Nat} {c c' : Signaler} (ht : s.threads[t]? = some c)
      (hc : c'.signals = c.signals) :
      held Signaler.signals (s.threads.set t c') + (s.pool.free : Multiset Signal) =
        produced nextSignal s.pool.calls := by
    rw [held_same ht hc]
    exact h
  cases hm with
  | spawn => simpa [Conserved, held_append, Signaler.signals] using h
  | assign t signal p at_ pool =>
    obtain ⟨m, hm, hm'⟩ := held_set (f := Signaler.signals) at_ (.assigned signal)
    have hc := tryFrom_conserves nextSignal s.pool _ h
    rw [pool, hm] at hc
    simpa [Conserved, Process.set, hm', Signaler.signals, add_assoc] using hc
  | refuse t p at_ pool =>
    have hc := tryFrom_conserves nextSignal s.pool _ h
    rw [pool] at hc
    simpa [Conserved] using hc
  | register t signal at_ => exact keeps at_ rfl
  | goes t c c' at_ same => exact keeps at_ same.signals
  | create t signal at_ => exact keeps at_ rfl
  | arm t signal timer at_ => exact keeps at_ rfl
  | lose t c c' timer at_ signals => exact keeps at_ signals
  | delete t signal timer at_ => exact keeps at_ rfl
  | release t c c' signal at_ signals timers gone =>
    obtain ⟨m, hm, hm'⟩ := held_set (f := Signaler.signals) at_ c'
    have hc' : c'.signals = 0 := by rcases gone with rfl | rfl <;> rfl
    refine release_conserves nextSignal s.pool _ signal ?_
    rw [Process.set, hm', hc', zero_add, ← signals, ← hm]
    exact h
  | abort => exact h
  | tick => exact h
  | take => exact h

/-- A thread's timer is as it has set it. -/
def Signaler.Owns (quantum : UInt64) (timers : Nat → Option Timer) : Signaler → Prop
  | .created signal timer => timers timer = some ⟨signal, Option.none⟩
  | .live signal timer => timers timer = some ⟨signal, some (itimerspec quantum)⟩
  | _ => True

theorem Signaler.owns_of_timers {timers : Nat → Option Timer} {c : Signaler} (h : c.timers = 0) :
    c.Owns quantum timers := by
  cases c <;> first | trivial | exact absurd h (Multiset.singleton_ne_zero _)

/-- Only its own timer matters to a thread. -/
theorem Signaler.Owns.congr {timers timers' : Nat → Option Timer} {c : Signaler}
    (h : c.Owns quantum timers) (hi : ∀ i ∈ c.timers, timers' i = timers i) :
    c.Owns quantum timers' := by
  cases c with
  | created signal timer => exact (hi timer (Multiset.mem_singleton_self timer)).trans h
  | live signal timer => exact (hi timer (Multiset.mem_singleton_self timer)).trans h
  | _ => trivial

structure TimersOk (quantum : UInt64) (s : Process A) : Prop where
  bag : held Signaler.timers s.threads + (s.lost + s.deleted) = produced some s.made
  owned : ∀ (t : Nat) (c : Signaler), s.threads[t]? = some c → c.Owns quantum s.timers
  deleted : ∀ i ∈ s.deleted, s.timers i = none
  fresh : ∀ i, s.made ≤ i → s.timers i = none

theorem TimersOk.nodup (h : TimersOk quantum s) :
    (held Signaler.timers s.threads + (s.lost + s.deleted)).Nodup := by
  rw [h.bag]
  refine produced_nodup ?_
  intro i hi j hj v hv hv'
  exact (Option.some.inj hv).trans (Option.some.inj hv').symm

theorem TimersOk.lt_made (h : TimersOk quantum s) {i : Nat}
    (hi : i ∈ held Signaler.timers s.threads + (s.lost + s.deleted)) : i < s.made := by
  rw [h.bag] at hi
  obtain ⟨j, hj, hv⟩ := mem_produced.mp hi
  cases hv
  exact hj

theorem TimersOk.timer_lt (h : TimersOk quantum s) {t i : Nat} {c : Signaler}
    (ht : s.threads[t]? = some c) (hi : i ∈ c.timers) : i < s.made := by
  obtain ⟨m, hm⟩ := held_split (f := Signaler.timers) ht
  refine h.lt_made ?_
  rw [hm, add_assoc]
  exact Multiset.mem_add.mpr (.inl hi)

/-- One thread goes on. It may change its own timer and make new ones, and every
timer that it gives up is lost or deleted. -/
theorem TimersOk.change {t : Nat} {c c' : Signaler} (h : TimersOk quantum s)
    (ht : s.threads[t]? = some c) (hth : s'.threads = s.threads.set t c') (hmade : s.made ≤ s'.made)
    (hbag : c'.timers + (s'.lost + s'.deleted) + produced some s.made =
      c.timers + (s.lost + s.deleted) + produced some s'.made)
    (hagree : ∀ i, i ∉ c.timers → i < s.made ∨ s'.made ≤ i → s'.timers i = s.timers i)
    (hown : c'.Owns quantum s'.timers)
    (hdel : ∀ i ∈ s'.deleted, i ∈ s.deleted ∨ s'.timers i = none) :
    TimersOk quantum s' := by
  refine ⟨?_, ?_, ?_, ?_⟩
  · obtain ⟨m, hm, hm'⟩ := held_set (f := Signaler.timers) ht c'
    have hold := h.bag
    rw [hm] at hold
    rw [hth, hm']
    refine add_right_cancel (b := produced some s.made) ?_
    calc c'.timers + m + (s'.lost + s'.deleted) + produced some s.made
        = m + (c'.timers + (s'.lost + s'.deleted) + produced some s.made) := by abel
      _ = c.timers + m + (s.lost + s.deleted) + produced some s'.made := by rw [hbag]; abel
      _ = produced some s'.made + produced some s.made := by rw [hold, add_comm]
  · intro u d hu
    rw [hth] at hu
    rcases cell_of_set hu with ⟨-, rfl⟩ | ⟨hne, hu⟩
    · exact hown
    · refine (h.owned u d hu).congr fun i hi =>
        hagree i (fun hc => hne ?_) (.inl (h.timer_lt hu hi))
      exact held_unique h.nodup hu ht hi hc
  · intro i hi
    rcases hdel i hi with hi | hi
    · have hlt := h.lt_made (Multiset.mem_add.mpr (.inr (Multiset.mem_add.mpr (.inr hi))))
      rw [hagree i (fun hc => held_not_free h.nodup ht hc (Multiset.mem_add.mpr (.inr hi)))
        (.inl hlt)]
      exact h.deleted i hi
    · exact hi
  · intro i hi
    rw [hagree i (fun hc => absurd (h.timer_lt ht hc) (by omega)) (.inr hi)]
    exact h.fresh i (by omega)

theorem TimersOk.moves (h : TimersOk quantum s) (hm : Moves preempt quantum s s') :
    TimersOk quantum s' := by
  cases hm with
  | spawn =>
    refine ⟨by simpa [held_append, Signaler.timers] using h.bag, ?_, h.deleted, h.fresh⟩
    intro t c ht
    rcases List.mem_append.mp (List.mem_of_getElem? ht) with hc | hc
    · obtain ⟨u, hu⟩ := List.getElem?_of_mem hc
      exact h.owned u c hu
    · cases List.mem_singleton.mp hc
      trivial
  | assign t signal p at_ pool =>
    exact h.change at_ rfl le_rfl rfl (fun i _ _ => rfl) trivial fun i hi => .inl hi
  | refuse t p at_ pool => exact ⟨h.bag, h.owned, h.deleted, h.fresh⟩
  | register t signal at_ =>
    exact h.change at_ rfl le_rfl rfl (fun i _ _ => rfl) trivial fun i hi => .inl hi
  | goes t c c' at_ same registered plain =>
    refine h.change at_ rfl le_rfl ?_ (fun i _ _ => rfl) (Signaler.owns_of_timers plain.1)
      fun i hi => .inl hi
    exact congrArg (· + _ + _) same.timers
  | create t signal at_ =>
    refine h.change at_ rfl (Nat.le_succ _) ?_ (fun i _ hi => ?_) (Function.update_self ..)
      fun i hi => .inl hi
    · simp only [Process.set, Signaler.timers, produced_succ, Option.toList_some,
        Multiset.coe_singleton]
      abel
    · refine Function.update_of_ne ?_ _ _
      rintro rfl
      simp only [Process.set] at hi
      omega
  | arm t signal timer at_ =>
    refine h.change at_ rfl le_rfl rfl (fun i hi _ => ?_) (Function.update_self ..) fun i hi =>
      .inl hi
    exact Function.update_of_ne (fun he => hi (Multiset.mem_singleton.mpr he)) _ _
  | lose t c c' timer at_ signals timers plain =>
    refine h.change at_ rfl le_rfl ?_ (fun i _ _ => rfl) (Signaler.owns_of_timers plain.1)
      fun i hi => .inl hi
    simp only [Process.set, timers, plain.1, ← Multiset.singleton_add]
    abel
  | delete t signal timer at_ =>
    refine h.change at_ rfl le_rfl ?_ (fun i hi _ => ?_) trivial fun i hi => ?_
    · simp only [Process.set, Signaler.timers, ← Multiset.singleton_add]
      abel
    · exact Function.update_of_ne (fun he => hi (Multiset.mem_singleton.mpr he)) _ _
    · rcases Multiset.mem_cons.mp hi with rfl | hi
      · exact .inr (Function.update_self ..)
      · exact .inl hi
  | release t c c' signal at_ signals timers gone =>
    have hc' : c'.timers = 0 := by rcases gone with rfl | rfl <;> rfl
    refine h.change at_ rfl le_rfl ?_ (fun i _ _ => rfl) (Signaler.owns_of_timers hc') fun i hi =>
      .inl hi
    exact congrArg (· + _ + _) (hc'.trans timers.symm)
  | abort => exact ⟨h.bag, h.owned, h.deleted, h.fresh⟩
  | tick => exact ⟨h.bag, h.owned, h.deleted, h.fresh⟩
  | take => exact ⟨h.bag, h.owned, h.deleted, h.fresh⟩

/-! ## The handler -/

/-- Nothing takes libinger's action away from a signal. -/
theorem Moves.table (hm : Moves preempt quantum s s') {signal : Signal}
    (h : s.table signal = preempt) :
    s'.table signal = preempt := by
  cases hm with
  | register t signal' at_ =>
    by_cases he : signal = signal'
    · exact he ▸ Function.update_self ..
    · exact (Function.update_of_ne he _ _).trans h
  | _ => exact h

/-- Everything that can make a signal arrive has come after its registration. -/
structure Handled (preempt : A) (s : Process A) : Prop where
  threads : ∀ c ∈ s.threads, ∀ signal, c = .registered signal ∨ c = .masked signal →
    s.table signal = preempt
  timers : ∀ i timer, s.timers i = some timer → s.table timer.signal = preempt
  pending : ∀ signal ∈ s.pending, s.table signal = preempt

theorem Handled.moves (h : Handled preempt s) (hok : TimersOk quantum s)
    (hm : Moves preempt quantum s s') :
    Handled preempt s' := by
  have kept {signal : Signal} (hs : s.table signal = preempt) := hm.table hs
  have others {c : Signaler} (hc : c ∈ s.threads) (signal : Signal)
      (he : c = .registered signal ∨ c = .masked signal) := kept (h.threads c hc signal he)
  have timers (i : Nat) (timer : Timer) (hi : s.timers i = some timer) := kept (h.timers i timer hi)
  have pending (signal : Signal) (hs : signal ∈ s.pending) := kept (h.pending signal hs)
  -- What the thread that goes on is now has to be shown only for a handler that is new.
  have one {t : Nat} {c : Signaler}
      (hnew : ∀ signal, c = .registered signal ∨ c = .masked signal → s'.table signal = preempt) :
      ∀ d ∈ s.threads.set t c, ∀ signal, d = .registered signal ∨ d = .masked signal →
        s'.table signal = preempt := by
    intro d hd signal he
    rcases List.mem_or_eq_of_mem_set hd with hd | rfl
    · exact others hd signal he
    · exact hnew signal he
  cases hm with
  | spawn =>
    refine ⟨fun c hc signal he => ?_, timers, pending⟩
    rcases List.mem_append.mp hc with hc | hc
    · exact others hc signal he
    · cases List.mem_singleton.mp hc
      simp at he
  | assign t signal p at_ pool => exact ⟨one (by simp), timers, pending⟩
  | refuse t p at_ pool => exact ⟨fun c hc => others hc, timers, pending⟩
  | register t signal at_ =>
    refine ⟨one fun signal' he => ?_, timers, pending⟩
    obtain rfl : signal = signal' := by simpa using he
    exact Function.update_self ..
  | goes t c c' at_ same registered plain =>
    refine ⟨one fun signal he => ?_, timers, pending⟩
    have hc := registered signal (he.resolve_left (plain.2 signal))
    exact others (List.mem_of_getElem? at_) signal (.inl hc)
  | create t signal at_ =>
    refine ⟨one (by simp), fun i timer hi => ?_, pending⟩
    by_cases he : i = s.made
    · subst he
      cases (Function.update_self ..).symm.trans hi
      exact others (List.mem_of_getElem? at_) signal (.inr rfl)
    · exact timers i timer ((Function.update_of_ne he _ _).symm.trans hi)
  | arm t signal timer at_ =>
    refine ⟨one (by simp), fun i timer' hi => ?_, pending⟩
    by_cases he : i = timer
    · subst he
      cases (Function.update_self ..).symm.trans hi
      exact timers i ⟨signal, none⟩ (hok.owned t _ at_)
    · exact timers i timer' ((Function.update_of_ne he _ _).symm.trans hi)
  | lose t c c' timer at_ signals _ plain =>
    refine ⟨one fun signal he => ?_, timers, pending⟩
    exact (he.elim (plain.2 signal).1 (plain.2 signal).2).elim
  | delete t signal timer at_ =>
    refine ⟨one (by simp), fun i timer' hi => ?_, pending⟩
    by_cases he : i = timer
    · subst he
      exact absurd ((Function.update_self ..).symm.trans hi) (Option.some_ne_none _).symm
    · exact timers i timer' ((Function.update_of_ne he _ _).symm.trans hi)
  | release t c c' signal at_ signals _ gone =>
    refine ⟨one fun signal' he => ?_, timers, pending⟩
    rcases gone with rfl | rfl <;> simp at he
  | abort => exact ⟨fun c hc => others hc, timers, pending⟩
  | tick i timer at_ =>
    refine ⟨fun c hc => others hc, timers, fun signal hs => ?_⟩
    rcases Finset.mem_insert.mp hs with rfl | hs
    · exact timers i timer at_
    · exact pending signal hs
  | take signal =>
    refine ⟨fun c hc => others hc, timers, fun signal' hs => ?_⟩
    exact pending signal' (Finset.mem_of_mem_erase hs)

/-! ## What holds of every run -/

structure Inv (preempt : A) (quantum : UInt64) (s : Process A) : Prop where
  conserved : Conserved s
  timers : TimersOk quantum s
  handled : Handled preempt s

theorem inv_reachable (hr : (machine preempt quantum).Reachable s) : Inv preempt quantum s := by
  refine LTS.Inductive.reachable (M := machine preempt quantum) ⟨?_, ?_⟩ s hr
  · rintro s ⟨table, -, rfl⟩
    refine ⟨rfl, ⟨rfl, ?_, ?_, fun i _ => rfl⟩, ?_, ?_, ?_⟩ <;> simp [initial]
  · intro s e s' h hs
    have hm := step_moves hs
    exact ⟨h.conserved.moves hm, h.timers.moves hm, h.handled.moves h.timers hm⟩

/-- **A tick finds its handler.** Whatever system call fails, and in every order
of the threads' steps: the signals that timers send, those of threads that have
exited and of timers nobody can delete any more included, and the signals that
have been sent and not yet arrived, have libinger's handler. -/
theorem ticks_find_handler (hr : (machine preempt quantum).Reachable s) :
    (∀ i timer, s.timers i = some timer → s.table timer.signal = preempt) ∧
      ∀ signal ∈ s.pending, s.table signal = preempt :=
  ⟨(inv_reachable hr).handled.timers, (inv_reachable hr).handled.pending⟩

/-- While no timer is lost, a timer that exists is that of a thread. -/
theorem TimersOk.owner (h : TimersOk quantum s) (hlost : s.lost = 0) {i : Nat} {timer : Timer}
    (hi : s.timers i = some timer) : ∃ c ∈ s.threads, i ∈ c.timers := by
  have hlt : i < s.made := by
    by_contra hge
    rw [h.fresh i (by omega)] at hi
    cases hi
  have hmem : i ∈ held Signaler.timers s.threads + (s.lost + s.deleted) := by
    rw [h.bag]
    exact mem_produced.mpr ⟨i, hlt, rfl⟩
  rw [hlost, zero_add] at hmem
  rcases Multiset.mem_add.mp hmem with hmem | hmem
  · exact mem_held.mp hmem
  · rw [h.deleted i hmem] at hi
    cases hi

/-- An armed timer is that of a live `PreemptionSignal`. -/
theorem TimersOk.armed_iff (h : TimersOk quantum s) (hlost : s.lost = 0) (i : Nat) (signal : Signal)
    (it : Itimerspec) :
    s.timers i = some ⟨signal, some it⟩ ↔ it = itimerspec quantum ∧ .live signal i ∈ s.threads := by
  constructor
  · intro hi
    obtain ⟨c, hc, hic⟩ := h.owner hlost hi
    obtain ⟨t, ht⟩ := List.getElem?_of_mem hc
    have ho := h.owned t c ht
    cases c with
    | created signal' timer =>
      obtain rfl := Multiset.mem_singleton.mp hic
      cases ho.symm.trans hi
    | live signal' timer =>
      obtain rfl := Multiset.mem_singleton.mp hic
      cases ho.symm.trans hi
      exact ⟨rfl, hc⟩
    | _ => exact absurd hic (Multiset.notMem_zero i)
  · rintro ⟨rfl, hc⟩
    obtain ⟨t, ht⟩ := List.getElem?_of_mem hc
    exact h.owned t _ ht

theorem Conserved.nodup (h : Conserved s) (hn : s.pool.calls < 2 ^ 64) :
    (held Signaler.signals s.threads + (s.pool.free : Multiset Signal)).Nodup := by
  rw [h]
  exact produced_nodup (nextSignal_distinct hn.le)

/-- **Timers follow their holders.** In every order of the threads' steps, as long
as no timer has been lost: the armed timers are exactly those of the live
`PreemptionSignal`s, with their interval; a signal in the pool is sent by none of
them, and no signal by two. -/
theorem timers_follow_holders (hr : (machine preempt quantum).Reachable s)
    (hn : s.pool.calls < 2 ^ 64) (hlost : s.lost = 0) :
    (∀ i signal it, s.timers i = some ⟨signal, some it⟩ ↔
      it = itimerspec quantum ∧ .live signal i ∈ s.threads) ∧
    (∀ i signal it, s.timers i = some ⟨signal, some it⟩ → signal ∉ s.pool.free) ∧
    ∀ i j signal it it', s.timers i = some ⟨signal, some it⟩ →
      s.timers j = some ⟨signal, some it'⟩ →
      i = j := by
  have harmed := (inv_reachable hr).timers.armed_iff hlost
  have hnd := (inv_reachable hr).conserved.nodup hn
  refine ⟨harmed, ?_, ?_⟩
  · intro i signal it hi
    obtain ⟨t, ht⟩ := List.getElem?_of_mem ((harmed i signal it).mp hi).2
    exact held_not_free hnd ht (Multiset.mem_singleton_self signal)
  · intro i j signal it it' hi hj
    obtain ⟨t, ht⟩ := List.getElem?_of_mem ((harmed i signal it).mp hi).2
    obtain ⟨u, hu⟩ := List.getElem?_of_mem ((harmed j signal it').mp hj).2
    obtain rfl := held_unique hnd ht hu (Multiset.mem_singleton_self signal)
      (Multiset.mem_singleton_self signal)
    cases ht.symm.trans hu
    rfl

end

/-- A list of steps, executed from a table without libinger's action. -/
theorem timers_of_exec (quantum : UInt64) (es : List Ev) (p : Process Bool → Bool)
    (h : (LTS.exec (step true quantum) (initial fun _ => false) es).map p = some true) :
    ∃ s, (machine true quantum).Reachable s ∧ p s = true :=
  LTS.reach_of_exec ⟨_, fun _ => Bool.false_ne_true, rfl⟩ h

/-- What a thread does to become the holder of a signal. -/
def acquire (t : Nat) : List Ev :=
  [.assign t, .sigaction t true, .mask t true, .create t true, .settime t true]

/-- A thread has SIGALRM and exits; a tick of its timer is still to arrive. -/
theorem ticks_find_handler_late :
    ∃ s : Process Bool, (machine true 100).Reachable s ∧ s.threads = [.none] ∧
      s.pending = {.Alarm} ∧
      s.table .Alarm = true := by
  obtain ⟨s, hr, hp⟩ := timers_of_exec 100
    ([.spawn] ++ acquire 0 ++ [.tick 0, .delete 0 true, .unregister 0 true, .release 0])
    (fun s => decide (s.threads = [.none] ∧ s.pending = {.Alarm})) (by decide)
  obtain ⟨hth, hpend⟩ := of_decide_eq_true hp
  refine ⟨s, hr, hth, hpend, (ticks_find_handler hr).2 .Alarm ?_⟩
  rw [hpend]
  exact Finset.mem_singleton_self _

/-- Two threads with a signal each, a third that has given its signal back. -/
theorem timers_follow_holders_twoThreads :
    ∃ s : Process Bool, (machine true 100).Reachable s ∧
      s.threads = [.none, .live .VirtualAlarm 1, .live .Alarm 2] ∧
      ∀ i signal it, s.timers i = some ⟨signal, some it⟩ ↔
        it = itimerspec 100 ∧ .live signal i ∈ s.threads := by
  obtain ⟨s, hr, hp⟩ := timers_of_exec 100
    ([.spawn, .spawn, .spawn] ++ acquire 0 ++ acquire 1 ++
      [.delete 0 true, .unregister 0 true, .release 0] ++ acquire 2)
    (fun s => decide (s.threads = [.none, .live .VirtualAlarm 1, .live .Alarm 2] ∧
      s.pool.calls < 2 ^ 64 ∧ s.lost = 0)) (by decide)
  obtain ⟨hth, hn, hlost⟩ := of_decide_eq_true hp
  exact ⟨s, hr, hth, (timers_follow_holders hr hn hlost).1⟩

/-- The hypothesis is needed: `timer_delete` fails when a thread exits, and the
next holder of SIGALRM is sent the ticks of two timers. -/
theorem failed_delete_doubles_ticks :
    ∃ s : Process Bool, (machine true 100).Reachable s ∧ s.threads = [.live .Alarm 1] ∧
      s.timers 0 = some ⟨.Alarm, some (itimerspec 100)⟩ ∧
      s.timers 1 = some ⟨.Alarm, some (itimerspec 100)⟩ := by
  obtain ⟨s, hr, hp⟩ := timers_of_exec 100
    ([.spawn] ++ acquire 0 ++ [.delete 0 false, .unregister 0 true, .release 0] ++ acquire 0)
    (fun s => decide (s.threads = [.live .Alarm 1] ∧
      s.timers 0 = some ⟨.Alarm, some (itimerspec 100)⟩ ∧
      s.timers 1 = some ⟨.Alarm, some (itimerspec 100)⟩)) (by decide)
  exact ⟨s, hr, of_decide_eq_true hp⟩

/-! ## Without the timers -/

section
variable {preempt : A} {quantum : UInt64} {s s' : Process A} {d : Dispositions.Process A}

/-- No `new` has returned early. -/
def Sound (s : Process A) : Prop := ∀ c ∈ s.threads, c.failed = false

instance (s : Process A) : Decidable (Sound s) :=
  inferInstanceAs (Decidable (∀ c ∈ s.threads, c.failed = false))

structure Refines (s : Process A) (d : Dispositions.Process A) : Prop where
  pool : d.pool = s.pool
  threads : d.threads = s.threads.map Signaler.disposition
  table : d.table = s.table

theorem Sound.of_set {t : Nat} {c c' : Signaler} (h : ∀ d ∈ s.threads.set t c', d.failed = false)
    (ht : s.threads[t]? = some c) (hc : c.failed = false) : Sound s := by
  intro d hd
  obtain ⟨u, hu⟩ := List.getElem?_of_mem hd
  by_cases he : u = t
  · subst he
    cases ht.symm.trans hu
    exact hc
  · refine h d (List.mem_of_getElem? (i := u) ?_)
    rw [List.getElem?_set_ne (Ne.symm he)]
    exact hu

theorem self_mem_set {t : Nat} {c c' : Signaler} (ht : s.threads[t]? = some c) :
    c' ∈ s.threads.set t c' :=
  List.mem_set (List.getElem?_eq_some_iff.mp ht).1 c'

/-- An early return stays: the thread gives its signal back and aborts. -/
theorem Sound.before (hm : Moves preempt quantum s s') (h : Sound s') : Sound s := by
  cases hm with
  | spawn => exact fun c hc => h c (List.mem_append_left _ hc)
  | assign t signal p at_ pool => exact .of_set h at_ rfl
  | register t signal at_ => exact .of_set h at_ rfl
  | goes t c c' at_ same registered plain early view => exact .of_set h at_ early
  | create t signal at_ => exact .of_set h at_ rfl
  | arm t signal timer at_ => exact .of_set h at_ rfl
  | lose t c c' timer at_ signals timers plain early view => exact .of_set h at_ early
  | delete t signal timer at_ => exact .of_set h at_ rfl
  | release t c c' signal at_ signals timers gone view =>
    obtain ⟨rfl, -⟩ := view (h c' (self_mem_set at_))
    exact .of_set h at_ rfl
  | _ => exact h

theorem Refines.cell (h : Refines s d) {t : Nat} {c : Signaler} (ht : s.threads[t]? = some c) :
    d.threads[t]? = some c.disposition := by
  rw [h.threads, List.getElem?_map, ht]
  rfl

/-- A step that `Dispositions` does not see. -/
theorem Refines.stutters (h : Refines s d) {t : Nat} {c c' : Signaler} (ht : s.threads[t]? = some c)
    (hth : s'.threads = s.threads.set t c') (hc : c'.disposition = c.disposition)
    (hpool : s'.pool = s.pool) (htab : s'.table = s.table) :
    ∃ es d', (Dispositions.machine preempt).Run d es d' ∧ Refines s' d' := by
  refine ⟨[], d, .nil d, h.pool.trans hpool.symm, ?_, h.table.trans htab.symm⟩
  rw [hth, List.map_set, hc, ← h.threads]
  obtain ⟨hlt, he⟩ := List.getElem?_eq_some_iff.mp (h.cell ht)
  rw [← he, List.set_getElem_self hlt]

/-- A step that is one of `Dispositions`. -/
theorem Refines.steps (e : Dispositions.Ev) (d' : Dispositions.Process A)
    (hs : Dispositions.step preempt d e = some d') (h : Refines s' d') :
    ∃ es d', (Dispositions.machine preempt).Run d es d' ∧ Refines s' d' :=
  ⟨[e], d', .cons hs (.nil d'), h⟩

theorem Refines.moves (h : Refines s d) (hm : Moves preempt quantum s s') (hs : Sound s') :
    ∃ es d', (Dispositions.machine preempt).Run d es d' ∧ Refines s' d' := by
  cases hm with
  | spawn =>
    refine Refines.steps .spawn _ rfl ⟨h.pool, ?_, h.table⟩
    simp [h.threads, Signaler.disposition]
  | assign t signal p at_ pool =>
    refine Refines.steps (.assign t)
      { d with pool := p, threads := d.threads.set t (.assigned signal) } ?_
      ⟨rfl, ?_, h.table⟩
    · simp [Dispositions.step, h.cell at_, Signaler.disposition, h.pool, pool]
    · simp [Process.set, h.threads, List.map_set, Signaler.disposition]
  | refuse t p at_ pool =>
    refine Refines.steps (.assign t) { d with pool := p } ?_ ⟨rfl, h.threads, h.table⟩
    simp [Dispositions.step, h.cell at_, Signaler.disposition, h.pool, pool]
  | register t signal at_ =>
    refine Refines.steps (.register t) { d with
      threads := d.threads.set t (.live signal)
      table := sigaction d.table signal (.sigaction preempt)
      registered := insert signal d.registered } ?_ ⟨h.pool, ?_, ?_⟩
    · simp [Dispositions.step, h.cell at_, Signaler.disposition]
    · simp [Process.set, h.threads, List.map_set, Signaler.disposition]
    · simp [Process.set, h.table, sigaction, Actionable.maybe]
  | goes t c c' at_ same registered plain early view =>
    rcases view (hs c' (self_mem_set at_)) with hc | ⟨signal, rfl, rfl⟩
    · exact h.stutters at_ rfl hc rfl rfl
    · refine Refines.steps (.drop t) { d with
        threads := d.threads.set t (.dropped signal)
        table := sigaction d.table signal .unit } ?_ ⟨h.pool, ?_, h.table⟩
      · simp [Dispositions.step, h.cell at_, Signaler.disposition]
      · simp [Process.set, h.threads, List.map_set, Signaler.disposition]
  | create t signal at_ => exact h.stutters at_ rfl rfl rfl rfl
  | arm t signal timer at_ => exact h.stutters at_ rfl rfl rfl rfl
  | lose t c c' timer at_ signals timers plain early view =>
    exact h.stutters at_ rfl (view (hs c' (self_mem_set at_))) rfl rfl
  | delete t signal timer at_ => exact h.stutters at_ rfl rfl rfl rfl
  | release t c c' signal at_ signals timers gone view =>
    obtain ⟨rfl, rfl⟩ := view (hs c' (self_mem_set at_))
    refine Refines.steps (.release t) { d with
      pool := Reusable.release d.pool signal
      threads := d.threads.set t .none } ?_ ⟨?_, ?_, h.table⟩
    · simp [Dispositions.step, h.cell at_, Signaler.disposition]
    · simp [Process.set, h.pool]
    · simp [Process.set, h.threads, List.map_set, Signaler.disposition]
  | abort => exact ⟨[], d, .nil d, h.pool, h.threads, h.table⟩
  | tick => exact ⟨[], d, .nil d, h.pool, h.threads, h.table⟩
  | take => exact ⟨[], d, .nil d, h.pool, h.threads, h.table⟩

/-- **The timers refine the dispositions.** As long as no `new` has returned
early, the pool, the table and the threads are those of a run of `Dispositions`,
where `new` registers in one step and the destructor is one step. -/
theorem timers_refine_dispositions (hr : (machine preempt quantum).Reachable s) (hs : Sound s) :
    ∃ d, (Dispositions.machine preempt).Reachable d ∧ Refines s d := by
  refine LTS.Inductive.reachable (M := machine preempt quantum)
    (I := fun s => Sound s → ∃ d, (Dispositions.machine preempt).Reachable d ∧ Refines s d)
      ⟨?_, ?_⟩ s hr hs
  · rintro s ⟨table, htable, rfl⟩ -
    exact ⟨Dispositions.initial table, ⟨_, [], ⟨table, htable, rfl⟩, .nil _⟩, rfl, rfl, rfl⟩
  · intro s e s' ih hst hs'
    have hm := step_moves hst
    obtain ⟨d, hd, href⟩ := ih (hs'.before hm)
    obtain ⟨es, d', hrun, href'⟩ := href.moves hm hs'
    exact ⟨d', hd.run hrun, href'⟩

end

/-- A thread between `timer_create` and `timer_settime`, another that exits. -/
theorem timers_refine_dispositions_exits :
    ∃ s : Process Bool, s.threads = [.created .Alarm 1, .deleted .VirtualAlarm] ∧
      ∃ d, (Dispositions.machine true).Reachable d ∧ Refines s d := by
  obtain ⟨s, hr, hp⟩ := timers_of_exec 100
    ([.spawn, .spawn, .assign 0] ++ acquire 1 ++
      [.sigaction 0 true, .mask 0 true, .delete 1 false, .create 0 true])
    (fun s => decide (s.threads = [.created .Alarm 1, .deleted .VirtualAlarm] ∧ Sound s))
      (by decide)
  obtain ⟨hth, hs⟩ := of_decide_eq_true hp
  exact ⟨s, hth, timers_refine_dispositions hr hs⟩

end Inger.L1.Timers
