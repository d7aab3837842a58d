import Inger.L1Pool.Reusable
import Mathlib.Data.Finset.Insert
import Mathlib.Data.Multiset.Basic

/-!
# Preemption signals (`assign_signal`)

The signals of internal/libsignal and the pool of src/signals.rs that hands
one to every thread that runs preemptible functions. The pool's builder reads
an `AtomicUsize` that it bumps on every call, also after the table is
exhausted, so it wraps at 2^64; up to there its results are distinct
(`nextSignal_distinct`), and the pool theorems of `Reusable` apply.

* `pools_exact`: two live threads never hold one signal, a 17th is
  refused, and the signal of a thread that exits is handed out again.
-/
namespace Inger.L1.Signals

open Reusable

/-- mirrors internal/libsignal/src/lib.rs:60-91 -/
inductive Signal where
  | Abort | Alarm | Bus | Breakpoint | Child | Continue | Coprocessor | FilesystemLimit
  | FloatingPoint | Hangup | Illegal | Interrupt | Kill | Pipe | Pollable | ProfilingTimer
  | Quit | Segfault | Syscall | TerminalInput | TerminalOutput | TerminalStop | Terminate
  | PowerFailure | ProcessorLimit | UrgentSocket | User1 | User2 | VirtualAlarm | WindowResize
  deriving DecidableEq, Repr

/-- A signal set (`sigset_t`); `add`, `del` and `has` of the trait `Set` are
`insert`, `erase` and `∈`.
mirrors internal/libsignal/src/lib.rs:100-149 -/
abbrev Sigset := Finset Signal

/-- mirrors src/signals.rs:5-24 -/
def NOTIFICATION_SIGNALS : List Signal :=
  [.Alarm, .VirtualAlarm, .ProfilingTimer, .ProcessorLimit, .FilesystemLimit, .TerminalInput,
   .TerminalOutput, .PowerFailure, .User1, .User2,
   -- A stretch...
   .UrgentSocket, .Pollable, .Syscall, .FloatingPoint, .Hangup, .Child]

/-- The builder of `SIGNALS`: the `i`-th call reads the counter at
`i mod 2^64`.
mirrors src/signals.rs:38-41 -/
def nextSignal (i : Nat) : Option Signal := NOTIFICATION_SIGNALS[i % 2 ^ 64]?

theorem nextSignal_distinct {n : Nat} (hn : n ≤ 2 ^ 64) : Distinct nextSignal n := by
  intro i hi j hj v hiv hjv
  rw [nextSignal, Nat.mod_eq_of_lt (by omega)] at hiv hjv
  have hnd : NOTIFICATION_SIGNALS.Nodup := by decide
  have hlt : i < NOTIFICATION_SIGNALS.length := (List.getElem?_eq_some_iff.mp hiv).1
  exact (List.getElem?_inj hlt hnd).mp (hiv.trans hjv.symm)

theorem nextSignal_exhausted {i : Nat} (h : 16 ≤ i) (hi : i < 2 ^ 64) : nextSignal i = none := by
  rw [nextSignal, Nat.mod_eq_of_lt hi]
  exact List.getElem?_eq_none h

theorem produced_card_le (n : Nat) : Multiset.card (produced nextSignal n) ≤ n := by
  rw [produced, Multiset.coe_card]
  exact (List.length_filterMap_le _ _).trans (by simp)

/-- The pool of signals: `live` are the signals of the running threads. -/
def assignSignal : LTS (St Signal) Ev := lts nextSignal

section
variable (s : St Signal) (hr : assignSignal.Reachable s) (hn : s.pool.calls < 2 ^ 64)
include hr hn

theorem signals_nodup : (s.held + (s.pool.free : Multiset Signal)).Nodup := by
  rw [conserved_reachable nextSignal s hr]
  exact produced_nodup (nextSignal_distinct hn.le)

theorem live_nodup : s.live.Nodup := by
  have h := signals_nodup s hr hn
  rw [St.held, add_assoc] at h
  exact Multiset.coe_nodup.mp (Multiset.nodup_of_le (Multiset.le_add_right _ _) h)

/-- Sixteen signals exist, so sixteen live threads leave none to hand out
and none to build. -/
theorem refused_of_sixteen (h : 16 ≤ s.live.length) : (tryFrom nextSignal s.pool).1 = none := by
  have hc := congrArg Multiset.card (conserved_reachable nextSignal s hr)
  have hle := produced_card_le s.pool.calls
  simp only [St.held, Multiset.card_add, Multiset.coe_card] at hc
  have hcalls : 16 ≤ s.pool.calls := by omega
  rw [tryFrom_fails_iff]
  refine ⟨?_, nextSignal_exhausted hcalls hn⟩
  -- A free seventeenth value would be a seventeenth distinct signal of the table.
  have hnd := signals_nodup s hr hn
  have hsub : s.held + (s.pool.free : Multiset Signal) ⊆
      (NOTIFICATION_SIGNALS : Multiset Signal) := by
    intro v hv
    rw [conserved_reachable nextSignal s hr, mem_produced] at hv
    obtain ⟨i, -, hi⟩ := hv
    exact List.mem_of_getElem? hi
  have hcard := Multiset.card_le_card (Multiset.le_iff_subset hnd |>.mpr hsub)
  simp only [St.held, Multiset.card_add, Multiset.coe_card] at hcard
  have h16 : NOTIFICATION_SIGNALS.length = 16 := by decide
  exact List.length_eq_zero_iff.mp (by omega)

end

/-- The signal of a thread that exits is the next one handed out. -/
theorem assignable_after_exit (s s' : St Signal) (i : Nat) (v : Signal) (hv : s.live[i]? = some v)
    (hs : step nextSignal s (.drop i) = some s') : (tryFrom nextSignal s'.pool).1 = some v := by
  simp only [step, hv, Option.some.injEq] at hs
  subst hs
  rw [tryFrom_release]

/-- **Pools neither lose, duplicate nor over-issue.** For a builder with
pairwise distinct results, over every interleaving: live values and free list
are pairwise distinct and are exactly what the builder has produced, the
builder is called only on an empty free list, and an acquisition fails, with
the free list unchanged, exactly when the free list is empty and the builder
returns `None`. For the signal pool, up to 2^64 builder calls: live threads
hold distinct signals, a 17th is refused, and an exit makes its signal
assignable again. -/
theorem pools_exact {T : Type} (build : Nat → Option T) (hd : ∀ n, Distinct build n) :
    (∀ s, (lts build).Reachable s →
      (s.held + (s.pool.free : Multiset T)).Nodup ∧
      (∀ v, v ∈ s.held + (s.pool.free : Multiset T) ↔ ∃ i < s.pool.calls, build i = some v) ∧
      (∀ e s', step build s e = some s' → s'.pool.calls ≠ s.pool.calls → s.pool.free = []) ∧
      ((tryFrom build s.pool).1 = none ↔ s.pool.free = [] ∧ build s.pool.calls = none) ∧
      ((tryFrom build s.pool).1 = none → (tryFrom build s.pool).2.free = s.pool.free)) ∧
    (∀ s, assignSignal.Reachable s → s.pool.calls < 2 ^ 64 →
      s.live.Nodup ∧
      (16 ≤ s.live.length → (tryFrom nextSignal s.pool).1 = none) ∧
      (∀ i v s', s.live[i]? = some v → step nextSignal s (.drop i) = some s' →
        (tryFrom nextSignal s'.pool).1 = some v)) := by
  refine ⟨fun s hr => ⟨?_, ?_, ?_, tryFrom_fails_iff build s.pool, tryFrom_fails_free build s.pool⟩,
    fun s hr hn => ⟨live_nodup s hr hn, refused_of_sixteen s hr hn, fun i v s' =>
      assignable_after_exit s s' i v⟩⟩
  · rw [conserved_reachable build s hr]
    exact produced_nodup (hd _)
  · intro v
    rw [conserved_reachable build s hr, mem_produced]
  · intro e s' hs hne
    exact ((step_calls build s s' e hs).resolve_left hne).2

/-- The theorem at a builder that numbers its values. -/
theorem pools_exact_counter : (∀ n, Distinct (some : Nat → Option Nat) n) ∧
    ∀ s, (lts (some : Nat → Option Nat)).Reachable s →
      (s.held + (s.pool.free : Multiset Nat)).Nodup := by
  have hd : ∀ n, Distinct (some : Nat → Option Nat) n := by
    intro n i _ j _ v hi hj
    exact (Option.some.inj hi).trans (Option.some.inj hj).symm
  exact ⟨hd, fun s hr => ((pools_exact some hd).1 s hr).1⟩

end Inger.L1.Signals
