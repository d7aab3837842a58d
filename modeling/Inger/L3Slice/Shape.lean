import Inger.L2Machine.Handler

/-!
# What holds of a thread at each point of a slice

`Core t th` says, for every place thread `t` can be in (its program, each step
of `resume`, `schedule`, the function, a handler that has swapped), what the
group, BOOTSTRAP, TASK, SIGNAL, DEFERRED, ERRNO_LOCATION, the closure and the
handlers on the stack are. It holds of every thread in every run without the
`notls` feature, of a debug build and of a release build, with any signals
arriving anywhere and any system call failing: `Step` has the steps of one
thread, `Good` those of `resume` and the process.

Two kinds of handler frames occur. On the caller's own stack the thread's own
signal is blocked, so the handlers are those of other threads' signals and
change nothing (`Calm`). On a function's stack a handler may pause the function,
which leaves the frames below it in the checkpoint (`Paused`); they continue in
a later slice, maybe on another thread.
-/
namespace Inger.L2

variable {V E : Type}

/-! ## Positions on a function's stack -/

/-- `enable_preemption` has switched groups. -/
def EnablePc.switched : EnablePc → Bool
  | .errno => false
  | .location => false
  | .group => false
  | _ => true

/-- `enable_preemption` with a group has read the thread's signal. -/
def EnablePc.asked : EnablePc → Bool
  | .errno => false
  | .location => false
  | .group => false
  | .first => false
  | _ => true

/-- `schedule` has not switched groups: the current one is the caller's. -/
def Pos.entering : Pos → Bool
  | .stamp => true
  | .enable e => e.group.isSome && !e.pc.switched
  | _ => false

/-- The current group is the function's. -/
def Pos.preemptible : Pos → Bool
  | .enable e => e.group.isNone || e.pc.switched
  | .call => true
  | .own => true
  | .disable .group => true
  | _ => false

/-- SIGNAL has been cleared. -/
def Pos.past : Pos → Bool
  | .disable .deferred => true
  | .check => true
  | .ret => true
  | _ => false

/-- DEFERRED has been cleared. -/
def Pos.cleared : Pos → Bool
  | .check => true
  | .ret => true
  | _ => false

/-- ERRNO_LOCATION has been set by the function's first `enable_preemption`. -/
def Pos.located : Pos → Bool
  | .stamp => false
  | .enable e => e.group.isNone || e.pc != .errno
  | _ => true

/-- ERRNO_LOCATION is borrowed: the code is in `errno_group`. -/
def Pos.borrowing : Pos → Bool
  | .enable e => e.pc == .location
  | _ => false

theorem Pos.entering_of_preemptible {p : Pos} (h : p.preemptible = true) : p.entering = false := by
  cases p with
  | enable e =>
    simp only [Pos.preemptible, Bool.or_eq_true, Option.isNone_iff_eq_none] at h
    rcases h with h | h <;> simp [Pos.entering, h]
  | stamp => cases h
  | _ => rfl

theorem Pos.located_of_preemptible {p : Pos} (h : p.preemptible = true) : p.located = true := by
  cases p with
  | enable e =>
    simp only [Pos.preemptible, Bool.or_eq_true, Option.isNone_iff_eq_none] at h
    rcases h with h | h
    · simp [Pos.located, h]
    · cases hpc : e.pc with
      | errno => rw [hpc] at h; cases h
      | _ => simp [Pos.located, hpc]
  | stamp => cases h
  | _ => rfl

theorem Pos.past_of_preemptible {p : Pos} (h : p.preemptible = true) : p.past = false := by
  cases p with
  | disable pc => cases pc <;> first | rfl | cases h
  | _ => first | rfl | cases h

theorem Pos.past_of_cleared {p : Pos} (h : p.cleared = true) : p.past = true := by
  cases p <;> first | rfl | cases h

/-- The position agrees with the state of the closure: not called before
`schedule` calls it, running, and called after. -/
def Pos.Fits (g : Gid) (f : Completion V E) : Pos → Prop
  | .stamp => f = .function
  | .enable e =>
    match e.group with
    | some g' => g' = g ∧ f = .function ∧ (e.pc.asked = true → e.unblock.isSome = true)
    | none => f = .empty ∧ e.pc ≠ .first
  | .call => f = .function
  | .own => f = .empty
  | .lib back => back = .of g ∧ f = .empty
  | .pause back => back = .of g ∧ f = .empty
  | .deferMask back => back = .of g ∧ f = .empty
  | .deferFlag back => back = .of g ∧ f = .empty
  | .disable _ => ∃ r, f = .ret r
  | .check => ∃ r, f = .ret r
  | .ret => ∃ r, f = .ret r

/-- How often the closure has called the function. -/
def Completion.called : Completion V E → Nat
  | .function => 0
  | _ => 1

/-- The result the closure holds. -/
def Completion.result : Completion V E → List (Except E V)
  | .ret r => [r]
  | _ => []

/-! ## Positions of a handler that has swapped -/

def HandlerPc.leaving : HandlerPc → Bool
  | .errno _ => true
  | .block => true
  | .disable _ => true
  | .ret => true
  | _ => false

/-- The current group is still the function's. -/
def HandlerPc.inGroup : HandlerPc → Bool
  | .errno _ => true
  | .block => true
  | .disable .group => true
  | _ => false

/-- SIGNAL has been cleared. -/
def HandlerPc.past : HandlerPc → Bool
  | .disable .deferred => true
  | .ret => true
  | _ => false

/-! ## The sum in `stamp` -/

/-- The thread's next step of its own runs `stamp`. -/
def Thread.stamping (th : Thread V E) : Bool :=
  match th.handlers, th.base, th.call with
  | [], .main .switch, some c => c.task.errno.isSome
  | [], .body b, _ => b.pos = .stamp
  | _, _, _ => false

/-- If it does, the deadline does not run over the end of the clock. -/
def Thread.StampFits (th : Thread V E) (now : UInt64) : Prop :=
  th.stamping = true → stampOverflows now th.vars.deadline = false

instance (th : Thread V E) (now : UInt64) : Decidable (th.StampFits now) :=
  inferInstanceAs (Decidable (_ → _))

theorem HandlerPc.borrows_of_inGroup {q : HandlerPc} (h : q.inGroup = true) : q.borrows = true := by
  cases q <;> first | rfl | cases h

end Inger.L2

namespace Inger.L3

open L2

variable {V E : Type}

/-! ## The function's history -/

def entered (tr : List (Event V E)) : Nat :=
  tr.countP fun | .enter => true | _ => false

def finishes (tr : List (Event V E)) : Nat :=
  tr.countP fun | .finish => true | _ => false

/-- The results the function has had. -/
def results (tr : List (Event V E)) : List (Except E V) :=
  tr.filterMap fun | .done r => some r | _ => none

/-- The closure and the history agree; `fin`: `schedule` has returned. -/
structure Traced (fin : Bool) (f : Completion V E) (tr : List (Event V E)) : Prop where
  finishes : finishes tr = if fin then 1 else 0
  entered : entered tr = f.called
  results : results tr = f.result

/-! ## At rest -/

/-- A block that is not installed: as fresh, DEADLINE and ERRNO_LOCATION (and
the errno cells) apart. -/
structure Rest (v : Vars) : Prop where
  bootstrap : v.bootstrap = none
  task : v.task = .default
  signal : v.signal = none
  deferred : v.deferred = false

/-- A function's stack: the closure and group are the continuation's, and
what the block's ERRNO_LOCATION is. -/
structure Stacked (k : Lid) (g : Gid) (f : Completion V E) (loc : RefCell (Option Gid)) (b : Body) :
    Prop where
  fn : b.fn = k
  group : b.group = g
  fits : b.pos.Fits g f
  located : b.pos.located = true → loc = ⟨some g, b.pos.borrowing⟩

/-- A paused function with the handlers on its stack. -/
structure Paused (k : Lid) (g : Gid) (f : Completion V E) (loc : RefCell (Option Gid)) (b : Body)
    (hs : List Frame) : Prop where
  body : Stacked k g f loc b
  pre : b.pos.preemptible = true
  frames : ∀ h ∈ hs, h.Ok true false true

/-- A continuation's task: not started, or paused. -/
inductive TaskOk (k : Lid) (g : Gid) (f : Completion V E) (loc : RefCell (Option Gid)) : Task → Prop
  | fresh (y : Bool) (fn : f = .function) : TaskOk k g f loc ⟨none, none, y⟩
  | paused (e : Int) (st : Sid) (m : L1.Signals.Sigset) (b : Body) (hs : List Frame) (y : Bool)
      (ok : Paused k g f loc b hs) : TaskOk k g f loc ⟨some e, some ⟨st, m, .paused b hs⟩, y⟩

/-! ## On the caller's stack -/

/-- The thread's own signal is blocked, and handlers are those of other
signals. -/
structure Calm (th : Thread V E) : Prop where
  mask : ∀ o, th.signaler = some o → o ∈ th.mask
  frames : ∀ f ∈ th.handlers, f.Ok false true false
  foreign : ∀ f ∈ th.handlers, ∀ o, th.signaler = some o → f.no ≠ o ∧ o ∈ f.mask

/-- About to jump: into `schedule`, or into the paused function. -/
structure Switching (t : Tid) (th : Thread V E) (c : Call V E) : Prop where
  signal : th.vars.signal = some t
  task : th.vars.task = .default
  deferred : th.vars.deferred = false
  deadline : th.vars.deadline = c.us
  trace : Traced false c.functional c.trace
  target :
    (∃ st m y, c.task = ⟨none, some ⟨st, m, .entry⟩, y⟩ ∧ (∀ o, th.signaler = some o → o ∈ m) ∧
      th.vars.bootstrap = some (c.linger, c.group) ∧ c.functional = .function) ∨
    (∃ e st m b hs y, c.task = ⟨some e, some ⟨st, m, .paused b hs⟩, y⟩ ∧ th.vars.bootstrap = none ∧
      Paused c.linger c.group c.functional th.vars.errnoLocation b hs)

/-- `restorecontext` has returned: the function finished, or it is paused. -/
structure Leaving (th : Thread V E) (c : Call V E) : Prop where
  group : th.group = .SHARED
  bootstrap : th.vars.bootstrap = none
  signal : th.vars.signal = none
  deferred : th.vars.deferred = false
  taken : c.task.checkpoint = none
  outcome :
    (∃ ctx y r, th.vars.task = ⟨none, some ctx, y⟩ ∧ c.functional = .ret r ∧
      Traced true c.functional c.trace) ∨
    (∃ e st m b hs y, th.vars.task = ⟨some e, some ⟨st, m, .paused b hs⟩, y⟩ ∧
      Paused c.linger c.group c.functional th.vars.errnoLocation b hs ∧
      Traced false c.functional c.trace)

def MainOk (t : Tid) (th : Thread V E) (c : Call V E) : MainPc → Prop
  | .setup => Rest th.vars ∧ Traced false c.functional c.trace ∧
      TaskOk c.linger c.group c.functional th.vars.errnoLocation c.task
  | .signal => th.signaler.isSome = true ∧ Rest th.vars ∧ Traced false c.functional c.trace ∧
      TaskOk c.linger c.group c.functional th.vars.errnoLocation c.task
  | .stack => th.signaler.isSome = true ∧ Rest { th.vars with signal := none } ∧
      th.vars.signal = some t ∧ Traced false c.functional c.trace ∧
      TaskOk c.linger c.group c.functional th.vars.errnoLocation c.task
  | .switch => th.signaler.isSome = true ∧ Switching t th c
  | .leave => th.signaler.isSome = true ∧ Leaving th c

/-! ## On the function's stack -/

/-- While the function has control: its own signal exists and is blocked in
the mask `restorecontext` returns to, and the checkpoint is the call site. -/
structure Running (th : Thread V E) (c : Call V E) : Prop where
  own : th.signaler.isSome = true
  errno : th.vars.task.errno = none
  checkpoint : ∃ st, th.vars.task.checkpoint = some ⟨st, c.link, .callsite⟩
  link : ∀ o, th.signaler = some o → o ∈ c.link
  taken : c.task.checkpoint = none
  trace : Traced false c.functional c.trace

structure Booting (t : Tid) (th : Thread V E) (c : Call V E) : Prop where
  run : Running th c
  bootstrap : th.vars.bootstrap = some (c.linger, c.group)
  signal : th.vars.signal = some t
  deferred : th.vars.deferred = false
  fn : c.functional = .function

structure InBody (t : Tid) (th : Thread V E) (c : Call V E) (b : Body) : Prop where
  run : Running th c
  bootstrap : th.vars.bootstrap = none
  body : Stacked c.linger c.group c.functional th.vars.errnoLocation b
  group : b.pos.entering = false → th.group = if b.pos.preemptible then .of c.group else .SHARED
  calm : b.pos.entering = true → Calm th
  signal : th.vars.signal = if b.pos.past then none else some t
  deferred : b.pos.cleared = true → th.vars.deferred = false
  frames : ∀ f ∈ th.handlers, f.Ok b.pos.preemptible b.pos.past true

/-- A handler, `bottom`, has swapped the function away and is on its way to
the call site; `upper` have interrupted it. -/
structure Gone (t : Tid) (th : Thread V E) (c : Call V E) (upper : List Frame) (bottom : Frame) :
    Prop where
  own : th.signaler.isSome = true
  handlers : th.handlers = upper ++ [bottom]
  target : bottom.target = .callsite
  leaving : bottom.pc.leaving = true
  mask : ∀ o, th.signaler = some o → o ∈ bottom.mask
  bootstrap : th.vars.bootstrap = none
  errno : (∀ e, bottom.pc ≠ .errno e) → th.vars.task.errno.isSome = true
  checkpoint : ∃ st m b hs, th.vars.task.checkpoint = some ⟨st, m, .paused b hs⟩ ∧
    Paused c.linger c.group c.functional th.vars.errnoLocation b hs
  taken : c.task.checkpoint = none
  group : th.group = if bottom.pc.inGroup then .of c.group else .SHARED
  signal : th.vars.signal = if bottom.pc.past then none else some t
  deferred : bottom.pc = .ret → th.vars.deferred = false
  frames : ∀ f ∈ upper, f.Ok bottom.pc.inGroup bottom.pc.past false
  trace : Traced false c.functional c.trace

/-- Of a call in progress: SIGNAL of the thread-locals that are not installed;
a launch starts its function; `switch_stack`'s `error`. -/
structure CallOk (tidy : Prop) (c : Call V E) : Prop where
  other : c.other.signal = none
  launching : c.launching = true → c.task.errno = none
  error : tidy → c.error = false
  later : c.error = true → c.task.errno.isSome = true

/-- What holds of a thread, by where it is. `ok` says that nothing has failed
so far, `tidy` that system calls have failed in launches only. A `sigsetcontext`
that fails on a paused function leaves the group switched. The thread's next call
is then caught by an assertion in a debug build; in a release build it goes on,
and the group is not `SHARED` until `schedule` or `switch_stack` sets it. Of the
other ways to get stuck there remain the failing system calls of
`PreemptionSignal::new`, the overflow of a deadline, the nested pause of one
function, and a TCB whose last function was dropped inside `errno_group`. -/
def Core (ok tidy : Prop) (t : Tid) (th : Thread V E) : Prop :=
  match th.base, th.call with
  | .caller, none => Calm th ∧ th.vars.signal = none ∧ (tidy → th.group = .SHARED)
  | .main pc, some c => Calm th ∧ (tidy → th.group = .SHARED) ∧ CallOk tidy c ∧ MainOk t th c pc
  | .boot, some c => Calm th ∧ CallOk tidy c ∧ Booting t th c
  | .body b, some c => CallOk tidy c ∧ InBody t th c b
  | .gone, some c => CallOk tidy c ∧ ∃ upper bottom, Gone t th c upper bottom
  | .exited, none => True
  | .stuck why, _ => why = .borrowed ∨ why = .errnoBorrowed ∨
      (¬ok ∧ (why = .setup ∨ why = .overflow)) ∨ (¬tidy ∧ why = .preemptible)
  | _, _ => False

end Inger.L3
