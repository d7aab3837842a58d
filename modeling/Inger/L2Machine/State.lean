import Inger.L1Pool.Signals

/-!
# The state of a process that runs preemptible functions

Everything src/linger.rs and src/preemption.rs read and write, as one state:

* `Vars`: libinger's thread-locals (BOOTSTRAP, TASK, DEADLINE, SIGNAL,
  DEFERRED, ERRNO_LOCATION) and the errno cells, of one thread-control block;
* `Thread`: a kernel thread with its signal mask, current libgotcha group,
  thread-locals, the `resume` call it is in, the code on its stack (`Base`) and
  the signal handlers on top of that code (`Frame`, innermost first);
* `Continuation`, `Linger`: the values the API hands out;
* `Sys`: threads, Lingers and the four pools.

libgotcha and libtimetravel are not part of the repository. What is used of
them: the current group is a variable of the thread that `group_thread_set!`
writes and a library call sets to `SHARED` and restores; a `Context` owns a
stack and designates a place to jump to with a signal mask; while a function
runs, its checkpoint designates the call site of `restorecontext`; `swap`
exchanges what a checkpoint designates with what a handler returns to.

`V` is the type of return values of the timed functions and `E` that of panic
payloads. What depends on how the library is built (`Build`) is modelled for
every build.
-/
namespace Inger.L2

open L1.Reusable L1.Signals

/-- A kernel thread. -/
abbrev Tid := Nat
/-- A `Linger`, and the address of its boxed closure. -/
abbrev Lid := Nat
/-- A group made by `Group::new`. -/
abbrev Gid := Nat
/-- An execution stack. -/
abbrev Sid := Nat

/-- `gotcha::Group`: the starting group or one made by `Group::new`. -/
inductive Group where
  | SHARED
  | of (g : Gid)
  deriving DecidableEq, Repr

/-- `is_preemptible`, from the thread's current group.
mirrors src/preemption.rs:96-100 -/
def Group.preemptible : Group → Bool
  | .SHARED => false
  | .of _ => true

/-- How the library is built: the `notls` feature, and the profile's
`debug-assertions` and `overflow-checks`. A debug build has both of these, a
release build neither. -/
structure Build where
  notls : Bool
  debugAssertions : Bool
  overflowChecks : Bool
  deriving DecidableEq, Repr

/-- `std::cell::RefCell`: the value, and whether it is mutably borrowed. -/
structure RefCell (α : Type) where
  value : α
  borrowed : Bool
  deriving DecidableEq, Repr

/-! ## Code positions -/

/-- The next step of `enable_preemption`, with `errno_group` inlined.
mirrors src/preemption.rs:46-83,134-156 -/
inductive EnablePc where
  /-- `ERRNO_LOCATION.borrow_mut()` and what is written to it -/
  | errno
  /-- `__errno_location()`, which ends the borrow, and `*errno()` -/
  | location
  /-- `group_thread_set!(group)` -/
  | group
  /-- `unblock.replace(thread_signal()?)` -/
  | first
  /-- `DEFERRED.swap(false)` -/
  | swap
  /-- `unblock.get_or_insert(thread_signal()?)` -/
  | get
  /-- `pthread_kill(pthread_self(), *signal)` -/
  | kill
  /-- `mask(Operation::Unblock, signal)` -/
  | unblock
  /-- errno propagation and return -/
  | tail
  deriving DecidableEq, Repr

/-- An activation of `enable_preemption`: its argument and locals. `erryes`
is the group whose errno cell it points to, `cell` the thread it borrowed
ERRNO_LOCATION on. -/
structure Enable where
  pc : EnablePc
  group : Option Gid
  erryes : Gid
  errno : Int
  unblock : Option Signal
  cell : Option Tid
  deriving DecidableEq, Repr

/-- `resume_preemption`, about to run.
mirrors src/preemption.rs:41-44 -/
def Enable.hook : Enable := ⟨.errno, none, 0, 0, none, none⟩

/-- The next step of `disable_preemption`.
mirrors src/preemption.rs:85-94 -/
inductive DisablePc where
  | group
  | mask
  | signal
  | deferred
  deriving DecidableEq, Repr

/-- Where a function's stack is, below any signal handler: in `schedule`
(with `enable_preemption` and `disable_preemption` inlined), in the function's
own code, in a nonpreemptible library call, in `pause` or in the hook
`resume_preemption` (`enable` without a group). `back` is the group the call
returns to.
mirrors src/linger.rs:391-416,481-488 and src/preemption.rs:41-116 -/
inductive Pos where
  | stamp
  | enable (e : Enable)
  | call
  | own
  | lib (back : Group)
  | pause (back : Group)
  | deferMask (back : Group)
  | deferFlag (back : Group)
  | disable (pc : DisablePc)
  | check
  | ret
  deriving DecidableEq, Repr

/-- A function's stack: the locals of `schedule` (`fun`, `group`, `signal`)
and the position. -/
structure Body where
  fn : Lid
  group : Gid
  signal : Option Signal
  pos : Pos
  deriving DecidableEq, Repr

/-- The next step of the signal handler `preempt`, with its locals.
mirrors src/linger.rs:419-468 -/
inductive HandlerPc where
  | entry
  | relevant (erryes : Int)
  | test (erryes : Int) (relevant : Bool)
  | deadline (erryes : Int)
  | clock (erryes : Int) (deadline : UInt64)
  | yielded (erryes : Int) (deadline : UInt64)
  | swap (erryes : Int)
  | errno (erryes : Int)
  | block
  | disable (pc : DisablePc)
  | deferMask (erryes : Int)
  | deferFlag (erryes : Int)
  | ignore (erryes : Int)
  | restore (erryes : Int)
  | ret
  deriving DecidableEq, Repr

/-- Where a signal handler returns to: the code it interrupted, or (after
`swap`) the call site of `restorecontext`. -/
inductive Target where
  | interrupted
  | callsite
  deriving DecidableEq, Repr

/-- A running signal handler: the signal, the mask and place its `uc` returns
to, and the next step. -/
structure Frame where
  no : Signal
  mask : Sigset
  target : Target
  pc : HandlerPc
  deriving DecidableEq

/-! ## Contexts, tasks and thread-locals -/

/-- What a context designates: the entry of `schedule`, the call site of
`restorecontext`, or a paused function with the handlers on its stack. -/
inductive Code where
  | entry
  | callsite
  | paused (body : Body) (handlers : List Frame)
  deriving DecidableEq

/-- `timetravel::Context`: it owns its stack. -/
structure Context where
  stack : Sid
  mask : Sigset
  code : Code
  deriving DecidableEq

/-- mirrors src/linger.rs:119-129 -/
structure Task where
  errno : Option Int
  checkpoint : Option Context
  yielded : Bool
  deriving DecidableEq

/-- `Task::default()`. -/
def Task.default : Task := ⟨none, none, false⟩

/-- The stack a task owns. -/
def Task.stack (k : Task) : Option Sid := k.checkpoint.map Context.stack

/-- The thread-locals of one thread-control block. `errno g` is the errno of
the C library copy of group `g`.
mirrors src/linger.rs:199-203 and src/preemption.rs:20-25,137-140 -/
structure Vars where
  bootstrap : Option (Lid × Gid)
  task : Task
  deadline : UInt64
  signal : Option Tid
  deferred : Bool
  errnoLocation : RefCell (Option Gid)
  errno : Group → Int

/-- A freshly allocated block. -/
def Vars.fresh : Vars := ⟨none, .default, 0, none, false, ⟨none, false⟩, fun _ => 0⟩

/-! ## The closure and what is observed of it -/

/-- `launch`'s `Completion`; `function` stands for the closure that has not
been called.
mirrors src/linger.rs:143-147 -/
inductive Completion (V E : Type) where
  | function
  | ret (r : Except E V)
  | empty

/-- Ghost: what has happened to a timed function. `back` is a return of
`resume` with the function paused, `finish` the return of `schedule`, `cancel`
the overwriting of its `Linger` by the C `cancel`. -/
inductive Event (V E : Type) where
  | enter
  | work
  | call
  | pause
  | done (r : Except E V)
  | back (yielded : Bool)
  | finish
  | cancel
  deriving DecidableEq

/-- mirrors src/linger.rs:90-103 -/
structure Continuation (V E : Type) where
  functional : Completion V E
  stateful : Task
  group : Gid
  tls : Option Vars

/-! ## Ends of calls -/

/-- Panics of the library itself.
mirrors src/linger.rs:114,185,223,268,321,371,474 and src/preemption.rs:202 -/
inductive Panic where
  | tooMany
  | missingTcb
  | missingContinuation
  | invalidContinuation
  | alreadyRetrieved
  | noSignal
  | notRenewed
  | overflow
  deriving DecidableEq, Repr

/-- How a call of the API ended: `Ok`, `Err`, a panic of the library, or the
re-raised panic of the timed function. -/
inductive Ret (E : Type) where
  | ok
  | err
  | panic (p : Panic)
  | raise (e : E)
  deriving DecidableEq

/-- Why a thread takes no further step: a failed assertion, `abort()`, a panic
that nothing on its stack catches, or (`wild`) behaviour the language leaves
undefined.
mirrors src/linger.rs:109,163,214,229,249,327,344,395,402,407,414,434,474 and
src/preemption.rs:104,112,145,151 -/
inductive Stuck where
  | preemptible
  | bootstraps
  | nests
  | leftoverErrno
  | unsignaled
  | deferring
  | setup
  | switchTls
  | notBootstrapped
  | scheduleTls
  | errnoLocation
  | pauseSignal
  | borrowed
  | errnoBorrowed
  | overflow
  | wild
  deriving DecidableEq, Repr

/-! ## Threads and the process -/

/-- The next step of `resume` on the thread's own stack: `thread_setup`
(acquire a signal, then write SIGNAL), `setup_stack`, `switch_stack`, and the
code after `restorecontext` returned.
mirrors src/linger.rs:209-279 -/
inductive MainPc where
  | setup
  | signal
  | stack
  | switch
  | leave
  deriving DecidableEq, Repr

/-- What a thread executes below its signal handlers: the program that calls
libinger, `resume`, `schedule` before and after it took BOOTSTRAP; `gone` is the
code a handler has swapped away. -/
inductive Base where
  | caller
  | main (pc : MainPc)
  | boot
  | body (b : Body)
  | gone
  | exited
  | stuck (why : Stuck)
  deriving DecidableEq

/-- The thread may still take steps. -/
def Base.alive : Base → Bool
  | .exited => false
  | .stuck _ => false
  | _ => true

/-- A call of `resume`: the borrowed continuation less its TCB, the budget,
whether `launch` is the caller, `switch_stack`'s `error`, the mask of the
context `restorecontext` returns to, and the thread-locals that are not
installed while the call runs (the guard's parent; the stub TCB's in the notls
build). -/
structure Call (V E : Type) where
  linger : Lid
  functional : Completion V E
  task : Task
  group : Gid
  us : UInt64
  launching : Bool
  error : Bool
  link : Sigset
  other : Vars
  trace : List (Event V E)

/-- A kernel thread. `signaler` is the signal of its `PreemptionSignal`,
`vars` the thread-locals FS points to, `pending` the signals `pthread_kill`
has sent it. -/
structure Thread (V E : Type) where
  signaler : Option Signal
  mask : Sigset
  pending : Sigset
  group : Group
  vars : Vars
  call : Option (Call V E)
  base : Base
  handlers : List Frame
  ret : Option (Ret E)

def Thread.initial {V E : Type} : Thread V E :=
  ⟨none, ∅, ∅, .SHARED, .fresh, none, .caller, [], none⟩

/-- The state of a `Linger` value; `resuming t g` while thread `t` is inside
`resume` with it, `dropped` once it no longer exists. -/
inductive Cell (V E : Type) where
  | completion (v : V)
  | continuation (c : Continuation V E)
  | poison
  | resuming (t : Tid) (g : Gid)
  | dropped

structure Linger (V E : Type) where
  cell : Cell V E
  trace : List (Event V E)

/-- `dirty g` is ghost: a function has been paused in `g` and since then
neither has it finished nor has `renew` of `g` returned true. -/
structure Sys (V E : Type) where
  threads : Tid → Thread V E
  lingers : List (Linger V E)
  groups : Pool Gid
  localstores : Pool (Option Vars)
  stackPool : Pool Sid
  signals : Pool Signal
  dirty : Gid → Bool

end Inger.L2
