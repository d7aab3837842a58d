import Inger.L2Machine.Preempt

/-!
# The process: `launch`, `resume`, drop, `cancel`

The code of src/linger.rs that runs on a thread's own stack, and the pools it
draws from. A call of `resume` is a sequence of steps (`MainPc`): taking and
installing the TCB, `thread_setup` (two steps, the second is the write of
SIGNAL), `setup_stack`, `switch_stack` up to the jump; then the steps of
`Preempt` on the function's stack; then the code after `restorecontext`. Other
threads run in between. The thread's own signal is blocked on its own stack;
other threads' signals may arrive between two of these steps.

`Env` holds the answers of the system to one step: which call fails, what
`Group::renew` returns, what the clock reads. Every `?`, `expect` and unwind is
modelled: leaving `resume` between the installation of the TCB and its
uninstallation runs the guard's destructor, which destroys the TCB, with the
slot it was taken from empty (`failResume`).

The C functions of src/ffi.rs call these and abort on `Err`; `launch` erases
the closure's type, which moves the value (`erase`).

`Cfg` has the build. With `notls` the TCB is a stub, and installing it does not
change the thread-locals. Without `debugAssertions` every call goes on where an
assertion would have stopped it; a call from a preemptible function is then one
that finds another group than `SHARED`, and only that variable is followed, not
which copy of a library its symbols resolve to. With `overflowChecks` a budget
that runs over the end of the clock is a panic.

What `L3Slice` and `L4Linger` prove is about every build without `notls`, with or
without `debugAssertions` and `overflowChecks`. Where these matter the statement
has them as a condition: for the group a call on a finished `Linger` returns in
(`Location`), for a call from a preemptible function (`ZeroBudget`), and for the
runs in which nothing fails (`Fine`), where no deadline overflows if that is
checked. `Alike` and `Builds` relate a build with `notls` to the one that differs
from it in nothing else.
-/
namespace Inger.L2

open L1.Reusable L1.Signals

variable {V E : Type}

/-- The build, `Group::limit()`, the results of `Group::new`, and the value
`cancel` stores (`()` in C). -/
structure Cfg (V : Type) extends Build where
  limit : Nat
  newGroup : Nat → Option Gid
  unit : V

/-- `sigsetcontext` jumps, returns an error, or says the context is invalid. -/
inductive Jump where
  | jumps
  | fails
  | invalid
  deriving DecidableEq, Repr

/-- The answers of the system to the calls whose results the library looks at. -/
structure Env where
  /-- `arch_prctl` in `ThreadControlBlock::install` -/
  install : Bool
  /-- the system calls of `PreemptionSignal::new` -/
  setup : Bool
  makecontext : Bool
  restorecontext : Bool
  /-- `pthread_sigmask` in `switch_stack` -/
  sigmask : Bool
  sigsetcontext : Jump
  renew : Bool
  now : UInt64
  deriving DecidableEq, Repr

/-- Nothing fails. -/
def Env.fine (now : UInt64) : Env := ⟨true, true, true, true, true, .jumps, true, now⟩

namespace Sys

def setThread (s : Sys V E) (t : Tid) (th : Thread V E) : Sys V E :=
  { s with threads := Function.update s.threads t th }

def setLinger (s : Sys V E) (k : Lid) (l : Linger V E) : Sys V E :=
  { s with lingers := s.lingers.set k l }

/-- Drop of a context's stack, if there is one. -/
def freeStack (s : Sys V E) (stack : Option Sid) : Sys V E :=
  match stack with
  | some i => { s with stackPool := release s.stackPool i }
  | none => s

/-- The signals of all threads, for `thread_signal`. -/
def sig (s : Sys V E) (t : Tid) : Option Signal := (s.threads t).signaler

/-- What the steps of a single thread depend on. -/
def world (cfg : Cfg V) (s : Sys V E) : World := ⟨cfg.toBuild, s.sig⟩

/-- Drop of a continuation: the destructor's `renew`, then the fields, which
are dropped also when the assertion on `renew` panics.
mirrors src/linger.rs:99-117 -/
def dropContinuation (s : Sys V E) (c : Continuation V E) (renew : Bool) : Sys V E :=
  { s.freeStack c.stateful.stack with
    groups := release s.groups c.group
    localstores := release s.localstores c.tls
    dirty := if c.stateful.errno.isSome && renew then Function.update s.dirty c.group false
      else s.dirty }

/-- The result of a drop.
mirrors src/linger.rs:112-115 -/
def dropRet (c : Continuation V E) (renew : Bool) : Ret E :=
  if c.stateful.errno.isSome && !renew then .panic .notRenewed else .ok

/-- What a failed `resume` leaves of the continuation: it stays with its
owner, or is dropped when `launch` was the caller. -/
def abandon (s : Sys V E) (k : Lid) (c : Continuation V E) (trace : List (Event V E))
    (launching renew : Bool) : Sys V E :=
  if launching then (s.dropContinuation c renew).setLinger k ⟨.dropped, trace⟩
  else s.setLinger k ⟨.continuation c, trace⟩

/-- `resume` ends early: the guard's destructor runs the TLS destructors
(TASK's stack goes back) and destroys the TCB, and the slot stays empty.
mirrors src/linger.rs:223-257 and src/tcb.rs:146-169 -/
def failResume (cfg : Cfg V) (s : Sys V E) (t : Tid) (th : Thread V E) (c : Call V E) (env : Env)
    (ret : Ret E) : Sys V E :=
  ((if cfg.notls then s else s.freeStack th.vars.task.stack).abandon c.linger
      ⟨c.functional, c.task, c.group, none⟩ c.trace c.launching env.renew).setThread t
    { th with vars := if cfg.notls then th.vars else c.other, call := none, base := .caller,
              ret := some ret }

/-- `resume` takes the TCB out of its slot and installs it. When that fails
the TCB is dropped, which destroys it.
mirrors src/linger.rs:216-226 and src/tcb.rs:50-56,111-128 -/
def beginResume (cfg : Cfg V) (s : Sys V E) (t : Tid) (k : Lid) (c : Continuation V E)
    (trace : List (Event V E)) (us : UInt64) (launching : Bool) (env : Env) : Sys V E :=
  let th := s.threads t
  match c.tls with
  | none =>
    (s.abandon k c trace launching env.renew).setThread t
      { th with ret := some (.panic .missingTcb) }
  | some tcb =>
    if env.install || cfg.notls then
      (s.setLinger k ⟨.resuming t c.group, trace⟩).setThread t
        { th with
          vars := if cfg.notls then th.vars else tcb
          call := some ⟨k, c.functional, c.stateful, c.group, us, launching, false, ∅,
            if cfg.notls then tcb else th.vars, trace⟩
          base := .main .setup }
    else
      ((s.freeStack tcb.task.stack).abandon k { c with tls := none } trace launching
        env.renew).setThread t { th with ret := some .err }

/-- `thread_setup`, up to the write of SIGNAL. A thread's first call acquires
its preemption signal and blocks it.
mirrors src/preemption.rs:118-125,187-227 and src/linger.rs:228-230 -/
def setupStep (cfg : Cfg V) (s : Sys V E) (t : Tid) (th : Thread V E) (c : Call V E) (env : Env) :
    Sys V E :=
  match th.signaler with
  | some _ => s.setThread t { th with base := .main .signal }
  | none =>
    match tryFrom nextSignal s.signals with
    | (none, p) => failResume cfg { s with signals := p } t th c env (.panic .noSignal)
    | (some signal, p) =>
      if env.setup then
        { s with signals := p }.setThread t
          { th with signaler := some signal, mask := insert signal th.mask, base := .main .signal }
      else { s with signals := release p signal }.setThread t (th.fail .setup)

/-- The first `resume` of a continuation makes its stack and sets BOOTSTRAP;
every one sets DEADLINE.
mirrors src/linger.rs:232-254,291-304 -/
def stackStep (cfg : Cfg V) (s : Sys V E) (t : Tid) (th : Thread V E) (c : Call V E) (env : Env) :
    Sys V E :=
  match c.task.errno with
  | some _ =>
    s.setThread t { th with vars := { th.vars with deadline := c.us }, base := .main .switch }
  | none =>
    let (stack, p) := alloc id s.stackPool
    if env.makecontext then
      let c' := { c with task := { c.task with checkpoint := some ⟨stack, th.mask, .entry⟩ } }
      let s' := { s with stackPool := p }.freeStack c.task.stack
      if cfg.debugAssertions && th.vars.bootstrap.isSome then
        s'.setThread t ((th.setCall c').fail .bootstraps)
      else
        s'.setThread t
          { th.setCall c' with
            vars := { th.vars with bootstrap := some (c.linger, c.group), deadline := c.us }
            base := .main .switch }
    else failResume cfg { s with stackPool := release p stack } t th c env .err

/-- `sigsetcontext`: control passes to what the context designates, with its
mask, and from now on the checkpoint designates the call site. -/
def jump (th : Thread V E) (c : Call V E) (ctx : Context) : Thread V E :=
  let th' : Thread V E :=
    { th.setCall c with
      mask := ctx.mask
      vars := { th.vars with task := { th.vars.task with checkpoint := some ⟨ctx.stack, c.link, .callsite⟩ } } }
  match ctx.code with
  | .entry => { th' with base := .boot }
  | .paused b handlers => { th' with base := .body b, handlers := handlers }
  | .callsite => th'.fail .wild

/-- The part of `switch_stack`'s closure that reenables preemption for a
paused function: block the thread's signal, give the context the caller's mask
without it, stamp the deadline, switch groups, restore errno. A failing
`pthread_sigmask` leaves `old` empty and is only reported after the function
has run.
mirrors src/linger.rs:336-367 -/
def reenable (th : Thread V E) (c : Call V E) (ctx : Context) (signal : Signal) (erryes : Int)
    (env : Env) : Thread V E × Call V E × Context :=
  let old : Sigset := if env.sigmask then th.mask else ∅
  ({ th with
     mask := if env.sigmask then insert signal th.mask else th.mask
     vars := { th.vars with deadline := stamp env.now th.vars.deadline }.setErrno
       (.of c.group) erryes
     group := .of c.group },
   { c with error := !env.sigmask },
   { ctx with mask := old.erase signal })

/-- `task.checkpoint.get_or_insert(pause)`: a context that is there is kept, and
`pause` is dropped with its stack.
mirrors src/linger.rs:330 -/
def getOrInsert (s : Sys V E) (checkpoint : Option Context) (pause : Context) :
    Sys V E × Context :=
  match checkpoint with
  | some resume => (s.freeStack (some pause.stack), resume)
  | none => (s, pause)

/-- `switch_stack` up to the jump.
mirrors src/linger.rs:309-376 -/
def switchStep (cfg : Cfg V) (s : Sys V E) (t : Tid) (th : Thread V E) (c : Call V E) (env : Env) :
    Sys V E :=
  match c.task.checkpoint with
  | none => failResume cfg s t th c env (.panic .missingContinuation)
  | some ctx =>
    let c' := { c with task := { c.task with checkpoint := none }, link := th.mask }
    if env.restorecontext then
      if cfg.debugAssertions && th.vars.task.checkpoint.isSome then
        s.setThread t (th.fail .nests)
      else
        let (s', resume) := getOrInsert s th.vars.task.checkpoint ctx
        let vars := { th.vars with task := { th.vars.task with checkpoint := some resume } }
        let go (th : Thread V E) (c : Call V E) (ctx : Context) : Sys V E :=
          match env.sigsetcontext with
          | .jumps => s'.setThread t (jump th c ctx)
          | .fails => failResume cfg s' t th c env .err
          | .invalid => failResume cfg s' t th c env (.panic .invalidContinuation)
        match c.task.errno with
        | none => go { th with vars := vars } c' resume
        | some erryes =>
          match threadSignal s.sig th.vars with
          | none => s'.setThread t (({ th with vars := vars }.setCall c').fail .switchTls)
          | some signal =>
            let r := reenable { th with vars := vars } c' resume signal erryes env
            if cfg.overflowChecks && stampOverflows env.now th.vars.deadline then
              failResume cfg s' t { th with mask := r.1.mask, vars := vars } r.2.1 env
                (.panic .overflow)
            else go r.1 r.2.1 r.2.2
    else failResume cfg (s.freeStack (some ctx.stack)) t th c' env .err

/-- `resume` returns: the thread-locals of the caller are back and the TCB is
in its slot. -/
def endResume (cfg : Cfg V) (s : Sys V E) (t : Tid) (th : Thread V E) (c : Call V E) (ret : Ret E) :
    Sys V E :=
  s.setThread t
    { th with vars := if cfg.notls then th.vars else c.other, call := none, base := .caller,
              ret := some ret }

/-- After `restorecontext`: take TASK; a saved errno means the function is
paused, none that it finished. Then uninstall the TCB and, for a finished
function, call the closure again for its result.
mirrors src/linger.rs:257-279,374-387 -/
def leaveStep (cfg : Cfg V) (s : Sys V E) (t : Tid) (th : Thread V E) (c : Call V E) (env : Env) :
    Sys V E :=
  if c.error then failResume cfg s t th c env .err
  else
    let descheduled := th.vars.task
    let th' := { th with vars := { th.vars with task := .default } }
    let tls := some (if cfg.notls then c.other else th'.vars)
    if descheduled.errno.isSome then
      ((s.freeStack c.task.stack).setLinger c.linger
        ⟨.continuation ⟨c.functional, descheduled, c.group, tls⟩, c.trace ++
          [.back descheduled.yielded]⟩).endResume cfg t th' c .ok
    else
      let rest : Continuation V E := ⟨.empty, { c.task with errno := none }, c.group, tls⟩
      let s' := s.freeStack descheduled.stack
      match c.functional with
      | .ret (.ok v) =>
        ((s'.dropContinuation rest env.renew).setLinger c.linger ⟨.completion v, c.trace⟩).endResume
          cfg t th' c .ok
      | .ret (.error e) =>
        ((s'.dropContinuation rest env.renew).setLinger c.linger
          ⟨if c.launching then .dropped else .poison, c.trace⟩).endResume cfg t th' c (.raise e)
      | .empty =>
        (s'.abandon c.linger rest c.trace c.launching env.renew).endResume cfg t th' c
          (.panic .alreadyRetrieved)
      -- The closure would run the function now, and store no result either.
      | .function =>
        (s'.abandon c.linger rest (c.trace ++ [.enter]) c.launching env.renew).endResume cfg t th' c
          (.panic .alreadyRetrieved)

/-- The next step of `resume` on the thread's own stack. -/
def mainStep (cfg : Cfg V) (s : Sys V E) (t : Tid) (env : Env) : Option (Sys V E) :=
  let th := s.threads t
  match th.ready, th.handlers, th.base, th.call with
  | true, [], .main .setup, some c => some (setupStep cfg s t th c env)
  | true, [], .main .signal, some _ =>
    some (s.setThread t { th with vars := { th.vars with signal := some t }, base := .main .stack })
  | true, [], .main .stack, some c => some (stackStep cfg s t th c env)
  | true, [], .main .switch, some c => some (switchStep cfg s t th c env)
  | true, [], .main .leave, some c => some (leaveStep cfg s t th c env)
  | _, _, _, _ => none

/-- The thread runs its program, outside libinger and any handler. -/
def idle (th : Thread V E) : Bool :=
  th.ready && decide (th.base = .caller) && th.handlers.isEmpty

/-- mirrors src/linger.rs:209-279 (a `Linger` that is not a continuation is
returned as it is) -/
def resumeStep (cfg : Cfg V) (s : Sys V E) (t : Tid) (k : Lid) (us : UInt64) (env : Env) :
    Option (Sys V E) :=
  let th := s.threads t
  if !idle th then none
  else if cfg.debugAssertions && th.group.preemptible then
    some (s.setThread t (th.fail .preemptible))
  else
    match s.lingers[k]? with
    | some ⟨.continuation c, trace⟩ => some (beginResume cfg s t k c trace us false env)
    | some ⟨.completion _, _⟩ => some (s.setThread t { th with ret := some .ok })
    | some ⟨.poison, _⟩ => some (s.setThread t { th with ret := some .ok })
    | _ => none

/-- mirrors src/linger.rs:135-196 -/
def launchStep (cfg : Cfg V) (s : Sys V E) (t : Tid) (us : UInt64) (env : Env) : Option (Sys V E) :=
  let th := s.threads t
  if !idle th then none
  else if cfg.debugAssertions && th.group.preemptible then
    some (s.setThread t (th.fail .preemptible))
  else
    match tryFrom cfg.newGroup s.groups with
    | (none, p) =>
      some ({ s with groups := p }.setThread t { th with ret := some (.panic .tooMany) })
    | (some group, p) =>
      let (tls, p') := alloc (fun _ => some Vars.fresh) s.localstores
      let c : Continuation V E := ⟨.function, .default, group, tls⟩
      let s' := { s with groups := p, localstores := p', lingers := s.lingers ++ [⟨.continuation c, []⟩] }
      if us = 0 then some (s'.setThread t { th with ret := some .ok })
      else some (beginResume cfg s' t s.lingers.length c [] us true env)

/-- Drop of a `Linger`.
mirrors src/linger.rs:107-117 -/
def dropStep (cfg : Cfg V) (s : Sys V E) (t : Tid) (k : Lid) (env : Env) : Option (Sys V E) :=
  let th := s.threads t
  if !idle th then none
  else
    match s.lingers[k]? with
    | some ⟨.continuation c, trace⟩ =>
      if cfg.debugAssertions && th.group.preemptible then
        some (s.setThread t (th.fail .preemptible))
      else
        some (((s.dropContinuation c env.renew).setLinger k ⟨.dropped, trace⟩).setThread t
          { th with ret := some (dropRet c env.renew) })
    | some ⟨.completion _, trace⟩ =>
      some ((s.setLinger k ⟨.dropped, trace⟩).setThread t { th with ret := some .ok })
    | some ⟨.poison, trace⟩ =>
      some ((s.setLinger k ⟨.dropped, trace⟩).setThread t { th with ret := some .ok })
    | _ => none

/-- The C `cancel` overwrites a continuation, which drops it, and leaves any
other `Linger` alone. When the drop panics the assignment has been made.
mirrors src/ffi.rs:49-58 -/
def cancelStep (cfg : Cfg V) (s : Sys V E) (t : Tid) (k : Lid) (env : Env) : Option (Sys V E) :=
  let th := s.threads t
  if !idle th then none
  else
    match s.lingers[k]? with
    | some ⟨.continuation c, trace⟩ =>
      if cfg.debugAssertions && th.group.preemptible then
        some (s.setThread t (th.fail .preemptible))
      else
        some (((s.dropContinuation c env.renew).setLinger k
            ⟨.completion cfg.unit, trace ++ [.cancel]⟩).setThread t
          { th with ret := some (dropRet c env.renew) })
    | some ⟨.completion _, _⟩ => some (s.setThread t { th with ret := some .ok })
    | some ⟨.poison, _⟩ => some (s.setThread t { th with ret := some .ok })
    | _ => none

/-- A thread exits: its `PreemptionSignal` is dropped.
mirrors src/preemption.rs:229-240 -/
def exitStep (s : Sys V E) (t : Tid) : Option (Sys V E) :=
  let th := s.threads t
  if !idle th then none
  else
    let s' := s.setThread t { th with signaler := none, base := .exited }
    match th.signaler with
    | some signal => some { s' with signals := release s.signals signal }
    | none => some s'

end Sys

/-! ## The process as a transition system -/

inductive Label (V E : Type) where
  | launch (t : Tid) (us : UInt64) (env : Env)
  | resume (t : Tid) (k : Lid) (us : UInt64) (env : Env)
  | main (t : Tid) (env : Env)
  | act (t : Tid) (a : Act V E)
  | drop (t : Tid) (k : Lid) (env : Env)
  | cancel (t : Tid) (k : Lid) (env : Env)
  | erase (t : Tid) (k : Lid)
  | exit (t : Tid)

namespace Sys

/-- Ghost: what a thread's step makes of `dirty`. The function is paused when
its code is swapped away and has finished when `schedule` returns. -/
def dirtyAfter (s : Sys V E) (th th' : Thread V E) : Gid → Bool :=
  match th.base, th'.base, th.call with
  | .body _, .gone, some c => Function.update s.dirty c.group true
  | .body _, .main _, some c => Function.update s.dirty c.group false
  | _, _, _ => s.dirty

/-- A step on a function's stack or in a signal handler. -/
def actStep (cfg : Cfg V) (s : Sys V E) (t : Tid) (a : Act V E) : Option (Sys V E) :=
  (Thread.step (s.world cfg) (s.threads t) a).map fun th' =>
    { s.setThread t th' with dirty := s.dirtyAfter (s.threads t) th' }

def step (cfg : Cfg V) (s : Sys V E) : Label V E → Option (Sys V E)
  | .launch t us env => launchStep cfg s t us env
  | .resume t k us env => resumeStep cfg s t k us env
  | .main t env => mainStep cfg s t env
  | .act t a => actStep cfg s t a
  | .drop t k env => dropStep cfg s t k env
  | .cancel t k env => cancelStep cfg s t k env
  | .erase t k => if idle (s.threads t) && (s.lingers[k]?).isSome then some s else none
  | .exit t => exitStep s t

/-- The process before its first call: any signals blocked, pools of blocks
and stacks as `prealloc` leaves them (their first use fills them). -/
def initial (cfg : Cfg V) (masks : Tid → Sigset) : Sys V E where
  threads t := { Thread.initial with mask := masks t }
  lingers := []
  groups := .new
  localstores := (prealloc (fun _ => some (some Vars.fresh)) cfg.limit .new).2
  stackPool := (prealloc some cfg.limit .new).2
  signals := .new
  dirty _ := false

end Sys

/-- The process: any number of threads and timed functions. -/
def process (cfg : Cfg V) : LTS (Sys V E) (Label V E) :=
  LTS.ofFn (fun s => ∃ masks, s = Sys.initial cfg masks) (Sys.step cfg)

/-- A list of labels, executed: `p` reads off the states before and after its
last step. -/
theorem process_step_of_exec (cfg : Cfg V) (ls : List (Label V E)) (l : Label V E)
    (p : Sys V E → Sys V E → Bool)
    (h : ((LTS.exec (Sys.step cfg) (Sys.initial cfg fun _ => ∅) ls).bind fun s =>
      (Sys.step cfg s l).map (p s)) = some true) :
    ∃ s s', (process cfg).Reachable s ∧ (process cfg).step s l s' ∧ p s s' = true :=
  LTS.reach_step_of_exec ⟨_, rfl⟩ h

theorem process_of_exec (cfg : Cfg V) (ls : List (Label V E)) (p : Sys V E → Bool)
    (h : (LTS.exec (Sys.step cfg) (Sys.initial cfg fun _ => ∅) ls).map p = some true) :
    ∃ s, (process cfg).Reachable s ∧ p s = true :=
  LTS.reach_of_exec ⟨_, rfl⟩ h

/-- The same for a run all of whose steps meet `C`. -/
theorem process_only_of_exec (cfg : Cfg V)
    (C : Sys V E → Label V E → Prop) [∀ s l, Decidable (C s l)] (ls : List (Label V E))
    (p : Sys V E → Bool) (h : (LTS.exec (LTS.checked C (Sys.step cfg)) (Sys.initial cfg fun _ => ∅)
      ls).map p = some true) :
    ∃ s, ((process cfg).only C).Reachable s ∧ p s = true := by
  obtain ⟨s, hr, hp⟩ : ∃ s, (LTS.ofFn (fun s => ∃ masks, s = Sys.initial cfg masks)
      (LTS.checked C (Sys.step cfg))).Reachable s ∧ p s = true := LTS.reach_of_exec ⟨_, rfl⟩ h
  exact ⟨s, hr.of_checked, hp⟩

/-- Two lists of labels one after the other, the second within `C`. -/
theorem process_run_of_exec (cfg : Cfg V)
    (C : Sys V E → Label V E → Prop) [∀ s l, Decidable (C s l)] (ls ls' : List (Label V E))
    (p : Sys V E → Sys V E → Bool)
    (h : ((LTS.exec (Sys.step cfg) (Sys.initial cfg fun _ => ∅) ls).bind fun s =>
      (LTS.exec (LTS.checked C (Sys.step cfg)) s ls').map (p s)) = some true) :
    ∃ s s', (process cfg).Reachable s ∧ ((process cfg).only C).Run s ls' s' ∧ p s s' = true :=
  LTS.reach_run_of_exec ⟨_, rfl⟩ h

/-- The release build of the library with two groups, for examples. -/
def Cfg.small : Cfg Bool :=
  ⟨⟨false, false, false⟩, 2, fun i => if i < 2 then some i else none, false⟩

/-- The task of a continuation. -/
def Cell.task : Cell V E → Option Task
  | .continuation c => some c.stateful
  | _ => none

theorem Cell.eq_continuation {x : Cell V E} {k : Task} (h : x.task = some k) :
    ∃ c, x = .continuation c ∧ c.stateful = k := by
  cases x with
  | continuation c => exact ⟨c, rfl, Option.some.inj h⟩
  | _ => cases h

/-- Thread `t` launches a function and gets to its first own step. -/
def launchOn (t : Tid) : List (Label Bool Bool) :=
  .launch t 5 (.fine 0) :: List.replicate 4 (.main t (.fine 0)) ++
    List.replicate 10 (.act t (.run 0))

/-- A tick at time `now` pauses the function on thread `t`, and `resume` returns. -/
def preempted (t : Tid) (no : Signal) (now : UInt64) : List (Label Bool Bool) :=
  .act t (.deliver no) :: List.replicate 14 (.act t (.run now)) ++ [.main t (.fine 0)]

end Inger.L2
