import Inger.L2Machine.State
import Mathlib.Data.Finset.Erase

/-!
# One kernel thread: `schedule`, `preempt`, `enable_preemption`, `pause`

The steps a thread takes on a function's stack, one step per statement of the
source that reads or writes shared state, so that a signal can arrive between
any two of them. A signal handler is a `Frame` on top of the code it
interrupted; while it runs, its own signal is blocked (`SA_NODEFER` is not
set) and other signals may interrupt it in turn.

* `Act.deliver no`: the kernel delivers an unblocked signal. This is a tick of
  some thread's timer (`SIGEV_SIGNAL` timers signal the process, so any thread
  that does not block the signal may get it) or a signal `pthread_kill` sent.
* `Act.run now`: the next step of the innermost handler or, without one, of the
  code below; `now` is the clock, for the steps that read it.
* `Act.fn a`: a step of the timed function: its own code, a call into or a
  return from a nonpreemptible library function, a call of `pause`, or its end.

A signal that is pending and not blocked is delivered before the thread takes
any other step (`ready`): `pthread_kill` to oneself and `pthread_sigmask`
return only after that.

A `RefCell` that stays borrowed from one statement to a later one is modelled
with its flag: TASK's is held by the handlers in `HandlerPc.borrows`,
ERRNO_LOCATION's is in `Vars`. The accesses to SIGNAL begin and end within one
expression and are one step. The masks of `enable_preemption`,
`disable_preemption` and `defer_preemption`, and the signal a thread sends
itself, drop the result of a system call that fails for invalid arguments only;
they are taken to succeed.
-/
namespace Inger.L2

open L1.Signals

variable {V E : Type}

/-- What the steps of a thread depend on besides the thread: the build, and the
signal of every thread's `PreemptionSignal`. -/
structure World extends Build where
  sig : Tid → Option Signal

/-- `thread_signal`; `none` is `Err`.
mirrors src/preemption.rs:27-39 -/
def threadSignal (sig : Tid → Option Signal) (v : Vars) : Option Signal := v.signal.bind sig

/-- What `stamp` leaves in DEADLINE.
mirrors src/linger.rs:471-477 -/
def stamp (now deadline : UInt64) : UInt64 :=
  if deadline.toNat * 1000 < 2 ^ 64 then now + deadline * 1000 else deadline

/-- The sum in `stamp` does not fit: with overflow checks it panics, without
them it wraps. -/
def stampOverflows (now deadline : UInt64) : Bool :=
  deadline.toNat * 1000 < 2 ^ 64 && 2 ^ 64 ≤ now.toNat + deadline.toNat * 1000

/-- `*errno() = e` while group `g` is current. -/
def Vars.setErrno (v : Vars) (g : Group) (e : Int) : Vars :=
  { v with errno := fun g' => if g' = g then e else v.errno g' }

/-- Ghost: append to the function's history. -/
def Call.log (c : Call V E) (e : Event V E) : Call V E := { c with trace := c.trace ++ [e] }

namespace Thread

def fail (th : Thread V E) (why : Stuck) : Thread V E := { th with base := .stuck why }

/-! ## `disable_preemption` -/

/-- mirrors src/preemption.rs:85-94 -/
def disableStep (th : Thread V E) (block : Option Signal) : DisablePc → Thread V E
  | .group => { th with group := .SHARED }
  | .mask =>
    match block with
    | some signal => { th with mask := insert signal th.mask }
    | none => th
  | .signal => { th with vars := { th.vars with signal := none } }
  | .deferred => { th with vars := { th.vars with deferred := false } }

end Thread

def DisablePc.next : DisablePc → Option DisablePc
  | .group => some .mask
  | .mask => some .signal
  | .signal => some .deferred
  | .deferred => none

namespace Thread

/-! ## `enable_preemption` -/

/-- How a step of `enable_preemption` goes on: with another step, or by
returning `Ok` or `Err`, or not at all. -/
inductive EnableOut where
  | next (e : Enable)
  | ok (unblock : Option Signal)
  | err
  | fails (why : Stuck)

/-- mirrors src/preemption.rs:46-83,134-156 -/
def enableStep (w : World) (th : Thread V E) (e : Enable) : Thread V E × EnableOut :=
  match e.pc with
  | .errno =>
    if th.vars.errnoLocation.borrowed then (th, .fails .errnoBorrowed)
    else
      -- A call with a group saves the location for the later ones without.
      match e.group.or th.vars.errnoLocation.value with
      | none => (th, .fails .errnoLocation)
      | some g =>
        ({ th with vars := { th.vars with errnoLocation := ⟨some g, true⟩ } },
          .next { e with pc := .location, erryes := g, cell := th.vars.signal })
  | .location =>
    -- The guard of the borrow is on the function's stack. Without a TCB that
    -- moves along, it may be dropped by another thread than the cell's.
    if w.notls ∧ e.cell ≠ th.vars.signal then (th, .fails .wild)
    else
      ({ th with vars := { th.vars with
          errnoLocation := { th.vars.errnoLocation with borrowed := false } } },
        .next { e with pc := .group, errno := th.vars.errno th.group })
  | .group =>
    match e.group with
    | some g => ({ th with group := .of g }, .next { e with pc := .first })
    | none => (th, .next { e with pc := .swap })
  | .first =>
    match threadSignal w.sig th.vars with
    | some signal => (th, .next { e with pc := .swap, unblock := some signal })
    | none => (th, .err)
  | .swap =>
    ({ th with vars := { th.vars with deferred := false } },
      .next { e with pc := if th.vars.deferred then .get else .unblock })
  | .get =>
    match threadSignal w.sig th.vars with
    | some signal => (th, .next { e with pc := .kill, unblock := some (e.unblock.getD signal) })
    | none => (th, .err)
  | .kill =>
    match e.unblock with
    | some signal =>
      ({ th with pending := insert signal th.pending }, .next { e with pc := .unblock })
    | none => (th, .next { e with pc := .unblock })
  | .unblock =>
    match e.unblock with
    | some signal => ({ th with mask := th.mask.erase signal }, .next { e with pc := .tail })
    | none => (th, .next { e with pc := .tail })
  | .tail =>
    if e.group = none ∧ e.errno ≠ 0 then
      ({ th with vars := th.vars.setErrno (.of e.erryes) e.errno }, .ok e.unblock)
    else (th, .ok e.unblock)

/-! ## `schedule`, `pause` and the hook -/

def goto (th : Thread V E) (b : Body) (pos : Pos) : Thread V E :=
  { th with base := .body { b with pos := pos } }

def setCall (th : Thread V E) (c : Call V E) : Thread V E := { th with call := some c }

/-- `schedule` takes BOOTSTRAP.
mirrors src/linger.rs:394-399 -/
def bootStep (th : Thread V E) : Thread V E :=
  match th.vars.bootstrap with
  | none => th.fail .notBootstrapped
  | some (fn, group) =>
    { th with vars := { th.vars with bootstrap := none }, base := .body ⟨fn, group, none, .stamp⟩ }

/-- `schedule` (with a group) or the hook (without) takes a step of
`enable_preemption`. -/
def enablePos (w : World) (th : Thread V E) (b : Body) (e : Enable) : Thread V E :=
  match enableStep w th e with
  | (th', .next e') => th'.goto b (.enable e')
  | (th', .ok unblock) =>
    match e.group with
    | some _ =>
      if w.debugAssertions ∧ unblock = none then th'.fail .unsignaled
      else th'.goto { b with signal := unblock } .call
    | none => th'.goto b .own
  | (th', .err) =>
    match e.group with
    | some _ => th'.fail .scheduleTls
    | none => th'.goto b .own
  | (th', .fails why) => th'.fail why

/-- `schedule` calls the boxed closure, as a nullary function.
mirrors src/linger.rs:166-183,404 -/
def callPos (th : Thread V E) (c : Call V E) (b : Body) : Thread V E :=
  if b.fn = c.linger then
    match c.functional with
    | .function => (th.setCall ({ c with functional := .empty }.log .enter)).goto b .own
    -- It would write the value through its undefined argument.
    | .ret _ => th.fail .wild
    | .empty => th.goto b (.disable .group)
  else th.fail .wild

/-- The next step of the code on a function's stack; `none` where the
function decides (`Act.fn`).
mirrors src/linger.rs:391-416,481-488 and src/preemption.rs:103-116 -/
def bodyStep (w : World) (now : UInt64) (th : Thread V E) (c : Call V E) (b : Body) :
    Option (Thread V E) :=
  match b.pos with
  | .stamp =>
    if w.overflowChecks && stampOverflows now th.vars.deadline then some (th.fail .overflow)
    else
      some ({ th with vars := { th.vars with deadline := stamp now th.vars.deadline } }.goto b
        (.enable ⟨.errno, some b.group, 0, 0, none, none⟩))
  | .enable e => some (th.enablePos w b e)
  | .call => some (th.callPos c b)
  | .own => none
  | .lib _ => none
  | .pause back =>
    some ({ th with vars := { th.vars with deadline := 0 } }.goto b (.deferMask back))
  | .deferMask back =>
    if w.debugAssertions && th.group.preemptible then some (th.fail .deferring)
    else
      match threadSignal w.sig th.vars with
      | some signal => some ({ th with mask := insert signal th.mask }.goto b (.deferFlag back))
      | none => some (th.fail .pauseSignal)
  | .deferFlag back =>
    some ({ th with vars := { th.vars with deferred := true } }.goto b (.lib back))
  | .disable pc =>
    some ((th.disableStep b.signal pc).goto b
      (match pc.next with
       | some pc' => .disable pc'
       | none => .check))
  | .check =>
    if w.debugAssertions && th.vars.task.errno.isSome then some (th.fail .leftoverErrno)
    else some (th.goto b .ret)
  -- uc_link: back to the call site of `restorecontext`.
  | .ret => some { th.setCall (c.log .finish) with mask := c.link, base := .main .leave }

end Thread

/-- A step of the timed function. -/
inductive FnAct (V E : Type) where
  | work (errno : Int)
  | call
  | pause
  | exit
  | finish (r : Except E V)

namespace Thread

/-- The function's own code, and library code it called, may set errno; a
library call switches to `SHARED` and back and then runs the hook; the function
ends by returning or panicking, which the closure records.
mirrors src/linger.rs:167-171,481 -/
def fnStep (th : Thread V E) (c : Call V E) (b : Body) (a : FnAct V E) : Option (Thread V E) :=
  match b.pos, a with
  | .own, .work e => some { th.setCall (c.log .work) with vars := th.vars.setErrno th.group e }
  | .own, .call =>
    some ({ th.setCall (c.log .call) with group := .SHARED }.goto b (.lib th.group))
  | .own, .pause =>
    some ({ th.setCall (c.log .pause) with group := .SHARED }.goto b (.pause th.group))
  | .own, .finish r =>
    some ((th.setCall ({ c with functional := .ret r }.log (.done r))).goto b (.disable .group))
  | .lib _, .work e => some { th with vars := th.vars.setErrno th.group e }
  | .lib back, .exit => some ({ th with group := back }.goto b (.enable .hook))
  | _, _ => none

/-! ## `preempt` -/

end Thread

/-- The handler holds `task.borrow_mut()`.
mirrors src/linger.rs:434-452 -/
def HandlerPc.borrows : HandlerPc → Bool
  | .swap _ => true
  | .errno _ => true
  | .block => true
  | .disable _ => true
  | _ => false

namespace Thread

/-- `checkpoint.swap(uc)`: the checkpoint, which designates the call site,
takes the interrupted function and the handler will return to the call site. A
swap with a checkpoint that does not designate the call site would return into
the function just paused; it has no model. -/
def swap (th : Thread V E) (f : Frame) (rest : List Frame) (pc : HandlerPc) : Thread V E :=
  match th.vars.task.checkpoint, f.target, th.base with
  | some ⟨stack, mask, .callsite⟩, .interrupted, .body b =>
    { th with
      vars := { th.vars with
        task := { th.vars.task with checkpoint := some ⟨stack, f.mask, .paused b rest⟩ } }
      base := .gone
      handlers := [⟨f.no, mask, .callsite, pc⟩] }
  | _, _, _ => th.fail .wild

/-- Return from the handler: the kernel restores the mask in `uc`. -/
def sigreturn (th : Thread V E) (f : Frame) (rest : List Frame) : Thread V E :=
  match f.target with
  | .interrupted => { th with mask := f.mask, handlers := rest }
  | .callsite => { th with mask := f.mask, handlers := [], base := .main .leave }

/-- The next step of the innermost handler `f`.
mirrors src/linger.rs:419-468 and src/preemption.rs:103-116 -/
def handlerStep (w : World) (now : UInt64) (th : Thread V E) (f : Frame)
    (rest : List Frame) : Thread V E :=
  let at' (pc : HandlerPc) : Thread V E := { th with handlers := { f with pc := pc } :: rest }
  let block (pc : HandlerPc) : Thread V E :=
    { th with handlers := { f with mask := insert f.no f.mask, pc := pc } :: rest }
  match f.pc with
  | .entry => at' (.relevant (th.vars.errno th.group))
  | .relevant e => at' (.test e (threadSignal w.sig th.vars = some f.no))
  | .test e relevant =>
    if relevant && th.group.preemptible then at' (.deadline e)
    else if relevant then at' (.deferMask e)
    else at' (.ignore e)
  | .deadline e => at' (.clock e th.vars.deadline)
  | .clock e d => if d ≤ now then at' (.yielded e d) else at' (.restore e)
  | .yielded e d =>
    if rest.any (·.pc.borrows) then th.fail .borrowed
    else
      { at' (.swap e) with
        vars := { th.vars with task := { th.vars.task with yielded := d = 0 } } }
  | .swap e => th.swap f rest (.errno e)
  | .errno e =>
    { at' .block with vars := { th.vars with task := { th.vars.task with errno := some e } } }
  | .block => block (.disable .group)
  | .disable pc =>
    (at' (match pc.next with
          | some pc' => .disable pc'
          | none => .ret)).disableStep none pc
  | .deferMask e =>
    if w.debugAssertions && th.group.preemptible then th.fail .deferring
    else block (.deferFlag e)
  | .deferFlag e => { at' (.restore e) with vars := { th.vars with deferred := true } }
  | .ignore e => block (.restore e)
  | .restore e => { at' .ret with vars := th.vars.setErrno th.group e }
  | .ret => th.sigreturn f rest

/-! ## Steps of a thread -/

/-- Able to take steps, and no unblocked signal pending. -/
def ready (th : Thread V E) : Bool := th.base.alive && decide (th.pending ⊆ th.mask)

/-- The kernel runs `preempt` for signal `no`. -/
def interrupt (th : Thread V E) (no : Signal) : Thread V E :=
  { th with mask := insert no th.mask, pending := th.pending.erase no,
            handlers := ⟨no, th.mask, .interrupted, .entry⟩ :: th.handlers }

end Thread

inductive Act (V E : Type) where
  | deliver (no : Signal)
  | run (now : UInt64)
  | fn (a : FnAct V E)

namespace Thread

def runStep (w : World) (now : UInt64) (th : Thread V E) : Option (Thread V E) :=
  match th.handlers, th.base, th.call with
  | f :: rest, _, _ => some (th.handlerStep w now f rest)
  | [], .boot, some _ => some th.bootStep
  | [], .body b, some c => th.bodyStep w now c b
  | _, _, _ => none

def step (w : World) (th : Thread V E) : Act V E → Option (Thread V E)
  | .deliver no => if th.base.alive ∧ no ∉ th.mask then some (th.interrupt no) else none
  | .run now => if th.ready then th.runStep w now else none
  | .fn a =>
    match th.ready, th.handlers, th.base, th.call with
    | true, [], .body b, some c => th.fnStep c b a
    | _, _, _, _ => none

end Thread
end Inger.L2
