import Inger.L3Slice.Owner

/-!
# How a slice ends

A slice comes back to the caller in one of two ways: the handler swaps the
function away and returns to the call site, or `schedule` returns through
`uc_link`. Each resets the group, SIGNAL and DEFERRED in its own order, with
signals arriving in between. `leaveStep_left` has the outcomes of the last step
of `resume`. When it returns `Ok` or re-raises the function's panic, the group is
`SHARED`, the thread's signal is blocked and the TCB just uninstalled is at rest
(`leaveStep_rests`).
-/
namespace Inger.L3

open L1.Reusable L1.Signals L2

variable {V E : Type}

/-- Thread `t` is back in its program with `Ok` or the function's panic. -/
structure Returned (s : Sys V E) (t : Tid) : Prop where
  base : (s.threads t).base = .caller
  ret : (s.threads t).ret = some .ok ∨ ∃ e, (s.threads t).ret = some (.raise e)

/-- The block `v` of the call `c` has been uninstalled: it is in its slot
again, in the paused continuation or on the free list. -/
def Uninstalled (s s' : Sys V E) (c : Call V E) (v : Vars) : Prop :=
  (∃ cont tr, s'.lingers[c.linger]? = some ⟨.continuation cont, tr⟩ ∧ cont.tls = some v) ∨
    s'.localstores.free = some v :: s.localstores.free

/-! ## How `resume` ends -/

/-- What is left of a finished function's `Linger`; a `launch` that re-raises
has none to return. -/
def settledCell (launching : Bool) : Except E V → Cell V E
  | .ok v => .completion v
  | .error _ => if launching then .dropped else .poison

/-- How `resume` reports a finished function. -/
def settledRet : Except E V → Ret E
  | .ok _ => .ok
  | .error e => .raise e

/-- The outcomes of the last step of `resume`. The stack of a finished function
is in TASK, and its continuation has none. -/
inductive Left (cfg : Cfg V) (s : Sys V E) (t : Tid) (c : Call V E) (env : Env) : Sys V E → Prop
  | fails (error : c.error = true) :
    Left cfg s t c env (Sys.failResume cfg s t (s.threads t) c env .err)
  | paused (e : Int) (st : Sid) (m : Sigset) (b : Body) (hs : List Frame) (y : Bool)
      (error : c.error = false)
      (task : (s.threads t).vars.task = ⟨some e, some ⟨st, m, .paused b hs⟩, y⟩)
      (trace : Traced false c.functional c.trace) : Left cfg s t c env
        ((s.setLinger c.linger ⟨.continuation
          ⟨c.functional, ⟨some e, some ⟨st, m, .paused b hs⟩, y⟩,
            c.group, some { (s.threads t).vars with task := .default }⟩, c.trace ++
              [.back y]⟩).setThread t
          { s.threads t with vars := c.other, call := none, base := .caller, ret := some .ok })
  | settled (ctx : Context) (y : Bool) (r : Except E V) (error : c.error = false)
      (task : (s.threads t).vars.task = ⟨none, some ctx, y⟩)
      (trace : Traced true (.ret r) c.trace) :
      Left cfg s t c env
        ((((s.freeStack (some ctx.stack)).dropContinuation
          ⟨.empty, ⟨none, none, c.task.yielded⟩, c.group,
            some { (s.threads t).vars with task := .default }⟩ env.renew).setLinger c.linger
              ⟨settledCell c.launching r, c.trace⟩).setThread t
          { s.threads t with vars := c.other, call := none, base := .caller, ret := some (settledRet r) })

section
variable {cfg : Cfg V} {ok tidy : Prop} {s s' : Sys V E} {t : Tid} {c : Call V E} {env : Env}

theorem leaveStep_left (hn : cfg.notls = false) (hg : Good ok tidy s)
    (hcall : (s.threads t).call = some c) (hbase : (s.threads t).base = .main .leave)
    (hs : s' = Sys.leaveStep cfg s t (s.threads t) c env) : Left cfg s t c env s' := by
  have hcore := hg.threads t
  simp only [Core, hbase, hcall] at hcore
  obtain ⟨-, -, -, -, hlv⟩ := hcore
  have hstack : c.task.stack = none := by rw [Task.stack, hlv.taken]; rfl
  have htask' : { c.task with errno := none } = ⟨none, none, c.task.yielded⟩ := by
    simp only [hlv.taken]
  rw [hs, Sys.leaveStep]
  cases herr : c.error with
  | true => exact .fails herr
  | false =>
    rcases hlv.outcome with ⟨ctx, y, r, htask, hfun, htr⟩ | ⟨e, st, m, b, hs, y, htask, -, htr⟩
    · rw [hfun] at htr
      have h : Left cfg s t c env _ := .settled ctx y r herr htask htr
      simp only [Bool.false_eq_true, if_false, htask, Option.isSome_none, hfun, hn, htask',
        Sys.endResume, Task.stack, Option.map_some]
      cases r <;> exact h
    · have h : Left cfg s t c env _ := .paused e st m b hs y herr htask htr
      simpa [htask, hn, Sys.endResume, hstack, Sys.freeStack] using h

/-- A `resume` that ended early has not returned `Ok`. -/
theorem not_returned_failResume {th : Thread V E} {ret : Ret E}
    (hr : ret.early = true) : ¬Returned (Sys.failResume cfg s t th c env ret) t := by
  rintro ⟨-, h⟩
  simp only [Sys.failResume, threads_setThread_self, Option.some.injEq] at h
  rcases h with rfl | ⟨e, rfl⟩ <;> cases hr

/-- Only the last step of `resume` returns `Ok` or re-raises. -/
theorem returned_mainStep (hs : Sys.mainStep cfg s t env = some s') (hr : Returned s' t) :
    ∃ c, (s.threads t).call = some c ∧ (s.threads t).base = .main .leave ∧
      s' = Sys.leaveStep cfg s t (s.threads t) c env ∧ c.error = false := by
  obtain ⟨c, pc, hcall, hbase, -, ⟨hadv, -⟩ | ⟨rfl, rfl⟩⟩ := mainStep_cases hs
  · exfalso
    cases hadv with
    | goes s₁ th c' shared call same base => exact base (by simpa using hr.base)
    | fails s₁ th c' ret shared same failed => exact not_returned_failResume failed hr
  · refine ⟨c, hcall, hbase, rfl, ?_⟩
    cases he : c.error with
    | false => rfl
    | true =>
      simp only [Sys.leaveStep, he, if_true] at hr
      exact absurd hr (not_returned_failResume rfl)

/-- The last step of `resume`, when no error is to be reported. -/
theorem leaveStep_rests (hn : cfg.notls = false) (hg : Good False False s) (hl : Linked s)
    (hcall : (s.threads t).call = some c) (hbase : (s.threads t).base = .main .leave)
    (herr : c.error = false) (hs : s' = Sys.leaveStep cfg s t (s.threads t) c env) :
    (s'.threads t).group = .SHARED ∧ (s'.threads t).signaler.isSome = true ∧
      (∀ o, (s'.threads t).signaler = some o → o ∈ (s'.threads t).mask) ∧
      ∃ v, Uninstalled s s' c v ∧ Rest v := by
  have hcore := hg.threads t
  simp only [Core, hbase, hcall] at hcore
  obtain ⟨hcalm, -, -, hown, hlv⟩ := hcore
  have hgroup := hlv.group
  cases leaveStep_left hn hg hcall hbase hs with
  | fails error => rw [herr] at error; cases error
  | paused e st m b fs y _ task =>
    simp only [threads_setThread_self]
    refine ⟨hgroup, hown, hcalm.mask, { (s.threads t).vars with task := .default },
      .inl ?_, hlv.rest⟩
    exact ⟨_, _, List.getElem?_set_self (hl.lt_length hcall), rfl⟩
  | settled ctx y r _ task =>
    simp only [threads_setThread_self]
    exact ⟨hgroup, hown, hcalm.mask, { (s.threads t).vars with task := .default },
      .inr rfl, hlv.rest⟩

end

/-- Thread `0` launches a function that returns `true` at once; the next step
is the last one of `resume`. -/
def oneSlice : List (Label Bool Bool) :=
  launchOn 0 ++ .act 0 (.fn (.finish (.ok true))) :: List.replicate 6 (.act 0 (.run 0))

end Inger.L3
