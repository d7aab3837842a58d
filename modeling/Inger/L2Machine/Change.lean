import Inger.L2Machine.Advance

/-!
# What a call changes

`step_change` sorts the steps of all labels by what they do to the `Linger`s
and the pools (default build): a call that only returns, a `launch` that gets a
group, the beginning of a `resume` (`Begin`), its later steps, a step on a
function's stack, the drop of a continuation, and the exit of a thread. The
invariants of the project are proved along these cases, so that none of them
unfolds a step again.
-/
namespace Inger.L2

open L1.Reusable L1.Signals

variable {V E : Type}

/-- The thread that takes the step. -/
def Label.tid : Label V E → Tid
  | .launch t _ _ => t
  | .resume t _ _ _ => t
  | .main t _ => t
  | .act t _ => t
  | .drop t _ _ => t
  | .cancel t _ _ => t
  | .erase t _ => t
  | .exit t => t

/-- The outcomes of taking and installing the TCB. -/
inductive Begin (s : Sys V E) (t : Tid) (k : Lid) (c : Continuation V E) (trace : List (Event V E))
    (us : UInt64) (launching : Bool) (env : Env) : Sys V E → Prop
  | missing (tls : c.tls = none) : Begin s t k c trace us launching env
      ((s.abandon k c trace launching env.renew).setThread t
        { s.threads t with ret := some (.panic .missingTcb) })
  | enters (tcb : Vars) (tls : c.tls = some tcb) (installs : env.install = true) :
      Begin s t k c trace us launching env
        ((s.setLinger k ⟨.resuming t c.group, trace⟩).setThread t
          { s.threads t with
            vars := tcb
            call := some ⟨k, c.functional, c.stateful, c.group, us, launching, false, ∅,
              (s.threads t).vars, trace⟩
            base := .main .setup })
  | fails (tcb : Vars) (tls : c.tls = some tcb) (installs : env.install = false) :
      Begin s t k c trace us launching env
        (((s.freeStack tcb.task.stack).abandon k { c with tls := none } trace launching
          env.renew).setThread t { s.threads t with ret := some .err })

/-- `launch` has a group: the new continuation is the last of the `Linger`s. -/
def Sys.launched (s : Sys V E) (group : Gid) (p : Pool Gid) : Sys V E :=
  { s with
    groups := p
    localstores := (alloc (fun _ => some Vars.fresh) s.localstores).2
    lingers := s.lingers ++ [⟨.continuation ⟨.function, .default, group,
      (alloc (fun _ => some Vars.fresh) s.localstores).1⟩, []⟩] }

/-- The steps, by what they change. -/
inductive Change (cfg : Cfg V) (s : Sys V E) : Label V E → Sys V E → Prop
  | returns (l : Label V E) (t : Tid) (k : Lid) (idle : Sys.idle (s.threads t) = true)
      (label : (∃ us env, l = .resume t k us env) ∨ ∃ env, l = .cancel t k env) :
      Change cfg s l (s.setThread t { s.threads t with ret := some .ok })
  | caught (l : Label V E) (t : Tid) (tid : l.tid = t) (idle : Sys.idle (s.threads t) = true)
      (asserts : cfg.debugAssertions = true) (pre : (s.threads t).group.preemptible = true) :
      Change cfg s l (s.setThread t ((s.threads t).fail .preemptible))
  | full (t : Tid) (us : UInt64) (env : Env) (p : Pool Gid) (idle : Sys.idle (s.threads t) = true)
      (none : tryFrom cfg.newGroup s.groups = (none, p)) :
      Change cfg s (.launch t us env)
        ({ s with groups := p }.setThread t { s.threads t with ret := some (.panic .tooMany) })
  | sets (t : Tid) (env : Env) (group : Gid) (p : Pool Gid) (idle : Sys.idle (s.threads t) = true)
      (some : tryFrom cfg.newGroup s.groups = (some group, p)) :
      Change cfg s (.launch t 0 env)
        ((s.launched group p).setThread t { s.threads t with ret := .some .ok })
  | launches (t : Tid) (us : UInt64) (env : Env) (group : Gid) (p : Pool Gid) (s' : Sys V E)
      (idle : Sys.idle (s.threads t) = true)
      (shared : cfg.debugAssertions = true → (s.threads t).group.preemptible = false)
      (budget : us ≠ 0) (some : tryFrom cfg.newGroup s.groups = (some group, p))
      (begin : Begin (s.launched group p) t s.lingers.length ⟨.function, .default, group,
        (alloc (fun _ => .some Vars.fresh) s.localstores).1⟩ [] us true env s') :
      Change cfg s (.launch t us env) s'
  | resumes (t : Tid) (k : Lid) (us : UInt64) (env : Env) (c : Continuation V E)
      (trace : List (Event V E)) (s' : Sys V E) (idle : Sys.idle (s.threads t) = true)
      (shared : cfg.debugAssertions = true → (s.threads t).group.preemptible = false)
      (cell : s.lingers[k]? = some ⟨.continuation c, trace⟩)
      (begin : Begin s t k c trace us false env s') : Change cfg s (.resume t k us env) s'
  | advances (t : Tid) (env : Env) (c : Call V E) (pc : MainPc) (s' : Sys V E)
      (call : (s.threads t).call = some c) (base : (s.threads t).base = .main pc)
      (early : pc ≠ .leave) (handlers : (s.threads t).handlers = [])
      (adv : Advance cfg s t c env s') :
      Change cfg s (.main t env) s'
  | leaves (t : Tid) (env : Env) (c : Call V E) (s' : Sys V E) (call : (s.threads t).call = some c)
      (base : (s.threads t).base = .main .leave) (handlers : (s.threads t).handlers = [])
      (left : s' = Sys.leaveStep cfg s t (s.threads t) c env) : Change cfg s (.main t env) s'
  | acts (t : Tid) (a : Act V E) (th : Thread V E)
      (step : Thread.step (s.world cfg) (s.threads t) a = some th) :
      Change cfg s (.act t a) { s.setThread t th with dirty := s.dirtyAfter (s.threads t) th }
  | drops (l : Label V E) (t : Tid) (k : Lid) (c : Continuation V E) (trace : List (Event V E))
      (renew : Bool) (new : Linger V E) (idle : Sys.idle (s.threads t) = true)
      (cell : s.lingers[k]? = some ⟨.continuation c, trace⟩)
      (label : (∃ env, l = .drop t k env ∧ env.renew = renew ∧ new = ⟨.dropped, trace⟩) ∨
        ∃ env, l = .cancel t k env ∧ env.renew = renew ∧
          new = ⟨.completion cfg.unit, trace ++ [.cancel]⟩) :
      Change cfg s l (((s.dropContinuation c renew).setLinger k new).setThread t
        { s.threads t with ret := some (Sys.dropRet c renew) })
  | forgets (t : Tid) (k : Lid) (env : Env) (l : Linger V E) (idle : Sys.idle (s.threads t) = true)
      (cell : s.lingers[k]? = some l) (done : l.cell = .poison ∨ ∃ v, l.cell = .completion v) :
      Change cfg s (.drop t k env)
        ((s.setLinger k ⟨.dropped, l.trace⟩).setThread t { s.threads t with ret := some .ok })
  | stays (t : Tid) (k : Lid) : Change cfg s (.erase t k) s
  | exits (t : Tid) (p : Pool Signal) (idle : Sys.idle (s.threads t) = true) :
      Change cfg s (.exit t)
        { s.setThread t { s.threads t with signaler := none, base := .exited } with signals := p }

section
variable {cfg : Cfg V} {s s' : Sys V E} {t : Tid} {k : Lid} {env : Env}

theorem beginResume_begin {c : Continuation V E} {trace : List (Event V E)} {us : UInt64}
    {launching : Bool} (hn : cfg.notls = false) :
    Begin s t k c trace us launching env (Sys.beginResume cfg s t k c trace us launching env) := by
  unfold Sys.beginResume
  cases htls : c.tls with
  | none => exact .missing htls
  | some tcb =>
    cases hi : env.install with
    | true =>
      simp only [hn, Bool.true_or, if_true, Bool.false_eq_true, if_false]
      exact .enters tcb htls hi
    | false =>
      simp only [hn, Bool.or_self, Bool.false_eq_true, if_false]
      exact .fails tcb htls hi

theorem launchStep_change {us : UInt64} (hn : cfg.notls = false)
    (hs : Sys.launchStep cfg s t us env = some s') : Change cfg s (.launch t us env) s' := by
  simp only [Sys.launchStep] at hs
  split at hs
  · cases hs
  · rename_i hi
    have hi : Sys.idle (s.threads t) = true := by simpa using hi
    split at hs
    · rename_i hp
      obtain ⟨hd, hp⟩ := Bool.and_eq_true_iff.mp hp
      cases hs; exact .caught _ t rfl hi hd hp
    · rename_i hp
      split at hs
      · rename_i p hnone; cases hs; exact .full t us env p hi hnone
      · rename_i group p hsome
        split at hs <;> cases hs
        · rename_i hz; subst hz; exact .sets t env group p hi hsome
        · rename_i hz
          exact .launches t us env group p _ hi (by simpa using hp) hz hsome (beginResume_begin hn)

theorem resumeStep_change {us : UInt64} (hn : cfg.notls = false)
    (hs : Sys.resumeStep cfg s t k us env = some s') : Change cfg s (.resume t k us env) s' := by
  simp only [Sys.resumeStep] at hs
  split at hs
  · cases hs
  · rename_i hi
    have hi : Sys.idle (s.threads t) = true := by simpa using hi
    split at hs
    · rename_i hp
      obtain ⟨hd, hp⟩ := Bool.and_eq_true_iff.mp hp
      cases hs; exact .caught _ t rfl hi hd hp
    · rename_i hp
      split at hs <;> cases hs
      · rename_i c trace hl
        exact .resumes t k us env c trace _ hi (by simpa using hp) hl (beginResume_begin hn)
      · exact .returns _ t k hi (.inl ⟨us, env, rfl⟩)
      · exact .returns _ t k hi (.inl ⟨us, env, rfl⟩)

theorem mainStep_change (hs : Sys.mainStep cfg s t env = some s') :
    Change cfg s (.main t env) s' := by
  obtain ⟨c, pc, hcall, hbase, hh, ⟨hadv, hpc⟩ | ⟨rfl, rfl⟩⟩ := mainStep_cases hs
  · exact .advances t env c pc s' hcall hbase hpc hh hadv
  · exact .leaves t env c _ hcall hbase hh rfl

theorem dropStep_change (hs : Sys.dropStep cfg s t k env = some s') :
    Change cfg s (.drop t k env) s' := by
  simp only [Sys.dropStep] at hs
  split at hs
  · cases hs
  · rename_i hi
    have hi : Sys.idle (s.threads t) = true := by simpa using hi
    split at hs
    · rename_i c trace hl
      split at hs <;> cases hs
      · rename_i hp
        obtain ⟨hd, hp⟩ := Bool.and_eq_true_iff.mp hp
        exact .caught _ t rfl hi hd hp
      · exact .drops _ t k c trace env.renew _ hi hl (.inl ⟨env, rfl, rfl, rfl⟩)
    · rename_i v trace hl; cases hs; exact .forgets t k env _ hi hl (.inr ⟨v, rfl⟩)
    · rename_i trace hl; cases hs; exact .forgets t k env _ hi hl (.inl rfl)
    · cases hs

theorem cancelStep_change (hs : Sys.cancelStep cfg s t k env = some s') :
    Change cfg s (.cancel t k env) s' := by
  simp only [Sys.cancelStep] at hs
  split at hs
  · cases hs
  · rename_i hi
    have hi : Sys.idle (s.threads t) = true := by simpa using hi
    split at hs
    · rename_i c trace hl
      split at hs <;> cases hs
      · rename_i hp
        obtain ⟨hd, hp⟩ := Bool.and_eq_true_iff.mp hp
        exact .caught _ t rfl hi hd hp
      · exact .drops _ t k c trace env.renew _ hi hl (.inr ⟨env, rfl, rfl, rfl⟩)
    · cases hs; exact .returns _ t k hi (.inr ⟨env, rfl⟩)
    · cases hs; exact .returns _ t k hi (.inr ⟨env, rfl⟩)
    · cases hs

/-- **Every step is one of the cases of `Change`.** -/
theorem step_change {l : Label V E} (hn : cfg.notls = false) (hs : Sys.step cfg s l = some s') :
    Change cfg s l s' := by
  cases l with
  | launch t us env => exact launchStep_change hn hs
  | resume t k us env => exact resumeStep_change hn hs
  | main t env => exact mainStep_change hs
  | act t a =>
    simp only [Sys.step, Sys.actStep, Option.map_eq_some_iff] at hs
    obtain ⟨th, hth, rfl⟩ := hs
    exact .acts t a th hth
  | drop t k env => exact dropStep_change hs
  | cancel t k env => exact cancelStep_change hs
  | erase t k =>
    simp only [Sys.step, Option.ite_none_right_eq_some, Option.some.injEq] at hs
    obtain ⟨-, rfl⟩ := hs
    exact .stays t k
  | exit t =>
    simp only [Sys.step, Sys.exitStep] at hs
    split at hs
    · cases hs
    · rename_i hi
      have hi : Sys.idle (s.threads t) = true := by simpa using hi
      split at hs <;> cases hs <;> exact .exits t _ hi

/-! ## Other threads -/

theorem threads_freeStack (o : Option Sid) : (s.freeStack o).threads = s.threads := by
  cases o <;> rfl

theorem threads_dropContinuation (c : Continuation V E) (renew : Bool) :
    (s.dropContinuation c renew).threads = s.threads := threads_freeStack _

theorem threads_abandon (c : Continuation V E) (tr : List (Event V E)) (launching renew : Bool) :
    (s.abandon k c tr launching renew).threads = s.threads := by
  unfold Sys.abandon
  split
  · exact threads_dropContinuation c renew
  · rfl

theorem threads_setThread_ne (th : Thread V E) {u : Tid} (h : u ≠ t) :
    (s.setThread t th).threads u = s.threads u := Function.update_of_ne h _ _

@[simp] theorem threads_setThread_self (th : Thread V E) : (s.setThread t th).threads t = th :=
  Function.update_self ..

/-- A thread that has taken a step of its own. -/
theorem threads_acted (th : Thread V E) (dirty : Gid → Bool) :
    ({ s.setThread t th with dirty := dirty } : Sys V E).threads t = th :=
  threads_setThread_self th

theorem step_acted {a : Act V E} (hs : Sys.step cfg s (.act t a) = some s') :
    (s.threads t).step (s.world cfg) a = some (s'.threads t) := by
  obtain ⟨th, hth, rfl⟩ := Option.map_eq_some_iff.mp hs
  rw [threads_acted, hth]

theorem Begin.threads_ne {c : Continuation V E} {trace : List (Event V E)} {us : UInt64}
    {launching : Bool} (h : Begin s t k c trace us launching env s') {u : Tid} (hu : u ≠ t) :
    s'.threads u = s.threads u := by
  cases h with
  | missing => rw [threads_setThread_ne _ hu, threads_abandon]
  | enters => exact threads_setThread_ne _ hu
  | fails => rw [threads_setThread_ne _ hu, threads_abandon, threads_freeStack]

theorem threads_failResume_ne {th : Thread V E} {c : Call V E} {ret : Ret E} {u : Tid}
    (hu : u ≠ t) :
    (Sys.failResume cfg s t th c env ret).threads u = s.threads u := by
  unfold Sys.failResume
  rw [threads_setThread_ne _ hu, threads_abandon]
  split
  · rfl
  · rw [threads_freeStack]

theorem Advance.threads_ne {c : Call V E} (h : Advance cfg s t c env s') {u : Tid} (hu : u ≠ t) :
    s'.threads u = s.threads u := by
  cases h with
  | goes s₁ th c' shared => rw [threads_setThread_ne _ hu, shared.threads]
  | fails s₁ th c' ret shared => rw [threads_failResume_ne hu, shared.threads]

theorem threads_leaveStep_ne {c : Call V E} {u : Tid} (hu : u ≠ t) :
    (Sys.leaveStep cfg s t (s.threads t) c env).threads u = s.threads u := by
  unfold Sys.leaveStep
  split
  · exact threads_failResume_ne hu
  · dsimp only [Sys.endResume]
    split
    · rw [threads_setThread_ne _ hu]; exact congrFun (threads_freeStack _) u
    · split <;> rw [threads_setThread_ne _ hu]
      · exact congrFun ((threads_dropContinuation _ env.renew).trans (threads_freeStack _)) u
      · exact congrFun ((threads_dropContinuation _ env.renew).trans (threads_freeStack _)) u
      · rw [threads_abandon, threads_freeStack]
      · rw [threads_abandon, threads_freeStack]

/-- **A step is one thread's.** -/
theorem step_threads_ne {l : Label V E} (hn : cfg.notls = false) (hs : Sys.step cfg s l = some s')
    {u : Tid} (hu : u ≠ l.tid) : s'.threads u = s.threads u := by
  cases step_change hn hs with
  | returns _ t k idle label =>
    have hu' : u ≠ t := by rcases label with ⟨_, _, rfl⟩ | ⟨_, rfl⟩ <;> exact hu
    exact threads_setThread_ne _ hu'
  | caught _ t tid => exact threads_setThread_ne _ (tid ▸ hu)
  | full => exact threads_setThread_ne _ hu
  | sets => exact threads_setThread_ne _ hu
  | launches t us env group p _ idle shared budget some begin => exact begin.threads_ne hu
  | resumes t k us env c trace _ idle shared cell begin => exact begin.threads_ne hu
  | advances t env c pc _ call base early handlers adv => exact adv.threads_ne hu
  | leaves t env c _ call base handlers left => rw [left]; exact threads_leaveStep_ne hu
  | acts => exact threads_setThread_ne _ hu
  | drops _ t k c trace renew new idle cell label =>
    have hu' : u ≠ t := by rcases label with ⟨_, rfl, _⟩ | ⟨_, rfl, _⟩ <;> exact hu
    rw [threads_setThread_ne _ hu']
    exact congrFun (threads_dropContinuation c renew) u
  | forgets => exact threads_setThread_ne _ hu
  | stays => rfl
  | exits => exact threads_setThread_ne _ hu

end

end Inger.L2
