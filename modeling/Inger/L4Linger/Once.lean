import Inger.L3Slice.Rest

/-!
# A timed function runs once and its result is delivered once

The boxed closure is called twice, once to run the function and once to fetch
its result, and `resume` tells the two apart by whether TASK came back with a
saved errno. `exactly_once` states the contract this implements, for any number
of functions, threads, pauses and signals, while nothing fails: a function is
entered at most once; its `Linger` is a `Continuation` until `schedule` has
returned, then a `Completion` or `Poison` that only a drop changes; the `resume`
in which it finished reports the result, and no other does.

"Nothing fails" includes the assignment of a preemption signal.
`seventeenth_thread_loses_function`: when a function's 17th thread resumes it, no
system call fails, but no signal is left; that `resume` panics and the next one
hits "continuation with missing TCB".
-/
namespace Inger.L4

open L1.Reusable L1.Signals L2 L3

variable {V E : Type}

/-- The result of a function that has finished: `schedule` has returned. -/
def verdict (tr : List (Event V E)) : Option (Except E V) :=
  if finishes tr = 0 then none else (results tr).head?

theorem verdict_running {f : Completion V E} {tr : List (Event V E)} (h : Traced false f tr) :
    verdict tr = none := by
  simp [verdict, h.finishes]

theorem verdict_finished {r : Except E V} {tr : List (Event V E)} (h : Traced true (.ret r) tr) :
    verdict tr = some r := by
  simp [verdict, h.finishes, h.results, Completion.result]

/-- A `Linger` its owner can use. -/
def AtRest (l : Linger V E) : Prop := l.cell ≠ .dropped ∧ ∀ t g, l.cell ≠ .resuming t g

/-- The state of a `Linger` is what its function's history says. -/
structure Agrees (l : Linger V E) : Prop where
  continuation : (∃ c, l.cell = .continuation c) ↔ verdict l.trace = none
  completion : ∀ v, l.cell = .completion v ↔ verdict l.trace = some (.ok v)
  poison : l.cell = .poison ↔ ∃ e, verdict l.trace = some (.error e)

/-- What the call `c` of `resume` by thread `t` has left when it ends: the
paused function, or the result it finished with. -/
def Delivered (s' : Sys V E) (t : Tid) (c : Call V E) : Prop :=
  match verdict c.trace with
  | none => (s'.threads t).ret = some .ok ∧ ∃ cont y,
      s'.lingers[c.linger]? = some ⟨.continuation cont, c.trace ++ [.back y]⟩
  | some r => (s'.threads t).ret = some (settledRet r) ∧
      s'.lingers[c.linger]? = some ⟨settledCell c.launching r, c.trace⟩

/-- A `Completion` or `Poison`. -/
def Settled (l : Linger V E) : Prop := l.cell = .poison ∨ ∃ v, l.cell = .completion v

section
variable {cfg : Cfg V} {ok tidy : Prop} {s s' : Sys V E} {t : Tid} {k : Lid} {l : Linger V E}
  {c : Call V E}

/-! ## Histories -/

theorem agrees (hg : Good True True s) (hk : s.lingers[k]? = some l) (hc : .cancel ∉ l.trace)
    (hr : AtRest l) : Agrees l := by
  have hcell := hg.lingers k l hk
  obtain ⟨cell, tr⟩ := l
  cases cell with
  | continuation cont =>
    obtain ⟨v, hv⟩ := Option.isSome_iff_exists.mp (hcell.1 trivial)
    have hv := verdict_running (hcell.2.2 v hv).2.2
    exact ⟨by simp [hv], by simp [hv], by simp [hv]⟩
  | completion v =>
    have hv := verdict_finished (hcell.resolve_left hc)
    exact ⟨by simp [hv], by simp [hv], by simp [hv]⟩
  | poison =>
    obtain ⟨e, htr⟩ := hcell
    have hv := verdict_finished htr
    exact ⟨by simp [hv], by simp [hv], by simp [hv]⟩
  | resuming t g => exact absurd rfl (hr.2 t g)
  | dropped => exact absurd rfl hr.1

/-- A call in progress has entered its function at most once. -/
theorem entered_call (hg : Good ok tidy s) (hcall : (s.threads t).call = some c)
    (ha : (s.threads t).base.alive = true) : entered c.trace ≤ 1 := by
  have hcore := hg.threads t
  unfold Core at hcore
  rw [hcall] at hcore
  cases hb : (s.threads t).base with
  | main pc =>
    rw [hb] at hcore
    obtain ⟨-, -, -, hm⟩ := hcore
    cases pc with
    | setup => exact hm.2.1.entered_le
    | signal => exact hm.2.2.1.entered_le
    | stack => exact hm.2.2.2.1.entered_le
    | switch => exact hm.2.trace.entered_le
    | leave => exact hm.2.entered_le
  | boot => rw [hb] at hcore; exact hcore.2.2.run.trace.entered_le
  | body b => rw [hb] at hcore; exact hcore.2.run.trace.entered_le
  | gone =>
    rw [hb] at hcore
    obtain ⟨-, upper, bottom, hgone⟩ := hcore
    exact hgone.trace.entered_le
  | caller => rw [hb] at hcore; exact hcore.elim
  | exited => rw [hb] at hcore; exact hcore.elim
  | stuck why => rw [hb] at ha; cases ha

/-! ## A settled `Linger` -/

theorem getElem_setLinger_ne {j : Lid} {x : Linger V E} (h : j ≠ k) :
    (s.setLinger j x).lingers[k]? = s.lingers[k]? := List.getElem?_set_ne h

theorem getElem_abandon_ne {j : Lid} {cont : Continuation V E} {tr : List (Event V E)}
    {launching renew : Bool} (h : j ≠ k) :
    (s.abandon j cont tr launching renew).lingers[k]? = s.lingers[k]? := by
  unfold Sys.abandon
  split
  · rw [getElem_setLinger_ne h, lingers_dropContinuation]
  · exact getElem_setLinger_ne h

theorem getElem_failResume_ne {th : Thread V E} {env : Env} {ret : Ret E} (h : c.linger ≠ k) :
    (Sys.failResume cfg s t th c env ret).lingers[k]? = s.lingers[k]? := by
  refine (getElem_abandon_ne h).trans ?_
  split
  · rfl
  · rw [lingers_freeStack]

theorem getElem_begin_ne {j : Lid} {cont : Continuation V E} {tr : List (Event V E)} {us : UInt64}
    {launching : Bool} {env : Env} (h : j ≠ k) (hb : Begin s t j cont tr us launching env s') :
    s'.lingers[k]? = s.lingers[k]? := by
  cases hb with
  | missing => exact getElem_abandon_ne h
  | enters => exact getElem_setLinger_ne h
  | fails => refine (getElem_abandon_ne h).trans ?_; rw [lingers_freeStack]

/-- **A settled `Linger` stays as it is** until it is dropped. -/
theorem settled_kept {lab : Label V E} (hn : cfg.notls = false) (hg : Good ok tidy s)
    (hl : Linked s) (hs : Sys.step cfg s lab = some s') (hk : s.lingers[k]? = some l)
    (hset : Settled l) (hd : ∀ t env, lab ≠ .drop t k env) : s'.lingers[k]? = some l := by
  have hlt : k < s.lingers.length := (List.getElem?_eq_some_iff.mp hk).1
  -- Another cell than one that is a continuation, or that a thread is using.
  have hcont {j : Lid} {cont : Continuation V E} {tr : List (Event V E)}
      (hj : s.lingers[j]? = some ⟨.continuation cont, tr⟩) : j ≠ k := by
    rintro rfl
    rw [hj] at hk
    cases hk
    rcases hset with h | ⟨v, h⟩ <;> cases h
  have hcall {t : Tid} {c : Call V E} (hc : (s.threads t).call = some c) : c.linger ≠ k := by
    rintro rfl
    have ho := (hl t c.linger c.group).mp (owned_call hc)
    rw [owner_of_cell hk] at ho
    rcases hset with h | ⟨v, h⟩ <;> rw [h] at ho <;> cases ho
  have hlaunched (group : Gid) (p : Pool Gid) : (s.launched group p).lingers[k]? = some l :=
    (List.getElem?_append_left hlt).trans hk
  cases step_change hn hs with
  | returns => exact hk
  | caught => exact hk
  | full => exact hk
  | sets t env group p => exact hlaunched group p
  | launches t us env group p _ idle shared budget some begin =>
    exact (getElem_begin_ne (Nat.ne_of_gt hlt) begin).trans (hlaunched group p)
  | resumes t j us env cont tr _ idle shared cell begin =>
    exact (getElem_begin_ne (hcont cell) begin).trans hk
  | advances t env c pc _ call base early handlers adv =>
    cases adv with
    | goes s₁ th c' shared => exact (congrArg (·[k]?) shared.lingers).trans hk
    | fails s₁ th c' ret shared same =>
      rw [getElem_failResume_ne (same.linger ▸ hcall call), shared.lingers]
      exact hk
  | leaves t env c _ call base handlers left =>
    cases leaveStep_left hn hg call base left with
    | fails => exact (getElem_failResume_ne (hcall call)).trans hk
    | paused => exact (getElem_setLinger_ne (hcall call)).trans hk
    | settled =>
      refine (getElem_setLinger_ne (hcall call)).trans ?_
      rw [lingers_dropContinuation, lingers_freeStack]
      exact hk
  | acts => exact hk
  | drops _ t j cont tr renew new idle cell =>
    refine (getElem_setLinger_ne (hcont cell)).trans ?_
    rw [lingers_dropContinuation]
    exact hk
  | forgets t j env =>
    refine (getElem_setLinger_ne ?_).trans hk
    rintro rfl
    exact hd t env rfl
  | stays => exact hk
  | exits => exact hk

/-! ## Calls -/

/-- A call of `resume` ends in one of its own steps on the caller's stack. -/
theorem call_ends {lab : Label V E} (hn : cfg.notls = false) (hg : Good ok tidy s)
    (hs : Sys.step cfg s lab = some s') (hcall : (s.threads t).call = some c)
    (hend : (s'.threads t).call = none) : ∃ env, lab = .main t env := by
  have ht : t = lab.tid := by
    by_contra h
    rw [step_threads_ne hn hs h, hcall] at hend
    cases hend
  have hbusy : Sys.idle (s.threads t) ≠ true := by
    intro hi
    rw [((hg.threads t).idle hi).2.2.1] at hcall
    cases hcall
  cases step_change hn hs with
  | returns _ u k idle label =>
    have hu : u = t := by rcases label with ⟨_, _, rfl⟩ | ⟨_, rfl⟩ <;> exact ht.symm
    subst hu
    exact absurd idle hbusy
  | caught _ u tid idle => exact absurd idle (by rwa [← tid, ← ht])
  | full u us env p idle => subst ht; exact absurd idle hbusy
  | sets u env group p idle => subst ht; exact absurd idle hbusy
  | launches u us env group p _ idle => subst ht; exact absurd idle hbusy
  | resumes u k us env cont tr _ idle => subst ht; exact absurd idle hbusy
  | advances u env => subst ht; exact ⟨env, rfl⟩
  | leaves u env => subst ht; exact ⟨env, rfl⟩
  | acts u a th step =>
    subst ht
    have hkept := (Thread.step_kept step).call
    rw [hcall] at hkept
    simp only [threads_setThread_self] at hend hkept
    rw [hend] at hkept
    cases hkept
  | drops _ u k cont tr renew new idle cell label =>
    have hu : u = t := by rcases label with ⟨_, rfl, _⟩ | ⟨_, rfl, _⟩ <;> exact ht.symm
    subst hu
    exact absurd idle hbusy
  | forgets u k env x idle => subst ht; exact absurd idle hbusy
  | stays => rw [hcall] at hend; cases hend
  | exits u p idle => subst ht; exact absurd idle hbusy

theorem not_early {ret : Ret E} (h : RetOk True (some ret)) : ret.early = false := by
  cases ret with
  | ok => rfl
  | err => exact absurd trivial h
  | raise e => rfl
  | panic p => cases p <;> first | rfl | exact absurd trivial h | exact h.elim

/-- **The call that ends delivers.** -/
theorem delivered {env : Env} (hn : cfg.notls = false) (hg : Good True True s) (hl : Linked s)
    (hg' : Good True True s') (hs : Sys.mainStep cfg s t env = some s')
    (hcall : (s.threads t).call = some c) (hend : (s'.threads t).call = none) :
    Delivered s' t c := by
  have hlt := hl.lt_length hcall
  obtain ⟨c', pc, call, base, -, ⟨hadv, -⟩ | ⟨rfl, left⟩⟩ := mainStep_cases hs
  · -- Before the jump a call ends with an error only.
    cases hadv with
    | goes s₁ th c₁ shared call' => simp [call'] at hend
    | fails s₁ th c₁ ret shared same failed =>
      have := hg'.rets t
      simp only [Sys.failResume, threads_setThread_self] at this
      rw [not_early this] at failed
      cases failed
  · obtain rfl : c' = c := Option.some.inj (call.symm.trans hcall)
    have hcore := hg.threads t
    simp only [Core, base, call] at hcore
    unfold Delivered
    cases leaveStep_left hn hg call base left with
    | fails error => rw [hcore.2.2.1.error trivial] at error; cases error
    | paused e st m b hs y error task trace =>
      rw [verdict_running trace]
      exact ⟨congrArg Thread.ret (threads_setThread_self _), _, y, List.getElem?_set_self hlt⟩
    | settled ctx y r error task trace =>
      rw [verdict_finished trace]
      refine ⟨congrArg Thread.ret (threads_setThread_self _), List.getElem?_set_self ?_⟩
      rw [lingers_dropContinuation, lingers_freeStack]
      exact hlt

/-- The first step of a `resume` that finds its TCB and can install it. -/
theorem begin_enters {cont : Continuation V E} {tr : List (Event V E)} {us : UInt64}
    {launching : Bool} {env : Env} (htls : cont.tls.isSome = true) (hf : EnvFine env)
    (hb : Begin s t k cont tr us launching env s') :
    ∃ c, (s'.threads t).call = some c ∧ c.linger = k ∧ c.trace = tr ∧ c.launching = launching := by
  cases hb with
  | missing tls => rw [tls] at htls; cases htls
  | enters tcb tls installs =>
    exact ⟨_, congrArg Thread.call (threads_setThread_self _), rfl, rfl, rfl⟩
  | fails tcb tls installs => rw [hf.install] at installs; cases installs

theorem not_preemptible (hg : Good True True s) (hi : Sys.idle (s.threads t) = true) :
    (s.threads t).group.preemptible = false := by
  rw [((hg.threads t).idle hi).2.2.2.2.2 trivial]; rfl

/-- `resume` of a continuation goes on where the function stopped. -/
theorem resume_begins {us : UInt64} {env : Env} {cont : Continuation V E} {tr : List (Event V E)}
    (hn : cfg.notls = false) (hg : Good True True s) (hf : EnvFine env)
    (hs : Sys.step cfg s (.resume t k us env) = some s')
    (hk : s.lingers[k]? = some ⟨.continuation cont, tr⟩) :
    ∃ c, (s'.threads t).call = some c ∧ c.linger = k ∧ c.trace = tr ∧ c.launching = false := by
  simp only [Sys.step, Sys.resumeStep, hk] at hs
  split at hs
  · cases hs
  · rename_i hi
    rw [not_preemptible hg (by simpa using hi), Bool.and_false] at hs
    cases hs
    exact begin_enters ((hg.lingers k _ hk).1 trivial) hf (beginResume_begin hn)

/-- `resume` of a settled `Linger` does nothing. -/
theorem resume_settled {us : UInt64} {env : Env} (hg : Good True True s)
    (hs : Sys.step cfg s (.resume t k us env) = some s') (hk : s.lingers[k]? = some l)
    (hset : Settled l) : s' = s.setThread t { s.threads t with ret := some .ok } := by
  obtain ⟨cell, tr⟩ := l
  simp only [Sys.step, Sys.resumeStep, hk] at hs
  split at hs
  · cases hs
  · rename_i hi
    rw [not_preemptible hg (by simpa using hi), Bool.and_false] at hs
    rcases hset with rfl | ⟨v, rfl⟩ <;> cases hs <;> rfl

/-- What `launch` does: there is no group left; or, without a budget, the
function waits in a continuation; or its first `resume` begins. -/
inductive Launched (s s' : Sys V E) (t : Tid) (us : UInt64) : Prop
  | full (ret : (s'.threads t).ret = some (.panic .tooMany)) (lingers : s'.lingers = s.lingers)
  | waits (budget : us = 0) (ret : (s'.threads t).ret = some .ok)
      (call : (s'.threads t).call = none)
      (lingers : ∃ c, s'.lingers = s.lingers ++ [⟨.continuation c, []⟩])
  | begins (budget : us ≠ 0) (call : ∃ c, (s'.threads t).call = some c ∧
    c.linger = s.lingers.length ∧
      c.trace = [] ∧ c.launching = true)

theorem launch_begins {us : UInt64} {env : Env} (hn : cfg.notls = false) (hg : Good True True s)
    (hf : EnvFine env) (hs : Sys.step cfg s (.launch t us env) = some s') : Launched s s' t us := by
  cases launchStep_change hn hs with
  | returns _ u k idle label => rcases label with ⟨_, _, h⟩ | ⟨_, h⟩ <;> cases h
  | caught _ u tid idle _ pre => rw [not_preemptible hg idle] at pre; cases pre
  | full => exact .full (congrArg Thread.ret (threads_setThread_self _)) rfl
  | sets _ env group p idle =>
    refine .waits rfl (congrArg Thread.ret (threads_setThread_self _)) ?_ ⟨_, rfl⟩
    exact (congrArg Thread.call (threads_setThread_self _)).trans ((hg.threads t).idle idle).2.2.1
  | launches _ _ _ group p _ idle shared budget some begin =>
    exact .begins budget (begin_enters ((hg.cell_launched 0 group).1 trivial) hf begin)
  | drops _ u k cont tr renew new idle cell label =>
    rcases label with ⟨_, h, _⟩ | ⟨_, h, _⟩ <;> cases h

end

/-- What the contract says of a state `s` and of the steps from it. -/
structure ExactlyOnce (cfg : Cfg V) (s : Sys V E) : Prop where
  /-- A function is entered at most once, -/
  entered : ∀ (k : Lid) (l : Linger V E), s.lingers[k]? = some l → entered l.trace ≤ 1
  /-- also while it runs. -/
  running : ∀ t c, (s.threads t).call = some c → (s.threads t).base.alive = true →
    L3.entered c.trace ≤ 1
  /-- A `Linger` that nobody has cancelled has the state its history says. -/
  agrees : ∀ (k : Lid) (l : Linger V E), s.lingers[k]? = some l → .cancel ∉ l.trace →
    AtRest l → Agrees l
  /-- It keeps the last one until it is dropped. -/
  kept : ∀ lab s' (k : Lid) (l : Linger V E), (process cfg).step s lab s' → s.lingers[k]? = some l →
    Settled l → (∀ t env, lab ≠ .drop t k env) → s'.lingers[k]? = some l
  /-- `launch` with no budget does not enter the function. -/
  launch : ∀ t us env s', ((process cfg).only (Fine cfg)).step s (.launch t us env) s' →
    Launched s s' t us
  /-- `resume` goes on with the history of its `Linger`, -/
  begins : ∀ t k us env s' cont tr, ((process cfg).only (Fine cfg)).step s (.resume t k us env) s' →
    s.lingers[k]? = some ⟨.continuation cont, tr⟩ →
    ∃ c, (s'.threads t).call = some c ∧ c.linger = k ∧ c.trace = tr ∧ c.launching = false
  /-- delivers what became of the function, -/
  delivers : ∀ lab s' t c, ((process cfg).only (Fine cfg)).step s lab s' →
    (s.threads t).call = some c → (s'.threads t).call = none → Delivered s' t c
  /-- and does nothing when there is nothing to deliver. -/
  settled : ∀ t (k : Lid) us env s' (l : Linger V E), (process cfg).step s (.resume t k us env) s' →
    s.lingers[k]? = some l → Settled l → s' = s.setThread t { s.threads t with ret := some .ok }
  expects : ∀ t p, (s.threads t).ret = some (.panic p) →
    p ≠ .alreadyRetrieved ∧ p ≠ .missingContinuation ∧ p ≠ .missingTcb
  asserts : ∀ t why, (s.threads t).base = .stuck why →
    why ≠ .bootstraps ∧ why ≠ .nests ∧ why ≠ .leftoverErrno

/-- **Exactly once**, in every state of every run in which nothing fails. -/
theorem exactly_once (cfg : Cfg V) (hn : cfg.notls = false) (s : Sys V E)
    (hr : ((process cfg).only (Fine cfg)).Reachable s) : ExactlyOnce cfg s := by
  have hg := good_fine hn hr
  have hl := (linked_reachable hn hr.of_only).2
  constructor
  case entered => exact hg.entries
  case running => exact fun t c hc ha => entered_call hg hc ha
  case agrees => exact fun k l hk hc hrest => agrees hg hk hc hrest
  case kept => exact fun lab s' k l hs hk hset hd => settled_kept hn hg hl hs hk hset hd
  case launch => exact fun t us env s' hs => launch_begins hn hg hs.2 hs.1
  case begins => exact fun t k us env s' cont tr hs hk => resume_begins hn hg hs.2 hs.1 hk
  case delivers =>
    intro lab s' t c hs hcall hend
    obtain ⟨env, rfl⟩ := call_ends hn hg hs.1 hcall hend
    exact delivered hn hg hl (good_fine hn (hr.step hs)) hs.1 hcall hend
  case settled => exact fun t k us env s' l hs hk hset => resume_settled hg hs hk hset
  case expects =>
    intro t p hp
    have := hg.rets t
    rw [hp] at this
    refine ⟨?_, ?_, ?_⟩ <;> rintro rfl
    · exact this
    · exact this
    · exact this trivial
  case asserts =>
    intro t why hb
    have hcore := hg.threads t
    unfold Core at hcore
    rw [hb] at hcore
    have hwhy : why = .borrowed ∨ why = .errnoBorrowed := by simpa using hcore
    rcases hwhy with rfl | rfl <;> exact ⟨by simp, by simp, by simp⟩

/-- A function that is launched and returns `true` in its first slice. -/
theorem exactly_once_oneSlice : ∃ s : Sys Bool Bool,
      ((process Cfg.small).only (Fine Cfg.small)).Reachable s ∧
    (s.lingers.map fun l => verdict l.trace) = [some (.ok true)] ∧ ExactlyOnce Cfg.small s := by
  obtain ⟨s, hr, hp⟩ := process_only_of_exec Cfg.small (Fine Cfg.small)
    (oneSlice ++ [.main 0 (.fine 0)])
      (fun s => decide ((s.lingers.map fun l : Linger Bool Bool => verdict l.trace) =
        [some (.ok true)]))
    (by decide +kernel)
  exact ⟨s, hr, by simpa using hp, exactly_once Cfg.small rfl s hr⟩

/-! ## The 17th thread -/

/-- No system call fails. -/
def NoFault (_ : Sys V E) : Label V E → Prop
  | .launch _ _ env => EnvFine env
  | .resume _ _ _ env => EnvFine env
  | .main _ env => EnvFine env
  | _ => True

instance (s : Sys V E) : (l : Label V E) → Decidable (NoFault s l)
  | .launch _ _ env => inferInstanceAs (Decidable (EnvFine env))
  | .resume _ _ _ env => inferInstanceAs (Decidable (EnvFine env))
  | .main _ env => inferInstanceAs (Decidable (EnvFine env))
  | .act _ _ => isTrue trivial
  | .drop _ _ _ => isTrue trivial
  | .cancel _ _ _ => isTrue trivial
  | .erase _ _ => isTrue trivial
  | .exit _ => isTrue trivial

/-- Thread `0` launches a function; then each of 15 other threads resumes it for
one slice. -/
def sixteenThreads : List (Label Bool Bool) :=
  launchOn 0 ++
    preempted 0 .Alarm 10000 ++ (NOTIFICATION_SIGNALS.zipIdx.drop 1).flatMap fun (no, t) =>
      .resume t 0 5 (.fine 0) :: List.replicate 4 (.main t (.fine 0)) ++ preempted t no 10000

/-- **The 17th thread** to resume a function, all others being alive, finds no
signal; the next `resume` finds no TCB. -/
theorem seventeenth_thread_loses_function : ∃ s : Sys Bool Bool,
    ((process Cfg.small).only NoFault).Reachable s ∧ s.lingers.length = 1 ∧
    (s.threads 16).ret = some (.panic .missingTcb) := by
  obtain ⟨s, hr, hp⟩ := process_only_of_exec Cfg.small NoFault (sixteenThreads ++
      [.resume 16 0 5 (.fine 0), .main 16 (.fine 0), .resume 16 0 5 (.fine 0)])
    (fun s => decide (s.lingers.length = 1) &&
      decide ((s.threads 16).ret = some (.panic .missingTcb)))
    (by decide +kernel)
  simp only [Bool.and_eq_true, decide_eq_true_eq] at hp
  exact ⟨s, hr, hp⟩

end Inger.L4
