import Inger.L3Slice.Rest

/-!
# The TCB of a `resume` that fails is lost

`resume` takes the TCB out of its slot, installs it, and puts it back at one
place, after the function has come back. Every exit in between drops the guard
(or, when installing fails, the TCB itself), which destroys the TCB, and leaves
the slot empty.

* `tcbs_present`: in runs in which nothing fails every slot is full.
* `launch_gets_empty_slot`: after one failed launch, another thread's fault-free
  launch panics with "continuation with missing TCB".
* `failed_resume_loses_tcb`: no exit is atomic; the `Linger` stays a
  continuation that panics in every later `resume` from a thread whose group is
  `SHARED`.
-/
namespace Inger.L4

open L1.Reusable L1.Signals L2 L3

variable {V E : Type}

/-- **No empty slot, while nothing fails.** -/
theorem tcbs_present (cfg : Cfg V) (hn : cfg.notls = false) (s : Sys V E)
    (hr : ((process cfg).only (Fine cfg)).Reachable s) :
    (∀ x ∈ s.localstores.free, x.isSome = true) ∧
    (∀ (k : Lid) (c : Continuation V E) tr, s.lingers[k]? = some ⟨.continuation c, tr⟩ →
      c.tls.isSome = true) ∧
    ∀ t, (s.threads t).ret ≠ some (.panic .missingTcb) := by
  have hg := good_fine hn hr
  refine ⟨fun x hx => (hg.free x hx).1 trivial, fun k c tr hk => (hg.lingers k _ hk).1 trivial, ?_⟩
  intro t ht
  have hret := hg.rets t
  rw [ht] at hret
  exact hret trivial

/-- Thread `0` launches two functions, which are preempted; thread `1` resumes the
first, which is preempted there, and drops the second. -/
def migratesAndDrops : List (Label Bool Bool) :=
  launchOn 0 ++ preempted 0 .Alarm 10000 ++ launchOn 0 ++ preempted 0 .Alarm 10000 ++
    .resume 1 0 5 (.fine 0) :: List.replicate 4 (.main 1 (.fine 0)) ++
      preempted 1 .VirtualAlarm 10000 ++
    [.drop 1 1 (.fine 0)]

/-- The slot of the dropped function is on the free list, with its TCB, and that of
the paused one is full. -/
theorem tcbs_present_migratesAndDrops : ∃ (s : Sys Bool Bool) (c : Continuation Bool Bool)
    (tr : List (Event Bool Bool)) (v : Vars),
      ((process Cfg.small).only (Fine Cfg.small)).Reachable s ∧
    s.localstores.free = [some v] ∧ s.lingers[0]? = some ⟨.continuation c, tr⟩ ∧
    c.stateful.errno.isSome = true ∧ c.tls.isSome = true ∧
    ∀ t, (s.threads t).ret ≠ some (.panic .missingTcb) := by
  obtain ⟨s, hr, hp⟩ := process_only_of_exec Cfg.small (Fine Cfg.small) migratesAndDrops
    (fun s => decide (s.localstores.free.length = 1) &&
      s.lingers[0]?.any fun l : Linger Bool Bool => l.cell.task.any fun k : Task => k.errno.isSome)
    (by decide +kernel)
  simp only [Bool.and_eq_true, decide_eq_true_eq, Option.any_eq_true] at hp
  obtain ⟨hlen, ⟨cell, tr⟩, hl, k, hk, hpaused⟩ := hp
  obtain ⟨hfree, hcell, hret⟩ := tcbs_present Cfg.small rfl s hr
  obtain ⟨x, hx⟩ := List.length_eq_one_iff.mp hlen
  obtain ⟨v, rfl⟩ := Option.isSome_iff_exists.mp (hfree x (by simp [hx]))
  obtain ⟨c, rfl, rfl⟩ := Cell.eq_continuation hk
  exact ⟨s, c, tr, v, hr, hx, hl, hpaused, hcell 0 c tr hl, hret⟩

/-- Thread `0` launches a function and installing its TCB fails; then thread
`1` launches another one, and nothing fails. -/
def launchTwice : List (Label Bool Bool) :=
  [.launch 0 5 { Env.fine 0 with install := false }, .launch 1 5 (.fine 0)]

/-- The empty slot is handed to the second launch, which panics. -/
theorem launch_gets_empty_slot : ∃ s : Sys Bool Bool, (process Cfg.small).Reachable s ∧
    (∃ x ∈ s.localstores.free, x = none) ∧ (s.threads 1).ret = some (.panic .missingTcb) := by
  obtain ⟨s, hr, hp⟩ := process_of_exec Cfg.small launchTwice
    (fun s => s.localstores.free.any Option.isNone &&
      decide ((s.threads 1).ret = some (.panic .missingTcb)))
    (by decide)
  simp only [Bool.and_eq_true, List.any_eq_true, Option.isNone_iff_eq_none, decide_eq_true_eq] at hp
  exact ⟨s, hr, hp⟩

/-! ## Every failing exit -/

/-- Whether the slot of a continuation is full; `none` for another `Linger`. -/
def tcb (s : Sys V E) (k : Lid) : Option Bool :=
  match s.lingers[k]? with
  | some ⟨.continuation c, _⟩ => some c.tls.isSome
  | _ => none

/-- A `resume` of `Linger` `k` by thread `t` ends in this step with an error or
a panic of its own, before the function has run: in the first step, or in one of
the later ones on the caller's stack. -/
inductive FailsBefore (s s' : Sys V E) (t : Tid) (k : Lid) : Label V E → Prop
  | install (us : UInt64) (env : Env) (tls : tcb s k = some true)
      (back : (s'.threads t).base = .caller) : FailsBefore s s' t k (.resume t k us env)
  | later (c : Call V E) (pc : MainPc) (env : Env) (call : (s.threads t).call = some c)
      (linger : c.linger = k) (launching : c.launching = false)
      (base : (s.threads t).base = .main pc) (pc : pc ≠ .leave)
      (back : (s'.threads t).base = .caller) : FailsBefore s s' t k (.main t env)

section
variable {cfg : Cfg V} {s s' : Sys V E} {t : Tid} {k : Lid} {c : Call V E} {env : Env}

theorem tcb_eq {b : Bool} : tcb s k = some b ↔ ∃ (c : Continuation V E) (tr : List (Event V E)),
    s.lingers[k]? = some ⟨.continuation c, tr⟩ ∧ c.tls.isSome = b := by
  unfold tcb
  split
  · rename_i c tr hk
    simp only [hk, Option.some.injEq, Linger.mk.injEq, Cell.continuation.injEq]
    constructor
    · intro h
      exact ⟨c, tr, ⟨rfl, rfl⟩, h⟩
    · rintro ⟨_, _, ⟨rfl, -⟩, h⟩
      exact h
  · rename_i hne
    constructor
    · intro h
      cases h
    · rintro ⟨c, tr, hk, -⟩
      exact absurd hk (hne c tr)

theorem tcb_failResume {th : Thread V E} {ret : Ret E} (hk : c.linger < s.lingers.length)
    (hl : c.launching = false) : tcb (Sys.failResume cfg s t th c env ret) c.linger =
      some false := by
  refine tcb_eq.mpr ⟨⟨c.functional, c.task, c.group, none⟩, c.trace, ?_, rfl⟩
  simp only [Sys.failResume, Sys.abandon, hl, Bool.false_eq_true, if_false, Sys.setThread,
    Sys.setLinger]
  split <;> simp [lingers_freeStack, hk]

/-- The first step of `resume` fails. -/
theorem tcb_beginResume {cont : Continuation V E} {tr : List (Event V E)} {us : UInt64}
    (hn : cfg.notls = false) (hk : k < s.lingers.length) (htls : cont.tls.isSome = true)
    (hb : ((Sys.beginResume cfg s t k cont tr us false env).threads t).base = .caller) :
    tcb (Sys.beginResume cfg s t k cont tr us false env) k = some false := by
  obtain ⟨v, htls⟩ := Option.isSome_iff_exists.mp htls
  simp only [Sys.beginResume, htls, hn, Bool.or_false] at hb ⊢
  cases hi : env.install with
  | true => simp [hi] at hb
  | false =>
    refine tcb_eq.mpr ⟨{ cont with tls := none }, tr, ?_, rfl⟩
    simp [Sys.abandon, Sys.setThread, Sys.setLinger, lingers_freeStack, hk]

/-- A later step of `resume` before the jump ends the call. -/
theorem tcb_advance (hk : c.linger < s.lingers.length) (hl : c.launching = false)
    (h : Advance cfg s t c env s') (hb : (s'.threads t).base = .caller) :
    tcb s' c.linger = some false := by
  cases h with
  | goes s₁ th c' shared call same base => exact absurd (by simpa using hb) base
  | fails s₁ th c' ret shared same =>
    rw [← same.linger]
    refine tcb_failResume ?_ (same.launching.trans hl)
    rw [same.linger, shared.lingers]
    exact hk

/-- Every `resume` of a continuation without TCB panics, and leaves it so. -/
theorem resume_missing_tcb {us : UInt64} (h : tcb s k = some false)
    (hg : (s.threads t).group = .SHARED) (hs : (process cfg).step s (.resume t k us env) s') :
    (s'.threads t).ret = some (.panic .missingTcb) ∧ tcb s' k = some false := by
  obtain ⟨c, tr, hk, htls⟩ := tcb_eq.mp h
  have htls : c.tls = none := by simpa using htls
  have hlt : k < s.lingers.length := (List.getElem?_eq_some_iff.mp hk).1
  simp only [process, LTS.ofFn, Sys.step, Sys.resumeStep, hg, Group.preemptible, hk] at hs
  split at hs
  · cases hs
  · simp only [Bool.and_false, Bool.false_eq_true, if_false, Option.some.injEq] at hs
    subst hs
    simp only [Sys.beginResume, htls, threads_setThread_self]
    refine ⟨trivial, tcb_eq.mpr ⟨c, tr, ?_, by simp [htls]⟩⟩
    simp [Sys.abandon, Sys.setThread, Sys.setLinger, hlt]

end

/-- **Never atomic.** Whichever step of `resume` fails before the function runs
(installing the TCB, assigning a signal, `makecontext`, `restorecontext`,
`sigsetcontext`), the `Linger` is a continuation without TCB afterwards, and
every later `resume` of it panics, with nothing failing. -/
theorem failed_resume_loses_tcb (cfg : Cfg V) (hn : cfg.notls = false) (s s' : Sys V E)
    (l : Label V E) (t : Tid) (k : Lid) (hr : (process cfg).Reachable s)
    (hs : (process cfg).step s l s') (hf : FailsBefore s s' t k l) :
    tcb s' k = some false ∧ ∀ t' us env s'', (s'.threads t').group = .SHARED →
      (process cfg).step s' (.resume t' k us env) s'' →
      (s''.threads t').ret = some (.panic .missingTcb) ∧ tcb s'' k = some false := by
  have hlost : tcb s' k = some false := by
    cases hf with
    | install us env tls back =>
      obtain ⟨c, tr, hk, htls⟩ := tcb_eq.mp tls
      have hlt : k < s.lingers.length := (List.getElem?_eq_some_iff.mp hk).1
      simp only [process, LTS.ofFn, Sys.step, Sys.resumeStep, hk] at hs
      split at hs
      · cases hs
      · split at hs
        · cases hs; simp [Thread.fail] at back
        · cases hs; exact tcb_beginResume hn hlt htls back
    | later c pc env call linger launching base pc' back =>
      subst linger
      exact tcb_advance ((linked_reachable hn hr).2.lt_length call) launching
        (mainStep_advance call base pc' hs) back
  exact ⟨hlost, fun t' us env s'' hg hs' => resume_missing_tcb hlost hg hs'⟩

/-- A `resume` whose TCB cannot be installed. -/
def installFails : Label Bool Bool := .resume 0 0 5 { Env.fine 0 with install := false }

theorem failed_resume_loses_tcb_install : ∃ s s' : Sys Bool Bool, (process Cfg.small).Reachable s ∧
    FailsBefore s s' 0 0 installFails ∧ tcb s' 0 = some false := by
  obtain ⟨s, s', hr, hs, hp⟩ := process_step_of_exec Cfg.small [.launch 0 0 (.fine 0)] installFails
    (fun s s' => decide (tcb s 0 = some true) && decide ((s'.threads 0).base = .caller)) (by decide)
  simp only [Bool.and_eq_true, decide_eq_true_eq] at hp
  have hf : FailsBefore s s' 0 0 installFails := .install _ _ hp.1 hp.2
  exact ⟨s, s', hr, hf, (failed_resume_loses_tcb Cfg.small rfl s s' _ 0 0 hr hs hf).1⟩

/-- A function that has not been started: a `resume` that fails to install the
TCB, then one in which nothing fails, which panics. -/
theorem failed_resume_not_atomic : ∃ s s' : Sys Bool Bool, (process Cfg.small).Reachable s ∧
    (process Cfg.small).step s (.resume 0 0 5 (.fine 0)) s' ∧ tcb s 0 = some false ∧
    (s'.threads 0).ret = some (.panic .missingTcb) := by
  obtain ⟨s, s', hr, hs, hp⟩ := process_step_of_exec Cfg.small [.launch 0 0 (.fine 0), installFails]
    (.resume 0 0 5 (.fine 0)) (fun s s' => decide (tcb s 0 = some false) &&
      decide ((s'.threads 0).ret = some (.panic .missingTcb))) (by decide)
  simp only [Bool.and_eq_true, decide_eq_true_eq] at hp
  exact ⟨s, s', hr, hs, hp⟩

end Inger.L4
