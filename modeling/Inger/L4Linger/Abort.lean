import Inger.L3Slice.Unstuck
import Inger.L4Linger.Ffi

/-!
# What fails ends the process

The Rust interface hands an `Err` to its caller, who may go on: with a
continuation that has lost its TCB, say. The C functions abort.

A step in which something fails is one in which nothing fails, or it leaves its
thread in a state (`Failed`) from which it does not come back to C: it is stuck,
or the call it is in will return `Err`, or has returned something else than `Ok`
(`step_mended`). So a C program sees states only that the library reaches without
failures, as long as it sees anything (`fail_stop`), and what holds of those holds
for it. What can fail is what `launch` and `resume` look at: the results of the
calls in `enable_preemption`, `disable_preemption` and `defer_preemption` are
dropped, and taken to be `Ok`. A program that gives the library no reason to fail
is not ended by it, and none of its threads gets stuck (`careful_goes_on`).
-/
namespace Inger.L2

/-- The same answers, but nothing fails. -/
def Env.mend (env : Env) : Env := ⟨true, true, true, true, true, .jumps, env.renew, env.now⟩

end Inger.L2

namespace Inger.L4

open L1.Reusable L1.Signals L2 L3

variable {V E : Type}

theorem envFine_mend (env : Env) : EnvFine env.mend := ⟨rfl, rfl, rfl, rfl, rfl, rfl⟩

/-- The thread is stuck, or its call will return `Err`, or has failed. -/
inductive Failed (th : Thread V E) : Prop
  | stuck (why : Stuck) (base : th.base = .stuck why)
  | inside (c : Call V E) (call : th.call = some c) (error : c.error = true)
      (taken : c.task.checkpoint = none)
  | outside (r : Ret E) (call : th.call = none) (ret : th.ret = some r) (early : r.early = true)

section
variable {cfg : Cfg V} {s s' : Sys V E} {l : Label V E} {t : Tid} {th : Thread V E} {k : Lid}
  {c : Call V E} {env : Env}

theorem failed_failResume {r : Ret E} (hr : r.early = true) :
    Failed ((Sys.failResume cfg s t th c env r).threads t) := by
  unfold Sys.failResume
  rw [threads_setThread_self]
  exact .outside r rfl rfl hr

theorem failed_fail (why : Stuck) : Failed ((s.setThread t (th.fail why)).threads t) := by
  rw [threads_setThread_self]
  exact .stuck why rfl

/-! ## One step -/

theorem beginResume_mended (s : Sys V E) (k : Lid) (cont : Continuation V E) (tr : List (Event V E))
    (us : UInt64) (launching : Bool) (env : Env) (hn : cfg.notls = false)
    (hcall : (s.threads t).call = none) :
    Sys.beginResume cfg s t k cont tr us launching env = Sys.beginResume cfg s t k cont tr us
      launching env.mend ∨
      Failed ((Sys.beginResume cfg s t k cont tr us launching env).threads t) := by
  unfold Sys.beginResume
  cases htls : cont.tls with
  | none => exact .inl rfl
  | some tcb =>
    cases hi : env.install with
    | true => exact .inl rfl
    | false =>
      refine .inr ?_
      simp only [hn, Bool.or_self, Bool.false_eq_true, if_false]
      rw [threads_setThread_self]
      exact .outside .err hcall rfl rfl

theorem setupStep_mended (cfg : Cfg V) (s : Sys V E) (t : Tid) (th : Thread V E) (c : Call V E)
    (env : Env) :
    (Sys.setupStep cfg s t th c env = Sys.setupStep cfg s t th c env.mend ∧
        (th.signaler = none → (tryFrom nextSignal s.signals).1.isSome = true)) ∨
      Failed ((Sys.setupStep cfg s t th c env).threads t) := by
  unfold Sys.setupStep
  cases hsig : th.signaler with
  | some o => exact .inl ⟨rfl, nofun⟩
  | none =>
    dsimp only
    split
    · exact .inr (failed_failResume rfl)
    · rename_i signal p hp
      cases hset : env.setup with
      | true => exact .inl ⟨rfl, fun _ => by rw [hp]; rfl⟩
      | false => exact .inr (failed_fail .setup)

theorem stackStep_mended (cfg : Cfg V) (s : Sys V E) (t : Tid) (th : Thread V E) (c : Call V E)
    (env : Env) :
    Sys.stackStep cfg s t th c env = Sys.stackStep cfg s t th c env.mend ∨
      Failed ((Sys.stackStep cfg s t th c env).threads t) := by
  unfold Sys.stackStep
  cases c.task.errno with
  | some e => exact .inl rfl
  | none =>
    cases hm : env.makecontext with
    | true => exact .inl rfl
    | false => exact .inr (failed_failResume rfl)

theorem failed_jump {ctx : Context} (he : c.error = true) (ht : c.task.checkpoint = none) :
    Failed ((s.setThread t (Sys.jump th c ctx)).threads t) := by
  rw [threads_setThread_self]
  refine .inside c ?_ he ht
  unfold Sys.jump
  dsimp only
  split <;> rfl

theorem switchStep_mended (cfg : Cfg V) (s : Sys V E) (t : Tid) (th : Thread V E) (c : Call V E)
    (env : Env) :
    (Sys.switchStep cfg s t th c env = Sys.switchStep cfg s t th c env.mend ∧
        (cfg.overflowChecks = true → c.task.errno.isSome = true →
          stampOverflows env.now th.vars.deadline = false)) ∨
      Failed ((Sys.switchStep cfg s t th c env).threads t) := by
  unfold Sys.switchStep
  cases c.task.checkpoint with
  | none => exact .inr (failed_failResume rfl)
  | some ctx =>
    cases hrestore : env.restorecontext with
    | false => exact .inr (failed_failResume rfl)
    | true =>
      dsimp only [Env.mend]
      simp only [if_true]
      split
      · exact .inr (failed_fail .nests)
      · split
        · -- the first slice
          rename_i herrno
          cases hjump : env.sigsetcontext with
          | jumps => exact .inl ⟨rfl, fun _ he => by rw [herrno] at he; cases he⟩
          | fails => exact .inr (failed_failResume rfl)
          | invalid => exact .inr (failed_failResume rfl)
        · split
          · exact .inr (failed_fail .switchTls)
          · split
            · exact .inr (failed_failResume rfl)
            · rename_i hover
              cases hjump : env.sigsetcontext with
              | fails => exact .inr (failed_failResume rfl)
              | invalid => exact .inr (failed_failResume rfl)
              | jumps =>
                cases hmask : env.sigmask with
                | true =>
                  exact .inl ⟨by simp [Sys.reenable, hmask, hover],
                    fun hc _ => by simpa [hc] using hover⟩
                | false => exact .inr (failed_jump (by simp [Sys.reenable, hmask]) rfl)

theorem launchStep_mended {us : UInt64} (hn : cfg.notls = false) (hg : Good True True s)
    (hs : Sys.launchStep cfg s t us env = some s') :
    Sys.launchStep cfg s t us env.mend = some s' ∨ Failed (s'.threads t) := by
  simp only [Sys.launchStep] at hs ⊢
  split at hs
  · cases hs
  · rename_i hi
    have hcall : (s.threads t).call = none := ((hg.threads t).idle (by simpa using hi)).2.2.1
    rw [if_neg hi]
    split at hs
    · rename_i hp
      exact .inl ((if_pos hp).trans hs)
    · rename_i hp
      rw [if_neg hp]
      split at hs
      · exact .inl hs
      · rename_i group p hgroup
        split at hs
        · rename_i hz
          exact .inl ((if_pos hz).trans hs)
        · rename_i hz
          rw [if_neg hz]
          cases hs
          rcases beginResume_mended (s.launched group p) s.lingers.length _ [] us true env hn hcall
            with h | h
          · exact .inl (congrArg some h.symm)
          · exact .inr h

theorem resumeStep_mended {us : UInt64} (hn : cfg.notls = false) (hg : Good True True s)
    (hs : Sys.resumeStep cfg s t k us env = some s') :
    Sys.resumeStep cfg s t k us env.mend = some s' ∨ Failed (s'.threads t) := by
  simp only [Sys.resumeStep] at hs ⊢
  split at hs
  · cases hs
  · rename_i hi
    have hcall : (s.threads t).call = none := ((hg.threads t).idle (by simpa using hi)).2.2.1
    rw [if_neg hi]
    split at hs
    · rename_i hp
      exact .inl ((if_pos hp).trans hs)
    · rename_i hp
      rw [if_neg hp]
      split at hs
      · rename_i cont tr hk
        cases hs
        rcases beginResume_mended s k cont tr us false env hn hcall with h | h
        · exact .inl (congrArg some h.symm)
        · exact .inr h
      · exact .inl hs
      · exact .inl hs
      · cases hs

/-- A thread that is past `thread_setup` has its signal. -/
theorem signaler_main {pc : MainPc} (hg : Good True True s) (hb : (s.threads t).base = .main pc)
    (hc : (s.threads t).call = some c) (hpc : pc ≠ .setup) : (s.threads t).signaler ≠ none := by
  have hcore := hg.threads t
  simp only [Core, hb, hc] at hcore
  rw [← Option.isSome_iff_ne_none]
  cases pc with
  | setup => exact absurd rfl hpc
  | signal => exact hcore.2.2.2.1
  | stack => exact hcore.2.2.2.1
  | switch => exact hcore.2.2.2.1
  | leave => exact hcore.2.2.2.1

/-- `stamp` runs in `switch_stack` only. -/
theorem stampFits_main {pc : MainPc} {now : UInt64} (hb : (s.threads t).base = .main pc)
    (hpc : pc ≠ .switch) :
    (s.threads t).StampFits now := by
  intro h
  unfold Thread.stamping at h
  rw [hb] at h
  split at h
  · rename_i hm _
    cases hm
    exact absurd rfl hpc
  · rename_i hm
    cases hm
  · cases h

theorem mainStep_mended (hg : Good True True s) (hs : Sys.mainStep cfg s t env = some s') :
    (Sys.mainStep cfg s t env.mend = some s' ∧
        ((s.threads t).signaler = none → (tryFrom nextSignal s.signals).1.isSome = true) ∧
        (cfg.overflowChecks = true → (s.threads t).StampFits env.now)) ∨
      Failed (s'.threads t) := by
  simp only [Sys.mainStep] at hs ⊢
  split at hs
  · rename_i c hr hh hb hc
    cases hs
    rcases setupStep_mended cfg s t (s.threads t) c env with ⟨h, hsig⟩ | h
    · exact .inl ⟨congrArg some h.symm, hsig, fun _ => stampFits_main hb (by simp)⟩
    · exact .inr h
  · rename_i hr hh hb hc
    exact .inl ⟨hs, fun h => absurd h (signaler_main hg hb hc (by simp)),
      fun _ => stampFits_main hb (by simp)⟩
  · rename_i c hr hh hb hc
    cases hs
    rcases stackStep_mended cfg s t (s.threads t) c env with h | h
    · exact .inl ⟨congrArg some h.symm, fun h => absurd h (signaler_main hg hb hc (by simp)),
        fun _ => stampFits_main hb (by simp)⟩
    · exact .inr h
  · rename_i c hr hh hb hc
    cases hs
    rcases switchStep_mended cfg s t (s.threads t) c env with ⟨h, hover⟩ | h
    · refine .inl ⟨congrArg some h.symm, fun h => absurd h (signaler_main hg hb hc (by simp)),
        fun ho hst => ?_⟩
      simp only [Thread.stamping, hh, hb, hc] at hst
      exact hover ho hst
    · exact .inr h
  · rename_i hr hh hb hc
    exact .inl ⟨hs, fun h => absurd h (signaler_main hg hb hc (by simp)),
      fun _ => stampFits_main hb (by simp)⟩
  · cases hs

/-- `schedule` panics where the deadline overflows. -/
theorem stamp_fails {w : World} {now : UInt64} {th' : Thread V E} (ho : w.overflowChecks = true)
    (hf : ¬th.StampFits now) (hs : th.step w (.run now) = some th') :
    th'.base = .stuck .overflow ∧ ∃ c, th.call = some c := by
  obtain ⟨hst, hover⟩ : th.stamping = true ∧ stampOverflows now th.vars.deadline = true := by
    simpa [Thread.StampFits] using hf
  simp only [Thread.step, Option.ite_none_right_eq_some] at hs
  obtain ⟨-, hs⟩ := hs
  unfold Thread.stamping at hst
  split at hst
  · rename_i hh hb hc
    simp only [Thread.runStep, hh, hb] at hs
    cases hs
  · rename_i b hh hb
    cases hc : th.call with
    | none =>
      simp only [Thread.runStep, hh, hb, hc] at hs
      cases hs
    | some c =>
      have hpos : b.pos = .stamp := of_decide_eq_true hst
      simp only [Thread.runStep, hh, hb, hc, Thread.bodyStep, hpos, ho, hover, Bool.and_self,
        if_true] at hs
      cases hs
      exact ⟨rfl, c, rfl⟩
  · cases hst

theorem actStep_mended {a : Act V E} (hs : Sys.step cfg s (.act t a) = some s') :
    Fine cfg s (.act t a) ∨ (Failed (s'.threads t) ∧ ∃ c, (s.threads t).call = some c) := by
  by_cases hf : Fine cfg s (.act t a)
  · exact .inl hf
  · cases a with
    | run now =>
      have hf : cfg.overflowChecks = true ∧ ¬(s.threads t).StampFits now := by simpa [Fine] using hf
      obtain ⟨hb, hc⟩ := stamp_fails (w := s.world cfg) hf.1 hf.2 (step_acted hs)
      exact .inr ⟨.stuck .overflow hb, hc⟩
    | deliver no => exact absurd trivial hf
    | fn a => exact absurd trivial hf

/-- **Failing is fatal.** A step is one in which nothing fails, or the thread has failed. -/
theorem step_mended (hn : cfg.notls = false) (hg : Good True True s)
    (hs : Sys.step cfg s l = some s') :
    (∃ l', Fine cfg s l' ∧ Sys.step cfg s l' = some s') ∨ Failed (s'.threads l.tid) := by
  cases l with
  | launch t us env =>
    rcases launchStep_mended hn hg hs with h | h
    · exact .inl ⟨.launch t us env.mend, envFine_mend env, h⟩
    · exact .inr h
  | resume t k us env =>
    rcases resumeStep_mended hn hg hs with h | h
    · exact .inl ⟨.resume t k us env.mend, envFine_mend env, h⟩
    · exact .inr h
  | main t env =>
    rcases mainStep_mended hg hs with ⟨h, hsig, hfits⟩ | h
    · exact .inl ⟨.main t env.mend, ⟨envFine_mend env, hsig, hfits⟩, h⟩
    · exact .inr h
  | act t a =>
    rcases actStep_mended hs with h | ⟨h, -⟩
    · exact .inl ⟨.act t a, h, hs⟩
    · exact .inr h
  | drop t k env => exact .inl ⟨.drop t k env, trivial, hs⟩
  | cancel t k env => exact .inl ⟨.cancel t k env, trivial, hs⟩
  | erase t k => exact .inl ⟨.erase t k, trivial, hs⟩
  | exit t => exact .inl ⟨.exit t, trivial, hs⟩

/-- Before the jump a call that will fail still has its checkpoint. -/
theorem not_taken {pc : MainPc} (hg : Good False False s) (hc : (s.threads t).call = some c)
    (hb : (s.threads t).base = .main pc) (hpc : pc ≠ .leave) (he : c.error = true) :
    c.task.checkpoint ≠ none := by
  have hcore := hg.threads t
  simp only [Core, hb, hc] at hcore
  obtain ⟨-, -, hok, hmain⟩ := hcore
  have herrno := hok.later he
  have htask {loc : RefCell (Option Gid)} (h : TaskOk c.linger c.group c.functional loc c.task) :
      c.task.checkpoint ≠ none := by
    generalize c.task = task at h herrno
    cases h with
    | fresh => cases herrno
    | paused => exact Option.some_ne_none _
  cases pc with
  | setup => exact htask hmain.2.2
  | signal => exact htask hmain.2.2.2
  | stack => exact htask hmain.2.2.2.2
  | switch =>
    rcases hmain.2.target with ⟨st, m, y, h, -⟩ | ⟨e, st, m, b, hs, y, h, -⟩ <;> rw [h] <;>
      exact Option.some_ne_none _
  | leave => exact absurd rfl hpc

/-- A thread that has failed does not recover by itself. -/
theorem failed_step (hn : cfg.notls = false) (hg : Good False False s)
    (hs : Sys.step cfg s l = some s') (hf : Failed (s.threads t))
    (hl : l.tid = t → (∃ env, l = .main t env) ∨ ∃ a, l = .act t a) :
    Failed (s'.threads t) := by
  by_cases ht : t = l.tid
  · cases hf with
    | stuck why base =>
      rw [Ffi.stuck_step hn base hs]
      exact .stuck why base
    | inside c call error taken =>
      rcases hl ht.symm with ⟨env, rfl⟩ | ⟨a, rfl⟩
      · obtain ⟨c', pc, hcall, hbase, -, ⟨-, hpc⟩ | ⟨rfl, hleft⟩⟩ := mainStep_cases hs
        · cases call.symm.trans hcall
          exact absurd taken (not_taken hg call hbase hpc error)
        · cases call.symm.trans hcall
          cases leaveStep_left hn hg call hbase hleft with
          | fails => exact failed_failResume rfl
          | paused e st m b hs y herr => cases error.symm.trans herr
          | settled ctx y r herr => cases error.symm.trans herr
      · have hkept := (Thread.step_kept (step_acted hs)).call
        rw [call, Option.map_some, Option.map_eq_some_iff] at hkept
        obtain ⟨c', hc', he⟩ := hkept
        simp only [Call.anon, Call.mk.injEq] at he
        exact .inside c' hc' (he.2.2.2.2.2.2.1.trans error) (by rw [he.2.2.1]; exact taken)
    | outside r call ret early =>
      rcases hl ht.symm with ⟨env, rfl⟩ | ⟨a, rfl⟩
      · obtain ⟨c', pc, hcall, -⟩ := mainStep_cases hs
        cases call.symm.trans hcall
      · have hkept := Thread.step_kept (step_acted hs)
        have hcall := hkept.call
        rw [call, Option.map_none, Option.map_eq_none_iff] at hcall
        exact .outside r hcall (hkept.ret.trans ret) early
  · rw [step_threads_ne hn hs ht]
    exact hf

end

namespace Ffi

/-- Inside a function of C that does not return. -/
structure Doomed (s : St V E) (t : Tid) : Prop where
  failed : Failed (s.sys.threads t)
  pending : s.pending t ≠ none

section
variable {cfg : Cfg V} {s s' : St V E} {e : Ev V E} {t : Tid}

/-- Nothing happens after the end. -/
theorem step_ended (h : s.ended.isSome = true) : step cfg s e = none := by
  unfold step
  exact if_pos h

/-- The result of a thread that has failed is not `Ok`. -/
theorem Doomed.not_ok (h : Doomed s t) (hg : Good False False s.sys)
    (hi : Sys.idle (s.sys.threads t) = true) :
    (s.sys.threads t).ret ≠ some .ok := by
  cases h.failed with
  | stuck why base =>
    have halive := alive_of_idle hi
    rw [base] at halive
    cases halive
  | inside c call =>
    rw [((hg.threads t).idle hi).2.2.1] at call
    cases call
  | outside r call ret early =>
    rw [ret]
    rintro ⟨⟩
    cases early

/-- **A thread that has failed ends the process** or is still on its way. -/
theorem Doomed.moves (h : Doomed s t) (hn : cfg.notls = false)
    (hi : Inv cfg s.sys s.timed s.pending) (hm : Moves cfg s s') :
    s'.ended.isSome = true ∨ Doomed s' t := by
  have hg := (linked_reachable hn hi.reachable).1
  -- Another thread begins or ends a call.
  have other {u : Tid} {q : Option Pending} (hu : t ≠ u) :
      Function.update s.pending u q t ≠ none := by
    rw [Function.update_of_ne hu]
    exact h.pending
  have free {u : Tid} (hu : s.pending u = none) : t ≠ u := by
    rintro rfl
    exact h.pending hu
  have ok {u : Tid} (hidle : Sys.idle (s.sys.threads u) = true)
      (hret : (s.sys.threads u).ret = some .ok) :
      t ≠ u := by
    rintro rfl
    exact h.not_ok hg hidle hret
  cases hm with
  | ends e => exact .inl rfl
  | skips => exact .inr h
  | inner l sys label step =>
    refine .inr ⟨failed_step hn hg step h.failed ?_, h.pending⟩
    intro hl
    cases l with
    | main u env => exact .inl ⟨env, by rw [← hl]; rfl⟩
    | act u a => exact .inr ⟨a, by rw [← hl]; rfl⟩
    | exit u => exact absurd hl.symm (free label)
    | _ => exact label.elim
  | panics u us env sys hfree step none => exact .inl rfl
  | launches u us env sys hfree step made =>
    exact .inr ⟨failed_step hn hg step h.failed fun hl => absurd hl.symm (free hfree),
      other (free hfree)⟩
  | takes u l p i done k sys hfree cell label step =>
    refine .inr ⟨failed_step hn hg step h.failed fun hl => absurd hl.symm ?_, other (free hfree)⟩
    rcases label with ⟨⟨us, env, rfl⟩, -⟩ | ⟨⟨env, rfl⟩, -⟩ <;> exact free hfree
  | makes u k pending idle ret => exact .inr ⟨h.failed, other (ok idle ret)⟩
  | gives u i p flag pending kind idle ret =>
    refine .inr ⟨?_, ?_⟩
    · unfold St.give
      split <;> exact h.failed
    · unfold St.give
      split <;> exact other (ok idle ret)

/-- A step of the library from a state that it reaches without failures. -/
theorem mended_or_failed {sys : Sys V E} {l : Label V E} (hn : cfg.notls = false)
    (hr : ((process cfg).only (Fine cfg)).Reachable s.sys) (hs : Sys.step cfg s.sys l = some sys) :
    ((process cfg).only (Fine cfg)).Reachable sys ∨ Failed (sys.threads l.tid) := by
  rcases step_mended hn (good_fine hn hr) hs with ⟨l', hf, hs'⟩ | hf
  · exact .inl (hr.step ⟨hs', hf⟩)
  · exact .inr hf

theorem fail_stop_moves (hn : cfg.notls = false) (hi : Inv cfg s.sys s.timed s.pending)
    (hm : Moves cfg s s') (hr : ((process cfg).only (Fine cfg)).Reachable s.sys) :
    s'.ended.isSome = true ∨ (∃ t, Doomed s' t) ∨
      ((process cfg).only (Fine cfg)).Reachable s'.sys := by
  cases hm with
  | ends e => exact .inl rfl
  | skips => exact .inr (.inr hr)
  | inner l sys label step =>
    have busy {u : Tid} {c : Call V E} (hc : (s.sys.threads u).call = some c) :
        s.pending u ≠ none := by
      rcases hi.calls u c hc with hp | ⟨i, x, hp, -⟩ <;> simp [hp]
    rcases mended_or_failed hn hr step with h | h
    · exact .inr (.inr h)
    · cases l with
      | main u env =>
        obtain ⟨c, pc, hc, -⟩ := mainStep_cases step
        exact .inr (.inl ⟨u, h, busy hc⟩)
      | act u a =>
        rcases actStep_mended step with hf | ⟨-, c, hc⟩
        · exact .inr (.inr (hr.step ⟨step, hf⟩))
        · exact .inr (.inl ⟨u, h, busy hc⟩)
      | exit u => exact .inr (.inr (hr.step ⟨step, trivial⟩))
      | _ => exact label.elim
  | panics u us env sys free step none => exact .inl rfl
  | launches u us env sys free step made =>
    rcases mended_or_failed hn hr step with h | h
    · exact .inr (.inr h)
    · exact .inr (.inl ⟨u, h, by simp⟩)
  | takes u l p i done k sys free cell label step =>
    rcases mended_or_failed hn hr step with h | h
    · exact .inr (.inr h)
    · have hu : l.tid = u := by rcases label with ⟨⟨us, env, rfl⟩, -⟩ | ⟨⟨env, rfl⟩, -⟩ <;> rfl
      exact .inr (.inl ⟨u, hu ▸ h, by simp⟩)
  | makes u k => exact .inr (.inr hr)
  | gives u i p flag =>
    refine .inr (.inr ?_)
    unfold St.give
    split <;> exact hr

theorem Doomed.run {es : List (Ev V E)} (h : Doomed s t) (hn : cfg.notls = false)
    (hr : (machine cfg).Reachable s) (hrun : (machine cfg).Run s es s') :
    s'.ended.isSome = true ∨ s'.pending t ≠ none := by
  induction hrun with
  | nil s => exact .inr h.pending
  | @cons s s₁ s' e es hs hrun ih =>
    rcases h.moves hn (inv_reachable hn hr) (step_moves hs) with hend | h₁
    · cases hrun with
      | nil => exact .inl hend
      | cons hs' => cases (step_ended hend).symm.trans hs'
    · exact ih h₁ (hr.step hs)

/-- A thread is inside a function of C and never returns from it. -/
def Lost (cfg : Cfg V) (s : St V E) (t : Tid) : Prop :=
  ∀ es s', (machine cfg).Run s es s' → s'.ended.isSome = true ∨ s'.pending t ≠ none

/-- **What fails ends the process.** A run of a C program, in which anything may
fail that `launch` and `resume` look at, has ended, or a thread is inside a function
of C from which it will not return, or the library is in a state that it reaches
without any such failure. -/
theorem fail_stop (cfg : Cfg V) (hn : cfg.notls = false) (s : St V E)
    (hr : (machine cfg).Reachable s) :
    s.ended.isSome = true ∨ (∃ t, Lost cfg s t) ∨
      ((process cfg).only (Fine cfg)).Reachable s.sys := by
  have h : s.ended.isSome = true ∨ (∃ t, Doomed s t) ∨
      ((process cfg).only (Fine cfg)).Reachable s.sys := by
    refine (LTS.Inductive.reachable (M := machine cfg)
      (I := fun s => Inv cfg s.sys s.timed s.pending ∧
      (s.ended.isSome = true ∨ (∃ t, Doomed s t) ∨ ((process cfg).only (Fine cfg)).Reachable s.sys))
        ⟨?_, ?_⟩ s hr).2
    · rintro s ⟨masks, rfl⟩
      exact ⟨inv_reachable hn ⟨_, [], ⟨masks, rfl⟩, .nil _⟩,
        .inr (.inr ⟨_, [], ⟨masks, rfl⟩, .nil _⟩)⟩
    · rintro s e s' ⟨hi, h⟩ hs
      have hm := step_moves hs
      refine ⟨hi.moves hn hm, ?_⟩
      rcases h with hend | ⟨t, hd⟩ | hfine
      · cases (step_ended hend).symm.trans hs
      · rcases hd.moves hn hi hm with h | h
        · exact .inl h
        · exact .inr (.inl ⟨t, h⟩)
      · exact fail_stop_moves hn hi hm hfine
  rcases h with h | ⟨t, h⟩ | h
  · exact .inl h
  · exact .inr (.inl ⟨t, fun es s' hrun => h.run hn hr hrun⟩)
  · exact .inr (.inr h)

/-- A function is launched without a budget; its first `resume` cannot install the TCB. -/
theorem fail_stop_install : ∃ s : St Bool Bool, (machine Cfg.small).Reachable s ∧
      s.pending 0 = some (.resume 0) ∧
    (s.sys.threads 0).ret = some .err ∧
    (s.ended.isSome = true ∨ (∃ t, Lost Cfg.small s t) ∨
      ((process Cfg.small).only (Fine Cfg.small)).Reachable s.sys) := by
  obtain ⟨s, _, hr, -, hp⟩ := machine_run_of_exec Cfg.small
    [.launch 0 0 (.fine 0), .back 0, .resume 0 (some 0) 5 { Env.fine 0 with install := false }] []
    (fun (s _ : St Bool Bool) => decide (s.pending 0 = some (Pending.resume 0)) &&
      decide ((s.sys.threads 0).ret = some .err)) (by decide +kernel)
  simp only [Bool.and_eq_true, decide_eq_true_eq] at hp
  exact ⟨s, hr, hp.1, hp.2, fail_stop Cfg.small rfl s hr⟩

/-! ## A careful program -/

/-- The struct's function is paused inside `errno_group`. -/
def borrowing (s : St V E) (timed : Option Nat) : Bool :=
  (timed.bind fun i => s.timed[i]?).any fun x => s.sys.borrowing x.continuation

/-- No call is given a null pointer, no system call fails, there is a signal for
every thread and a group for every function, no deadline overflows where the build
checks for it, threads get their own signals only, and no function is cancelled
inside `errno_group`. -/
def Careful (cfg : Cfg V) (s : St V E) : Ev V E → Prop
  | .launch _ _ env => EnvFine env ∧ live s.sys < cfg.limit
  | .resume _ timed _ env => EnvFine env ∧ timed.isSome = true
  | .cancel _ timed env => env.renew = true ∧ timed.isSome = true ∧ borrowing s timed = false
  | .main t env => Fine cfg s.sys (.main t env)
  | .act t a => Fine cfg s.sys (.act t a) ∧ OwnSignal s.sys (.act t a)
  | _ => True

instance (cfg : Cfg V) (s : St V E) : (e : Ev V E) → Decidable (Careful cfg s e)
  | .launch _ _ env => inferInstanceAs (Decidable (EnvFine env ∧ live s.sys < cfg.limit))
  | .resume _ timed _ env => inferInstanceAs (Decidable (EnvFine env ∧ timed.isSome = true))
  | .cancel _ timed env =>
    inferInstanceAs (Decidable (env.renew = true ∧ timed.isSome = true ∧ borrowing s timed = false))
  | .main t env => inferInstanceAs (Decidable (Fine cfg s.sys (.main t env)))
  | .back _ => inferInstanceAs (Decidable True)
  | .act t a => inferInstanceAs (Decidable (Fine cfg s.sys (.act t a) ∧ OwnSignal s.sys (.act t a)))
  | .exit _ => inferInstanceAs (Decidable True)

/-- The thread is in a call, or has come back with `Ok`. -/
def Returns (th : Thread V E) : Prop := (∃ c, th.call = some c) ∨ th.ret = some .ok

section
variable {sys sys' : Sys V E} {env : Env} {k : Lid}

theorem Returns.of_ok {th : Thread V E} (h : th.ret = some .ok) : Returns th := .inr h

theorem returns_main [IsEmpty E] (hn : cfg.notls = false) (hg : Good True True sys)
    (hg' : Good True True sys') (hs : Sys.step cfg sys (.main t env) = some sys') :
    Returns (sys'.threads t) := by
  -- A result that says that something failed.
  have early {r : Ret E} (hr : (sys'.threads t).ret = some r) (he : r.early = true) :
      Returns (sys'.threads t) := by
    have := hg'.rets t
    rw [hr] at this
    cases he.symm.trans (not_early this)
  obtain ⟨c, pc, hcall, hbase, -, ⟨hadv, -⟩ | ⟨rfl, hleft⟩⟩ := mainStep_cases hs
  · cases hadv with
    | goes s₁ th c' shared call =>
      rw [threads_setThread_self]
      exact .inl ⟨c', call⟩
    | fails s₁ th c' ret shared same failed =>
      exact early (congrArg Thread.ret (threads_setThread_self _)) failed
  · cases leaveStep_left hn hg hcall hbase hleft with
    | fails => exact early (congrArg Thread.ret (threads_setThread_self _)) rfl
    | paused => exact .of_ok (congrArg Thread.ret (threads_setThread_self _))
    | settled ctx y r =>
      cases r with
      | ok v => exact .of_ok (congrArg Thread.ret (threads_setThread_self _))
      | error e => exact isEmptyElim e

theorem returns_act {a : Act V E} (hs : Sys.step cfg sys (.act t a) = some sys')
    (h : Returns (sys.threads t)) :
    Returns (sys'.threads t) := by
  obtain ⟨th', hth, rfl⟩ := Option.map_eq_some_iff.mp hs
  have hself : ({ sys.setThread t th' with dirty := sys.dirtyAfter (sys.threads t) th' } :
    Sys V E).threads t = th' :=
    threads_setThread_self th'
  rw [hself]
  have hkept := Thread.step_kept hth
  rcases h with ⟨c, hc⟩ | hret
  · have hcall := hkept.call
    rw [hc, Option.map_some, Option.map_eq_some_iff] at hcall
    obtain ⟨c', hc', -⟩ := hcall
    exact .inl ⟨c', hc'⟩
  · exact .of_ok (hkept.ret.trans hret)

/-- The caller is not preemptible. -/
theorem not_caught (hg : Good True True sys) (hi : Sys.idle (sys.threads t) = true) :
    (sys.threads t).group.preemptible ≠ true := by
  rw [((hg.threads t).idle hi).2.2.2.2.2 trivial]
  exact Bool.false_ne_true

/-- With a group left, `launch` makes a `Linger`. -/
theorem returns_launch {us : UInt64} (hn : cfg.notls = false) (hy : Yields cfg)
    (hr : (process cfg).Reachable sys) (hg : Good True True sys) (hf : EnvFine env)
    (hlive : live sys < cfg.limit) (hs : Sys.step cfg sys (.launch t us env) = some sys') :
    sys'.lingers.length ≠ sys.lingers.length ∧ Returns (sys'.threads t) := by
  cases launch_begins hn hg hf hs with
  | full ret lingers =>
    have hmany := (tooMany_iff hn hy hg (groupsOk_reachable hn hr).2.2 hs).mp ⟨ret, by rw [lingers]⟩
    exact absurd hmany (Nat.ne_of_lt hlive)
  | waits budget ret call lingers =>
    obtain ⟨c, hc⟩ := lingers
    refine ⟨?_, .of_ok ret⟩
    rw [hc, List.length_append]
    exact Nat.succ_ne_self _
  | begins budget call =>
    obtain ⟨c, hc, hk, -⟩ := call
    have hlt := (linked_reachable hn (hr.step hs)).2.lt_length hc
    rw [hk] at hlt
    exact ⟨Nat.ne_of_gt hlt, .inl ⟨c, hc⟩⟩

theorem returns_resume {us : UInt64} (hn : cfg.notls = false) (hg : Good True True sys)
    (hf : EnvFine env) (hs : Sys.step cfg sys (.resume t k us env) = some sys') :
    Returns (sys'.threads t) := by
  cases resumeStep_change hn hs with
  | returns _ u j idle label =>
    obtain rfl : t = u := by
      rcases label with ⟨_, _, h⟩ | ⟨_, h⟩
      · cases h
        rfl
      · cases h
    exact .of_ok (congrArg Thread.ret (threads_setThread_self _))
  | caught _ u tid idle _ pre => exact absurd pre (not_caught hg idle)
  | resumes u j us env cont tr _ idle shared cell begin =>
    obtain ⟨c, hc, -⟩ := resume_begins hn hg hf hs cell
    exact .inl ⟨c, hc⟩
  | drops _ u j cont tr renew new idle cell label =>
    rcases label with ⟨_, h, _⟩ | ⟨_, h, _⟩ <;> cases h

theorem returns_cancel (hg : Good True True sys) (hr : env.renew = true)
    (hs : Sys.step cfg sys (.cancel t k env) = some sys') : Returns (sys'.threads t) := by
  cases cancelStep_change hs with
  | returns _ u j idle label =>
    obtain rfl : t = u := by
      rcases label with ⟨_, _, h⟩ | ⟨_, h⟩
      · cases h
      · cases h
        rfl
    exact .of_ok (congrArg Thread.ret (threads_setThread_self _))
  | caught _ u tid idle _ pre => exact absurd pre (not_caught hg idle)
  | drops _ u j cont tr renew new idle cell label =>
    rcases label with ⟨_, h, _⟩ | ⟨_, h, rfl, _⟩
    · cases h
    · cases h
      refine .of_ok ((congrArg Thread.ret (threads_setThread_self _)).trans ?_)
      simp [Sys.dropRet, hr]

end

/-- What a careful program has: it goes on, and every call of C that is over will return. -/
structure Careful.Inv (cfg : Cfg V) (s : St V E) : Prop where
  runs : s.ended = none
  inv : Ffi.Inv cfg s.sys s.timed s.pending
  orderly : ((process cfg).only (Orderly cfg)).Reachable s.sys
  returns : ∀ t, s.pending t ≠ none → Returns (s.sys.threads t)

/-- Thread `t` takes a step of the library; the others are as they were. -/
theorem returns_others {sys : Sys V E} {l : Label V E} {pending : Tid → Option Pending}
    (hn : cfg.notls = false) (hs : Sys.step cfg s.sys l = some sys)
    (hp : ∀ u, u ≠ l.tid → pending u = s.pending u)
    (h : ∀ t, s.pending t ≠ none → Returns (s.sys.threads t))
    (hl : pending l.tid ≠ none → Returns (sys.threads l.tid)) :
    ∀ t, pending t ≠ none → Returns (sys.threads t) := by
  intro u hu
  by_cases hul : u = l.tid
  · exact hul ▸ hl (hul ▸ hu)
  · rw [step_threads_ne hn hs hul]
    exact h u (hp u hul ▸ hu)

namespace Careful.Inv

/-- A call of C that is over has come back with `Ok`. -/
theorem ret_ok {p : Pending} (h : Careful.Inv cfg s) (hn : cfg.notls = false)
    (hp : s.pending t = some p) (hi : Sys.idle (s.sys.threads t) = true) :
    (s.sys.threads t).ret = some .ok := by
  rcases h.returns t (by simp [hp]) with ⟨c, hc⟩ | hret
  · exact absurd rfl (h.inv.ne_idle hn hi hc)
  · exact hret

theorem good (h : Careful.Inv cfg s) (hn : cfg.notls = false) : Good True True s.sys :=
  (orderly_reachable hn h.orderly).1

theorem launch {us : UInt64} {env : Env} (h : Careful.Inv cfg s) (hn : cfg.notls = false)
    (hy : Yields cfg) (hc : Careful cfg s (.launch t us env))
    (hs : Ffi.launch cfg s t us env = some s') :
    s'.ended = none ∧ ((process cfg).only (Orderly cfg)).Reachable s'.sys ∧
      ∀ t, s'.pending t ≠ none → Returns (s'.sys.threads t) := by
  simp only [Ffi.launch, Option.ite_none_left_eq_some] at hs
  obtain ⟨-, hs⟩ := hs
  obtain ⟨sys, hstep, rfl⟩ := Option.map_eq_some_iff.mp hs
  obtain ⟨hlen, hret⟩ := returns_launch hn hy h.inv.reachable (h.good hn) hc.1 hc.2 hstep
  rw [if_neg hlen]
  exact ⟨h.runs, h.orderly.step ⟨hstep, hc.1, trivial, trivial⟩,
    returns_others hn hstep (fun u hu => Function.update_of_ne hu ..) h.returns fun _ => hret⟩

theorem resume {timed : Option Nat} {us : UInt64} {env : Env} (h : Careful.Inv cfg s)
    (hn : cfg.notls = false) (hc : Careful cfg s (.resume t timed us env))
    (hs : Ffi.resume cfg s t timed us env = some s') :
    s'.ended = none ∧ ((process cfg).only (Orderly cfg)).Reachable s'.sys ∧
      ∀ t, s'.pending t ≠ none → Returns (s'.sys.threads t) := by
  simp only [Ffi.resume, Option.ite_none_left_eq_some] at hs
  obtain ⟨-, hs⟩ := hs
  cases timed with
  | none => cases hc.2
  | some i =>
    dsimp only at hs
    split at hs
    · obtain ⟨sys, hstep, rfl⟩ := Option.map_eq_some_iff.mp hs
      have hret := returns_resume hn (h.good hn) hc.1 hstep
      exact ⟨h.runs, h.orderly.step ⟨hstep, hc.1, trivial, trivial⟩,
        returns_others hn hstep (fun u hu => Function.update_of_ne hu ..) h.returns fun _ => hret⟩
    · cases hs

theorem cancel {timed : Option Nat} {env : Env} (h : Careful.Inv cfg s) (hn : cfg.notls = false)
    (hc : Careful cfg s (.cancel t timed env)) (hs : Ffi.cancel cfg s t timed env = some s') :
    s'.ended = none ∧ ((process cfg).only (Orderly cfg)).Reachable s'.sys ∧
      ∀ t, s'.pending t ≠ none → Returns (s'.sys.threads t) := by
  simp only [Ffi.cancel, Option.ite_none_left_eq_some] at hs
  obtain ⟨-, hs⟩ := hs
  cases timed with
  | none => cases hc.2.1
  | some i =>
    dsimp only at hs
    split at hs
    · rename_i done k hcell
      have hfree : s.sys.borrowing k = false := by simpa [borrowing, hcell] using hc.2.2
      split at hs
      · obtain ⟨sys, hstep, rfl⟩ := Option.map_eq_some_iff.mp hs
        have hret := returns_cancel (h.good hn) hc.1 hstep
        exact ⟨h.runs, h.orderly.step ⟨hstep, trivial, hfree, trivial⟩,
          returns_others hn hstep (fun u hu => Function.update_of_ne hu ..) h.returns fun _ => hret⟩
      · split at hs
        · cases hs
          exact ⟨h.runs, h.orderly, h.returns⟩
        · cases hs
    · cases hs

theorem back (h : Careful.Inv cfg s) (hn : cfg.notls = false) (hs : Ffi.back s t = some s') :
    s'.ended = none ∧ ((process cfg).only (Orderly cfg)).Reachable s'.sys ∧
      ∀ t, s'.pending t ≠ none → Returns (s'.sys.threads t) := by
  simp only [Ffi.back, Option.ite_none_right_eq_some] at hs
  obtain ⟨hidle, hs⟩ := hs
  have hrest : ∀ u, Function.update s.pending t none u ≠ none → Returns (s.sys.threads u) := by
    intro u hu
    by_cases hut : u = t
    · rw [hut, Function.update_self] at hu
      exact absurd rfl hu
    · rw [Function.update_of_ne hut] at hu
      exact h.returns u hu
  have hgive (i : Nat) (flag : Lid → Bool) (s₁ : St V E)
      (he : ({ s with pending := Function.update s.pending t none } : St V E).give i flag = s₁) :
      s₁.ended = none ∧ ((process cfg).only (Orderly cfg)).Reachable s₁.sys ∧
        ∀ t, s₁.pending t ≠ none → Returns (s₁.sys.threads t) := by
    subst he
    unfold St.give
    split <;> exact ⟨h.runs, h.orderly, hrest⟩
  cases hp : s.pending t with
  | none =>
    rw [hp] at hs
    cases hs
  | some p =>
    rw [hp, h.ret_ok hn hp hidle] at hs
    cases p with
    | launch k =>
      cases hs
      exact ⟨h.runs, h.orderly, hrest⟩
    | resume i => exact hgive i _ s' (Option.some.inj hs)
    | cancel i => exact hgive i _ s' (Option.some.inj hs)

theorem step [IsEmpty E] (h : Careful.Inv cfg s) (hn : cfg.notls = false) (hy : Yields cfg)
    (hs : Ffi.step cfg s e = some s') (hc : Careful cfg s e) : Careful.Inv cfg s' := by
  have hinv := h.inv.moves hn (step_moves hs)
  have hgoes : s'.ended = none ∧ ((process cfg).only (Orderly cfg)).Reachable s'.sys ∧
      ∀ t, s'.pending t ≠ none → Returns (s'.sys.threads t) := by
    simp only [Ffi.step, h.runs, Option.isSome_none, Bool.false_eq_true, if_false] at hs
    cases e with
    | launch t us env => exact h.launch hn hy hc hs
    | resume t timed us env => exact h.resume hn hc hs
    | cancel t timed env => exact h.cancel hn hc hs
    | back t => exact h.back hn hs
    | main t env =>
      obtain ⟨sys, hstep, rfl⟩ := Option.map_eq_some_iff.mp hs
      have horderly := h.orderly.step (M := (process cfg).only (Orderly cfg))
        ⟨hstep, hc, trivial, trivial⟩
      have hret := returns_main hn (h.good hn) (orderly_reachable hn horderly).1 hstep
      exact ⟨rfl, horderly, returns_others hn hstep (fun _ _ => rfl) h.returns fun _ => hret⟩
    | act t a =>
      obtain ⟨sys, hstep, rfl⟩ := Option.map_eq_some_iff.mp hs
      exact ⟨rfl, h.orderly.step ⟨hstep, hc.1, trivial, hc.2⟩,
        returns_others hn hstep (fun _ _ => rfl) h.returns fun hp =>
          returns_act hstep (h.returns t hp)⟩
    | exit t =>
      simp only [Option.ite_none_left_eq_some, Option.not_isSome_iff_eq_none] at hs
      obtain ⟨hfree, hs⟩ := hs
      obtain ⟨sys, hstep, rfl⟩ := Option.map_eq_some_iff.mp hs
      exact ⟨rfl, h.orderly.step ⟨hstep, trivial, trivial, trivial⟩,
        returns_others hn hstep (fun _ _ => rfl) h.returns fun hp => absurd hfree hp⟩
  exact ⟨hgoes.1, hinv, hgoes.2.1, hgoes.2.2⟩

end Careful.Inv

end

end Ffi

end Inger.L4
