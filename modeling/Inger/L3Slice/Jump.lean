import Inger.L3Slice.Rest

/-!
# Where a slice starts

The steps of `resume` before the function has control, in a state with the
invariant. Up to `setup_stack` they go on or end the call (`Prepared`), and the
task stays as it is, or gets its first context. `switch_stack` then finds a
context to jump to, the block at rest and SIGNAL naming the thread, so it has
three outcomes (`switchStep_switched`): `schedule` starts, the paused function
goes on where it was paused, or a system call failed and the call is over.
-/
namespace Inger.L2

/-- The step of `resume` after one that succeeds. -/
def MainPc.next : MainPc → MainPc
  | .setup => .signal
  | .signal => .stack
  | .stack => .switch
  | .switch => .leave
  | .leave => .leave

end Inger.L2

namespace Inger.L3

open L1.Reusable L1.Signals L2

variable {V E : Type}

/-- The outcomes of a step of `resume` before `switch_stack`. -/
inductive Prepared (cfg : Cfg V) (s : Sys V E) (t : Tid) (c : Call V E) (env : Env) (pc : MainPc) :
    Sys V E → Prop
  | goes (s₁ : Sys V E) (th : Thread V E) (c' : Call V E) (shared : s.SameShared s₁)
      (call : th.call = some c') (same : c.Same c') (us : c'.us = c.us)
      (task : c'.task = c.task ∨
        c.task.errno = none ∧ ∃ st m, c'.task.checkpoint = some ⟨st, m, .entry⟩)
      (base : th.base = .main pc.next) (handlers : th.handlers = [])
      (pending : th.pending = (s.threads t).pending)
      (installed : th.vars.task = (s.threads t).vars.task) :
      Prepared cfg s t c env pc (s₁.setThread t th)
  | stuck (s₁ : Sys V E) (th : Thread V E) (shared : s.SameShared s₁)
      (base : th.base = .stuck .setup)
      (call : th.call = some c) (installed : th.vars.task = (s.threads t).vars.task) :
      Prepared cfg s t c env pc (s₁.setThread t th)
  | fails (s₁ : Sys V E) (ret : Ret E) (shared : s.SameShared s₁) (failed : ret.early = true) :
      Prepared cfg s t c env pc (Sys.failResume cfg s₁ t (s.threads t) c env ret)

/-- The outcomes of `switch_stack` up to the jump. -/
inductive Switched (cfg : Cfg V) (s : Sys V E) (t : Tid) (c : Call V E) (env : Env) : Sys V E → Prop
  | starts (st : Sid) (m : Sigset) (y : Bool) (task : c.task = ⟨none, some ⟨st, m, .entry⟩, y⟩)
      (bootstrap : (s.threads t).vars.bootstrap = some (c.linger, c.group))
      (blocked : ∀ o, (s.threads t).signaler = some o → o ∈ m) : Switched cfg s t c env
        (s.setThread t { s.threads t with
          mask := m
          vars := { (s.threads t).vars with
            task := ⟨none, some ⟨st, (s.threads t).mask, .callsite⟩, false⟩ }
          call := some { c with task := ⟨none, none, y⟩, link := (s.threads t).mask }
          base := .boot })
  | resumes (e : Int) (st : Sid) (m : Sigset) (b : Body) (hs : List Frame) (y : Bool) (o : Signal)
      (task : c.task = ⟨some e, some ⟨st, m, .paused b hs⟩, y⟩)
      (own : (s.threads t).signaler = some o)
      (paused : Paused c.linger c.group c.functional (s.threads t).vars.errnoLocation b hs) :
      Switched cfg s t c env
        (s.setThread t { s.threads t with
          mask := (if env.sigmask then (s.threads t).mask else ∅).erase o
          group := .of c.group
          vars := { (s.threads t).vars with
            task := ⟨none, some ⟨st, (s.threads t).mask, .callsite⟩, false⟩
            deadline := stamp env.now c.us }.setErrno (.of c.group) e
          call := some { c with
            task := ⟨some e, none, y⟩, error := !env.sigmask, link := (s.threads t).mask }
          base := .body b
          handlers := hs })
  | fails (s₁ : Sys V E) (th : Thread V E) (c' : Call V E) (ret : Ret E) (shared : s.SameShared s₁)
      (same : c.Same c') (taken : c'.task.checkpoint = none) (handlers : th.handlers = [])
      (failed : ret.early = true)
      (env_fails : EnvFine env → cfg.overflowChecks = true ∧ ¬(s.threads t).StampFits env.now) :
      Switched cfg s t c env (Sys.failResume cfg s₁ t th c' env ret)

section
variable {cfg : Cfg V} {ok tidy : Prop} {s s' : Sys V E} {t : Tid} {c : Call V E} {env : Env}

theorem setupStep_prepared (hcall : (s.threads t).call = some c)
    (hh : (s.threads t).handlers = []) :
    Prepared cfg s t c env .setup (Sys.setupStep cfg s t (s.threads t) c env) := by
  have hshared (p : Pool Signal) : s.SameShared { s with signals := p } := ⟨rfl, rfl, rfl, rfl, rfl⟩
  unfold Sys.setupStep
  split
  · exact .goes s _ c (.refl s) hcall (.refl c) rfl (.inl rfl) rfl hh rfl rfl
  · split
    · exact .fails _ _ (hshared _) rfl
    · split
      · exact .goes _ _ c (hshared _) hcall (.refl c) rfl (.inl rfl) rfl hh rfl rfl
      · exact .stuck _ _ (hshared _) rfl hcall rfl

theorem stackStep_prepared (hg : Good ok tidy s) (hcall : (s.threads t).call = some c)
    (hbase : (s.threads t).base = .main .stack) (hh : (s.threads t).handlers = []) :
    Prepared cfg s t c env .stack (Sys.stackStep cfg s t (s.threads t) c env) := by
  have hcore := hg.threads t
  simp only [Core, hbase, hcall] at hcore
  obtain ⟨-, -, -, -, hrest, -⟩ := hcore
  have hboot : (s.threads t).vars.bootstrap = none := hrest.bootstrap
  have hshared (p : Pool Sid) : s.SameShared { s with stackPool := p } := ⟨rfl, rfl, rfl, rfl, rfl⟩
  unfold Sys.stackStep
  split
  · exact .goes s _ c (.refl s) hcall (.refl c) rfl (.inl rfl) rfl hh rfl rfl
  · rename_i herr
    dsimp only
    split
    · rw [hboot, if_neg (by simp)]
      exact .goes _ _ _ ((hshared _).freeStack _) rfl ⟨rfl, rfl, rfl, rfl, rfl, rfl, rfl⟩ rfl
        (.inr ⟨herr, _, _, rfl⟩) rfl hh rfl rfl
    · exact .fails _ _ (hshared _) rfl

theorem switchStep_switched (hg : Good ok tidy s) (hcall : (s.threads t).call = some c)
    (hbase : (s.threads t).base = .main .switch) (hh : (s.threads t).handlers = []) :
    Switched cfg s t c env (Sys.switchStep cfg s t (s.threads t) c env) := by
  have hcore := hg.threads t
  simp only [Core, hbase, hcall] at hcore
  obtain ⟨-, -, -, hown, hsw⟩ := hcore
  obtain ⟨o, ho⟩ := Option.isSome_iff_exists.mp hown
  have hck : (s.threads t).vars.task.checkpoint = none := by rw [hsw.task]; rfl
  have hset (h : env.sigsetcontext ≠ .jumps) (hf : EnvFine env) :
      cfg.overflowChecks = true ∧ ¬(s.threads t).StampFits env.now := absurd hf.sigsetcontext h
  unfold Sys.switchStep
  rcases hsw.target with ⟨st, m, y, htask, hm, hboot, -⟩ | ⟨e, st, m, b, hs, y, htask, -, hp⟩
  · simp only [htask, hck, Option.isSome_none, Bool.and_false, Bool.false_eq_true, if_false,
      Sys.getOrInsert]
    split
    · split
      · have h : Switched cfg s t c env _ := .starts st m y htask hboot hm
        simpa [Sys.jump, Thread.setCall, hsw.task, Task.default] using h
      · exact .fails s _ _ _ (.refl s) ⟨rfl, rfl, rfl, rfl, rfl, rfl, by rw [htask]⟩ rfl hh rfl
          (hset (by simp_all))
      · exact .fails s _ _ _ (.refl s) ⟨rfl, rfl, rfl, rfl, rfl, rfl, by rw [htask]⟩ rfl hh rfl
          (hset (by simp_all))
    · rename_i hres
      exact .fails _ _ _ _ ((Sys.SameShared.refl s).freeStack _)
        ⟨rfl, rfl, rfl, rfl, rfl, rfl, by rw [htask]⟩ rfl hh rfl fun hf =>
          absurd hf.restorecontext hres
  · have hthr : threadSignal s.sig (s.threads t).vars = some o :=
      (threadSignal_own rfl hsw.signal).trans ho
    simp only [htask, hthr, hck, Option.isSome_none, Bool.and_false, Bool.false_eq_true, if_false,
      Sys.getOrInsert, Sys.reenable]
    split
    · split
      · rename_i hover
        obtain ⟨hchk, hover⟩ := Bool.and_eq_true_iff.mp hover
        refine .fails s _ _ _ (.refl s) ⟨rfl, rfl, rfl, rfl, rfl, rfl, by rw [htask]⟩ rfl hh rfl
          fun _ => ⟨hchk, fun hfits => ?_⟩
        rw [hfits (by simp [Thread.stamping, hh, hbase, hcall, htask])] at hover
        cases hover
      split
      · have h : Switched cfg s t c env _ := .resumes e st m b hs y o htask ho hp
        simpa [Sys.jump, Thread.setCall, Vars.setErrno, hsw.task, hsw.deadline, Task.default]
          using h
      · exact .fails s _ _ _ (.refl s) ⟨rfl, rfl, rfl, rfl, rfl, rfl, by rw [htask]⟩ rfl hh rfl
          (hset (by simp_all))
      · exact .fails s _ _ _ (.refl s) ⟨rfl, rfl, rfl, rfl, rfl, rfl, by rw [htask]⟩ rfl hh rfl
          (hset (by simp_all))
    · rename_i hres
      exact .fails _ _ _ _ ((Sys.SameShared.refl s).freeStack _)
        ⟨rfl, rfl, rfl, rfl, rfl, rfl, by rw [htask]⟩ rfl hh rfl fun hf =>
          absurd hf.restorecontext hres

/-- **A step of `resume` on the caller's stack**, by where it is. -/
theorem mainStep_sorted (hg : Good ok tidy s) (hs : Sys.mainStep cfg s t env = some s') :
    ∃ c pc, (s.threads t).call = some c ∧ (s.threads t).base = .main pc ∧
      (s.threads t).handlers = [] ∧
      (pc ≠ .switch ∧ pc ≠ .leave ∧ Prepared cfg s t c env pc s' ∨
        pc = .switch ∧ Switched cfg s t c env s' ∨
        pc = .leave ∧ s' = Sys.leaveStep cfg s t (s.threads t) c env) := by
  simp only [Sys.mainStep] at hs
  split at hs <;> cases hs
  all_goals rename_i c hr hh hb hc; refine ⟨c, _, hc, hb, hh, ?_⟩
  · exact .inl ⟨by simp, by simp, setupStep_prepared hc hh⟩
  · exact .inl ⟨by simp, by simp,
      .goes s _ c (.refl s) hc (.refl c) rfl (.inl rfl) rfl hh rfl rfl⟩
  · exact .inl ⟨by simp, by simp, stackStep_prepared hg hc hb hh⟩
  · exact .inr (.inl ⟨rfl, switchStep_switched hg hc hb hh⟩)
  · exact .inr (.inr ⟨rfl, rfl⟩)

end

end Inger.L3
