import Inger.L2Machine.Change
import Inger.L3Slice.Step

/-!
# The invariant of the process

`Good ok tidy s`: every thread has the shape of `Core`, every `Linger` that is not
inside `resume` agrees with its history, and every TCB in a continuation or in
the LOCALSTORES free list is at rest. It is kept by every step of every build
without the `notls` feature, whatever system calls fail: a failure destroys the
TCB of the continuation it hits, so a TCB that is still there has seen none. The
debug assertions are not needed for it, and where they stop a call they keep it.

With `ok`, nothing has failed so far; then the TCB is there, too. With `tidy`,
system calls have failed in launches only; then a started continuation has its
stack, and a thread outside `resume` has the group `SHARED`.
-/
namespace Inger.L3

open L1.Reusable L1.Signals L2

variable {V E : Type}

/-! ## Runs in which nothing fails -/

/-- No system call of a step fails. -/
structure EnvFine (env : Env) : Prop where
  install : env.install = true
  setup : env.setup = true
  makecontext : env.makecontext = true
  restorecontext : env.restorecontext = true
  sigmask : env.sigmask = true
  sigsetcontext : env.sigsetcontext = .jumps

/-- Nothing fails in a step: no system call, a thread that needs a preemption
signal can be assigned one, and where the build checks for it no deadline
overflows. -/
def Fine (cfg : Cfg V) (s : Sys V E) : Label V E → Prop
  | .launch _ _ env => EnvFine env
  | .resume _ _ _ env => EnvFine env
  | .main t env => EnvFine env ∧
      ((s.threads t).signaler = none → (tryFrom nextSignal s.signals).1.isSome = true) ∧
      (cfg.overflowChecks = true → (s.threads t).StampFits env.now)
  | .act t (.run now) => cfg.overflowChecks = true → (s.threads t).StampFits now
  | _ => True

instance (env : Env) : Decidable (EnvFine env) :=
  decidable_of_iff (env.install = true ∧ env.setup = true ∧ env.makecontext = true ∧
      env.restorecontext = true ∧ env.sigmask = true ∧ env.sigsetcontext = .jumps)
    ⟨fun ⟨a, b, c, d, e, f⟩ => ⟨a, b, c, d, e, f⟩, fun ⟨a, b, c, d, e, f⟩ => ⟨a, b, c, d, e, f⟩⟩

instance (cfg : Cfg V) (s : Sys V E) : (l : Label V E) → Decidable (Fine cfg s l)
  | .launch _ _ env => inferInstanceAs (Decidable (EnvFine env))
  | .resume _ _ _ env => inferInstanceAs (Decidable (EnvFine env))
  | .main t env => inferInstanceAs (Decidable (EnvFine env ∧
      ((s.threads t).signaler = none → (tryFrom nextSignal s.signals).1.isSome = true) ∧
      (cfg.overflowChecks = true → (s.threads t).StampFits env.now)))
  | .act t (.run now) =>
    inferInstanceAs (Decidable (cfg.overflowChecks = true → (s.threads t).StampFits now))
  | .act _ (.deliver _) => isTrue trivial
  | .act _ (.fn _) => isTrue trivial
  | .drop _ _ _ => isTrue trivial
  | .cancel _ _ _ => isTrue trivial
  | .erase _ _ => isTrue trivial
  | .exit _ => isTrue trivial

/-- System calls (and deadlines) fail in launches only. -/
def Tidy (cfg : Cfg V) (s : Sys V E) : Label V E → Prop
  | .resume _ _ _ env => EnvFine env
  | .main t env => ∀ c, (s.threads t).call = some c → c.launching = false →
      EnvFine env ∧ (cfg.overflowChecks = true → (s.threads t).StampFits env.now)
  | _ => True

theorem Fine.tidy {cfg : Cfg V} {s : Sys V E} {l : Label V E} (h : Fine cfg s l) :
    Tidy cfg s l := by
  cases l with
  | resume t k us env => exact h
  | main t env => exact fun _ _ _ => ⟨h.1, h.2.2⟩
  | _ => trivial

theorem Fine.act {cfg : Cfg V} {s : Sys V E} {t : Tid} {a : Act V E} (h : Fine cfg s (.act t a))
    (hc : cfg.overflowChecks = true) : ∀ now, a = .run now → (s.threads t).StampFits now := by
  rintro now rfl
  exact h hc

/-! ## The invariant -/

/-- A paused task has its context. -/
def Held (k : Task) : Prop := k.errno.isSome = true → k.checkpoint.isSome = true

theorem TaskOk.held {k : Lid} {g : Gid} {f : Completion V E} {loc : RefCell (Option Gid)} {y : Task}
    (h : TaskOk k g f loc y) : Held y := by
  cases h with
  | fresh => exact nofun
  | paused => exact fun _ => rfl

/-- A `Linger` at rest agrees with its history. -/
def CellOk (ok tidy : Prop) (k : Lid) (l : Linger V E) : Prop :=
  match l.cell with
  | .continuation c => (ok → c.tls.isSome = true) ∧ (tidy → Held c.stateful) ∧
      ∀ v, c.tls = some v → Rest v ∧
        TaskOk k c.group c.functional v.errnoLocation c.stateful ∧ Traced false c.functional l.trace
  | .completion v => .cancel ∈ l.trace ∨ Traced true (.ret (.ok v)) l.trace
  | .poison => ∃ e, Traced true (.ret (.error e)) l.trace
  | .resuming _ _ => True
  | .dropped => True

/-- A slot of LOCALSTORES. -/
def SlotOk (ok : Prop) (x : Option Vars) : Prop := (ok → x.isSome = true) ∧ ∀ v, x = some v → Rest v

/-- The results a call can have: two of the `expect`s of `resume` never fail,
the others (and `Err`) only after a failure. -/
def RetOk (ok : Prop) : Option (Ret E) → Prop
  | some .err => ¬ok
  | some (.panic .missingTcb) => ¬ok
  | some (.panic .noSignal) => ¬ok
  | some (.panic .invalidContinuation) => ¬ok
  | some (.panic .overflow) => ¬ok
  | some (.panic .missingContinuation) => False
  | some (.panic .alreadyRetrieved) => False
  | _ => True

structure Good (ok tidy : Prop) (s : Sys V E) : Prop where
  sound : ok → tidy
  threads : ∀ t, Core ok tidy t (s.threads t)
  rets : ∀ t, RetOk ok (s.threads t).ret
  lingers : ∀ k l, s.lingers[k]? = some l → CellOk ok tidy k l
  entries : ∀ (k : Lid) (l : Linger V E), s.lingers[k]? = some l → entered l.trace ≤ 1
  free : ∀ x ∈ s.localstores.free, SlotOk ok x

/-! ## Updates of the state -/

section
variable {ok tidy : Prop} {s : Sys V E} {t : Tid} {th : Thread V E} {k : Lid} {l : Linger V E}

/-- The groups, stacks, signals and ghost marks do not matter. -/
theorem Good.of_eq {s' : Sys V E} (h : Good ok tidy s) (ht : s'.threads = s.threads)
    (hl : s'.lingers = s.lingers) (hf : s'.localstores = s.localstores) : Good ok tidy s' :=
  ⟨h.sound, by rw [ht]; exact h.threads, by rw [ht]; exact h.rets, by rw [hl]; exact h.lingers,
    by rw [hl]; exact h.entries, by rw [hf]; exact h.free⟩

theorem Good.setThread (h : Good ok tidy s) (hth : Core ok tidy t th) (hr : RetOk ok th.ret) :
    Good ok tidy (s.setThread t th) where
  sound := h.sound
  threads u := by
    simp only [Sys.setThread, Function.update_apply]
    split
    · rename_i hu; rw [hu]; exact hth
    · exact h.threads u
  rets u := by
    simp only [Sys.setThread, Function.update_apply]
    split
    · exact hr
    · exact h.rets u
  lingers := h.lingers
  entries := h.entries
  free := h.free

/-- What holds of all `Linger`s but `k` and of the new one holds of all. -/
theorem forall_setLinger {P : Lid → Linger V E → Prop}
    (h : ∀ j l', s.lingers[j]? = some l' → P j l') (hk : P k l) (j : Lid) (l' : Linger V E)
    (hj : (s.setLinger k l).lingers[j]? = some l') : P j l' := by
  simp only [Sys.setLinger, List.getElem?_set] at hj
  split at hj
  · rename_i hjk
    subst hjk
    split at hj
    · cases hj; exact hk
    · cases hj
  · exact h j l' hj

theorem Good.setLinger (h : Good ok tidy s) (hl : CellOk ok tidy k l) (he : entered l.trace ≤ 1) :
    Good ok tidy (s.setLinger k l) where
  sound := h.sound
  threads := h.threads
  rets := h.rets
  lingers := forall_setLinger h.lingers hl
  entries := forall_setLinger h.entries he
  free := h.free

theorem Good.dropped (h : Good ok tidy s) (k : Lid) {trace : List (Event V E)}
    (he : entered trace ≤ 1) : Good ok tidy (s.setLinger k ⟨.dropped, trace⟩) :=
  h.setLinger trivial he

theorem Good.freeStack (h : Good ok tidy s) (st : Option Sid) : Good ok tidy (s.freeStack st) := by
  cases st <;> exact h.of_eq rfl rfl rfl

theorem Good.dropContinuation {c : Continuation V E} (h : Good ok tidy s) (hc : SlotOk ok c.tls)
    (renew : Bool) : Good ok tidy (s.dropContinuation c renew) where
  sound := h.sound
  threads := by
    cases hst : c.stateful.stack <;>
      simpa [Sys.dropContinuation, Sys.freeStack, hst] using h.threads
  rets := by
    cases hst : c.stateful.stack <;>
      simpa [Sys.dropContinuation, Sys.freeStack, hst] using h.rets
  lingers := by
    cases hst : c.stateful.stack <;>
      simpa [Sys.dropContinuation, Sys.freeStack, hst] using h.lingers
  entries := by
    cases hst : c.stateful.stack <;>
      simpa [Sys.dropContinuation, Sys.freeStack, hst] using h.entries
  free := by
    intro x hx
    rcases List.mem_cons.mp hx with rfl | hx
    · exact hc
    · exact h.free x hx

/-- What a failed `resume` leaves has no TCB. -/
theorem Good.abandon {c : Continuation V E} {trace : List (Event V E)} (h : Good ok tidy s)
    (hc : CellOk ok tidy k ⟨.continuation c, trace⟩) (he : entered trace ≤ 1)
    (launching renew : Bool) :
    Good ok tidy (s.abandon k c trace launching renew) := by
  unfold Sys.abandon
  split
  · exact (h.dropContinuation ⟨hc.1, fun v hv => (hc.2.2 v hv).1⟩ renew).dropped k he
  · exact h.setLinger hc he

end

/-! ## `resume` -/

section
variable {cfg : Cfg V} {ok tidy : Prop} {s s' : Sys V E} {t : Tid} {k : Lid} {c : Call V E}
  {env : Env}

/-- A `resume` that ends early; `th` is on the caller's stack. -/
theorem Good.failResume {th : Thread V E} {ret : Ret E} (hn : cfg.notls = false)
    (h : Good ok tidy s) (hok : ¬ok) (hcalm : Calm th) (hother : c.other.signal = none)
    (hg : tidy → th.group = .SHARED) (hheld : tidy → Held c.task) (he : entered c.trace ≤ 1)
    (hr : RetOk ok (some ret)) :
    Good ok tidy (Sys.failResume cfg s t th c env ret) := by
  simp only [Sys.failResume, hn, Bool.false_eq_true, if_false]
  refine ((h.freeStack _).abandon ?_ he _ _).setThread ?_ hr
  · exact ⟨fun ho => absurd ho hok, hheld, by simp⟩
  · exact ⟨⟨hcalm.mask, hcalm.frames, hcalm.foreign⟩, hother, hg⟩

/-- A thread in its program, about to make a call. -/
theorem Core.idle (h : Core ok tidy t (s.threads t)) (hi : Sys.idle (s.threads t) = true) :
    (s.threads t).base = .caller ∧ (s.threads t).handlers = [] ∧ (s.threads t).call = none ∧
      Calm (s.threads t) ∧ (s.threads t).vars.signal = none ∧
        (tidy → (s.threads t).group = .SHARED) := by
  simp only [Sys.idle, Bool.and_eq_true, decide_eq_true_eq, List.isEmpty_iff] at hi
  obtain ⟨⟨-, hb⟩, hh⟩ := hi
  unfold Core at h
  cases hc : (s.threads t).call <;> rw [hb, hc] at h
  · exact ⟨hb, hh, rfl, h.1, h.2.1, h.2.2⟩
  · exact h.elim

/-- A call changes nothing of its thread but the result. -/
theorem Good.returns (h : Good ok tidy s) (h' : Good ok tidy s')
    (hi : Sys.idle (s.threads t) = true) {r : Ret E} (hr : RetOk ok (some r)) :
    Good ok tidy (s'.setThread t { s.threads t with ret := some r }) := by
  obtain ⟨hb, hh, hc, hcalm, hsig, hg⟩ := (h.threads t).idle hi
  refine h'.setThread ?_ hr
  simp only [Core, hb, hc]
  exact ⟨⟨hcalm.mask, hcalm.frames, hcalm.foreign⟩, hsig, hg⟩

/-- The assertion against calls from preemptible functions: met only after a
failed `sigsetcontext`. -/
theorem Good.caught (h : Good ok tidy s) (hi : Sys.idle (s.threads t) = true)
    (hp : (s.threads t).group.preemptible = true) :
    Good ok tidy (s.setThread t ((s.threads t).fail .preemptible)) := by
  obtain ⟨hb, hh, hc, hcalm, hsig, hg⟩ := (h.threads t).idle hi
  refine h.setThread (.inr (.inr (.inr ⟨fun ht => ?_, rfl⟩))) (h.rets t)
  rw [hg ht] at hp
  cases hp

theorem Good.begin {cont : Continuation V E} {trace : List (Event V E)} {us : UInt64}
    {launching : Bool} (h : Good ok tidy s) (hi : Sys.idle (s.threads t) = true)
    (hc : CellOk ok tidy k ⟨.continuation cont, trace⟩)
    (he : entered trace ≤ 1) (hnew : launching = true → cont.stateful.errno = none)
    (hf : ok → EnvFine env) (hb : Begin s t k cont trace us launching env s') :
    Good ok tidy s' := by
  obtain ⟨-, -, -, hcalm, hsig, hg⟩ := (h.threads t).idle hi
  cases hb with
  | missing tls =>
    exact Good.returns h (h.abandon hc he _ _) hi fun ho => by have := hc.1 ho; simp [tls] at this
  | enters tcb tls installs =>
    obtain ⟨hrest, htask, htr⟩ := hc.2.2 tcb tls
    refine (h.setLinger (l := ⟨.resuming t cont.group, trace⟩) trivial he).setThread ?_ (h.rets t)
    exact ⟨⟨hcalm.mask, hcalm.frames, hcalm.foreign⟩, hg, ⟨hsig, hnew, fun _ => rfl, nofun⟩, hrest,
      htr, htask⟩
  | fails tcb tls installs =>
    have hok : ¬ok := fun ho => by have := (hf ho).install; rw [installs] at this; cases this
    have hcell : CellOk ok tidy k (⟨.continuation { cont with tls := none }, trace⟩ : Linger V E) :=
      ⟨fun ho => absurd ho hok, hc.2.1, by simp⟩
    exact Good.returns h ((h.freeStack _).abandon hcell he _ _) hi hok

/-- The first step on a thread that has no preemption signal acquires one. -/
theorem Good.setupStep {th : Thread V E} (hn : cfg.notls = false) (h : Good ok tidy s)
    (hret : RetOk ok th.ret) (hh : th.handlers = []) (hcall : th.call = some c)
    (hcore : Calm th ∧ (tidy → th.group = .SHARED) ∧ CallOk tidy c ∧ MainOk t th c .setup)
    (hf : ok → EnvFine env) (hsigs : ok → th.signaler = none →
      (tryFrom nextSignal s.signals).1.isSome = true) :
    Good ok tidy (Sys.setupStep cfg s t th c env) := by
  obtain ⟨hcalm, hg, hc, hrest, htr, htask⟩ := hcore
  unfold Sys.setupStep
  split
  · rename_i o ho
    refine h.setThread ?_ hret
    simp only [Core, hcall]
    exact ⟨⟨hcalm.mask, hcalm.frames, hcalm.foreign⟩, hg, hc, by simp [ho], hrest, htr, htask⟩
  · rename_i hnone
    split
    · rename_i p hp
      have hok : ¬ok := fun ho => by have := hsigs ho hnone; rw [hp] at this; cases this
      have h' : Good ok tidy { s with signals := p } := h.of_eq rfl rfl rfl
      exact h'.failResume hn hok hcalm hc.other hg (fun _ => htask.held) htr.entered_le hok
    · rename_i o p hp
      split
      · have h' : Good ok tidy { s with signals := p } := h.of_eq rfl rfl rfl
        refine h'.setThread ?_ hret
        simp only [Core, hcall]
        refine ⟨⟨?_, by simp [hh], by simp [hh]⟩, hg, hc, rfl, hrest, htr, htask⟩
        intro o' ho'
        cases ho'
        exact Finset.mem_insert_self o th.mask
      · rename_i hsetup
        have hok : ¬ok := fun ho => hsetup (hf ho).setup
        have h' : Good ok tidy { s with signals := release p o } := h.of_eq rfl rfl rfl
        exact h'.setThread (.inr (.inr (.inl ⟨hok, .inl rfl⟩))) hret

/-- SIGNAL is set. -/
theorem Good.signalStep {th : Thread V E} (h : Good ok tidy s) (hret : RetOk ok th.ret)
    (hcall : th.call = some c)
    (hcore : Calm th ∧ (tidy → th.group = .SHARED) ∧ CallOk tidy c ∧ MainOk t th c .signal) :
    Good ok tidy (s.setThread t
      { th with vars := { th.vars with signal := some t }, base := .main .stack }) := by
  obtain ⟨hcalm, hg, hc, hown, hrest, htr, htask⟩ := hcore
  refine h.setThread ?_ hret
  simp only [Core, hcall]
  exact ⟨⟨hcalm.mask, hcalm.frames, hcalm.foreign⟩, hg, hc, hown,
    ⟨hrest.bootstrap, hrest.task, rfl, hrest.deferred⟩, rfl, htr, htask⟩

/-- `setup_stack`, BOOTSTRAP and DEADLINE. -/
theorem Good.stackStep {th : Thread V E} (hn : cfg.notls = false) (h : Good ok tidy s)
    (hret : RetOk ok th.ret) (hcall : th.call = some c)
    (hcore : Calm th ∧ (tidy → th.group = .SHARED) ∧ CallOk tidy c ∧ MainOk t th c .stack)
    (hf : ok → EnvFine env) :
    Good ok tidy (Sys.stackStep cfg s t th c env) := by
  obtain ⟨hcalm, hg, hc, hown, hrest, hsig, htr, htask⟩ := hcore
  unfold Sys.stackStep
  generalize hct : c.task = task at htask
  cases htask with
  | paused e st m b hs y hp =>
    refine h.setThread ?_ hret
    simp only [Core, hcall]
    exact ⟨⟨hcalm.mask, hcalm.frames, hcalm.foreign⟩, hg, hc, hown, hsig, hrest.task,
      hrest.deferred, rfl, htr, .inr ⟨e, st, m, b, hs, y, hct, hrest.bootstrap, hp⟩⟩
  | fresh y hfun =>
    have hboot : th.vars.bootstrap = none := hrest.bootstrap
    have hlater := hc.later
    rw [hct] at hlater
    dsimp only
    split
    · have h' : Good ok tidy { s with stackPool := (alloc id s.stackPool).2 } := h.of_eq rfl rfl rfl
      simp only [hboot, Option.isSome_none, Bool.and_false, Bool.false_eq_true, if_false]
      refine (h'.freeStack _).setThread ?_ hret
      simp only [Core, Thread.setCall]
      refine ⟨⟨hcalm.mask, hcalm.frames, hcalm.foreign⟩, hg,
        ⟨hc.other, fun _ => rfl, hc.error, hlater⟩, hown, hsig, hrest.task, hrest.deferred, rfl,
        htr, .inl ⟨_, th.mask, y, rfl, hcalm.mask, rfl, hfun⟩⟩
    · rename_i hmk
      have hok : ¬ok := fun ho => hmk (hf ho).makecontext
      have h' : Good ok tidy
          { s with stackPool := release (alloc id s.stackPool).2 (alloc id s.stackPool).1 } :=
        h.of_eq rfl rfl rfl
      exact h'.failResume hn hok hcalm hc.other hg
        (fun _ he => absurd he (by rw [hct]; exact Bool.false_ne_true)) htr.entered_le hok

/-- A jump to the entry of `schedule`. -/
theorem core_jump_entry {th : Thread V E} {v : Vars} {st : Sid} {m : Sigset} (hh : th.handlers = [])
    (hown : th.signaler.isSome = true) (hc : CallOk tidy c)
    (hlink : ∀ o, th.signaler = some o → o ∈ c.link) (hm : ∀ o, th.signaler = some o → o ∈ m)
    (htaken : c.task.checkpoint = none) (htr : Traced false c.functional c.trace)
    (herr : v.task.errno = none) (hboot : v.bootstrap = some (c.linger, c.group))
    (hsig : v.signal = some t) (hdef : v.deferred = false) (hfun : c.functional = .function) :
    Core ok tidy t (Sys.jump { th with vars := v } c ⟨st, m, .entry⟩) := by
  simp only [Sys.jump, Thread.setCall, Core]
  exact ⟨⟨hm, by simp [hh], by simp [hh]⟩, hc,
    ⟨hown, herr, ⟨st, rfl⟩, hlink, htaken, htr⟩, hboot, hsig, hdef, hfun⟩

/-- A jump into a paused function. -/
theorem core_jump_paused {th : Thread V E} {v : Vars} {st : Sid} {m m' : Sigset} {b : Body}
    {hs : List Frame} (hown : th.signaler.isSome = true) (hc : CallOk tidy c)
    (hlink : ∀ o, th.signaler = some o → o ∈ c.link) (htaken : c.task.checkpoint = none)
    (htr : Traced false c.functional c.trace) (herr : v.task.errno = none)
    (hboot : v.bootstrap = none) (hsig : v.signal = some t)
    (hp : Paused c.linger c.group c.functional v.errnoLocation b hs) :
    Core ok tidy t (Sys.jump { th with mask := m', vars := v, group := .of c.group } c
      ⟨st, m, .paused b hs⟩) := by
  have hpast := Pos.past_of_preemptible hp.pre
  simp only [Sys.jump, Thread.setCall, Core]
  refine ⟨hc, ⟨hown, herr, ⟨st, rfl⟩, hlink, htaken, htr⟩, hboot, hp.body, ?_, ?_, ?_, ?_, ?_⟩
  · intro _; rw [hp.pre]; rfl
  · intro he; rw [Pos.entering_of_preemptible hp.pre] at he; cases he
  · rw [hpast]; exact hsig
  · intro hcl
    rw [Pos.past_of_cleared hcl] at hpast
    cases hpast
  · intro f hf
    rw [hp.pre, hpast]
    exact hp.frames f hf

/-- `switch_stack` up to the jump. -/
theorem Good.switchStep {th : Thread V E} (hn : cfg.notls = false) (h : Good ok tidy s)
    (hsg : s.sig t = th.signaler) (hret : RetOk ok th.ret) (hh : th.handlers = [])
    (hcore : Calm th ∧ (tidy → th.group = .SHARED) ∧ CallOk tidy c ∧ MainOk t th c .switch)
    (hcall : th.call = some c) (hb : th.base = .main .switch) (hf : ok → EnvFine env)
    (hft : tidy → c.launching = false →
      EnvFine env ∧ (cfg.overflowChecks = true → th.StampFits env.now)) :
    Good ok tidy (Sys.switchStep cfg s t th c env) := by
  obtain ⟨hcalm, hg, hc, hown, hsw⟩ := hcore
  have hck : th.vars.task.checkpoint = none := by rw [hsw.task]; rfl
  have herrno : th.vars.task.errno = none := by rw [hsw.task]; rfl
  unfold Sys.switchStep
  rcases hsw.target with ⟨st, m, y, htask, hm, hboot, hfun⟩ | ⟨e, st, m, b, hs, y, htask, hboot, hp⟩
  · -- Not started yet: the context designates the entry of `schedule`.
    have hlater := hc.later
    rw [htask] at hlater
    simp only [htask]
    split
    · simp only [hck, Option.isSome_none, Bool.and_false, Bool.false_eq_true, if_false,
        Sys.getOrInsert]
      split
      · exact h.setThread (core_jump_entry hh hown ⟨hc.other, fun _ => rfl, hc.error, hlater⟩
          hcalm.mask hm rfl hsw.trace herrno hboot hsw.signal hsw.deferred hfun) hret
      · rename_i hset
        have hok : ¬ok := fun ho => by have := (hf ho).sigsetcontext; rw [hset] at this; cases this
        exact h.failResume hn hok ⟨hcalm.mask, hcalm.frames, hcalm.foreign⟩ hc.other hg nofun
          hsw.trace.entered_le hok
      · rename_i hset
        have hok : ¬ok := fun ho => by have := (hf ho).sigsetcontext; rw [hset] at this; cases this
        exact h.failResume hn hok ⟨hcalm.mask, hcalm.frames, hcalm.foreign⟩ hc.other hg nofun
          hsw.trace.entered_le hok
    · rename_i hres
      have hok : ¬ok := fun ho => hres (hf ho).restorecontext
      exact (h.freeStack _).failResume hn hok hcalm hc.other hg nofun hsw.trace.entered_le hok
  · -- Paused: reenable preemption first.
    obtain ⟨o, ho⟩ := Option.isSome_iff_exists.mp hown
    have hthr : threadSignal s.sig th.vars = some o := (threadSignal_own hsg hsw.signal).trans ho
    have hlater : c.launching = false := by
      cases hl : c.launching with
      | false => rfl
      | true => have := hc.launching hl; rw [htask] at this; cases this
    have hf' : tidy → EnvFine env := fun ht => (hft ht hlater).1
    simp only [htask, hthr]
    split
    · simp only [hck, Option.isSome_none, Bool.and_false, Bool.false_eq_true, if_false,
        Sys.getOrInsert, Sys.reenable]
      have hmask : ∀ o', th.signaler = some o' →
          o' ∈ (if env.sigmask = true then insert o th.mask else th.mask) := by
        intro o' ho'
        split
        · exact Finset.mem_insert_of_mem (hcalm.mask o' ho')
        · exact hcalm.mask o' ho'
      have hc' : CallOk tidy
          { c with task := ⟨some e, none, y⟩, link := th.mask, error := !env.sigmask } :=
        ⟨hc.other, fun hl => Bool.noConfusion (hlater.symm.trans hl),
          fun ht => by simp [(hf' ht).sigmask], fun _ => rfl⟩
      split
      · rename_i hover
        obtain ⟨hchk, hover⟩ := Bool.and_eq_true_iff.mp hover
        have hnt : ¬tidy := fun ht => by
          have := (hft ht hlater).2 hchk (by simp [Thread.stamping, hh, hb, hcall, htask])
          rw [this] at hover
          cases hover
        exact h.failResume hn (mt h.sound hnt) ⟨hmask, hcalm.frames, hcalm.foreign⟩ hc.other
          (absurd · hnt) (absurd · hnt) hsw.trace.entered_le (mt h.sound hnt)
      split
      · refine h.setThread ?_ hret
        exact core_jump_paused (v := Vars.setErrno _ _ _) hown hc' hcalm.mask rfl hsw.trace
          herrno hboot hsw.signal hp
      · rename_i hset
        have hnt : ¬tidy := fun ht => by
          have := (hf' ht).sigsetcontext; rw [hset] at this; cases this
        exact h.failResume hn (mt h.sound hnt) ⟨hmask, hcalm.frames, hcalm.foreign⟩ hc.other
          (absurd · hnt) (absurd · hnt) hsw.trace.entered_le (mt h.sound hnt)
      · rename_i hset
        have hnt : ¬tidy := fun ht => by
          have := (hf' ht).sigsetcontext; rw [hset] at this; cases this
        exact h.failResume hn (mt h.sound hnt) ⟨hmask, hcalm.frames, hcalm.foreign⟩ hc.other
          (absurd · hnt) (absurd · hnt) hsw.trace.entered_le (mt h.sound hnt)
    · rename_i hres
      have hnt : ¬tidy := fun ht => hres (hf' ht).restorecontext
      exact (h.freeStack _).failResume hn (mt h.sound hnt) hcalm hc.other hg (absurd · hnt)
        hsw.trace.entered_le (mt h.sound hnt)

/-- `resume` returns; `th` is on the caller's stack. -/
theorem Good.endResume {th : Thread V E} {ret : Ret E} (hn : cfg.notls = false) (h : Good ok tidy s)
    (hcalm : Calm th) (hg : th.group = .SHARED) (hother : c.other.signal = none)
    (hr : RetOk ok (some ret)) : Good ok tidy (Sys.endResume cfg s t th c ret) := by
  simp only [Sys.endResume, hn, Bool.false_eq_true, if_false]
  exact h.setThread ⟨⟨hcalm.mask, hcalm.frames, hcalm.foreign⟩, hother, fun _ => hg⟩ hr

/-- The TCB at the end of `resume`. -/
theorem Leaving.rest {th : Thread V E} (h : Leaving th c) :
    Rest { th.vars with task := .default } :=
  ⟨h.bootstrap, rfl, h.signal, h.deferred⟩

theorem Leaving.entered_le {th : Thread V E} (h : Leaving th c) : entered c.trace ≤ 1 := by
  rcases h.outcome with ⟨_, _, _, _, _, htr⟩ | ⟨_, _, _, _, _, _, _, _, htr⟩ <;>
    exact htr.entered_le

/-- After `restorecontext`. -/
theorem Good.leaveStep {th : Thread V E} (hn : cfg.notls = false) (h : Good ok tidy s)
    (hcore : Calm th ∧ (tidy → th.group = .SHARED) ∧ CallOk tidy c ∧ MainOk t th c .leave) :
    Good ok tidy (Sys.leaveStep cfg s t th c env) := by
  obtain ⟨hcalm, -, hc, hown, hl⟩ := hcore
  have hg := hl.group
  have hcalm' : Calm { th with vars := { th.vars with task := .default } } :=
    ⟨hcalm.mask, hcalm.frames, hcalm.foreign⟩
  have hslot : SlotOk ok (some { th.vars with task := .default }) :=
    ⟨fun _ => rfl, fun v hv => by cases hv; exact hl.rest⟩
  unfold Sys.leaveStep
  split
  · rename_i herr
    have hnt : ¬tidy := fun ht => by rw [hc.error ht] at herr; cases herr
    exact h.failResume hn (mt h.sound hnt) hcalm hc.other (fun _ => hl.group) (absurd · hnt)
      hl.entered_le (mt h.sound hnt)
  · rcases hl.outcome with ⟨ctx, y, r, htask, hfun, htr⟩ | ⟨e, st, m, b, hs, y, htask, hp, htr⟩
    · -- The function finished: its closure holds the result.
      simp only [htask, hfun, Option.isSome_none, Bool.false_eq_true, if_false, hn]
      rw [hfun] at htr
      cases r with
      | ok v =>
        exact (((h.freeStack _).dropContinuation hslot env.renew).setLinger
          (l := ⟨.completion v, c.trace⟩) (.inr htr) htr.entered_le).endResume hn hcalm' hg
            hc.other trivial
      | error e =>
        have hcell : CellOk ok tidy c.linger
            (⟨if c.launching then .dropped else .poison, c.trace⟩ : Linger V E) := by
          cases c.launching
          · exact ⟨e, htr⟩
          · trivial
        exact (((h.freeStack _).dropContinuation hslot env.renew).setLinger hcell
          htr.entered_le).endResume hn hcalm' hg hc.other trivial
    · -- The function is paused.
      simp only [htask, Option.isSome_some, if_true, hn, Bool.false_eq_true, if_false]
      have hcell : CellOk ok tidy c.linger (⟨.continuation ⟨c.functional,
          ⟨some e, some ⟨st, m, .paused b hs⟩, y⟩, c.group, some { th.vars with task := .default }⟩,
          c.trace ++ [.back y]⟩ : Linger V E) := by
        refine ⟨fun _ => rfl, fun _ _ => rfl, fun v hv => ?_⟩
        cases hv
        exact ⟨hl.rest, .paused e st m b hs y hp, htr.log (.inr (.inr (.inr ⟨y, rfl⟩)))⟩
      have hback := htr.log (.inr (.inr (.inr ⟨y, rfl⟩)))
      exact ((h.freeStack _).setLinger hcell hback.entered_le).endResume hn hcalm' hg
        hc.other trivial

/-- A step of `resume` on the caller's stack. -/
theorem Good.mainStep (hn : cfg.notls = false) (h : Good ok tidy s)
    (hf : ok → Fine cfg s (.main t env : Label V E))
    (ht : tidy → Tidy cfg s (.main t env : Label V E)) (hs : Sys.mainStep cfg s t env = some s') :
    Good ok tidy s' := by
  have hcore := h.threads t
  have hret := h.rets t
  simp only [Sys.mainStep] at hs
  split at hs <;> cases hs
  all_goals
    rename_i hh hb hcall
    simp only [Core, hb, hcall] at hcore
  · exact h.setupStep hn hret hh hcall hcore (fun ho => (hf ho).1) (fun ho => (hf ho).2.1)
  · exact h.signalStep hret hcall hcore
  · exact h.stackStep hn hret hcall hcore (fun ho => (hf ho).1)
  · exact h.switchStep hn rfl hret hh hcore hcall hb (fun ho => (hf ho).1) fun htd => ht htd _ hcall
  · exact h.leaveStep hn hcore

/-! ## The other calls -/

/-- What holds of all `Linger`s and of a new one. -/
theorem forall_append {P : Lid → Linger V E → Prop} {ls : List (Linger V E)} {new : Linger V E}
    (h : ∀ k l, ls[k]? = some l → P k l) (hnew : P ls.length new) (k : Lid) (l : Linger V E)
    (hl : (ls ++ [new])[k]? = some l) : P k l := by
  rcases Nat.lt_trichotomy k ls.length with hk | rfl | hk
  · rw [List.getElem?_append_left hk] at hl
    exact h k l hl
  · rw [List.getElem?_concat_length] at hl
    cases hl
    exact hnew
  · rw [List.getElem?_eq_none (by simp; omega)] at hl
    cases hl

/-- The new continuation: its TCB is one of the free list, or fresh; both are
at rest. -/
theorem Good.cell_launched (h : Good ok tidy s) (k : Lid) (group : Gid) :
    CellOk ok tidy k (⟨.continuation ⟨.function, .default, group,
      (alloc (fun _ => some Vars.fresh) s.localstores).1⟩, []⟩ : Linger V E) := by
  have hslot : SlotOk ok (alloc (fun _ => some Vars.fresh) s.localstores).1 := by
    rcases alloc_fst (fun _ => some Vars.fresh) s.localstores with hx | hx
    · exact h.free _ hx
    · rw [hx]
      exact ⟨fun _ => rfl, fun v hv => by cases hv; exact ⟨rfl, rfl, rfl, rfl⟩⟩
  exact ⟨hslot.1, nofun, fun v hv => ⟨hslot.2 v hv, .fresh false rfl, ⟨rfl, rfl, rfl⟩⟩⟩

theorem Good.launched (h : Good ok tidy s) (group : Gid) (p : Pool Gid) :
    Good ok tidy (s.launched group p) :=
  ⟨h.sound, h.threads, h.rets, forall_append h.lingers (h.cell_launched _ group),
    forall_append h.entries (Nat.zero_le 1), fun x hx => h.free x (alloc_free _ _ x hx)⟩

theorem CellOk.slot {cont : Continuation V E} {trace : List (Event V E)}
    (h : CellOk ok tidy k ⟨.continuation cont, trace⟩) : SlotOk ok cont.tls :=
  ⟨h.1, fun v hv => (h.2.2 v hv).1⟩

theorem retOk_dropRet (ok : Prop) (cont : Continuation V E) (renew : Bool) :
    RetOk ok (some (Sys.dropRet cont renew)) := by
  unfold Sys.dropRet; split <;> trivial

/-- **Every step** keeps the invariant. -/
theorem good_step {l : Label V E} (hn : cfg.notls = false) (h : Good ok tidy s)
    (hf : ok → Fine cfg s l) (ht : tidy → Tidy cfg s l) (hs : Sys.step cfg s l = some s') :
    Good ok tidy s' := by
  cases step_change hn hs with
  | returns _ t k idle => exact Good.returns h h idle trivial
  | caught _ t _ idle _ pre => exact h.caught idle pre
  | full t us env p idle =>
    have h' : Good ok tidy { s with groups := p } := h.of_eq rfl rfl rfl
    exact Good.returns h h' idle (r := .panic .tooMany) trivial
  | sets t env group p idle => exact Good.returns h (h.launched group p) idle (r := .ok) trivial
  | launches t us env group p _ idle _ _ _ begin =>
    exact (h.launched group p).begin idle (h.cell_launched _ group) (Nat.zero_le 1)
      (fun _ => rfl) hf begin
  | resumes t k us env c trace _ idle _ cell begin =>
    exact h.begin idle (h.lingers k _ cell) (h.entries k _ cell)
      (fun hl => Bool.noConfusion hl) hf begin
  | advances => exact h.mainStep hn hf ht hs
  | leaves => exact h.mainStep hn hf ht hs
  | acts t a th step =>
    have h' : Good ok tidy (s.setThread t th) :=
      h.setThread (core_act (h.threads t) hn rfl (fun ho => (hf ho).act) step)
        (by rw [(Thread.step_kept step).ret]; exact h.rets t)
    exact h'.of_eq rfl rfl rfl
  | drops _ t k c trace renew new idle cell label =>
    have hdrop := h.dropContinuation (h.lingers k _ cell).slot renew
    have hret := retOk_dropRet (E := E) ok c renew
    have he := h.entries k _ cell
    rcases label with ⟨_, _, _, rfl⟩ | ⟨_, _, _, rfl⟩
    · exact Good.returns h (hdrop.dropped k he) idle hret
    · have hcell : CellOk ok tidy k (⟨.completion cfg.unit, trace ++ [.cancel]⟩ : Linger V E) :=
        .inl (by simp)
      have he' : entered (trace ++ [.cancel]) ≤ 1 := by rw [entered_snoc]; exact he
      exact Good.returns h (hdrop.setLinger hcell he') idle hret
  | forgets t k env l idle cell =>
    exact Good.returns h (h.dropped k (h.entries k _ cell)) idle trivial
  | stays => exact h
  | exits t p idle =>
    obtain ⟨-, -, hc, -⟩ := (h.threads t).idle idle
    have h' : Good ok tidy (s.setThread t
        { s.threads t with signaler := none, base := .exited }) := by
      refine h.setThread ?_ (h.rets t)
      simp only [Core, hc]
    exact h'.of_eq rfl rfl rfl

theorem good_init (ht : ok → tidy) (cfg : Cfg V) (masks : Tid → Sigset) :
    Good ok tidy (Sys.initial cfg masks : Sys V E) where
  sound := ht
  threads t := ⟨⟨by simp [Sys.initial, Thread.initial], by simp [Sys.initial, Thread.initial],
    by simp [Sys.initial, Thread.initial]⟩, rfl, fun _ => rfl⟩
  rets t := trivial
  lingers k l hl := by simp [Sys.initial] at hl
  entries k l hl := by simp [Sys.initial] at hl
  free x hx := by
    rcases mem_prealloc hx with hx | ⟨i, hx⟩
    · cases hx
    · cases hx
      exact ⟨fun _ => rfl, fun v hv => by cases hv; exact ⟨rfl, rfl, rfl, rfl⟩⟩

/-- In the runs in which nothing fails. -/
theorem good_fine (hn : cfg.notls = false) (hr : ((process cfg).only (Fine cfg)).Reachable s) :
    Good True True s := by
  refine LTS.Inductive.reachable ⟨?_, ?_⟩ s hr
  · rintro s ⟨masks, rfl⟩; exact good_init id cfg masks
  · rintro s l s' h ⟨hs, hf⟩
    exact good_step hn h (fun _ => hf) (fun _ => hf.tidy) hs

end

end Inger.L3
