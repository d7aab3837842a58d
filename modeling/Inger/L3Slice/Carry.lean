import Inger.L3Slice.Rest

/-!
# Invariants that travel with a paused function

Where a function was paused, and under which handlers, is saved in the
checkpoint, and the checkpoint goes from TASK through the continuation to the
TASK of whichever thread resumes it. An invariant of threads that rests on such
data is therefore one of the `Linger`s and the calls in progress too. `Carried P
G s` is that: `G` of every thread and `P` of every paused function.

`carried_reachable` gets it from facts about one thread (`Carries`): `G` holds
off the functions' stacks, a jump into a paused function with `P` gives `G`, and
a step keeps `G` and leaves a function paused only with `P`.
-/
namespace Inger.L2

/-- Neither on a function's stack nor in the handler that has left it. -/
def Base.off : Base → Bool
  | .body _ => false
  | .gone => false
  | _ => true

/-- The function is paused, if it has not finished. -/
def Base.paused : Base → Bool
  | .gone => true
  | .main .leave => true
  | _ => false

end Inger.L2

namespace Inger.L3

open L1.Reusable L1.Signals L2

variable {V E : Type}

/-- `P` of the function the task holds, if it holds a paused one. -/
def PausedAs (P : Body → List Frame → Prop) (k : Task) : Prop :=
  ∀ st m b hs, k.checkpoint = some ⟨st, m, .paused b hs⟩ → P b hs

/-- Thread `t` has jumped into the paused function `b`. -/
structure Jumped (t : Tid) (b : Body) (hs : List Frame) (th th' : Thread V E) : Prop where
  signaler : th'.signaler = th.signaler
  base : th'.base = .body b
  handlers : th'.handlers = hs
  mask : ∀ o, th'.signaler = some o → o ∉ th'.mask
  signal : th'.vars.signal = some t
  deferred : th'.vars.deferred = false

structure Carries (cfg : Cfg V) (P : Body → List Frame → Prop) (G : Thread V E → Prop)
    (C : Sys V E → Label V E → Prop) : Prop where
  quiet : ∀ th, th.handlers = [] → th.base.off = true → G th
  jumps : ∀ s t env c st m b hs th', C s (.main t env) → (s.threads t).base = .main .switch →
    (s.threads t).call = some c → c.task.checkpoint = some ⟨st, m, .paused b hs⟩ →
    b.pos.preemptible = true → P b hs → Jumped t b hs (s.threads t) th' → G th'
  acts : ∀ s t a th', C s (.act t a) → Core False False t (s.threads t) → G (s.threads t) →
    ((s.threads t).base.paused = true → PausedAs P (s.threads t).vars.task) →
    (s.threads t).step (s.world cfg) a = some th' →
    G th' ∧ (th'.base.paused = true → PausedAs P th'.vars.task)

def CellAs (P : Body → List Frame → Prop) : Cell V E → Prop
  | .continuation c => PausedAs P c.stateful
  | _ => True

structure Carried (P : Body → List Frame → Prop) (G : Thread V E → Prop) (s : Sys V E) : Prop where
  threads : ∀ t, G (s.threads t)
  calls : ∀ t c, (s.threads t).call = some c → PausedAs P c.task
  tasks : ∀ t, (s.threads t).base.paused = true → PausedAs P (s.threads t).vars.task
  lingers : ∀ (k : Lid) (l : Linger V E), s.lingers[k]? = some l → CellAs P l.cell

section
variable {P : Body → List Frame → Prop} {G : Thread V E → Prop} {C : Sys V E → Label V E → Prop}
  {cfg : Cfg V} {s s' : Sys V E} {t : Tid} {k : Lid} {c : Call V E} {th : Thread V E} {env : Env}

theorem PausedAs.of_checkpoint {y y' : Task} (h : PausedAs P y)
    (hy : y'.checkpoint = y.checkpoint) :
    PausedAs P y' := by
  intro st m b hs hck
  exact h st m b hs (hy ▸ hck)

theorem pausedAs_none {y : Task} (hy : y.checkpoint = none) : PausedAs P y := by
  intro st m b hs hck
  rw [hy] at hck; cases hck

/-- While a function runs, TASK has the call site. -/
theorem Running.pausedAs (h : Running th c) : PausedAs P th.vars.task := by
  obtain ⟨st, hck⟩ := h.checkpoint
  intro st' m b hs hck'
  rw [hck'] at hck
  cases hck

/-! ## The parts of a state -/

theorem Carried.of_eq (h : Carried P G s) (ht : s'.threads = s.threads)
    (hl : s'.lingers = s.lingers) :
    Carried P G s' :=
  ⟨by rw [ht]; exact h.threads, by rw [ht]; exact h.calls, by rw [ht]; exact h.tasks,
    by rw [hl]; exact h.lingers⟩

theorem Carried.setThread (h : Carried P G s) (hth : G th)
    (hcall : ∀ c, th.call = some c → PausedAs P c.task)
    (htask : th.base.paused = true → PausedAs P th.vars.task) : Carried P G (s.setThread t th) := by
  have key (u : Tid) : (s.setThread t th).threads u = th ∨
      (s.setThread t th).threads u = s.threads u := by
    by_cases hu : u = t
    · subst hu; exact .inl (threads_setThread_self th)
    · exact .inr (threads_setThread_ne th hu)
  refine ⟨fun u => ?_, fun u => ?_, fun u => ?_, h.lingers⟩ <;>
    rcases key u with hu | hu <;> rw [hu]
  · exact hth
  · exact h.threads u
  · exact hcall
  · exact h.calls u
  · exact htask
  · exact h.tasks u

/-- A thread without handlers, off the function's stack and before a pause. -/
theorem Carried.setOff (hc : Carries cfg P G C) (h : Carried P G s) (hh : th.handlers = [])
    (hb : th.base.off = true) (hp : th.base.paused = false)
    (hcall : ∀ c, th.call = some c → PausedAs P c.task) : Carried P G (s.setThread t th) :=
  h.setThread (hc.quiet th hh hb) hcall fun h' => Bool.noConfusion (hp.symm.trans h')

theorem Carried.setLinger {l : Linger V E} (h : Carried P G s) (hl : CellAs P l.cell) :
    Carried P G (s.setLinger k l) :=
  ⟨h.threads, h.calls, h.tasks, forall_setLinger (P := fun _ l => CellAs P l.cell) h.lingers hl⟩

theorem Carried.freeStack (h : Carried P G s) (o : Option Sid) : Carried P G (s.freeStack o) :=
  h.of_eq (threads_freeStack o) (lingers_freeStack o)

theorem Carried.dropContinuation (h : Carried P G s) (cont : Continuation V E) (renew : Bool) :
    Carried P G (s.dropContinuation cont renew) :=
  h.of_eq (threads_dropContinuation cont renew) (lingers_dropContinuation cont renew)

theorem Carried.abandon {cont : Continuation V E} (h : Carried P G s)
    (hk : PausedAs P cont.stateful) (trace : List (Event V E)) (launching renew : Bool) :
    Carried P G (s.abandon k cont trace launching renew) := by
  unfold Sys.abandon
  split
  · exact (h.dropContinuation cont renew).setLinger trivial
  · exact h.setLinger hk

theorem Carried.failResume {ret : Ret E} (hc : Carries cfg P G C) (h : Carried P G s)
    (hh : th.handlers = []) (hk : PausedAs P c.task) :
    Carried P G (Sys.failResume cfg s t th c env ret) := by
  unfold Sys.failResume
  refine Carried.setOff hc (Carried.abandon ?_ hk _ _ _) hh rfl rfl (by simp)
  split
  · exact h
  · exact h.freeStack _

/-! ## The steps of `resume` -/

/-- An idle thread whose call returned at once. -/
theorem Carried.returns (hc : Carries cfg P G C) (hg : Good False False s) (h' : Carried P G s')
    (hi : Sys.idle (s.threads t) = true) (r : Option (Ret E)) :
    Carried P G (s'.setThread t { s.threads t with ret := r }) := by
  obtain ⟨hb, hh, hcall, -⟩ := (hg.threads t).idle hi
  exact h'.setOff hc hh (by rw [hb]; rfl) (by rw [hb]; rfl) (by rw [hcall]; simp)

theorem Carried.begin {cont : Continuation V E} {trace : List (Event V E)} {us : UInt64}
    {launching : Bool} (hc : Carries cfg P G C) (hg : Good False False s) (h : Carried P G s)
    (hi : Sys.idle (s.threads t) = true) (hk : PausedAs P cont.stateful)
    (hb : Begin s t k cont trace us launching env s') : Carried P G s' := by
  cases hb with
  | missing tls => exact Carried.returns hc hg (h.abandon hk _ _ _) hi _
  | enters tcb tls installs =>
    obtain ⟨-, hh, -⟩ := (hg.threads t).idle hi
    refine Carried.setOff hc (h.setLinger (l := ⟨.resuming t cont.group, trace⟩) trivial) hh
      rfl rfl ?_
    intro c' hc'
    cases hc'
    exact hk
  | fails tcb tls installs =>
    have hk' : PausedAs P { cont with tls := none }.stateful := hk
    exact Carried.returns hc hg ((h.freeStack _).abandon hk' _ _ _) hi _

theorem Carried.setupStep (hc : Carries cfg P G C) (h : Carried P G s)
    (hcall : (s.threads t).call = some c) (hh : (s.threads t).handlers = []) :
    Carried P G (Sys.setupStep cfg s t (s.threads t) c env) := by
  have hs (p : Pool Signal) : Carried P G { s with signals := p } := h.of_eq rfl rfl
  unfold Sys.setupStep
  split
  · exact h.setOff hc hh rfl rfl (h.calls t)
  · split
    · exact (hs _).failResume hc hh (h.calls t c hcall)
    · split
      · exact (hs _).setOff hc hh rfl rfl (h.calls t)
      · exact (hs _).setOff hc hh rfl rfl (h.calls t)

theorem Carried.stackStep (hc : Carries cfg P G C) (h : Carried P G s)
    (hcall : (s.threads t).call = some c) (hh : (s.threads t).handlers = []) :
    Carried P G (Sys.stackStep cfg s t (s.threads t) c env) := by
  have hs (p : Pool Sid) : Carried P G { s with stackPool := p } := h.of_eq rfl rfl
  unfold Sys.stackStep
  split
  · exact h.setOff hc hh rfl rfl (h.calls t)
  · dsimp only
    split
    · -- The new context designates the entry of `schedule`.
      have hnew (ctx : Context) (hctx : ctx.code = .entry) (y : Task) :
          PausedAs P { y with checkpoint := some ctx } := by
        rintro st m b hs' hck
        cases hck
        cases hctx
      split
      · refine ((hs _).freeStack _).setOff hc hh rfl rfl fun c' hc' => ?_
        cases hc'
        exact hnew _ rfl c.task
      · refine ((hs _).freeStack _).setOff hc hh rfl rfl fun c' hc' => ?_
        cases hc'
        exact hnew _ rfl c.task
    · exact (hs _).failResume hc hh (h.calls t c hcall)

theorem Carried.switchStep (hc : Carries cfg P G C) (hC : C s (.main t env))
    (hg : Good False False s) (h : Carried P G s) (hcall : (s.threads t).call = some c)
    (hbase : (s.threads t).base = .main .switch) (hh : (s.threads t).handlers = []) :
    Carried P G (Sys.switchStep cfg s t (s.threads t) c env) := by
  have hcore := hg.threads t
  simp only [Core, hbase, hcall] at hcore
  obtain ⟨-, -, -, hown, hsw⟩ := hcore
  obtain ⟨o, ho⟩ := Option.isSome_iff_exists.mp hown
  have hck : (s.threads t).vars.task.checkpoint = none := by rw [hsw.task]; rfl
  unfold Sys.switchStep
  rcases hsw.target with ⟨st, m, y, htask, -⟩ | ⟨e, st, m, b, hs, y, htask, -, hp⟩
  · simp only [htask, hck, Option.isSome_none, Bool.and_false, Bool.false_eq_true, if_false,
      Sys.getOrInsert]
    split
    · split
      · refine h.setOff hc hh rfl rfl fun c' hc' => ?_
        cases hc'
        exact pausedAs_none rfl
      · exact h.failResume hc hh (pausedAs_none rfl)
      · exact h.failResume hc hh (pausedAs_none rfl)
    · exact (h.freeStack _).failResume hc hh (pausedAs_none rfl)
  · have hthr : threadSignal s.sig (s.threads t).vars = some o :=
      (threadSignal_own rfl hsw.signal).trans ho
    simp only [htask, hthr, hck, Option.isSome_none, Bool.and_false, Bool.false_eq_true, if_false,
      Sys.getOrInsert, Sys.reenable]
    split
    · split
      · exact h.failResume hc hh (pausedAs_none rfl)
      split
      · have hP : P b hs := h.calls t c hcall st m b hs (by rw [htask])
        refine h.setThread ?_ (fun c' hc' => ?_) (fun hb => Bool.noConfusion hb)
        · refine hc.jumps s t env c st m b hs _ hC hbase hcall (by rw [htask]) hp.pre hP
            ⟨rfl, rfl, rfl, fun o' ho' => ?_, hsw.signal, hsw.deferred⟩
          obtain rfl : o = o' := Option.some.inj (ho.symm.trans ho')
          exact Finset.notMem_erase o _
        · cases hc'
          exact pausedAs_none rfl
      · exact h.failResume hc hh (pausedAs_none rfl)
      · exact h.failResume hc hh (pausedAs_none rfl)
    · exact (h.freeStack _).failResume hc hh (pausedAs_none rfl)

/-- The last step of `resume` puts TASK into the continuation. -/
theorem Carried.leaveStep (hn : cfg.notls = false) (hc : Carries cfg P G C)
    (hg : Good False False s) (h : Carried P G s) (hcall : (s.threads t).call = some c)
    (hbase : (s.threads t).base = .main .leave) (hh : (s.threads t).handlers = [])
    (hs : s' = Sys.leaveStep cfg s t (s.threads t) c env) :
    Carried P G s' := by
  cases leaveStep_left hn hg hcall hbase hs with
  | fails => exact h.failResume hc hh (h.calls t c hcall)
  | paused e st m b frames y error task =>
    have hk : PausedAs P ⟨some e, some ⟨st, m, .paused b frames⟩, y⟩ :=
      task ▸ h.tasks t (by rw [hbase]; rfl)
    exact Carried.setOff hc (h.setLinger hk) hh rfl rfl (by simp)
  | settled ctx y r =>
    refine (((h.freeStack _).dropContinuation _ _).setLinger ?_).setOff hc hh rfl rfl (by simp)
    cases r with
    | ok v => trivial
    | error e => simp only [settledCell]; split <;> trivial

theorem Carried.mainStep (hn : cfg.notls = false) (hc : Carries cfg P G C) (hC : C s (.main t env))
    (hg : Good False False s) (h : Carried P G s) (hs : Sys.mainStep cfg s t env = some s') :
    Carried P G s' := by
  simp only [Sys.mainStep] at hs
  split at hs <;> cases hs
  all_goals rename_i hh hb hcall
  · exact h.setupStep hc hcall hh
  · exact h.setOff hc hh rfl rfl (h.calls t)
  · exact h.stackStep hc hcall hh
  · exact h.switchStep hc hC hg hcall hb hh
  · exact h.leaveStep hn hc hg hcall hb hh rfl

/-! ## Every step -/

theorem carried_step {l : Label V E} (hn : cfg.notls = false) (hc : Carries cfg P G C) (hC : C s l)
    (hg : Good False False s) (h : Carried P G s) (hs : Sys.step cfg s l = some s') :
    Carried P G s' := by
  have hlaunched (group : Gid) (p : Pool Gid) : Carried P G (s.launched group p) :=
    ⟨h.threads, h.calls, h.tasks, forall_append (P := fun _ l => CellAs P l.cell) h.lingers
      (pausedAs_none rfl)⟩
  cases step_change hn hs with
  | returns _ t k idle => exact Carried.returns hc hg h idle _
  | caught _ t _ idle =>
    obtain ⟨-, hh, -⟩ := (hg.threads t).idle idle
    exact h.setOff hc hh rfl rfl (h.calls t)
  | full t us env p idle =>
    have h' : Carried P G { s with groups := p } := h.of_eq rfl rfl
    exact Carried.returns hc hg h' idle _
  | sets t env group p idle => exact Carried.returns hc hg (hlaunched group p) idle _
  | launches t us env group p _ idle _ _ _ begin =>
    exact (hlaunched group p).begin hc (hg.launched group p) idle (pausedAs_none rfl) begin
  | resumes t k us env c trace _ idle _ cell begin =>
    exact h.begin hc hg idle (h.lingers k _ cell) begin
  | advances => exact h.mainStep hn hc hC hg hs
  | leaves => exact h.mainStep hn hc hC hg hs
  | acts t a th step =>
    have h' : Carried P G (s.setThread t th) := by
      obtain ⟨hG, htask⟩ := hc.acts s t a th hC (hg.threads t) (h.threads t) (h.tasks t) step
      refine h.setThread hG (fun c' hc' => ?_) htask
      obtain ⟨c, hcall, -, -, htask⟩ := (Thread.step_kept step).exists_call hc'
      rw [htask]
      exact h.calls t c hcall
    exact h'.of_eq rfl rfl
  | drops _ t k c trace renew new idle cell label =>
    refine Carried.returns hc hg ((h.dropContinuation c renew).setLinger ?_) idle _
    rcases label with ⟨_, _, _, rfl⟩ | ⟨_, _, _, rfl⟩ <;> trivial
  | forgets t k env l idle cell =>
    exact Carried.returns hc hg (h.setLinger (l := ⟨.dropped, l.trace⟩) trivial) idle _
  | stays => exact h
  | exits t p idle =>
    obtain ⟨-, hh, -⟩ := (hg.threads t).idle idle
    have h' : Carried P G (s.setThread t { s.threads t with signaler := none, base := .exited }) :=
      h.setOff hc hh rfl rfl (h.calls t)
    exact h'.of_eq rfl rfl

/-- **In every run whose steps meet `C`.** -/
theorem carried_reachable (hn : cfg.notls = false) (hc : Carries cfg P G C)
    (hr : ((process cfg).only C).Reachable s) : Good False False s ∧ Carried P G s := by
  refine LTS.Inductive.reachable (I := fun s => Good False False s ∧ Carried P G s) ⟨?_, ?_⟩ s hr
  · rintro s ⟨masks, rfl⟩
    refine ⟨good_init id cfg masks, fun t => hc.quiet _ rfl rfl, fun t c hcall => ?_,
      fun t hb => ?_, fun k l hl => ?_⟩
    · cases hcall
    · cases hb
    · simp [Sys.initial] at hl
  · rintro s l s' ⟨hg, h⟩ ⟨hs, hC⟩
    exact ⟨good_step hn hg False.elim False.elim hs, carried_step hn hc hC hg h hs⟩

end

end Inger.L3
