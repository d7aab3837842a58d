import Inger.Core.Response
import Inger.L3Slice.Pause
import Inger.L3Slice.Progress

/-!
# A timeout ends the slice

A tick of the thread's timer arrives while the function has control, and its
deadline has passed. From there on the function does nothing any more in this
slice: the handler finds its signal relevant, the group preemptible and the
deadline reached, swaps the function away and returns to the call site, and
`resume` returns `Ok` with the function paused.

Meanwhile other threads run, and their signals may interrupt the handler any
number of times; the own signal is blocked. `Ending` follows the handler through
its steps. Each of them is at most 15 steps long, so that `resume` is back after
15 steps of its thread for the tick and for each further signal that arrives there
(`timeout_returns`), whatever the other threads do.
-/
namespace Inger.L2

variable {V E : Type}

/-- The steps left of the handlers and of what they return to. -/
def Thread.left (th : Thread V E) (c : Call V E) : Nat :=
  framesLeft th.handlers + th.base.togo c.task

/-- The context of a function that is in control, on the stack of its checkpoint. -/
def Thread.context (th : Thread V E) : Option Context :=
  match th.vars.task.checkpoint, th.base with
  | some ctx, .body b => some ⟨ctx.stack, th.mask, .paused b th.handlers⟩
  | _, _ => none

/-- A step of thread `t` itself, other than the arrival of a signal. -/
def Label.ownStep (t : Tid) (l : Label V E) : Nat :=
  match l with
  | .act _ (.deliver _) => 0
  | l => if l.tid = t then 1 else 0

/-- A signal arrives at thread `t`. -/
def Label.arrival (t : Tid) (l : Label V E) : Nat :=
  match l with
  | .act u (.deliver _) => if u = t then 1 else 0
  | _ => 0

/-- Thread `t` does not read a clock before `d`. -/
def Label.Late (t : Tid) (d : UInt64) (l : Label V E) : Prop :=
  ∀ now, l = .act t (.run now) → d ≤ now

end Inger.L2

namespace Inger.L3

open L1.Signals L2

variable {V E : Type}

/-- Where the thread is on its way back to the caller of `resume`, with the
function's context `ctx` to be saved or saved in TASK. -/
inductive Ending (d : UInt64) (o : Signal) (ctx : Context) (th : Thread V E) : Prop
  | expires (b : Body) (up : List Frame) (f : Frame) (m : Sigset) (base : th.base = .body b)
      (pos : b.pos = .own) (struck : Struck d o th up f [])
      (checkpoint : th.vars.task.checkpoint = some ⟨ctx.stack, m, .callsite⟩)
      (saves : ctx = ⟨ctx.stack, f.mask, .paused b []⟩)
  | gone (base : th.base = .gone) (yielded : th.vars.task.yielded = decide (d = 0))
      (checkpoint : th.vars.task.checkpoint = some ctx) (unmolested : Unmolested th)
  | leaves (base : th.base = .main .leave) (errno : th.vars.task.errno.isSome = true)
      (yielded : th.vars.task.yielded = decide (d = 0))
      (checkpoint : th.vars.task.checkpoint = some ctx)

section
variable {w : World} {now d : UInt64} {t : Tid} {th th' : Thread V E} {c : Call V E}
  {f : Frame} {b : Body} {o no : Signal} {ctx : Context}

theorem Ending.alive (h : Ending d o ctx th) : th.base.alive = true := by
  cases h with
  | expires b up f m base pos struck checkpoint saves => rw [base]; rfl
  | gone base yielded checkpoint unmolested => rw [base]; rfl
  | leaves base errno yielded checkpoint => rw [base]; rfl

/-- Without a handler it has left the function's stack. -/
theorem Ending.base_of_nil (h : Ending d o ctx th) (hh : th.handlers = []) :
    th.base = .gone ∨ th.base = .main .leave := by
  cases h with
  | expires b up f m base pos struck checkpoint saves =>
    rw [struck.handlers] at hh
    exact absurd hh (by simp)
  | gone base yielded checkpoint unmolested => exact .inl base
  | leaves base errno yielded checkpoint => exact .inr base

theorem Ending.not_inControl (h : Ending d o ctx th) : ¬th.inControl := by
  rintro ⟨-, hh, b, hb, -⟩
  rcases h.base_of_nil hh with hb' | hb' <;> cases hb.symm.trans hb'

theorem Ending.not_idle (h : Ending d o ctx th) : Sys.idle th = false := by
  have hne : th.base ≠ .caller := by
    intro hb
    cases h with
    | expires b up f m base pos struck checkpoint saves => cases base.symm.trans hb
    | gone base yielded checkpoint unmolested => cases base.symm.trans hb
    | leaves base errno yielded checkpoint => cases base.symm.trans hb
  simp [Sys.idle, hne]

/-! ## Signals arrive -/

theorem Ending.deliver (h : Ending d o ctx th) (hno : no ∉ th.mask) :
    Ending d o ctx (th.interrupt no) := by
  cases h with
  | expires b up f m base pos struck checkpoint saves =>
    exact .expires b _ f m base pos (struck.deliver hno) checkpoint saves
  | gone base yielded checkpoint unmolested =>
    exact .gone base yielded checkpoint (unmolested.deliver hno)
  | leaves base errno yielded checkpoint => exact .leaves base errno yielded checkpoint

/-! ## A handler takes a step -/

/-- The handler of the thread's signal goes on to the swap. -/
theorem ending_struck {m : Sigset} (hk : Struck d o th [] f []) (h : InBody t th c b)
    (hsig : w.sig t = th.signaler) (ho : th.signaler = some o) (hb : th.base = .body b)
    (hpos : b.pos = .own) (hck : th.vars.task.checkpoint = some ⟨ctx.stack, m, .callsite⟩)
    (hctx : ctx = ⟨ctx.stack, f.mask, .paused b []⟩) (hd : d ≤ now) :
    Ending d o ctx (th.handlerStep w now f []) := by
  have hsame : (th.handlerStep w now f []).signaler = th.signaler :=
    (Thread.handlerStep_kept f []).signaler
  obtain ⟨f', hk', hmask, hbase, hck'⟩ | hsw := hk.handler h hsig ho hb (by rw [hpos]; rfl) hd
  · exact .expires b [] f' m (hbase.trans hb) hpos hk' (hck'.trans hck) (hmask ▸ hctx)
  · obtain ⟨st, m', hold, hnew⟩ := hsw.checkpoint
    obtain ⟨bottom, hbottom, htarget⟩ := hsw.handlers
    obtain rfl : st = ctx.stack := by
      rw [hck] at hold
      cases hold
      rfl
    refine .gone hsw.base hsw.yielded (hnew.trans (congrArg some hctx.symm)) ?_
    intro o' ho'
    cases ho.symm.trans (hsame.symm.trans ho')
    refine ⟨hsw.mask ▸ hk.mask, fun x hx ht => ?_⟩
    rw [hbottom, List.mem_singleton] at hx
    subst hx
    cases htarget.symm.trans ht

/-- The handler that has swapped, or one on top of it. -/
theorem ending_gone (hb : th.base = .gone) (hy : th.vars.task.yielded = decide (d = 0))
    (hck : th.vars.task.checkpoint = some ctx) (hu : Unmolested th)
    (hcore : Core False False t th) (hsig : w.sig t = th.signaler) {rest : List Frame}
    (hh : th.handlers = f :: rest) : Ending d o ctx (th.handlerStep w now f rest) := by
  obtain ⟨c, upper, bottom, -, -, hgone⟩ := hcore.gone hb
  have hhandlers := hgone.handlers
  rw [hh] at hhandlers
  cases upper with
  | nil =>
    cases hhandlers
    obtain ⟨hwhere, hyielded, hck'⟩ := hgone.leaves hb rfl
    rcases hwhere with ⟨hbase, hmask, g, hg, htarget⟩ | ⟨hbase, herrno⟩
    · refine .gone hbase (hyielded.trans hy) (hck'.trans hck) fun o' ho' => ?_
      rw [(Thread.handlerStep_kept f []).signaler] at ho'
      refine ⟨hmask ▸ (hu o' ho').1, fun x hx ht => ?_⟩
      rw [hg, List.mem_singleton] at hx
      subst hx
      cases htarget.symm.trans ht
    · exact .leaves hbase herrno (hyielded.trans hy) (hck'.trans hck)
  | cons x upper =>
    cases hhandlers
    obtain ⟨hu', hbase, htask⟩ := hu.above hgone hsig rfl
    exact .gone (hbase.trans hb) ((congrArg Task.yielded htask).trans hy)
      ((congrArg Task.checkpoint htask).trans hck) hu'

/-- **A step of the thread** on the way back: it stays there. -/
theorem Ending.act {a : Act V E} (h : Ending d o ctx th) (hcore : Core False False t th)
    (hsig : w.sig t = th.signaler) (ho : th.signaler = some o) (hs : th.step w a = some th')
    (hd : ∀ now, a = .run now → d ≤ now) : Ending d o ctx th' ∧ th'.call = th.call := by
  cases Thread.step_acts hs with
  | delivers no alive unblocked => exact ⟨h.deliver unblocked, rfl⟩
  | handles now g rest ready handlers =>
    refine ⟨?_, Thread.handlerStep_call⟩
    cases h with
    | expires b up f m base pos struck checkpoint saves =>
      obtain ⟨c, -, -, hbody⟩ := hcore.body base
      have hh := struck.handlers
      rw [handlers] at hh
      cases up with
      | nil =>
        cases hh
        exact ending_struck struck hbody hsig ho base pos checkpoint saves (hd now rfl)
      | cons x up =>
        cases hh
        have hv : th.vars.signal = some t := by rw [hbody.signal, pos]; rfl
        obtain ⟨up', hup, hbase, htask⟩ := struck.above ho (own_of_threadSignal hsig (.inr hv))
        exact .expires b up' f m (hbase.trans base) pos hup
          ((congrArg Task.checkpoint htask).trans checkpoint) saves
    | gone base yielded checkpoint unmolested =>
      exact ending_gone base yielded checkpoint unmolested hcore hsig handlers
    | leaves base errno yielded checkpoint =>
      obtain ⟨hcalm, hv⟩ := hcore.calm (.inr (.inl ⟨_, base⟩))
      have hu : Undisturbed th (th.handlerStep w now g rest) :=
        hcalm.handler handlers (own_of_threadSignal hsig hv) rfl
      refine .leaves (hu.base.trans base) ?_ ?_ ?_
      · rw [hu.vars.errno]
        exact errno
      · rw [hu.vars.task rfl]
        exact yielded
      · rw [hu.vars.task rfl]
        exact checkpoint
  | boots now c ready handlers base call =>
    rcases h.base_of_nil handlers with hb | hb <;> cases base.symm.trans hb
  | runs now b c th' ready handlers base call step =>
    rcases h.base_of_nil handlers with hb | hb <;> cases base.symm.trans hb
  | fn a b c th' ready handlers base call step =>
    rcases h.base_of_nil handlers with hb | hb <;> cases base.symm.trans hb

/-! ## How many steps -/

theorem left_interrupt (th : Thread V E) (c : Call V E) (no : Signal) :
    (th.interrupt no).left c = th.left c + 15 := by
  simp only [Thread.left, Thread.interrupt, framesLeft_cons, HandlerPc.togo]
  omega

/-- `Progress` counts the pending signals too. -/
theorem left_lt (hp : th'.pending = th.pending) (h : th'.togo c < th.togo c) :
    th'.left c < th.left c := by
  simp only [Thread.togo, hp] at h
  simp only [Thread.left]
  omega

theorem Ending.left {a : Act V E} (h : Ending d o ctx th) (h' : Ending d o ctx th')
    (hcore : Core False False t th) (hs : th.step w a = some th') :
    th'.left c + Label.ownStep t (.act t a) ≤ th.left c + 15 * Label.arrival t (.act t a) := by
  cases Thread.step_acts hs with
  | delivers no alive unblocked => simp [left_interrupt, Label.ownStep, Label.arrival]
  | handles now f rest ready handlers =>
    have htarget : th.base ≠ .gone → f.target = .interrupted := by
      intro hne
      have hmem : f ∈ th.handlers := by rw [handlers]; exact List.mem_cons_self
      cases h with
      | expires b up g m base pos struck checkpoint saves =>
        obtain ⟨c, -, -, hbody⟩ := hcore.body base
        exact (hbody.frames f hmem).target
      | gone base yielded checkpoint unmolested => exact absurd base hne
      | leaves base errno yielded checkpoint =>
        exact ((hcore.calm (.inr (.inl ⟨_, base⟩))).1.frames f hmem).target
    have hlt : (th.handlerStep w now f rest).left c < th.left c := by
      refine left_lt Thread.handlerStep_pending
        ((left_handler handlers htarget rfl).resolve_left ?_)
      rintro ⟨why, hw⟩
      have halive := h'.alive
      rw [hw] at halive
      cases halive
    simp only [Label.ownStep, Label.arrival, Label.tid, if_true]
    exact hlt
  | boots now c ready handlers base call =>
    rcases h.base_of_nil handlers with hb | hb <;> cases base.symm.trans hb
  | runs now b c th' ready handlers base call step =>
    rcases h.base_of_nil handlers with hb | hb <;> cases base.symm.trans hb
  | fn a b c th' ready handlers base call step =>
    rcases h.base_of_nil handlers with hb | hb <;> cases base.symm.trans hb

end

/-! ## The process -/

section
variable {cfg : Cfg V} {s s' : Sys V E} {t : Tid} {c : Call V E} {o : Signal} {d : UInt64}
  {ctx : Context} {l : Label V E}

/-- Thread `t` is on its way back from call `c`. -/
structure Returning (cfg : Cfg V) (t : Tid) (c : Call V E) (o : Signal) (d : UInt64) (ctx : Context)
    (s : Sys V E) : Prop where
  reachable : (process cfg).Reachable s
  call : (s.threads t).call = some c
  signaler : (s.threads t).signaler = some o
  ending : Ending d o ctx (s.threads t)

/-- The call has returned `Ok`, with the function paused in the context `ctx`. -/
structure TimedOut (t : Tid) (c : Call V E) (d : UInt64) (ctx : Context) (s : Sys V E) : Prop where
  base : (s.threads t).base = .caller
  ret : (s.threads t).ret = some .ok
  paused : ∃ cont, status s c.linger = some (.idle cont (c.trace ++ [.back (decide (d = 0))])) ∧
    cont.tls.isSome = true ∧ cont.stateful.yielded = decide (d = 0) ∧
    cont.stateful.checkpoint = some ctx

theorem Returning.act {a : Act V E} (h : Returning cfg t c o d ctx s)
    (hd : Label.Late t d (.act t a)) (hn : cfg.notls = false)
    (hs : (process cfg).step s (.act t a) s') :
    Returning cfg t c o d ctx s' ∧ (s'.threads t).left c + Label.ownStep t (.act t a) ≤
      (s.threads t).left c + 15 * Label.arrival t (.act t a) := by
  have hg := (linked_reachable hn h.reachable).1
  obtain ⟨th', hth, rfl⟩ := Option.map_eq_some_iff.mp hs
  obtain ⟨hend, hcall⟩ := h.ending.act (hg.threads t) rfl h.signaler hth fun now he =>
    hd now (by rw [he])
  have hleft := h.ending.left (c := c) hend (hg.threads t) hth
  refine ⟨⟨h.reachable.step hs, ?_, ?_, ?_⟩, ?_⟩
  · rw [threads_acted, hcall]
    exact h.call
  · rw [threads_acted, (Thread.step_kept hth).signaler]
    exact h.signaler
  · rw [threads_acted]
    exact hend
  · rw [threads_acted]
    exact hleft

/-- The last step of `resume`. -/
theorem Returning.main {env : Env} (h : Returning cfg t c o d ctx s) (hn : cfg.notls = false)
    (herr : c.error = false) (hs : (process cfg).step s (.main t env) s') :
    TimedOut t c d ctx s' ∧ 0 < (s.threads t).left c := by
  obtain ⟨hg, hl⟩ := linked_reachable hn h.reachable
  obtain ⟨c₀, pc, hc₀, hbase, hh, hcases⟩ := mainStep_sorted hg hs
  cases h.call.symm.trans hc₀
  obtain rfl : pc = .leave := by
    rcases h.ending.base_of_nil hh with hb | hb <;> cases hbase.symm.trans hb
    rfl
  obtain ⟨-, hne, -⟩ | ⟨hne, -⟩ | ⟨-, hleave⟩ := hcases
  · exact absurd rfl hne
  · cases hne
  have hpos : 0 < (s.threads t).left c := by simp [Thread.left, hh, hbase, Base.togo, MainPc.togo]
  refine ⟨?_, hpos⟩
  have hend := h.ending
  cases hend with
  | expires b up f m base pos struck checkpoint saves => cases hbase.symm.trans base
  | gone base yielded checkpoint unmolested => cases hbase.symm.trans base
  | leaves base errno yielded checkpoint =>
    cases leaveStep_left hn hg h.call hbase hleave with
    | fails error => cases herr.symm.trans error
    | paused e st m b frames y error task trace =>
      obtain rfl : y = decide (d = 0) := by rwa [task] at yielded
      refine ⟨by rw [threads_setThread_self], by rw [threads_setThread_self],
        ⟨c.functional, ⟨some e, some ⟨st, m, .paused b frames⟩, decide (d = 0)⟩, c.group,
          some { (s.threads t).vars with task := .default }⟩, status_idle ?_, rfl, rfl, ?_⟩
      · exact List.getElem?_set_self (hl.lt_length h.call)
      · rwa [task] at checkpoint
    | settled ctx y r error task trace =>
      rw [task] at errno
      cases errno

/-- A thread inside `resume` makes no other call. -/
theorem step_of_not_idle (hi : Sys.idle (s.threads l.tid) = false)
    (hs : (process cfg).step s l s') :
    (∃ a, l = .act l.tid a) ∨ ∃ env, l = .main l.tid env := by
  cases l with
  | act t a => exact .inl ⟨a, rfl⟩
  | main t env => exact .inr ⟨env, rfl⟩
  | launch t us env => simp_all [process, LTS.ofFn, Sys.step, Sys.launchStep, Label.tid]
  | resume t k us env => simp_all [process, LTS.ofFn, Sys.step, Sys.resumeStep, Label.tid]
  | drop t k env => simp_all [process, LTS.ofFn, Sys.step, Sys.dropStep, Label.tid]
  | cancel t k env => simp_all [process, LTS.ofFn, Sys.step, Sys.cancelStep, Label.tid]
  | erase t k => simp_all [process, LTS.ofFn, Sys.step, Label.tid]
  | exit t => simp_all [process, LTS.ofFn, Sys.step, Sys.exitStep, Label.tid]

theorem foreign_steps (ht : l.tid ≠ t) : Label.ownStep t l = 0 ∧ Label.arrival t l = 0 := by
  cases l with
  | act u a => cases a <;> simp_all [Label.ownStep, Label.arrival, Label.tid]
  | _ => simp_all [Label.ownStep, Label.arrival, Label.tid]

theorem responds (hn : cfg.notls = false) (herr : c.error = false) :
    (process cfg).Responds (Label.Late t d) (Returning cfg t c o d ctx) (TimedOut t c d ctx)
      (fun s => (s.threads t).left c) (Label.ownStep t) (fun l => 15 * Label.arrival t l) where
  step := by
    intro s l s' h hd hs
    by_cases ht : l.tid = t
    · rcases step_of_not_idle (ht ▸ h.ending.not_idle) hs with ⟨a, he⟩ | ⟨env, he⟩
      · rw [ht] at he
        subst he
        exact .inr (h.act hd hn hs)
      · rw [ht] at he
        subst he
        obtain ⟨hq, hpos⟩ := h.main hn herr hs
        refine .inl ⟨hq, ?_⟩
        simp only [Label.ownStep, Label.arrival, Label.tid, if_true]
        omega
    · have hsame : s'.threads t = s.threads t := step_threads_ne hn hs (Ne.symm ht)
      obtain ⟨hown, harrival⟩ := foreign_steps ht
      refine .inr ⟨⟨h.reachable.step hs, ?_, ?_, ?_⟩, ?_⟩
      · rw [hsame]; exact h.call
      · rw [hsame]; exact h.signaler
      · rw [hsame]; exact h.ending
      · rw [hsame, hown, harrival]

/-- The arrival of the tick. -/
theorem returning_of_tick {s₁ : Sys V E} (hr : (process cfg).Reachable s)
    (hown : (s.threads t).inControl) (hn : cfg.notls = false) (hcall : (s.threads t).call = some c)
    (ho : (s.threads t).signaler = some o) (hs : (process cfg).step s (.act t (.deliver o)) s₁) :
    ∃ ctx, (s.threads t).context = some ctx ∧
      Returning cfg t c o (s.threads t).vars.deadline ctx s₁ ∧ (s₁.threads t).left c = 15 := by
  obtain ⟨hready, hh, b, hb, hpos⟩ := hown
  obtain ⟨c₀, hc₀, -, hbody⟩ := ((linked_reachable hn hr).1.threads t).body hb
  obtain ⟨st, hck⟩ := hbody.run.checkpoint
  have hreach := hr.step hs
  obtain ⟨th', hth, rfl⟩ := Option.map_eq_some_iff.mp hs
  obtain rfl : (s.threads t).interrupt o = th' := by
    simp only [Thread.step, Option.ite_none_right_eq_some, Option.some.injEq] at hth
    exact hth.2
  have hself : ({ s.setThread t ((s.threads t).interrupt o) with
      dirty := s.dirtyAfter (s.threads t) ((s.threads t).interrupt o) } : Sys V E).threads t =
      (s.threads t).interrupt o := threads_setThread_self _
  refine ⟨⟨st, (s.threads t).mask, .paused b []⟩, by simp only [Thread.context, hck, hb, hh],
    ⟨hreach, ?_, ?_, ?_⟩, ?_⟩
  · rw [hself]
    exact hcall
  · rw [hself]
    exact ho
  · rw [hself]
    refine .expires b [] ⟨o, (s.threads t).mask, .interrupted, .entry⟩ _ hb hpos ?_ hck rfl
    exact ⟨by rw [Thread.interrupt, hh]; rfl, rfl, Finset.mem_insert_self _ _, rfl, rfl, by simp,
      List.forall_mem_nil _, List.forall_mem_nil _⟩
  · rw [hself, left_interrupt, Thread.left, hh, hb, framesLeft_nil, Base.togo, hpos]
    rfl

/-- **A timeout ends the slice in time.** The thread's signal arrives while the
function has control, and the clocks that the thread reads from there on are not
before the deadline. In every continuation, whatever the other threads do and
however often other signals interrupt the handler: the call has returned, with the
function paused as it was when the tick arrived, within 15 steps of the thread for
the tick and for each further arrival; or it has taken no more than these, the
function none, and the thread can go on. -/
theorem timeout_returns (cfg : Cfg V) (hn : cfg.notls = false) (s s₁ s₂ : Sys V E) (t : Tid)
    (c : Call V E) (o : Signal) (ls : List (Label V E)) (hr : (process cfg).Reachable s)
    (hown : (s.threads t).inControl) (hcall : (s.threads t).call = some c) (herr : c.error = false)
    (ho : (s.threads t).signaler = some o) (hs : (process cfg).step s (.act t (.deliver o)) s₁)
    (hrun : (process cfg).Run s₁ ls s₂)
    (hlate : ∀ l ∈ ls, Label.Late t (s.threads t).vars.deadline l) :
    (∃ a b s' ctx, ls = a ++ b ∧ (process cfg).Run s₁ a s' ∧ (s.threads t).context = some ctx ∧
        TimedOut t c (s.threads t).vars.deadline ctx s' ∧
        LTS.total (Label.ownStep t) a ≤ 15 * (LTS.total (Label.arrival t) a + 1)) ∨
      ((s₂.threads t).call = some c ∧
        LTS.total (Label.ownStep t) ls ≤ 15 * (LTS.total (Label.arrival t) ls + 1) ∧
        ∃ l s₃, l.tid = t ∧ Label.Late t (s.threads t).vars.deadline l ∧
          (process cfg).step s₂ l s₃) := by
  obtain ⟨ctx, hctx, hret, hleft⟩ := returning_of_tick hr hown hn hcall ho hs
  rcases (responds hn herr).run hrun hlate hret
    with ⟨a, b, s', rfl, hrun', hout, hle⟩ | ⟨hret', hle⟩
  · refine .inl ⟨a, b, s', ctx, rfl, hrun', hctx, hout, ?_⟩
    rw [hleft, LTS.total_mul] at hle
    omega
  · refine .inr ⟨hret'.call, ?_, ?_⟩
    · rw [hleft, LTS.total_mul] at hle
      omega
    · have hg := (linked_reachable hn hret'.reachable).1
      obtain ⟨l, s₃, hauto, hs₃, -⟩ :=
        advance hn hg hret'.call hret'.ending.alive hret'.ending.not_inControl
        (s.threads t).vars.deadline (.fine 0)
      refine ⟨l, s₃, ?_, ?_, hs₃⟩
      · cases hauto <;> rfl
      · intro now he
        cases hauto <;> cases he
        exact UInt64.le_refl _

end

/-- The function has control, outside every call. -/
def inBody (th : Thread Bool Bool) : Bool :=
  match th.base with
  | .body ⟨_, _, _, .own⟩ => th.ready && th.handlers.isEmpty
  | _ => false

theorem inControl_of_inBody {th : Thread Bool Bool} (h : inBody th = true) : th.inControl := by
  unfold inBody at h
  split at h
  · rename_i hb
    rw [Bool.and_eq_true, List.isEmpty_iff] at h
    exact ⟨h.1, h.2, _, hb, rfl⟩
  · cases h

/-- The steps of `preempt` from the tick on, and the return from `resume`. -/
def timedOutSteps : List (Label Bool Bool) :=
  List.replicate 14 (.act 0 (.run 9000)) ++ [.main 0 (.fine 0)]

theorem late_timedOut : ∀ l ∈ timedOutSteps, Label.Late 0 5000 l := by
  intro l hl now he
  subst he
  obtain rfl : now = 9000 := by simpa [timedOutSteps] using hl
  decide

theorem timeout_returns_preempted : ∃ s₁ s₂ : Sys Bool Bool,
      (process Cfg.small).Run s₁ timedOutSteps s₂ ∧
    ∃ a b s' c ctx, timedOutSteps = a ++ b ∧ (process Cfg.small).Run s₁ a s' ∧
      TimedOut 0 c 5000 ctx s' := by
  obtain ⟨s, s₂, hr, hrun, hp⟩ := process_run_of_exec Cfg.small (fun (_ : Sys Bool Bool) _ => True)
    (launchOn 0) (.act 0 (.deliver .Alarm) :: timedOutSteps)
    (fun (s s₂ : Sys Bool Bool) => inBody (s.threads 0) &&
      decide (((s.threads 0).call.map fun c => c.error) = some false) &&
      decide ((s.threads 0).signaler = some .Alarm) &&
        decide ((s.threads 0).vars.deadline = 5000) &&
      (s₂.threads 0).call.isNone) (by decide +kernel)
  simp only [Bool.and_eq_true, decide_eq_true_eq, Option.isNone_iff_eq_none] at hp
  obtain ⟨⟨⟨⟨hown, hc⟩, ho⟩, hd⟩, hnone⟩ := hp
  obtain ⟨c, hcall, herr⟩ := Option.map_eq_some_iff.mp hc
  cases hrun.of_only with
  | cons hs hrun' =>
    refine ⟨_, s₂, hrun', ?_⟩
    rcases timeout_returns Cfg.small rfl s _ s₂ 0 c .Alarm timedOutSteps hr
      (inControl_of_inBody hown) hcall herr ho hs hrun' (hd ▸ late_timedOut)
        with ⟨a, b, s', ctx, he, ha, -, hout, -⟩ | ⟨hcall', -⟩
    · exact ⟨a, b, s', c, ctx, he, ha, hd ▸ hout⟩
    · cases hnone.symm.trans hcall'

end Inger.L3
