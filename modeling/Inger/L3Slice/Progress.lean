import Inger.L3Slice.Fate
import Mathlib.Algebra.GroupWithZero.Nat
import Mathlib.Data.Finset.Card

/-!
# A call of `resume` makes progress

A thread inside `resume` can always go on by itself, until the function it runs
has control, the call has returned, or the thread is stuck. `advance` takes one
such step: the delivery of a pending signal, the next step of the innermost
handler, of `schedule`, `pause` or the hook, the return from a library call, or
the next step of `resume`. Clock and system calls answer what the caller of the
lemma wants.

`Thread.togo` bounds the number of these steps. A handler has at most 15 of them,
counting those after the swap; a pending signal will be a handler, so it counts
one more; and `pthread_kill`, which makes one pending, counts for both.
-/
namespace Inger.L2

variable {V E : Type}

def HandlerPc.togo : HandlerPc → Nat
  | .entry => 15
  | .relevant _ => 14
  | .test _ _ => 13
  | .deadline _ => 12
  | .clock _ _ => 11
  | .yielded _ _ => 10
  | .swap _ => 9
  | .errno _ => 7
  | .block => 6
  | .disable .group => 5
  | .disable .mask => 4
  | .disable .signal => 3
  | .disable .deferred => 2
  | .deferMask _ => 4
  | .deferFlag _ => 3
  | .ignore _ => 3
  | .restore _ => 2
  | .ret => 1

def framesLeft (hs : List Frame) : Nat := (hs.map fun f => f.pc.togo).sum

def EnablePc.togo : EnablePc → Nat
  | .errno => 26
  | .location => 25
  | .group => 24
  | .first => 23
  | .swap => 22
  | .get => 21
  | .kill => 20
  | .unblock => 3
  | .tail => 2

/-- Up to the function's own code, or behind it to the call site. -/
def Pos.togo : Pos → Nat
  | .pause _ => 30
  | .deferMask _ => 29
  | .deferFlag _ => 28
  | .stamp => 27
  | .lib _ => 27
  | .enable e => e.pc.togo
  | .call => 1
  | .own => 0
  | .disable .group => 7
  | .disable .mask => 6
  | .disable .signal => 5
  | .disable .deferred => 4
  | .check => 3
  | .ret => 2

/-- Behind the jump to the task. -/
def Task.togo (k : Task) : Nat :=
  match k.checkpoint with
  | some ⟨_, _, .paused b hs⟩ => b.pos.togo + framesLeft hs
  | _ => 28

def MainPc.togo (k : Task) : MainPc → Nat
  | .setup => k.togo + 4
  | .signal => k.togo + 3
  | .stack => k.togo + 2
  | .switch => k.togo + 1
  | .leave => 1

def Base.togo (k : Task) : Base → Nat
  | .main pc => pc.togo k
  | .boot => 28
  | .body b => b.pos.togo
  | .gone => 1
  | _ => 0

def Thread.togo (th : Thread V E) (c : Call V E) : Nat :=
  framesLeft th.handlers + 16 * th.pending.card + th.base.togo c.task

@[simp]
theorem framesLeft_nil : framesLeft [] = 0 := rfl

@[simp]
theorem framesLeft_cons (f : Frame) (hs : List Frame) :
    framesLeft (f :: hs) = f.pc.togo + framesLeft hs :=
  rfl

/-- The steps thread `t` takes by itself: any pending signal, any clock. -/
inductive Auto (s : Sys V E) (t : Tid) (now : UInt64) (env : Env) : Label V E → Prop
  | deliver (no : L1.Signals.Signal) (pending : no ∈ (s.threads t).pending) :
      Auto s t now env (.act t (.deliver no))
  | run : Auto s t now env (.act t (.run now))
  | exit : Auto s t now env (.act t (.fn .exit))
  | main : Auto s t now env (.main t env)

/-- The function has control. -/
def Thread.inControl (th : Thread V E) : Prop :=
  th.ready = true ∧ th.handlers = [] ∧ ∃ b, th.base = .body b ∧ b.pos = .own

end Inger.L2

namespace Inger.L3

open L1.Reusable L1.Signals L2

variable {V E : Type}

section
variable {cfg : Cfg V} {w : World} {now : UInt64} {t : Tid} {th th' : Thread V E} {c c' : Call V E}
  {f : Frame} {rest : List Frame} {b : Body} {no : Signal}

/-! ## Fewer steps are left -/

theorem left_deliver (hno : no ∈ th.pending) : (th.interrupt no).togo c < th.togo c := by
  have hcard := Finset.card_erase_of_mem hno
  have hpos := Finset.card_pos.mpr ⟨no, hno⟩
  simp only [Thread.togo, Thread.interrupt, framesLeft_cons, hcard, HandlerPc.togo]
  omega

/-- A handler that was not interrupted after its swap returns to the code it
interrupted. -/
theorem left_handler (hh : th.handlers = f :: rest)
    (htarget : th.base ≠ .gone → f.target = .interrupted) (hs : th.handlerStep w now f rest = th') :
    (∃ why, th'.base = .stuck why) ∨ th'.togo c < th.togo c := by
  subst hs
  -- The positions that only move on.
  have move (q : HandlerPc) (m : Sigset) (g : Group) (v : Vars) (hq : q.togo < f.pc.togo) :
      { th with group := g, vars := v, handlers := ⟨f.no, m, f.target, q⟩ :: rest }.togo c <
        th.togo c := by
    simp only [Thread.togo, hh, framesLeft_cons]
    omega
  unfold Thread.handlerStep
  cases hpc : f.pc with
  | entry => exact .inr (move _ _ _ _ (by rw [hpc]; simp [HandlerPc.togo]))
  | relevant e => exact .inr (move _ _ _ _ (by rw [hpc]; simp [HandlerPc.togo]))
  | test e r =>
    refine .inr ?_
    cases r <;> cases th.group.preemptible <;>
      exact move _ _ _ _ (by rw [hpc]; simp [HandlerPc.togo])
  | deadline e => exact .inr (move _ _ _ _ (by rw [hpc]; simp [HandlerPc.togo]))
  | clock e d =>
    refine .inr ?_
    dsimp only
    split <;> exact move _ _ _ _ (by rw [hpc]; simp [HandlerPc.togo])
  | yielded e d =>
    dsimp only
    split
    · exact .inl ⟨.borrowed, rfl⟩
    · exact .inr (move _ _ _ _ (by rw [hpc]; simp [HandlerPc.togo]))
  | swap e =>
    simp only [Thread.swap]
    split
    · refine .inr ?_
      simp only [Thread.togo, hh, framesLeft_cons, framesLeft_nil, hpc, HandlerPc.togo, Base.togo]
      omega
    · exact .inl ⟨.wild, rfl⟩
  | errno e => exact .inr (move _ _ _ _ (by rw [hpc]; simp [HandlerPc.togo]))
  | block => exact .inr (move _ _ _ _ (by rw [hpc]; simp [HandlerPc.togo]))
  | disable pc =>
    refine .inr ?_
    cases pc <;> exact move _ _ _ _ (by rw [hpc]; simp [HandlerPc.togo, DisablePc.next])
  | deferMask e =>
    dsimp only
    split
    · exact .inl ⟨.deferring, rfl⟩
    · exact .inr (move _ _ _ _ (by rw [hpc]; simp [HandlerPc.togo]))
  | deferFlag e => exact .inr (move _ _ _ _ (by rw [hpc]; simp [HandlerPc.togo]))
  | ignore e => exact .inr (move _ _ _ _ (by rw [hpc]; simp [HandlerPc.togo]))
  | restore e => exact .inr (move _ _ _ _ (by rw [hpc]; simp [HandlerPc.togo]))
  | ret =>
    refine .inr ?_
    by_cases hb : th.base = .gone
    · simp only [Thread.sigreturn]
      split
      · simp only [Thread.togo, hh, framesLeft_cons, hpc, HandlerPc.togo]
        omega
      · simp only [Thread.togo, hh, framesLeft_cons, framesLeft_nil, hpc, hb, HandlerPc.togo,
          Base.togo, MainPc.togo]
        omega
    · simp only [Thread.sigreturn, htarget hb]
      simp only [Thread.togo, hh, framesLeft_cons, hpc, HandlerPc.togo]
      omega

/-- A step of `enable_preemption`. What it makes pending is counted at `kill`. -/
theorem left_enable {e : Enable} (hb : th.base = .body b) (hpos : b.pos = .enable e) :
    (∃ why, (th.enablePos w b e).base = .stuck why) ∨ (th.enablePos w b e).togo c < th.togo c := by
  have goes (th₁ : Thread V E) (b' : Body) (q : Pos) (hh : th₁.handlers = th.handlers)
      (hleft : 16 * th₁.pending.card + q.togo < 16 * th.pending.card + b.pos.togo) :
      (th₁.goto b' q).togo c < th.togo c := by
    simp only [Thread.togo, Thread.goto, hh, hb, Base.togo]
    omega
  obtain ⟨pc, g, erryes, errno, un, cell⟩ := e
  rw [hpos] at goes
  unfold Thread.enablePos Thread.enableStep
  cases pc with
  | errno =>
    cases th.vars.errnoLocation.borrowed with
    | true => exact .inl ⟨.errnoBorrowed, rfl⟩
    | false =>
      simp only [Bool.false_eq_true, if_false]
      cases g.or th.vars.errnoLocation.value with
      | none => exact .inl ⟨.errnoLocation, rfl⟩
      | some g' => exact .inr (goes _ _ _ rfl (by simp [Pos.togo, EnablePc.togo]))
  | location =>
    by_cases hw : w.notls = true ∧ cell ≠ th.vars.signal
    · simp only [hw, ne_eq, not_false_eq_true, and_self, if_true]
      exact .inl ⟨.wild, rfl⟩
    · simp only [hw, if_false]
      exact .inr (goes _ _ _ rfl (by simp [Pos.togo, EnablePc.togo]))
  | group => cases g <;> exact .inr (goes _ _ _ rfl (by simp [Pos.togo, EnablePc.togo]))
  | first =>
    dsimp only
    cases threadSignal w.sig th.vars with
    | some o => exact .inr (goes _ _ _ rfl (by simp [Pos.togo, EnablePc.togo]))
    | none =>
      cases g with
      | some g' => exact .inl ⟨.scheduleTls, rfl⟩
      | none => exact .inr (goes _ _ _ rfl (by simp [Pos.togo, EnablePc.togo]))
  | swap =>
    cases th.vars.deferred <;> exact .inr (goes _ _ _ rfl (by simp [Pos.togo, EnablePc.togo]))
  | get =>
    dsimp only
    cases threadSignal w.sig th.vars with
    | some o => exact .inr (goes _ _ _ rfl (by simp [Pos.togo, EnablePc.togo]))
    | none =>
      cases g with
      | some g' => exact .inl ⟨.scheduleTls, rfl⟩
      | none => exact .inr (goes _ _ _ rfl (by simp [Pos.togo, EnablePc.togo]))
  | kill =>
    cases un with
    | some o =>
      have hcard := Finset.card_insert_le o th.pending
      refine .inr (goes _ _ _ rfl ?_)
      simp only [Pos.togo, EnablePc.togo]
      omega
    | none => exact .inr (goes _ _ _ rfl (by simp [Pos.togo, EnablePc.togo]))
  | unblock => cases un <;> exact .inr (goes _ _ _ rfl (by simp [Pos.togo, EnablePc.togo]))
  | tail =>
    have ends (th₁ : Thread V E) (hh : th₁.handlers = th.handlers) (hp : th₁.pending = th.pending) :
        ∀ q : Pos, q.togo < 2 → ∀ b', (th₁.goto b' q).togo c < th.togo c := by
      intro q hq b'
      refine goes _ _ _ hh ?_
      rw [hp]
      exact Nat.add_lt_add_left hq _
    dsimp only
    split <;> rename_i heq <;> split at heq <;> cases heq
    all_goals
      cases g with
      | some g' =>
        dsimp only
        split
        · exact .inl ⟨.unsignaled, rfl⟩
        · exact .inr (ends _ rfl rfl _ (by decide) _)
      | none => exact .inr (ends _ rfl rfl _ (by decide) _)

/-- A step of `schedule`, `pause` or the hook. -/
theorem left_body (h : InBody t th c b) (hb : th.base = .body b) (hcall : th.call = some c)
    (hs : th.bodyStep w now c b = some th') (hcall' : th'.call = some c') :
    (∃ why, th'.base = .stuck why) ∨ th'.togo c' < th.togo c := by
  obtain ⟨c₀, hc₀, -, -, htask⟩ := (Thread.bodyStep_kept hcall hs).exists_call hcall'
  cases hcall.symm.trans hc₀
  have heq : th'.togo c' = th'.togo c := by simp only [Thread.togo, htask]
  rw [heq]
  have goes (th₁ : Thread V E) (b' : Body) (q : Pos) (hh : th₁.handlers = th.handlers)
      (hp : th₁.pending = th.pending) (hleft : q.togo < b.pos.togo) : (th₁.goto b' q).togo c <
        th.togo c := by
    simp only [Thread.togo, Thread.goto, hh, hp, hb, Base.togo]
    omega
  obtain ⟨fn, grp, sg, pos⟩ := b
  have hfn : fn = c.linger := h.body.fn
  have hfits := h.body.fits
  cases pos with
  | stamp =>
    simp only [Thread.bodyStep] at hs
    split at hs
    · cases hs; exact .inl ⟨.overflow, rfl⟩
    · cases hs; exact .inr (goes _ _ _ rfl rfl (by simp [Pos.togo, EnablePc.togo]))
  | enable e => cases hs; exact left_enable hb rfl
  | call =>
    have hfun : c.functional = .function := hfits
    simp only [Thread.bodyStep, Thread.callPos, hfn, if_true, hfun, Option.some.injEq] at hs
    subst hs
    exact .inr (goes _ _ _ rfl rfl (by simp [Pos.togo]))
  | own => cases hs
  | lib back => cases hs
  | pause back => cases hs; exact .inr (goes _ _ _ rfl rfl (by simp [Pos.togo]))
  | deferMask back =>
    simp only [Thread.bodyStep] at hs
    split at hs
    · cases hs; exact .inl ⟨.deferring, rfl⟩
    · split at hs
      · cases hs; exact .inr (goes _ _ _ rfl rfl (by simp [Pos.togo]))
      · cases hs; exact .inl ⟨.pauseSignal, rfl⟩
  | deferFlag back => cases hs; exact .inr (goes _ _ _ rfl rfl (by simp [Pos.togo]))
  | disable pc =>
    cases hs
    refine .inr ?_
    cases pc with
    | mask => cases sg <;> exact goes _ _ _ rfl rfl (by simp [Pos.togo, DisablePc.next])
    | _ => exact goes _ _ _ rfl rfl (by simp [Pos.togo, DisablePc.next])
  | check =>
    simp only [Thread.bodyStep] at hs
    split at hs
    · cases hs; exact .inl ⟨.leftoverErrno, rfl⟩
    · cases hs; exact .inr (goes _ _ _ rfl rfl (by simp [Pos.togo]))
  | ret =>
    cases hs
    refine .inr ?_
    simp only [Thread.togo, Thread.setCall, hb, Base.togo, MainPc.togo, Pos.togo]
    omega

/-- A step of the thread on the function's stack or in a handler. -/
theorem left_act {s : Sys V E} {env : Env} {a : Act V E} (h : Core False False t (s.threads t))
    (hcall : (s.threads t).call = some c) (ha : Auto s t now env (.act t a))
    (hs : (s.threads t).step (s.world cfg) a = some th') (hcall' : th'.call = some c') :
    (∃ why, th'.base = .stuck why) ∨ th'.togo c' < (s.threads t).togo c := by
  cases Thread.step_acts hs with
  | delivers no alive unblocked =>
    cases hcall.symm.trans hcall'
    cases ha with
    | deliver _ pending => exact .inr (left_deliver pending)
  | handles now f rest ready handlers =>
    rw [Thread.handlerStep_call] at hcall'
    cases hcall.symm.trans hcall'
    refine left_handler handlers ?_ rfl
    intro hne
    have hmem : f ∈ (s.threads t).handlers := by rw [handlers]; exact List.mem_cons_self
    cases hb : (s.threads t).base with
    | body b =>
      obtain ⟨c₀, -, -, hbody⟩ := h.body hb
      exact (hbody.frames f hmem).target
    | caller => exact ((h.calm (.inl hb)).1.frames f hmem).target
    | main pc => exact ((h.calm (.inr (.inl ⟨pc, hb⟩))).1.frames f hmem).target
    | boot => exact ((h.calm (.inr (.inr hb))).1.frames f hmem).target
    | gone => exact absurd hb hne
    | exited => simp [Thread.ready, hb, Base.alive] at ready
    | stuck why => simp [Thread.ready, hb, Base.alive] at ready
  | boots now c₀ ready handlers base call =>
    simp only [Core, base, hcall] at h
    simp only [Thread.bootStep, h.2.2.bootstrap] at hcall' ⊢
    cases hcall.symm.trans hcall'
    refine .inr ?_
    simp only [Thread.togo, base, Base.togo, Pos.togo]
    omega
  | runs now b c₀ th' ready handlers base call step =>
    obtain ⟨c₁, hc₁, -, hbody⟩ := h.body base
    cases hcall.symm.trans hc₁
    cases hcall.symm.trans call
    exact left_body hbody base hcall step hcall'
  | fn a b c₀ th' ready handlers base call step =>
    cases ha
    unfold Thread.fnStep at step
    cases hpos : b.pos <;> simp only [hpos, Option.some.injEq, reduceCtorEq] at step
    subst step
    cases hcall.symm.trans hcall'
    refine .inr ?_
    simp only [Thread.togo, Thread.goto, base, Base.togo, hpos, Pos.togo, Enable.hook,
      EnablePc.togo]
    omega

/-! ## The next step -/

/-- Outside the function's own code and library calls there is a next step. -/
theorem bodyStep_isSome (h₁ : b.pos ≠ .own) (h₂ : ∀ g, b.pos ≠ .lib g) :
    ∃ th', th.bodyStep w now c b = some th' := by
  unfold Thread.bodyStep
  cases hpos : b.pos with
  | own => exact absurd hpos h₁
  | lib g => exact absurd hpos (h₂ g)
  | deferMask g =>
    dsimp only
    split
    · exact ⟨_, rfl⟩
    · split <;> exact ⟨_, rfl⟩
  | stamp => dsimp only; split <;> exact ⟨_, rfl⟩
  | check => dsimp only; split <;> exact ⟨_, rfl⟩
  | _ => exact ⟨_, rfl⟩

/-- The thread takes a step on the function's stack or in a handler, or the next
one is a step of `resume`. -/
theorem next_act (cfg : Cfg V) {s : Sys V E} (h : Core False False t (s.threads t))
    (hcall : (s.threads t).call = some c)
    (halive : (s.threads t).base.alive = true) (hown : ¬(s.threads t).inControl) (now : UInt64)
    (env : Env) :
    (∃ a th', Auto s t now env (.act t a) ∧ (s.threads t).step (s.world cfg) a = some th') ∨
      (s.threads t).ready = true ∧ (s.threads t).handlers = [] ∧
        ∃ pc, (s.threads t).base = .main pc := by
  by_cases hp : (s.threads t).pending ⊆ (s.threads t).mask
  · have hready : (s.threads t).ready = true := by
      simp only [Thread.ready, halive, Bool.true_and, decide_eq_true_eq]
      exact hp
    cases hh : (s.threads t).handlers with
    | cons f rest =>
      refine .inl ⟨.run now, (s.threads t).handlerStep (s.world cfg) now f rest, .run, ?_⟩
      simp only [Thread.step, hready, if_true, Thread.runStep, hh]
    | nil =>
      cases hb : (s.threads t).base with
      | caller => simp only [Core, hb, hcall] at h
      | main pc => exact .inr ⟨hready, rfl, pc, rfl⟩
      | boot =>
        refine .inl ⟨.run now, (s.threads t).bootStep, .run, ?_⟩
        simp only [Thread.step, hready, if_true, Thread.runStep, hh, hb, hcall]
      | body b =>
        refine .inl ?_
        by_cases hlib : ∃ g, b.pos = .lib g
        · obtain ⟨g, hpos⟩ := hlib
          refine ⟨.fn .exit, { s.threads t with group := g }.goto b (.enable .hook), .exit, ?_⟩
          simp only [Thread.step, hready, hh, hb, hcall, Thread.fnStep, hpos]
        · have hne : b.pos ≠ .own := fun hpos => hown ⟨hready, hh, b, hb, hpos⟩
          obtain ⟨th', hs⟩ : ∃ th', (s.threads t).bodyStep (s.world cfg) now c b = some th' :=
            bodyStep_isSome hne fun g hg => hlib ⟨g, hg⟩
          refine ⟨.run now, th', .run, ?_⟩
          simp only [Thread.step, hready, if_true, Thread.runStep, hh, hb, hcall, hs]
      | gone =>
        obtain ⟨c₀, upper, bottom, -, -, hgone⟩ := h.gone hb
        have hhg := hgone.handlers
        rw [hh] at hhg
        exact absurd hhg.symm (by simp)
      | exited => rw [hb] at halive; cases halive
      | stuck why => rw [hb] at halive; cases halive
  · obtain ⟨no, hno, hm⟩ := Finset.not_subset.mp hp
    refine .inl ⟨.deliver no, (s.threads t).interrupt no, .deliver no hno, ?_⟩
    simp only [Thread.step, halive, hm, not_false_eq_true, and_self, if_true]

end

section
variable {cfg : Cfg V} {s s' : Sys V E} {t : Tid} {k : Lid} {c : Call V E} {th : Thread V E}

/-- A task that has not been started has nowhere to go back to. -/
theorem Core.task_left {pc : MainPc} (h : Core False False t (s.threads t))
    (hcall : (s.threads t).call = some c) (hb : (s.threads t).base = .main pc)
    (hpc : pc ≠ .switch ∧ pc ≠ .leave) (he : c.task.errno = none) :
    c.task.togo = 28 := by
  simp only [Core, hb, hcall] at h
  have fresh {loc : RefCell (Option Gid)} (h : TaskOk c.linger c.group c.functional loc c.task) :
      c.task.togo = 28 := by
    cases hk : c.task with
    | mk e ck y =>
      rw [hk] at h he
      cases h with
      | fresh => rfl
      | paused => cases he
  cases pc with
  | setup => exact fresh h.2.2.2.2.2
  | signal => exact fresh h.2.2.2.2.2.2
  | stack => exact fresh h.2.2.2.2.2.2.2
  | switch => exact absurd rfl hpc.1
  | leave => exact absurd rfl hpc.2

/-- A step of `resume` ends the call or comes before fewer steps. -/
theorem left_main {env : Env} (hn : cfg.notls = false) (hg : Good False False s)
    (hcall : (s.threads t).call = some c) (hs : Sys.mainStep cfg s t env = some s') :
    (s'.threads t).call = none ∨ (∃ why, (s'.threads t).base = .stuck why) ∨
      ∃ c', (s'.threads t).call = some c' ∧ c'.linger = c.linger ∧
        (s'.threads t).togo c' < (s.threads t).togo c := by
  obtain ⟨c₀, pc, hc₀, hbase, hh, hcases⟩ := mainStep_sorted hg hs
  cases hcall.symm.trans hc₀
  obtain ⟨hpc, hpc', hp⟩ | ⟨rfl, hsw⟩ | ⟨rfl, hleft⟩ := hcases
  · cases hp with
    | goes s₁ th c' shared call same us task base' handlers pending =>
      refine .inr (.inr ⟨c', by rw [threads_setThread_self, call], same.linger, ?_⟩)
      have htask : c'.task.togo = c.task.togo := by
        obtain htask | ⟨herr, st, m, hck⟩ := task
        · rw [htask]
        · rw [(hg.threads t).task_left hcall hbase ⟨hpc, hpc'⟩ herr, Task.togo, hck]
      simp only [threads_setThread_self, Thread.togo, handlers, hh, pending, hbase, base',
        Base.togo]
      cases pc with
      | switch => exact absurd rfl hpc
      | leave => exact absurd rfl hpc'
      | _ => simp only [MainPc.next, MainPc.togo, htask]; omega
    | stuck s₁ th shared base' call =>
      exact .inr (.inl ⟨.setup, by rw [threads_setThread_self, base']⟩)
    | fails s₁ ret shared failed => exact .inl (by rw [Sys.failResume, threads_setThread_self])
  · cases hsw with
    | starts st m y task bootstrap blocked =>
      refine .inr (.inr ⟨{ c with task := ⟨none, none, y⟩, link := (s.threads t).mask },
        by rw [threads_setThread_self], rfl, ?_⟩)
      simp only [threads_setThread_self, Thread.togo, hbase, Base.togo, MainPc.togo,
        Task.togo, task]
      omega
    | resumes e st m b frames y o task own paused =>
      refine .inr (.inr ⟨{ c with
        task := ⟨some e, none, y⟩, error := !env.sigmask, link := (s.threads t).mask },
        by rw [threads_setThread_self], rfl, ?_⟩)
      simp only [threads_setThread_self, Thread.togo, hh, framesLeft_nil, hbase, Base.togo,
        MainPc.togo, Task.togo, task]
      omega
    | fails s₁ th c' ret shared same taken handlers failed =>
      exact .inl (by rw [Sys.failResume, threads_setThread_self])
  · refine .inl ?_
    cases leaveStep_left hn hg hcall hbase hleft with
    | fails error => rw [Sys.failResume, threads_setThread_self]
    | paused e st m b frames y error task trace => rw [threads_setThread_self]
    | settled ctx y r error task trace => rw [threads_setThread_self]

/-- **The next step.** A thread in a call, not stuck and with the function not in
control, takes a step by itself after which it is out of the call, stuck, or in
it with fewer steps to go. -/
theorem advance (hn : cfg.notls = false) (hg : Good False False s)
    (hcall : (s.threads t).call = some c) (halive : (s.threads t).base.alive = true)
    (hown : ¬(s.threads t).inControl) (now : UInt64) (env : Env) :
    ∃ l s', Auto s t now env l ∧ s.step cfg l = some s' ∧
      ((s'.threads t).call = none ∨ (∃ why, (s'.threads t).base = .stuck why) ∨
        ∃ c', (s'.threads t).call = some c' ∧ c'.linger = c.linger ∧
          (s'.threads t).togo c' < (s.threads t).togo c) := by
  obtain ⟨a, th', ha, hs⟩ | ⟨hready, hh, pc, hb⟩ :=
    next_act cfg (hg.threads t) hcall halive hown now env
  · refine ⟨.act t a, { s.setThread t th' with dirty := s.dirtyAfter (s.threads t) th' },
      ha, ?_, ?_⟩
    · simp only [Sys.step, Sys.actStep, hs, Option.map_some]
    · rw [threads_acted]
      cases hcall' : th'.call with
      | none => exact .inl rfl
      | some c' =>
        obtain ⟨c₀, hc₀, hk, -⟩ := (Thread.step_kept hs).exists_call hcall'
        cases hcall.symm.trans hc₀
        obtain hstuck | hleft := left_act (hg.threads t) hcall ha hs hcall'
        · exact .inr (.inl hstuck)
        · exact .inr (.inr ⟨c', rfl, hk, hleft⟩)
  · have hsome : ∃ s', Sys.mainStep cfg s t env = some s' := by
      simp only [Sys.mainStep, hready, hh, hb, hcall]
      cases pc <;> exact ⟨_, rfl⟩
    obtain ⟨s', hs⟩ := hsome
    exact ⟨.main t env, s', .main, hs, left_main hn hg hcall hs⟩

end

end Inger.L3
