import Inger.L3Slice.Carry
import Inger.L4Linger.Alike

/-!
# The build with the stub TCB agrees with the default build, where it does

errno_group (src/preemption.rs) saves the location of errno in a thread-local
when `schedule` first calls `enable_preemption`; the hook `resume_preemption`
reads it later. In the default build the variable is the function's. With the
stub TCB it is the kernel thread's: a paused function that is resumed finds
the location of the function last started on that thread, or none; and while a
function is paused inside `errno_group`, the variable of its thread is borrowed
for all others (`stub_mislocates`).

`builds_agree`: in every run in which nothing fails, each function is launched and
resumed where ERRNO_LOCATION is as it needs it (`Located`) and none is dropped
inside `errno_group`, the default build takes the same steps, the `Linger`s have
the same states and flags, all calls the same results and the same threads are
stuck, and the hook uses the location of the running function's group in both
builds. All other thread-locals agree without a condition: `Alike` has the
comparison of one step. The two builds have the same debug assertions and overflow
checks, whichever these are.
-/
namespace Inger.L2

/-- In `resume`, before the jump, or on the function's stack. -/
def Base.early : Base → Bool
  | .main .leave => false
  | .main _ => true
  | .boot => true
  | .body _ => true
  | _ => false

/-- In `enable_preemption`. -/
def Pos.enabling : Pos → Bool
  | .enable _ => true
  | _ => false

end Inger.L2

namespace Inger.L4

open L1.Reusable L1.Signals L2 L3

variable {V E : Type}

/-! ## ERRNO_LOCATION with the stub TCB -/

/-- What is launched or resumed finds the thread's ERRNO_LOCATION as it needs it: a
paused function, still as it has left it, which is on a thread where it is the last
one started and, inside `errno_group`, on the thread it was paused on; any other
one, not borrowed by a function that is paused inside `errno_group`. -/
def Located (s : Sys V E) : Label V E → Prop
  | .launch t us _ => us ≠ 0 → (s.threads t).vars.errnoLocation.borrowed = false
  | .resume t k _ _ =>
    match s.lingers[k]? with
    | some ⟨.continuation c, _⟩ => c.stateful.Fits t c.group (s.threads t).vars.errnoLocation
    | _ => True
  | _ => True

instance (s : Sys V E) : (l : Label V E) → Decidable (Located s l)
  | .launch t us _ =>
    inferInstanceAs (Decidable (us ≠ 0 → (s.threads t).vars.errnoLocation.borrowed = false))
  | .resume t k _ _ =>
    match h : s.lingers[k]? with
    | some ⟨.continuation c, _⟩ =>
      decidable_of_iff (c.stateful.Fits t c.group (s.threads t).vars.errnoLocation)
        (by simp [Located, h])
    | some ⟨.completion _, _⟩ => isTrue (by simp [Located, h])
    | some ⟨.poison, _⟩ => isTrue (by simp [Located, h])
    | some ⟨.resuming _ _, _⟩ => isTrue (by simp [Located, h])
    | some ⟨.dropped, _⟩ => isTrue (by simp [Located, h])
    | none => isTrue (by simp [Located, h])
  | .main _ _ => isTrue trivial
  | .act _ _ => isTrue trivial
  | .drop _ _ _ => isTrue trivial
  | .cancel _ _ _ => isTrue trivial
  | .erase _ _ => isTrue trivial
  | .exit _ => isTrue trivial

section
variable {cfg : Cfg V} {s s' : Sys V E} {t : Tid} {k : Lid} {th th' : Thread V E} {c : Call V E}
  {env : Env} {w : World} {now : UInt64}

theorem Placed.setThread (h : Placed s) (hth : PlacedAt t th) : Placed (s.setThread t th) := by
  intro u
  by_cases hu : u = t
  · subst hu
    rwa [threads_setThread_self]
  · rw [threads_setThread_ne th hu]
    exact h u

theorem Placed.of_eq (h : Placed s) (ht : s'.threads = s.threads) : Placed s' := fun u => by
  rw [ht]; exact h u

theorem placedAt_of (h : th.base.early = false) : PlacedAt t th where
  main c pc hb hpc := by
    rw [hb] at h
    cases pc with
    | leave => exact absurd rfl hpc
    | _ => cases h
  boot hb := by rw [hb] at h; cases h
  body b hb := by rw [hb] at h; cases h

theorem PlacedAt.congr (h : PlacedAt t th) (hl : th'.vars.errnoLocation = th.vars.errnoLocation)
    (hb : th'.base = th.base) (hc : th'.call = th.call) : PlacedAt t th' where
  main c pc := by rw [hl, hb, hc]; exact h.main c pc
  boot := by rw [hl, hb]; exact h.boot
  body b := by rw [hl, hb]; exact h.body b

theorem placedAt_main {pc : MainPc} (hb : th.base = .main pc)
    (h : ∀ c, th.call = some c → c.task.Fits t c.group th.vars.errnoLocation) : PlacedAt t th where
  main c _ _ _ := h c
  boot hb' := by rw [hb] at hb'; cases hb'
  body b hb' := by rw [hb] at hb'; cases hb'

theorem placedAt_boot (hb : th.base = .boot) (h : th.vars.errnoLocation.borrowed = false) :
    PlacedAt t th where
  main c pc hb' := by rw [hb] at hb'; cases hb'
  boot _ := h
  body b hb' := by rw [hb] at hb'; cases hb'

/-- A function's stack, with what is needed of its position. -/
theorem placedAt_body {b : Body} (hb : th.base = .body b)
    (hl : b.pos.located = false → th.vars.errnoLocation.borrowed = false) (ho : b.pos.on t = true) :
    PlacedAt t th where
  main c pc h := by rw [hb] at h; cases h
  boot h := by rw [hb] at h; cases h
  body b' h := by
    rw [hb] at h
    cases h
    exact ⟨hl, ho⟩

/-- A handler does not write ERRNO_LOCATION, and leads to no step of `resume` but the last. -/
theorem PlacedAt.handler (h : PlacedAt t th) (f : Frame) (rest : List Frame) :
    PlacedAt t (th.handlerStep w now f rest) := by
  have hp : Thread.Place th f (th.handlerStep w now f rest) := Thread.handlerStep_place f rest
  rcases hp.base with hb | hb | ⟨why, -, hb⟩ | ⟨hb, -⟩
  · exact h.congr hp.location hb Thread.handlerStep_call
  all_goals exact placedAt_of (by rw [hb]; rfl)

/-- Where the code on a function's stack leads: it goes on, is stuck, or `schedule` returns. -/
theorem bodyStep_leads {b : Body} (hs : th.bodyStep w now c b = some th') :
    (∃ b', th'.base = .body b') ∨ (∃ why, th'.base = .stuck why) ∨ th'.base = .main .leave ∧
      th'.vars = th.vars := by
  unfold Thread.bodyStep at hs
  cases hpos : b.pos <;> simp only [hpos, Option.some.injEq, reduceCtorEq] at hs
  case stamp =>
    split at hs <;> cases hs
    · exact .inr (.inl ⟨_, rfl⟩)
    · exact .inl ⟨_, rfl⟩
  case enable e =>
    subst hs
    unfold Thread.enablePos
    split
    · exact .inl ⟨_, rfl⟩
    · split
      · split
        · exact .inr (.inl ⟨_, rfl⟩)
        · exact .inl ⟨_, rfl⟩
      · exact .inl ⟨_, rfl⟩
    · split
      · exact .inr (.inl ⟨_, rfl⟩)
      · exact .inl ⟨_, rfl⟩
    · exact .inr (.inl ⟨_, rfl⟩)
  case call =>
    subst hs
    unfold Thread.callPos
    split
    · split
      · exact .inl ⟨_, rfl⟩
      · exact .inr (.inl ⟨_, rfl⟩)
      · exact .inl ⟨_, rfl⟩
    · exact .inr (.inl ⟨_, rfl⟩)
  case deferMask back =>
    split at hs
    · cases hs; exact .inr (.inl ⟨_, rfl⟩)
    · split at hs <;> cases hs
      · exact .inl ⟨_, rfl⟩
      · exact .inr (.inl ⟨_, rfl⟩)
  case check =>
    split at hs <;> cases hs
    · exact .inr (.inl ⟨_, rfl⟩)
    · exact .inl ⟨_, rfl⟩
  case ret => subst hs; exact .inr (.inr ⟨rfl, rfl⟩)
  all_goals subst hs; exact .inl ⟨_, rfl⟩

theorem fnStep_leads {b : Body} {a : FnAct V E} (hb : th.base = .body b)
    (hs : th.fnStep c b a = some th') :
    ∃ b', th'.base = .body b' := by
  unfold Thread.fnStep at hs
  split at hs <;> cases hs <;> first | exact ⟨_, rfl⟩ | exact ⟨_, hb⟩

/-- `errno_group` is entered on the thread SIGNAL names. -/
theorem enableStep_on {e e' : Enable} (hsig : th.vars.signal = some t)
    (he : (th.enableStep w e).2 = .next e') :
    (Pos.enable e').on t = true := by
  simp only [Pos.on, decide_eq_true_eq]
  unfold Thread.enableStep at he
  cases hpc : e.pc <;> simp only [hpc] at he
  case errno =>
    split at he
    · cases he
    · split at he <;> cases he
      exact fun _ => hsig
  case swap => cases he; dsimp only; split <;> simp
  all_goals split at he <;> cases he <;> simp

theorem bodyStep_on {b b' : Body} (hsig : ∀ e, b.pos = .enable e → th.vars.signal = some t)
    (hs : th.bodyStep w now c b = some th') (hb' : th'.base = .body b') : b'.pos.on t = true := by
  unfold Thread.bodyStep at hs
  cases hpos : b.pos <;> simp only [hpos, Option.some.injEq, reduceCtorEq] at hs
  case stamp => split at hs <;> cases hs <;> cases hb'; rfl
  case enable e =>
    subst hs
    unfold Thread.enablePos at hb'
    split at hb'
    · rename_i heq
      cases hb'
      exact enableStep_on (hsig e hpos) (congrArg Prod.snd heq)
    · split at hb'
      · split at hb' <;> cases hb'
        rfl
      · cases hb'; rfl
    · split at hb' <;> cases hb'
      rfl
    · cases hb'
  case call =>
    subst hs
    unfold Thread.callPos at hb'
    split at hb'
    · split at hb' <;> cases hb' <;> rfl
    · cases hb'
  case pause back => subst hs; cases hb'; rfl
  case deferMask back =>
    split at hs
    · cases hs; cases hb'
    · split at hs <;> cases hs <;> cases hb'
      rfl
  case deferFlag back => subst hs; cases hb'; rfl
  case disable pc => subst hs; cases hb'; cases pc <;> rfl
  case check => split at hs <;> cases hs <;> cases hb'; rfl
  case ret => subst hs; cases hb'

theorem PlacedAt.body_step {b : Body} (h : PlacedAt t th) (hb : th.base = .body b)
    (hsig : ∀ e, b.pos = .enable e → th.vars.signal = some t)
    (hs : th.bodyStep w now c b = some th') :
    PlacedAt t th' := by
  rcases bodyStep_leads hs with ⟨b', hb'⟩ | ⟨why, hb'⟩ | ⟨hb', -⟩
  · refine placedAt_body hb' (fun hl' => ?_) (bodyStep_on hsig hs hb')
    rcases Thread.bodyStep_location hs hb' with hl | ⟨hl, hkept⟩
    · rw [hl] at hl'; cases hl'
    · rw [hkept]
      exact (h.body b hb).1 hl
  all_goals exact placedAt_of (by rw [hb']; rfl)

theorem fnStep_placed {b : Body} {a : FnAct V E} (hb : th.base = .body b)
    (hs : th.fnStep c b a = some th') :
    PlacedAt t th' := by
  unfold Thread.fnStep at hs
  split at hs <;> cases hs
  case h_1 hpos => exact placedAt_body hb (by rw [hpos]; exact nofun) (by rw [hpos]; rfl)
  case h_5 hpos => exact placedAt_body hb (by rw [hpos]; exact nofun) (by rw [hpos]; rfl)
  all_goals exact placedAt_body rfl nofun rfl

theorem PlacedAt.act {a : Act V E} (h : PlacedAt t th)
    (hsig : ∀ b e, th.base = .body b → b.pos = .enable e → th.vars.signal = some t)
    (hs : th.step w a = some th') : PlacedAt t th' := by
  cases Thread.step_acts hs with
  | delivers no => exact h.congr rfl rfl rfl
  | handles now f rest => exact h.handler f rest
  | boots now c _ _ base =>
    unfold Thread.bootStep
    split
    · exact placedAt_of rfl
    · exact placedAt_body rfl (fun _ => h.boot base) rfl
  | runs now b c _ _ _ base call step => exact h.body_step base (hsig b · base) step
  | fn a b c _ _ _ base call step => exact fnStep_placed base step

theorem Placed.beginResume {cont : Continuation V E} {trace : List (Event V E)} {us : UInt64}
    {launching : Bool} (h : Placed s) (hn : cfg.notls = true)
    (hc : cont.stateful.Fits t cont.group (s.threads t).vars.errnoLocation) :
    Placed (Sys.beginResume cfg s t k cont trace us launching env) := by
  unfold Sys.beginResume
  split
  · exact (h.of_eq (threads_abandon ..)).setThread ((h t).congr rfl rfl rfl)
  · simp only [hn, Bool.or_true, if_true]
    refine (h.of_eq rfl).setThread (placedAt_main rfl ?_)
    rintro _ ⟨⟩
    exact hc

theorem Placed.failResume {ret : Ret E} (h : Placed s) :
    Placed (Sys.failResume cfg s t th c env ret) := by
  refine (h.of_eq ((threads_abandon ..).trans ?_)).setThread (placedAt_of rfl)
  split
  · rfl
  · exact threads_freeStack _

/-- `switch_stack` leaves for the function's stack. -/
theorem Placed.switchStep {d : Sys V E} {c' : Call V E} (h : Placed s) (hj : Jumps d s t c' c)
    (hf : EnvFine env) (hstamp : c.task.errno.isSome = true → cfg.overflowChecks = true →
      stampOverflows env.now (s.threads t).vars.deadline = false)
    (hfit : c.task.Fits t c.group (s.threads t).vars.errnoLocation) :
    Placed (Sys.switchStep cfg s t (s.threads t) c env) := by
  rcases hj.target with ⟨st, m, y, -, htask⟩ | ⟨e₁, e, st, m, b₁, b, hs₁, hs, y, o, -, htask, -, -,
    -, hsig, -⟩
  · rw [switchStep_starts htask hj.idle' hf]
    exact h.setThread (placedAt_boot rfl ((Task.fits_of_errno (by rw [htask])).mp hfit))
  · rw [switchStep_resumes htask hj.idle' hsig hf (hstamp (by rw [htask]; rfl))]
    obtain ⟨hloc, hon⟩ := hfit.1 b.pos (by rw [htask]; rfl)
    refine h.setThread (placedAt_body rfl (fun hl => ?_) hon)
    exact (congrArg RefCell.borrowed hloc).trans (Pos.borrowing_of_located hl)

/-- The steps before `switch_stack` keep ERRNO_LOCATION. -/
theorem Placed.kept {pc : MainPc} (h : Placed s) (ht : s'.threads = s.threads)
    (hb : (s.threads t).base = .main pc) (hpc : pc ≠ .leave) (hcall : th.call = (s.threads t).call)
    (hv : th.vars.errnoLocation = (s.threads t).vars.errnoLocation) {pc' : MainPc}
    (hb' : th.base = .main pc') :
    Placed (s'.setThread t th) := by
  refine (h.of_eq ht).setThread (placedAt_main hb' fun c hc => ?_)
  rw [hv]
  exact (h t).main c pc hb hpc (hcall ▸ hc)

theorem Placed.setupStep (h : Placed s) (hb : (s.threads t).base = .main .setup) :
    Placed (Sys.setupStep cfg s t (s.threads t) c env) := by
  unfold Sys.setupStep
  split
  · exact h.kept rfl hb (by decide) rfl rfl rfl
  · split
    · exact Placed.failResume (h.of_eq rfl)
    · split
      · exact h.kept rfl hb (by decide) rfl rfl rfl
      · exact (h.of_eq rfl).setThread (placedAt_of rfl)

theorem Placed.stackStep (h : Placed s) (hb : (s.threads t).base = .main .stack)
    (hc : (s.threads t).call = some c) :
    Placed (Sys.stackStep cfg s t (s.threads t) c env) := by
  unfold Sys.stackStep
  split
  · exact h.kept rfl hb (by decide) rfl rfl rfl
  · rename_i herrno
    have hpool : Placed (Sys.freeStack { s with stackPool := (alloc id s.stackPool).2 }
      c.task.stack) :=
      h.of_eq (threads_freeStack _)
    dsimp only
    split
    · split
      · exact hpool.setThread (placedAt_of rfl)
      · have hfree := (Task.fits_of_errno herrno).mp ((h t).main c .stack hb (by decide) hc)
        refine hpool.setThread (placedAt_main rfl ?_)
        rintro _ ⟨⟩
        refine (Task.fits_of_errno ?_).mpr hfree
        exact herrno
    · exact Placed.failResume (h.of_eq rfl)

theorem Placed.leaveStep (h : Placed s) : Placed (Sys.leaveStep cfg s t (s.threads t) c env) := by
  have ends {s₁ : Sys V E} {th : Thread V E} {ret : Ret E} (ht : s₁.threads = s.threads) :
      Placed (Sys.endResume cfg s₁ t th c ret) := (h.of_eq ht).setThread (placedAt_of rfl)
  unfold Sys.leaveStep
  split
  · exact h.failResume
  · dsimp only
    split
    · exact ends (threads_freeStack _)
    · split
      · exact ends ((threads_dropContinuation _ env.renew).trans (threads_freeStack _))
      · exact ends ((threads_dropContinuation _ env.renew).trans (threads_freeStack _))
      · exact ends ((threads_abandon ..).trans (threads_freeStack _))
      · exact ends ((threads_abandon ..).trans (threads_freeStack _))

/-- A step of `resume` in the build with the stub TCB, where it looks like one in
the default build. -/
theorem Placed.mainStep {d : Sys V E} (h : Placed s) (ha : d.Alike s) (hg : Good False True d)
    (hf : EnvFine env) (hstamp : cfg.overflowChecks = true → (s.threads t).StampFits env.now)
    (hs : Sys.mainStep cfg s t env = some s') : Placed s' := by
  simp only [Sys.mainStep] at hs
  split at hs <;> cases hs
  all_goals rename_i c hr hh hb hc
  · exact h.setupStep hb
  · exact h.kept rfl hb (by decide) rfl rfl rfl
  · exact h.stackStep hb hc
  · obtain ⟨c', hc', hb', hcall⟩ := call_alike (ha.threads t) hb hc
    refine h.switchStep (jumps_alike ha hg hc' hb' hb hcall) hf (fun he hov => ?_)
      ((h t).main c .switch hb (by decide) hc)
    exact hstamp hov (by simpa only [Thread.stamping, hh, hb, hc] using he)
  · exact h.leaveStep

theorem placed_step {d : Sys V E} {l : Label V E} (hn : cfg.notls = true) (h : Placed s)
    (ha : d.Alike s) (hg : Good False True d) (hf : NoFault s l) (hstamp : Bounded cfg s l)
    (hloc : Located s l) (hs : Sys.step cfg s l = some s') : Placed s' := by
  cases l with
  | launch t us env =>
    simp only [Sys.step, Sys.launchStep] at hs
    split at hs
    · cases hs
    · split at hs
      · cases hs; exact h.setThread (placedAt_of rfl)
      · split at hs
        · cases hs; exact (h.of_eq rfl).setThread ((h t).congr rfl rfl rfl)
        · split at hs <;> cases hs
          · exact (h.of_eq rfl).setThread ((h t).congr rfl rfl rfl)
          · rename_i hus
            exact Placed.beginResume (h.of_eq rfl) hn ((Task.fits_of_errno rfl).mpr (hloc hus))
  | resume t k us env =>
    simp only [Sys.step, Sys.resumeStep] at hs
    split at hs
    · cases hs
    · split at hs
      · cases hs; exact h.setThread (placedAt_of rfl)
      · split at hs <;> cases hs
        · rename_i c trace hk
          exact h.beginResume hn (by simpa only [Located, hk] using hloc)
        · exact h.setThread ((h t).congr rfl rfl rfl)
        · exact h.setThread ((h t).congr rfl rfl rfl)
  | main t env => exact h.mainStep ha hg hf hstamp hs
  | act t a =>
    simp only [Sys.step, Sys.actStep, Option.map_eq_some_iff] at hs
    obtain ⟨th, hth, rfl⟩ := hs
    have hsig (b : Body) (e : Enable) :=
      signal_alike (b := b) (e := e) (ha.threads t) (hg.threads t)
    exact Placed.of_eq (h.setThread ((h t).act hsig hth)) rfl
  | drop t k env =>
    simp only [Sys.step, Sys.dropStep] at hs
    split at hs
    · cases hs
    · split at hs
      · split at hs <;> cases hs
        · exact h.setThread (placedAt_of rfl)
        · exact (h.of_eq (threads_dropContinuation _ env.renew)).setThread ((h t).congr rfl rfl rfl)
      · cases hs; exact (h.of_eq rfl).setThread ((h t).congr rfl rfl rfl)
      · cases hs; exact (h.of_eq rfl).setThread ((h t).congr rfl rfl rfl)
      · cases hs
  | cancel t k env =>
    simp only [Sys.step, Sys.cancelStep] at hs
    split at hs
    · cases hs
    · split at hs
      · split at hs <;> cases hs
        · exact h.setThread (placedAt_of rfl)
        · exact (h.of_eq (threads_dropContinuation _ env.renew)).setThread ((h t).congr rfl rfl rfl)
      · cases hs; exact h.setThread ((h t).congr rfl rfl rfl)
      · cases hs; exact h.setThread ((h t).congr rfl rfl rfl)
      · cases hs
  | erase t k =>
    simp only [Sys.step, Option.ite_none_right_eq_some, Option.some.injEq] at hs
    obtain ⟨-, rfl⟩ := hs
    exact h
  | exit t =>
    simp only [Sys.step, Sys.exitStep] at hs
    have hexit : Placed (s.setThread t { s.threads t with signaler := none, base := .exited }) :=
      h.setThread (placedAt_of rfl)
    split at hs
    · cases hs
    · split at hs <;> cases hs <;> exact hexit.of_eq rfl

end

/-! ## The location the hook uses -/

/-- The local of `enable_preemption` that points to an errno cell points to the function's. -/
def Pointed (b : Body) : Prop := ∀ e, b.pos = .enable e → e.pc ≠ .errno → e.erryes = b.group

section
variable {ok tidy : Prop} {t : Tid} {th th' : Thread V E} {c : Call V E} {b : Body} {w : World}
  {now : UInt64}

/-- The handler that returns to the call site is the one that has swapped. -/
theorem core_callsite {f : Frame} (h : Core ok tidy t th) (ha : th.base.alive = true)
    (hf : f ∈ th.handlers) (ht : f.target = .callsite) : th.base = .gone := by
  have hcalm (hc : Calm th) : th.base = .gone := by
    rw [(hc.frames f hf).target] at ht
    cases ht
  cases hb : th.base with
  | caller => exact hb ▸ hcalm (h.calm (.inl hb)).1
  | main pc => exact hb ▸ hcalm (h.calm (.inr (.inl ⟨pc, hb⟩))).1
  | boot => exact hb ▸ hcalm (h.calm (.inr (.inr hb))).1
  | body b =>
    obtain ⟨c, -, -, hin⟩ := h.body hb
    rw [(hin.frames f hf).target] at ht
    cases ht
  | gone => rfl
  | exited => rw [hb] at ha; cases ha
  | stuck why => rw [hb] at ha; cases ha

/-- `enable_preemption` picks its errno cell in its first step. -/
theorem enableStep_erryes {e e' : Enable} (hpc : e.pc ≠ .errno)
    (he : (th.enableStep w e).2 = .next e') :
    e'.erryes = e.erryes := by
  unfold Thread.enableStep at he
  cases hp : e.pc with
  | errno => exact absurd hp hpc
  | swap =>
    simp only [hp] at he
    cases he
    rfl
  | _ =>
    simp only [hp] at he
    split at he <;> cases he <;> rfl

/-- It is the function's: in `schedule` by the argument, in the hook by ERRNO_LOCATION. -/
theorem enableStep_pointed {e e' : Enable} (h : InBody t th c b) (hpos : b.pos = .enable e)
    (hp : Pointed b) (he : (th.enableStep w e).2 = .next e') : e'.erryes = b.group := by
  by_cases hpc : e.pc = .errno
  · have hg : e.group.or th.vars.errnoLocation.value = some b.group := by
      have hfits := h.body.fits
      have hloc := h.body.located
      simp only [hpos, Pos.Fits, Pos.located] at hfits hloc
      rw [h.body.group]
      cases hgr : e.group with
      | some g =>
        rw [hgr] at hfits
        rw [hfits.1]
        rfl
      | none => exact congrArg RefCell.value (hloc (by rw [hgr]; rfl))
    simp only [Thread.enableStep, hpc, hg] at he
    split at he <;> cases he
    rfl
  · exact (enableStep_erryes hpc he).trans (hp e hpos hpc)

theorem pointed_of (h : b.pos.enabling = false) : Pointed b := by
  intro e he
  rw [he] at h
  cases h

theorem enablePos_pointed {b' : Body} {e : Enable} (h : InBody t th c b) (hpos : b.pos = .enable e)
    (hp : Pointed b) (hb' : (th.enablePos w b e).base = .body b') : Pointed b' := by
  unfold Thread.enablePos at hb'
  split at hb'
  · rename_i th₁ e' heq
    cases hb'
    rintro _ ⟨⟩ -
    have hpointed : e'.erryes = b.group := enableStep_pointed h hpos hp (by rw [heq])
    exact hpointed
  · split at hb'
    · split at hb' <;> cases hb'
      exact pointed_of rfl
    · cases hb'
      exact pointed_of rfl
  · split at hb' <;> cases hb'
    exact pointed_of rfl
  · cases hb'

theorem bodyStep_pointed {b' : Body} (h : InBody t th c b) (hp : Pointed b)
    (hs : th.bodyStep w now c b = some th') (hb' : th'.base = .body b') : Pointed b' := by
  unfold Thread.bodyStep at hs
  cases hpos : b.pos <;> simp only [hpos, Option.some.injEq, reduceCtorEq] at hs
  case stamp =>
    split at hs <;> cases hs <;> cases hb'
    rintro _ ⟨⟩ hpc
    exact absurd rfl hpc
  case enable e => subst hs; exact enablePos_pointed h hpos hp hb'
  case call =>
    subst hs
    unfold Thread.callPos at hb'
    split at hb'
    · split at hb' <;> cases hb' <;> exact pointed_of rfl
    · cases hb'
  case pause back => subst hs; cases hb'; exact pointed_of rfl
  case deferMask back =>
    split at hs
    · cases hs; cases hb'
    · split at hs <;> cases hs <;> cases hb'
      exact pointed_of rfl
  case deferFlag back => subst hs; cases hb'; exact pointed_of rfl
  case disable pc =>
    subst hs
    cases hb'
    cases pc <;> exact pointed_of rfl
  case check => split at hs <;> cases hs <;> cases hb'; exact pointed_of rfl
  case ret => subst hs; cases hb'

theorem fnStep_pointed {b' : Body} {a : FnAct V E} (hb : th.base = .body b) (hp : Pointed b)
    (hs : th.fnStep c b a = some th') (hb' : th'.base = .body b') : Pointed b' := by
  unfold Thread.fnStep at hs
  split at hs <;> cases hs
  case h_1 => exact Base.body.inj (hb.symm.trans hb') ▸ hp
  case h_5 => exact Base.body.inj (hb.symm.trans hb') ▸ hp
  case h_6 =>
    cases hb'
    rintro _ ⟨⟩ hpc
    exact absurd rfl hpc
  all_goals cases hb'; exact pointed_of rfl

/-- The function a thread executes, or has left paused. -/
structure Points (th : Thread V E) : Prop where
  body : ∀ b, th.base = .body b → Pointed b
  task : th.base.paused = true → PausedAs (fun b _ => Pointed b) th.vars.task

theorem Points.of_off (hb : th.base.off = true) (hp : th.base.paused = false) : Points th :=
  ⟨fun b h => (by rw [h] at hb; cases hb), fun h => by rw [hp] at h; cases h⟩

/-- The thread has left the function's stack. -/
theorem Points.of_paused (hb : ∀ b, th.base ≠ .body b)
    (ht : PausedAs (fun b _ => Pointed b) th.vars.task) :
    Points th :=
  ⟨fun b h => absurd h (hb b), fun _ => ht⟩

theorem Points.handler {f : Frame} {rest : List Frame} (h : Points th)
    (hret : f.target = .callsite → th.base = .gone) : Points (th.handlerStep w now f rest) := by
  unfold Thread.handlerStep
  cases f.pc with
  | test e r => cases r <;> cases th.group.preemptible <;> exact ⟨h.body, h.task⟩
  | clock e d => dsimp only; split <;> exact ⟨h.body, h.task⟩
  | yielded e d =>
    dsimp only
    split
    · exact .of_off rfl rfl
    · exact ⟨h.body, h.task⟩
  | swap e =>
    simp only [Thread.swap]
    split
    · rename_i st m b _ _ hb
      refine .of_paused (fun _ hb' => Base.noConfusion hb') ?_
      rintro _ _ _ _ ⟨⟩
      exact h.body b hb
    · exact .of_off rfl rfl
  | deferMask e =>
    dsimp only
    split
    · exact .of_off rfl rfl
    · exact ⟨h.body, h.task⟩
  | disable pc => cases pc <;> exact ⟨h.body, h.task⟩
  | ret =>
    simp only [Thread.sigreturn]
    split
    · exact ⟨h.body, h.task⟩
    · rename_i ht
      exact .of_paused (fun _ hb' => Base.noConfusion hb') (h.task (by rw [hret ht]; rfl))
  | _ => exact ⟨h.body, h.task⟩

theorem Points.act {a : Act V E} (h : Points th) (hcore : Core ok tidy t th)
    (hs : th.step w a = some th') :
    Points th' := by
  cases Thread.step_acts hs with
  | delivers no => exact ⟨h.body, h.task⟩
  | handles now f rest _ hh =>
    exact h.handler (core_callsite hcore (Thread.alive_of_step hs)
      (by rw [hh]; exact List.mem_cons_self))
  | boots now c =>
    unfold Thread.bootStep
    split
    · exact .of_off rfl rfl
    · refine ⟨?_, fun hp => Bool.noConfusion hp⟩
      rintro _ ⟨⟩
      exact pointed_of rfl
  | runs now b c _ _ _ base call step =>
    obtain ⟨c', hc', -, hin⟩ := hcore.body base
    cases call.symm.trans hc'
    refine ⟨fun b' => bodyStep_pointed hin (h.body b base) step, fun hp => ?_⟩
    rcases bodyStep_leads step with ⟨b', hb'⟩ | ⟨why, hb'⟩ | ⟨hb', hvars⟩
    · rw [hb'] at hp; cases hp
    · rw [hb'] at hp; cases hp
    · rw [hvars]; exact hin.run.pausedAs
  | fn a b c _ _ _ base call step =>
    refine ⟨fun b' => fnStep_pointed base (h.body b base) step, fun hp => ?_⟩
    obtain ⟨b', hb'⟩ := fnStep_leads base step
    rw [hb'] at hp
    cases hp

theorem carries_pointed (cfg : Cfg V) :
    Carries cfg (fun b _ => Pointed b) (fun th : Thread V E => ∀ b, th.base = .body b → Pointed b)
      fun _ _ => True where
  quiet th _ hoff b hb := by rw [hb] at hoff; cases hoff
  jumps s t env c st m b hs th' _ _ _ _ _ hP hj b' hb' := by
    rw [hj.base] at hb'
    cases hb'
    exact hP
  acts s t a th' _ hcore hG htask hs :=
    have h : Points th' := Points.act ⟨hG, htask⟩ hcore hs
    ⟨h.body, h.task⟩

end

/-! ## Whole runs -/

/-- The default build and the one with the stub TCB, after the same steps. -/
structure Sim (d n : Sys V E) : Prop where
  alike : d.Alike n
  good : Good False True d
  outer : Outer d
  unheld : Unheld d
  placed : Placed n

/-- Nothing fails; each function is launched and resumed on a thread where
ERRNO_LOCATION is as it needs it, and none is dropped inside `errno_group`. -/
structure Homely (cfg : Cfg V) (s : Sys V E) (l : Label V E) : Prop where
  calls : NoFault s l
  deadlines : Bounded cfg s l
  located : Located s l
  released : Released s l

instance (cfg : Cfg V) (s : Sys V E) (l : Label V E) : Decidable (Homely cfg s l) :=
  decidable_of_iff (NoFault s l ∧ Bounded cfg s l ∧ Located s l ∧ Released s l)
    ⟨fun ⟨a, b, c, d⟩ => ⟨a, b, c, d⟩, fun ⟨a, b, c, d⟩ => ⟨a, b, c, d⟩⟩

section
variable {cfg : Cfg V} {d n n' : Sys V E} {l : Label V E} {ls : List (Label V E)}

theorem borrowing_alike (h : d.Alike n) (k : Lid) : d.borrowing k = n.borrowing k := by
  have hlinger := h.linger k
  unfold Sys.borrowing
  generalize d.lingers[k]? = x at hlinger ⊢
  generalize n.lingers[k]? = x' at hlinger ⊢
  cases hlinger with
  | none => rfl
  | continuation c c' trace hc =>
    have hblur : c.blur.borrowing = c'.blur.borrowing := congrArg Continuation.borrowing hc
    simpa only [Continuation.borrowing_blur] using hblur
  | other l hx => rfl

theorem released_alike (h : d.Alike n) (hr : Released n l) : Released d l := by
  cases l with
  | drop t k env => exact (borrowing_alike h k).trans hr
  | cancel t k env => exact (borrowing_alike h k).trans hr
  | _ => trivial

/-- The deadline of the slice is the same in the two builds. -/
theorem stampFits_alike {th th' : Thread V E} {now : UInt64} (h : th.blur = th'.blur)
    (hf : th'.StampFits now) :
    th.StampFits now := by
  rw [← Thread.stampFits_blur, h, Thread.stampFits_blur]
  exact hf

theorem Homely.tidy (h : d.Alike n) (hh : Homely cfg n l) : Tidy (cfg.build false) d l := by
  cases l with
  | resume t k us env => exact hh.calls
  | main t env =>
    exact fun _ _ _ => ⟨hh.calls, fun hov => stampFits_alike (h.threads t) (hh.deadlines hov)⟩
  | _ => trivial

theorem sim_init (masks : Tid → Sigset) :
    Sim (Sys.initial (cfg.build false) masks : Sys V E) (Sys.initial (cfg.build true) masks) where
  alike := ⟨fun _ => rfl, rfl, rfl, rfl, rfl, rfl, rfl⟩
  good := good_init False.elim (cfg.build false) masks
  outer _ := ⟨fun _ => ⟨rfl, rfl, rfl, rfl⟩, fun _ hc => absurd hc (Option.some_ne_none _).symm⟩
  unheld := unheld_init (cfg.build false) masks
  placed _ := placedAt_of rfl

theorem Sim.rel (h : Sim d n) (hh : Homely cfg n l) :
    Option.Rel Sys.Alike (Sys.step (cfg.build false) d l) (Sys.step (cfg.build true) n l) :=
  step_alike h.alike h.good h.outer h.unheld h.placed hh.calls hh.deadlines

theorem sim_step (h : Sim d n) (hh : Homely cfg n l)
    (hs : Sys.step (cfg.build true) n l = some n') :
    ∃ d', Sys.step (cfg.build false) d l = some d' ∧ Sim d' n' := by
  have hrel := h.rel hh
  rw [hs] at hrel
  cases hd : Sys.step (cfg.build false) d l with
  | none => rw [hd] at hrel; cases hrel
  | some d' =>
    rw [hd] at hrel
    refine ⟨d', rfl, Option.rel_some_some.mp hrel, ?_, ?_, ?_, ?_⟩
    · exact good_step rfl h.good False.elim (fun _ => hh.tidy h.alike) hd
    · exact outer_step rfl h.good h.outer hd
    · exact unheld_step rfl h.good h.unheld (released_alike h.alike hh.released) hd
    · have hstamp : Bounded (cfg.build true) n l := by cases l <;> exact hh.deadlines
      exact placed_step rfl h.placed h.alike h.good hh.calls hstamp hh.located hs

theorem sim_run (h : Sim d n) (hr : ((process (cfg.build true)).only (Homely cfg)).Run n ls n') :
    ∃ d', (process (cfg.build false)).Run d ls d' ∧ Sim d' n' := by
  induction hr generalizing d with
  | nil => exact ⟨d, .nil d, h⟩
  | cons hst _ ih =>
    obtain ⟨d₁, hd, h₁⟩ := sim_step h hst.2 hst.1
    obtain ⟨d', hrun, h'⟩ := ih h₁
    exact ⟨d', .cons hd hrun, h'⟩

/-- The variants of `Linger`, with the value and `yielded()`.
mirrors src/linger.rs:25-58 -/
inductive LingerState (V : Type) where
  | completion (v : V)
  | continuation (yielded : Bool)
  | poison
  | resuming (t : Tid)
  | dropped
  deriving DecidableEq

def lingerState (l : Linger V E) : LingerState V :=
  match l.cell with
  | .completion v => .completion v
  | .continuation c => .continuation c.stateful.yielded
  | .poison => .poison
  | .resuming t _ => .resuming t
  | .dropped => .dropped

/-- The two builds agree: in the `Linger`s, the functions' histories, the
results of all calls, the threads that are stuck, and what can happen next. -/
structure Agree (cfg : Cfg V) (d n : Sys V E) : Prop where
  states : d.lingers.map lingerState = n.lingers.map lingerState
  traces : d.lingers.map Linger.trace = n.lingers.map Linger.trace
  rets : ∀ t, (d.threads t).ret = (n.threads t).ret
  stuck : ∀ t why, (d.threads t).base = .stuck why ↔ (n.threads t).base = .stuck why
  enabled : ∀ l, Homely cfg n l → (Sys.step (cfg.build false) d l).isSome =
    (Sys.step (cfg.build true) n l).isSome

/-- The hook `resume_preemption` uses the errno location of the running
function's group, where it looks it up and where it then writes. -/
def HookPoints (th : Thread V E) : Prop :=
  ∀ c b e, th.call = some c → th.base = .body b → b.pos = .enable e → e.group = none →
    if e.pc = .errno then th.vars.errnoLocation.value = some c.group else e.erryes = c.group

theorem lingerState_blur (l : Linger V E) : lingerState l.blur = lingerState l := by
  obtain ⟨x, trace⟩ := l
  cases x <;> rfl

theorem Sim.agree (h : Sim d n) : Agree cfg d n where
  states := by
    have := congrArg (List.map lingerState) h.alike.lingers
    simpa only [List.map_map, Function.comp_def, lingerState_blur] using this
  traces := by
    have := congrArg (List.map Linger.trace) h.alike.lingers
    simpa only [List.map_map, Function.comp_def, Linger.blur] using this
  rets t := (congrArg Thread.ret (h.alike.threads t) :)
  stuck t why := by
    rw [← Base.blur_eq_stuck, show (d.threads t).base.blur = (n.threads t).base.blur from
      congrArg Thread.base (h.alike.threads t), Base.blur_eq_stuck]
  enabled l hl := by
    have same {x y : Option (Sys V E)} (hrel : Option.Rel Sys.Alike x y) : x.isSome = y.isSome := by
      cases hrel <;> rfl
    exact same (h.rel hl)

theorem hookPoints_default (hr : (process (cfg.build false)).Reachable d) (t : Tid) :
    HookPoints (d.threads t) := by
  obtain ⟨hg, hcarried⟩ := carried_reachable rfl (carries_pointed (cfg.build false))
    (hr.only_of_forall fun _ _ => trivial)
  intro c b e hc hb hpos he
  obtain ⟨c', hc', -, hin⟩ := (hg.threads t).body hb
  cases hc.symm.trans hc'
  split
  · exact congrArg RefCell.value (hin.body.located (by simp [hpos, Pos.located, he]))
  · rename_i hpc
    rw [← hin.body.group]
    exact hcarried.threads t b hb e hpos hpc

theorem hookPoints_alike {th th' : Thread V E} (h : th.blur = th'.blur) (hp : HookPoints th) :
    HookPoints th' := by
  intro c' b' e' hc' hb' hpos' he'
  obtain ⟨b, hb, hbody⟩ : ∃ b, th.base = .body b ∧ b.blur = b'.blur := by
    have hbase : th.base.blur = th'.base.blur := congrArg Thread.base h
    rw [hb'] at hbase
    cases hb : th.base with
    | body b => rw [hb] at hbase; exact ⟨b, rfl, Base.body.inj hbase⟩
    | _ => rw [hb] at hbase; cases hbase
  obtain ⟨e, hpos, henable⟩ : ∃ e, b.pos = .enable e ∧ e.blur = e'.blur := by
    have hpos : b.pos.blur = b'.pos.blur := congrArg Body.pos hbody
    rw [hpos'] at hpos
    cases hp : b.pos with
    | enable e => rw [hp] at hpos; exact ⟨e, rfl, Pos.enable.inj hpos⟩
    | _ => rw [hp] at hpos; cases hpos
  obtain ⟨c, hc, hcall⟩ : ∃ c, th.call = some c ∧ c.blur = c'.blur := by
    have hcall : th.call.map Call.blur = th'.call.map Call.blur := congrArg Thread.call h
    rw [hc', Option.map_some, Option.map_eq_some_iff] at hcall
    exact hcall
  simp only [Enable.blur, Enable.mk.injEq] at henable
  obtain ⟨hpc, hgroup, herryes, -, -⟩ := henable
  have he : e.group = none := hgroup.trans he'
  -- In the hook, ERRNO_LOCATION is part of what the builds share.
  have hloc : th.vars.errnoLocation = th'.vars.errnoLocation := by
    have hvars := congrArg (fun th : Thread V E => th.vars.errnoLocation) h
    simpa [Thread.blur, Vars.blur, hb, hb', Base.located, hpos, hpos', Pos.located, he, he']
      using hvars
  have := hp c b e hc hb hpos he
  rwa [hpc, hloc, herryes, show c.group = c'.group from (congrArg Call.group hcall :)] at this

end

/-- **The two builds agree** in every run, over any number of threads and functions,
in which nothing fails, no function is dropped inside `errno_group`, every function
is started on a thread no function has been paused on inside `errno_group`, and
every paused function is resumed on a thread where it is the last one started, and
the one it was paused on if it is inside `errno_group`; the hook then uses the
location of the running function's group in both. -/
theorem builds_agree (cfg : Cfg V) (masks : Tid → Sigset) (ls : List (Label V E)) (n : Sys V E)
    (hr : ((process (cfg.build true)).only (Homely cfg)).Run
      (Sys.initial (cfg.build true) masks) ls n) :
    ∃ d, (process (cfg.build false)).Run (Sys.initial (cfg.build false) masks) ls d ∧
      Agree cfg d n ∧
      ∀ t, HookPoints (d.threads t) ∧ HookPoints (n.threads t) := by
  obtain ⟨d, hrun, hsim⟩ := sim_run (sim_init masks) hr
  refine ⟨d, hrun, hsim.agree, fun t => ?_⟩
  have hd := hookPoints_default ⟨_, ls, ⟨masks, rfl⟩, hrun⟩ t
  exact ⟨hd, hookPoints_alike (hsim.alike.threads t) hd⟩

/-- Thread `t`, whose signal is `no`, launches a function, which is preempted. -/
def launchedSlice (t : Tid) (no : Signal) : List (Label Bool Bool) :=
  launchOn t ++ preempted t no 10000

/-- Thread `t` resumes the first function, which makes a library call; the hook is next. -/
def resumedCall (t : Tid) : List (Label Bool Bool) :=
  .resume t 0 5 (.fine 0) :: List.replicate 4 (.main t (.fine 0)) ++
    [.act t (.fn .call), .act t (.fn .exit)]

/-- The function ends. -/
def finished (t : Tid) : List (Label Bool Bool) :=
  .act t (.fn (.finish (.ok true))) :: List.replicate 6 (.act t (.run 0)) ++ [.main t (.fine 0)]

/-- In group 0's function's hook, about to use group 1's location. -/
def misplaced (th : Thread Bool Bool) : Bool :=
  match th.call, th.base with
  | some c, .body b =>
    decide (b.pos = .enable .hook ∧ c.group = 0 ∧ th.vars.errnoLocation.value = some 1)
  | _, _ => false

theorem run_of_checked (cfg : Cfg V) (C : Sys V E → Label V E → Prop) [∀ s l, Decidable (C s l)]
    (ls : List (Label V E)) (p : Sys V E → Bool)
    (h : (LTS.exec (LTS.checked C (Sys.step cfg)) (Sys.initial cfg fun _ => ∅) ls).map p =
      some true) :
    ∃ s, ((process cfg).only C).Run (Sys.initial cfg fun _ => ∅) ls s ∧ p s = true := by
  simp only [Option.map_eq_some_iff] at h
  obtain ⟨s, hs, hp⟩ := h
  exact ⟨s, LTS.Run.of_checked (LTS.run_of_exec hs), hp⟩

theorem builds_agree_resumedCall : ∃ d n : Sys Bool Bool,
    ((process (Cfg.small.build true)).only (Homely Cfg.small)).Run
      (Sys.initial (Cfg.small.build true) fun _ => ∅)
      (launchedSlice 0 .Alarm ++ resumedCall 0) n ∧
    (process (Cfg.small.build false)).Run (Sys.initial (Cfg.small.build false) fun _ => ∅)
      (launchedSlice 0 .Alarm ++ resumedCall 0) d ∧
    Agree Cfg.small d n ∧ (n.threads 0).vars.errnoLocation.value = some 0 := by
  obtain ⟨n, hrun, hloc⟩ := run_of_checked (Cfg.small.build true) (Homely Cfg.small)
    (launchedSlice 0 .Alarm ++ resumedCall 0)
    (fun n => decide ((n.threads 0).vars.errnoLocation.value = some 0)) (by decide +kernel)
  obtain ⟨d, hd, hagree, -⟩ := builds_agree Cfg.small (fun _ => ∅) _ n hrun
  exact ⟨d, n, hrun, hd, hagree, by simpa using hloc⟩

/-- Where the default build goes on to the end of the function, the one with the
stub TCB is stuck. -/
def Diverges (ls rest : List (Label Bool Bool)) (t : Tid) (why : Stuck)
    (states : List (LingerState Bool)) : Prop :=
  ∃ d n : Sys Bool Bool,
    ((process (Cfg.small.build true)).only NoFault).Run
      (Sys.initial (Cfg.small.build true) fun _ => ∅) ls n ∧
    (n.threads t).base = .stuck why ∧
    ((process (Cfg.small.build false)).only NoFault).Run
      (Sys.initial (Cfg.small.build false) fun _ => ∅)
      (ls ++ rest) d ∧
    d.lingers.map lingerState = states

theorem diverges_of_exec {ls rest : List (Label Bool Bool)} {t : Tid} {why : Stuck}
    {states : List (LingerState Bool)}
    (hn : (LTS.exec (LTS.checked NoFault (Sys.step (Cfg.small.build true)))
      (Sys.initial (Cfg.small.build true) fun _ => ∅) ls).map
        (fun n : Sys Bool Bool => decide ((n.threads t).base = .stuck why)) = some true)
    (hd : (LTS.exec (LTS.checked NoFault (Sys.step (Cfg.small.build false)))
      (Sys.initial (Cfg.small.build false) fun _ => ∅) (ls ++ rest)).map
        (fun d : Sys Bool Bool => decide (d.lingers.map lingerState = states)) = some true) :
    Diverges ls rest t why states := by
  obtain ⟨n, hn, hp⟩ := run_of_checked (Cfg.small.build true) NoFault ls _ hn
  obtain ⟨d, hd, hq⟩ := run_of_checked (Cfg.small.build false) NoFault (ls ++ rest) _ hd
  exact ⟨d, n, hn, of_decide_eq_true hp, hd, of_decide_eq_true hq⟩

/-- **The stub TCB loses the location.** Another function is started on the
thread, and the hook uses its location. Or the build panics where the default one
goes on to the function's end: the function is resumed on a thread where none has
been started, and the hook finds no location; or the thread launches a second
function while the first is paused inside `errno_group`, and ERRNO_LOCATION is still
borrowed. -/
theorem stub_mislocates :
    (∃ s : Sys Bool Bool, ((process (Cfg.small.build true)).only NoFault).Reachable s ∧
      ∃ c b, (s.threads 0).call = some c ∧ (s.threads 0).base = .body b ∧ b.pos = .enable .hook ∧
        c.group = 0 ∧
        (s.threads 0).vars.errnoLocation.value = some 1) ∧
    Diverges (launchedSlice 0 .Alarm ++ resumedCall 1 ++ [.act 1 (.run 0)])
      (List.replicate 5 (.act 1 (.run 0)) ++ finished 1) 1 .errnoLocation [.completion true] ∧
    Diverges (pausedInHook ++ launchedToErrno)
      (List.replicate 7 (.act 0 (.run 0)) ++ finished 0) 0 .errnoBorrowed
        [.continuation false, .completion true] := by
  refine ⟨?_, diverges_of_exec (by decide +kernel) (by decide +kernel),
    diverges_of_exec (by decide +kernel) (by decide +kernel)⟩
  obtain ⟨s, hr, hp⟩ := process_only_of_exec (Cfg.small.build true) NoFault
    (launchedSlice 0 .Alarm ++ launchedSlice 0 .Alarm ++ resumedCall 0)
    (fun s => misplaced (s.threads 0)) (by decide +kernel)
  unfold misplaced at hp
  split at hp
  · rename_i c b hc hb
    simp only [decide_eq_true_eq] at hp
    exact ⟨s, hr, c, b, hc, hb, hp⟩
  · cases hp

end Inger.L4
