import Inger.L3Slice.Shape

/-!
# What the thread-locals that are not reset do not matter for

Three of a block's variables are not reset between two slices: the errno cells,
DEADLINE and ERRNO_LOCATION. `blur` forgets them where nothing reads them any
more before they are written: the values of errno everywhere (those that
handlers, `enable_preemption` and a paused task have saved included), DEADLINE
outside the jump, the function's stack and the handler that leaves it,
ERRNO_LOCATION before the function's first `enable_preemption` and after the
function has left.

`step_blur`: what a thread's step makes of a blurred thread does not depend on
what is forgotten, so two threads that look the same when blurred take the same
steps and still do. The first `enable_preemption` has to find ERRNO_LOCATION not
borrowed (`Thread.Unflagged`).
-/
namespace Inger.L2

open L1.Signals

variable {V E : Type}

def Enable.blur (e : Enable) : Enable := { e with errno := 0 }

def Pos.blur : Pos → Pos
  | .enable e => .enable e.blur
  | p => p

def Body.blur (b : Body) : Body := { b with pos := b.pos.blur }

def HandlerPc.blur : HandlerPc → HandlerPc
  | .relevant _ => .relevant 0
  | .test _ r => .test 0 r
  | .deadline _ => .deadline 0
  | .clock _ d => .clock 0 d
  | .yielded _ d => .yielded 0 d
  | .swap _ => .swap 0
  | .errno _ => .errno 0
  | .deferMask _ => .deferMask 0
  | .deferFlag _ => .deferFlag 0
  | .ignore _ => .ignore 0
  | .restore _ => .restore 0
  | pc => pc

def Frame.blur (f : Frame) : Frame := { f with pc := f.pc.blur }

def Code.blur : Code → Code
  | .paused b hs => .paused b.blur (hs.map Frame.blur)
  | c => c

def Context.blur (ctx : Context) : Context := { ctx with code := ctx.code.blur }

def Task.blur (k : Task) : Task :=
  ⟨k.errno.map fun _ => 0, k.checkpoint.map Context.blur, k.yielded⟩

/-- `timed` and `located`: DEADLINE and ERRNO_LOCATION matter. -/
def Vars.blur (timed located : Bool) (v : Vars) : Vars :=
  ⟨v.bootstrap, v.task.blur, if timed then v.deadline else 0, v.signal, v.deferred,
    if located then v.errnoLocation else ⟨none, false⟩, fun _ => 0⟩

/-- The thread-locals that are not installed are forgotten. -/
def Call.blur (c : Call V E) : Call V E := { c with task := c.task.blur, other := .fresh }

def Base.blur : Base → Base
  | .body b => .body b.blur
  | b => b

/-- DEADLINE is that of the slice. -/
def Base.timed : Base → Bool
  | .main .switch => true
  | .boot => true
  | .body _ => true
  | .gone => true
  | _ => false

/-- ERRNO_LOCATION is that of the function. -/
def Base.located : Base → Bool
  | .body b => b.pos.located
  | _ => false

def Thread.blur (th : Thread V E) : Thread V E :=
  { th with
    vars := th.vars.blur th.base.timed th.base.located
    call := th.call.map Call.blur
    base := th.base.blur
    handlers := th.handlers.map Frame.blur }

/-! ## Blurring twice -/

@[simp] theorem Pos.blur_blur (p : Pos) : p.blur.blur = p.blur := by cases p <;> rfl

@[simp] theorem Pos.located_blur (p : Pos) : p.blur.located = p.located := by cases p <;> rfl

@[simp] theorem Pos.borrowing_blur (p : Pos) : p.blur.borrowing = p.borrowing := by cases p <;> rfl

@[simp] theorem Body.blur_blur (b : Body) : b.blur.blur = b.blur := by
  simp only [Body.blur, Pos.blur_blur]

@[simp] theorem HandlerPc.blur_blur (pc : HandlerPc) : pc.blur.blur = pc.blur := by cases pc <;> rfl

@[simp] theorem HandlerPc.borrows_blur (pc : HandlerPc) : pc.blur.borrows = pc.borrows := by
  cases pc <;> rfl

@[simp] theorem Frame.blur_blur (f : Frame) : f.blur.blur = f.blur := by
  simp only [Frame.blur, HandlerPc.blur_blur]

@[simp] theorem Frame.map_blur_blur (hs : List Frame) :
    (hs.map Frame.blur).map Frame.blur = hs.map Frame.blur := by
  rw [List.map_map]
  exact List.map_congr_left fun f _ => f.blur_blur

@[simp] theorem Code.blur_blur (c : Code) : c.blur.blur = c.blur := by
  cases c with
  | paused b hs => simp only [Code.blur, Body.blur_blur, Frame.map_blur_blur]
  | _ => rfl

@[simp] theorem Context.blur_blur (ctx : Context) : ctx.blur.blur = ctx.blur := by
  simp only [Context.blur, Code.blur_blur]

@[simp] theorem Task.blur_blur (k : Task) : k.blur.blur = k.blur := by
  simp only [Task.blur, Option.map_map]
  congr 1
  cases k.checkpoint with
  | none => rfl
  | some ctx => exact congrArg some ctx.blur_blur

@[simp] theorem Vars.blur_blur (timed located timed' located' : Bool) (v : Vars) :
    (v.blur timed located).blur timed' located' = v.blur (timed && timed')
      (located && located') := by
  simp only [Vars.blur, Task.blur_blur]
  cases timed <;> cases located <;> cases timed' <;> cases located' <;> rfl

@[simp] theorem Vars.blur_setErrno (timed located : Bool) (v : Vars) (g : Group) (e : Int) :
    (v.setErrno g e).blur timed located = v.blur timed located := rfl

@[simp] theorem threadSignal_blur (w : World) (timed located : Bool) (v : Vars) :
    threadSignal w.sig (v.blur timed located) = threadSignal w.sig v := rfl

@[simp] theorem Call.blur_blur (c : Call V E) : c.blur.blur = c.blur := by
  simp only [Call.blur, Task.blur_blur]

@[simp] theorem Call.map_blur_blur (c : Option (Call V E)) :
    (c.map Call.blur).map Call.blur = c.map Call.blur := by
  cases c with
  | none => rfl
  | some c => exact congrArg some c.blur_blur

@[simp] theorem Base.blur_blur (b : Base) : b.blur.blur = b.blur := by
  cases b with
  | body b => simp only [Base.blur, Body.blur_blur]
  | _ => rfl

@[simp] theorem Base.timed_blur (b : Base) : b.blur.timed = b.timed := by cases b <;> rfl

@[simp] theorem Base.alive_blur (b : Base) : b.blur.alive = b.alive := by cases b <;> rfl

@[simp] theorem Base.located_blur (b : Base) : b.blur.located = b.located := by
  cases b with
  | body b => exact b.pos.located_blur
  | _ => rfl

@[simp] theorem Thread.blur_blur (th : Thread V E) : th.blur.blur = th.blur := by
  simp only [Thread.blur, Base.blur_blur, Base.timed_blur, Base.located_blur, Vars.blur_blur,
    Frame.map_blur_blur, Call.map_blur_blur, Bool.and_self]

/-- A handler is about to read DEADLINE only where it is that of the slice. -/
def Thread.Timed (th : Thread V E) : Prop :=
  ∀ f ∈ th.handlers, f.pc.blur = .deadline 0 → th.base.timed = true

theorem Thread.timed_blur {th : Thread V E} : th.blur.Timed ↔ th.Timed := by
  simp only [Timed, Thread.blur, Base.timed_blur, List.forall_mem_map, Frame.blur,
    HandlerPc.blur_blur]

/-- Before the function has set ERRNO_LOCATION, it is not borrowed. -/
def Thread.Unflagged (th : Thread V E) : Prop :=
  ∀ b, th.base = .body b → b.pos.located = false → th.vars.errnoLocation.borrowed = false

theorem Thread.stampFits_blur {th : Thread V E} {now : UInt64} :
    th.blur.StampFits now ↔ th.StampFits now := by
  have hstamping : th.blur.stamping = th.stamping := by
    obtain ⟨sg, m, p, g, v, c, b, hs, r⟩ := th
    cases hs with
    | cons f rest => rfl
    | nil =>
      cases b with
      | main pc =>
        cases pc <;> cases c <;> simp [Thread.blur, Thread.stamping, Base.blur, Call.blur,
          Task.blur]
      | body b =>
        cases hp : b.pos <;> simp [Thread.blur, Thread.stamping, Base.blur, Body.blur, Pos.blur, hp]
      | _ => rfl
  have hdeadline (h : th.stamping = true) : th.blur.vars.deadline = th.vars.deadline := by
    refine if_pos ?_
    unfold Thread.stamping at h
    split at h
    · rename_i hb _
      rw [hb]
      rfl
    · rename_i hb
      rw [hb]
      rfl
    · cases h
  unfold Thread.StampFits
  rw [hstamping]
  exact forall_congr' fun h => by rw [hdeadline h]

/-! ## Handlers -/

namespace Thread

variable {w : World} {now : UInt64} {th : Thread V E}

/-- The innermost handler goes on. -/
theorem blur_at {f f' : Frame} {v v' : Vars} (rest : List Frame) (hf : f.blur = f'.blur)
    (hv : v.blur th.base.timed th.base.located = v'.blur th.base.timed th.base.located) :
    Thread.blur { th.blur with handlers := f :: rest.map Frame.blur, vars := v } =
      Thread.blur { th with handlers := f' :: rest, vars := v' } := by
  simp only [Thread.blur, Base.blur_blur, Base.timed_blur, Base.located_blur, Call.map_blur_blur,
    List.map_cons, Frame.map_blur_blur, hf, hv]

/-- A thread that takes no further step. -/
theorem blur_fail (why : Stuck) : (th.blur.fail why).blur = (th.fail why).blur := by
  simp only [fail, Thread.blur, Base.blur, Base.timed, Base.located, Call.map_blur_blur,
    Frame.map_blur_blur, Vars.blur_blur, Bool.and_false]

theorem any_borrows_blur (rest : List Frame) :
    (rest.map Frame.blur).any (·.pc.borrows) = rest.any (·.pc.borrows) := by
  rw [List.any_map]
  exact List.any_congr rfl fun f => f.pc.borrows_blur

theorem disableStep_blur (block : Option Signal) (pc : DisablePc) :
    (th.blur.disableStep block pc).blur = (th.disableStep block pc).blur := by
  cases pc with
  | group => exact congrArg (fun th => { th with group := .SHARED }) th.blur_blur
  | mask =>
    cases block with
    | none => exact th.blur_blur
    | some signal =>
      exact congrArg (fun th : Thread V E => { th with mask := insert signal th.mask }) th.blur_blur
  | signal =>
    exact congrArg (fun th : Thread V E => { th with vars := { th.vars with signal := none } })
      th.blur_blur
  | deferred =>
    exact congrArg (fun th : Thread V E => { th with vars := { th.vars with deferred := false } })
      th.blur_blur

/-- The swap. -/
theorem swap_blur (f : Frame) (rest : List Frame) (pc : HandlerPc) :
    (th.blur.swap f.blur (rest.map Frame.blur) pc.blur).blur = (th.swap f rest pc).blur := by
  have fails : (th.blur.fail .wild).blur = (th.fail .wild).blur := blur_fail .wild
  unfold swap
  rw [show th.blur.vars.task.checkpoint = th.vars.task.checkpoint.map Context.blur from rfl,
    show th.blur.base = th.base.blur from rfl, show f.blur.target = f.target from rfl]
  match th.vars.task.checkpoint, f.target, hb : th.base with
  | none, _, _ => exact fails
  | some ⟨_, _, .entry⟩, _, _ => exact fails
  | some ⟨_, _, .paused _ _⟩, _, _ => exact fails
  | some ⟨_, _, .callsite⟩, .callsite, _ => exact fails
  | some ⟨_, _, .callsite⟩, .interrupted, .body b =>
    simp only [hb, Option.map_some, Context.blur, Code.blur, Base.blur, Thread.blur, Base.timed,
      Base.located, Call.blur_blur, List.map_cons, List.map_nil, Vars.blur, Task.blur,
      Body.blur_blur, Frame.map_blur_blur, Option.map_map, Function.comp_def, Bool.false_eq_true,
      if_false, if_true, Frame.blur, HandlerPc.blur_blur]
  | some ⟨_, _, .callsite⟩, .interrupted, .caller => exact fails
  | some ⟨_, _, .callsite⟩, .interrupted, .main _ => exact fails
  | some ⟨_, _, .callsite⟩, .interrupted, .boot => exact fails
  | some ⟨_, _, .callsite⟩, .interrupted, .gone => exact fails
  | some ⟨_, _, .callsite⟩, .interrupted, .exited => exact fails
  | some ⟨_, _, .callsite⟩, .interrupted, .stuck _ => exact fails

/-- A step of the innermost handler. DEADLINE is read on the function's stack
only. -/
theorem handlerStep_blur (f : Frame) (rest : List Frame)
    (hd : f.pc.blur = .deadline 0 → th.base.timed = true) :
    (th.blur.handlerStep w now f.blur (rest.map Frame.blur)).blur =
      (th.handlerStep w now f rest).blur := by
  have same : (th.vars.blur th.base.timed th.base.located).blur th.base.timed th.base.located =
      th.vars.blur th.base.timed th.base.located := by
    rw [Vars.blur_blur, Bool.and_self, Bool.and_self]
  obtain ⟨no, mask, target, pc⟩ := f
  cases pc with
  | entry => exact blur_at rest rfl same
  | relevant e => exact blur_at rest rfl same
  | test e r =>
    simp only [handlerStep, Frame.blur, HandlerPc.blur]
    rw [show th.blur.group = th.group from rfl]
    split
    · exact blur_at rest rfl same
    · split
      · exact blur_at rest rfl same
      · exact blur_at rest rfl same
  | deadline e =>
    have hdeadline : th.blur.vars.deadline = th.vars.deadline := if_pos (hd rfl)
    simp only [handlerStep, Frame.blur, HandlerPc.blur, hdeadline]
    exact blur_at rest rfl same
  | clock e d =>
    simp only [handlerStep, Frame.blur, HandlerPc.blur]
    split
    · exact blur_at rest rfl same
    · exact blur_at rest rfl same
  | yielded e d =>
    simp only [handlerStep, Frame.blur, HandlerPc.blur, any_borrows_blur]
    split
    · exact blur_fail .borrowed
    · refine blur_at rest rfl ?_
      exact congrArg (fun v : Vars => { v with task := { v.task with yielded := d = 0 } }) same
  | swap e => exact swap_blur _ rest (.errno e)
  | errno e =>
    simp only [handlerStep, Frame.blur, HandlerPc.blur]
    refine blur_at rest rfl ?_
    exact congrArg (fun v : Vars => { v with task := { v.task with errno := some 0 } }) same
  | block => exact blur_at rest rfl same
  | disable pc =>
    have key (pc' : HandlerPc) :
        (Thread.disableStep
          { th.blur with handlers := ⟨no, mask, target, pc'⟩ :: rest.map Frame.blur } none pc).blur =
          (Thread.disableStep { th with handlers := ⟨no, mask, target, pc'⟩ :: rest }
            none pc).blur := by
      have hat :
          Thread.blur { th.blur with handlers := ⟨no, mask, target, pc'⟩ :: rest.map Frame.blur } =
          Thread.blur { th with handlers := ⟨no, mask, target, pc'⟩ :: rest } :=
            blur_at rest rfl same
      exact ((disableStep_blur none pc).symm.trans
        (congrArg (fun th => (Thread.disableStep th none pc).blur) hat)).trans
          (disableStep_blur none pc)
    exact key _
  | deferMask e =>
    simp only [handlerStep, Frame.blur, HandlerPc.blur]
    rw [show th.blur.group = th.group from rfl]
    split
    · exact blur_fail .deferring
    · exact blur_at rest rfl same
  | deferFlag e =>
    simp only [handlerStep, Frame.blur, HandlerPc.blur]
    refine blur_at rest rfl ?_
    exact congrArg (fun v : Vars => { v with deferred := true }) same
  | ignore e => exact blur_at rest rfl same
  | restore e => exact blur_at rest rfl same
  | ret =>
    simp only [handlerStep, Frame.blur, HandlerPc.blur, sigreturn]
    cases target with
    | interrupted =>
      simp only [Thread.blur, Base.blur_blur, Base.timed_blur, Base.located_blur,
        Call.map_blur_blur, Frame.map_blur_blur, Vars.blur_blur, Bool.and_self]
    | callsite =>
      simp only [Thread.blur, Base.blur, Base.timed, Base.located, Call.map_blur_blur,
        Vars.blur_blur, Bool.and_false, List.map_nil]

/-! ## The function's stack -/

section
variable {b b' : Body} {pos pos' : Pos} {v v' : Vars} {mask pending : Sigset} {group : Group}
  {call call' : Option (Call V E)}

variable (th) in
/-- The function's code goes on. -/
theorem blur_goto (hb : b.blur = b'.blur) (hpos : pos.blur = pos'.blur)
    (hv : v.blur true pos'.located = v'.blur true pos'.located)
    (hcall : call.map Call.blur = call'.map Call.blur) :
    (Thread.goto
        { th.blur with mask := mask, pending := pending, group := group, vars := v, call := call }
        b pos).blur =
      (Thread.goto
        { th with mask := mask, pending := pending, group := group, vars := v', call := call' }
        b' pos').blur := by
  have hbody : Body.blur { b with pos := pos } = Body.blur { b' with pos := pos' } := by
    simp only [Body.blur, Body.mk.injEq] at hb ⊢
    exact ⟨hb.1, hb.2.1, hb.2.2.1, hpos⟩
  have hloc : pos.located = pos'.located := by rw [← Pos.located_blur, hpos, Pos.located_blur]
  simp only [goto, Thread.blur, Base.blur, hbody, Base.timed, Base.located, hcall,
    Frame.map_blur_blur, hloc, hv]

/-- On the function's stack, what matters afterwards matters before. -/
theorem vars_blur {b₀ : Body} (hb₀ : th.base = .body b₀) {l : Bool}
    (hl : l = true → b₀.pos.located = true) :
    th.blur.vars.blur true l = th.vars.blur true l := by
  simp only [Thread.blur, hb₀, Base.timed, Base.located, Vars.blur_blur, Bool.and_true]
  cases l with
  | false => rw [Bool.and_false]
  | true => rw [hl rfl]; rfl

/-- The code keeps the thread-locals. -/
theorem blur_goto_kept {b₀ : Body} (hb₀ : th.base = .body b₀)
    (hloc : pos'.located = true → b₀.pos.located = true) (hb : b.blur = b'.blur)
    (hpos : pos.blur = pos'.blur) :
    (Thread.goto { th.blur with mask := mask, pending := pending, group := group } b pos).blur =
      (Thread.goto { th with mask := mask, pending := pending, group := group } b' pos').blur :=
  blur_goto th hb hpos (vars_blur hb₀ hloc) (Call.map_blur_blur th.call)

end

/-- What `enable_preemption` sees of the thread-locals. -/
theorem vars_enable {b : Body} {e : Enable} (hb : th.base = .body b) (hpos : b.pos = .enable e) :
    th.blur.vars = th.vars.blur true (e.group.isNone || e.pc != .errno) := by
  simp only [Thread.blur, hb, Base.timed, Base.located, hpos, Pos.located]

/-- `errno_group` sets ERRNO_LOCATION if it is given a group, and reads it if not. -/
theorem enablePos_blur_errno {b : Body} {g : Option Gid} {erryes : Gid} {errno : Int}
    {unblock : Option Signal} {cell : Option Tid} (hu : th.Unflagged) (hb : th.base = .body b)
    (hpos : b.pos = .enable ⟨.errno, g, erryes, errno, unblock, cell⟩) :
    (th.blur.enablePos w b.blur (Enable.blur ⟨.errno, g, erryes, errno, unblock, cell⟩)).blur =
      (th.enablePos w b ⟨.errno, g, erryes, errno, unblock, cell⟩).blur := by
  have hv := vars_enable hb hpos
  simp only [enablePos, enableStep, Enable.blur]
  cases g with
  | some g =>
    have hflag : th.vars.errnoLocation.borrowed = false := hu b hb (by rw [hpos]; rfl)
    have hflag' : th.blur.vars.errnoLocation.borrowed = false := by rw [hv]; rfl
    rw [hflag, hflag']
    refine blur_goto th b.blur_blur rfl ?_ (Call.map_blur_blur th.call)
    rw [hv]
    simp only [Vars.blur, Task.blur_blur, if_true, Pos.located]
  | none =>
    have hloc : th.blur.vars.errnoLocation = th.vars.errnoLocation := by rw [hv]; rfl
    rw [hloc, Option.none_or]
    cases th.vars.errnoLocation.borrowed with
    | true => exact blur_fail .errnoBorrowed
    | false =>
      cases hset : th.vars.errnoLocation.value with
      | none => exact blur_fail .errnoLocation
      | some g =>
        refine blur_goto th b.blur_blur rfl ?_ (Call.map_blur_blur th.call)
        rw [hv]
        simp only [Vars.blur, Task.blur_blur, if_true]

theorem enablePos_blur {b : Body} {e : Enable} (hu : th.Unflagged) (hb : th.base = .body b)
    (hpos : b.pos = .enable e) :
    (th.blur.enablePos w b.blur e.blur).blur = (th.enablePos w b e).blur := by
  have hv := vars_enable hb hpos
  obtain ⟨pc, g, erryes, errno, unblock, cell⟩ := e
  by_cases hpc : pc = .errno
  · subst hpc
    exact enablePos_blur_errno hu hb hpos
  -- Past its first statement, ERRNO_LOCATION is that of the function.
  have kept {m p : Sigset} {gr : Group} {b₁ b₂ : Body} {pos₁ pos₂ : Pos}
      (hb₁ : b₁.blur = b₂.blur) (hpos₁ : pos₁.blur = pos₂.blur) :
      (Thread.goto { th.blur with mask := m, pending := p, group := gr } b₁ pos₁).blur =
        (Thread.goto { th with mask := m, pending := p, group := gr } b₂ pos₂).blur := by
    refine blur_goto_kept hb (fun _ => ?_) hb₁ hpos₁
    simp [hpos, Pos.located, hpc]
  have same (l : Bool) :
      (th.vars.blur true (g.isNone || pc != .errno)).blur true l = th.vars.blur true l := by
    rw [bne_iff_ne.mpr hpc, Bool.or_true, Vars.blur_blur, Bool.true_and, Bool.true_and]
  simp only [enablePos, enableStep, Enable.blur]
  cases pc with
  | errno => exact absurd rfl hpc
  | location =>
    dsimp only
    rw [show th.blur.vars.signal = th.vars.signal from rfl]
    by_cases hw : w.notls = true ∧ cell ≠ th.vars.signal
    · simp only [hw, ne_eq, not_false_eq_true, and_self, if_true]
      exact blur_fail .wild
    · simp only [hw, if_false]
      refine blur_goto th b.blur_blur rfl ?_ (Call.map_blur_blur th.call)
      rw [hv]
      cases g <;> exact congrArg (fun v : Vars => { v with
        errnoLocation := { v.errnoLocation with borrowed := false } }) (same true)
  | group =>
    cases g with
    | none => exact kept b.blur_blur rfl
    | some g => exact kept b.blur_blur rfl
  | first =>
    rw [hv, threadSignal_blur]
    cases threadSignal w.sig th.vars with
    | some signal => exact kept b.blur_blur rfl
    | none =>
      cases g with
      | none => exact kept b.blur_blur rfl
      | some g => exact blur_fail .scheduleTls
  | swap =>
    have hdef : th.blur.vars.deferred = th.vars.deferred := rfl
    rw [hdef]
    refine blur_goto th b.blur_blur rfl ?_ (Call.map_blur_blur th.call)
    rw [hv]
    exact congrArg (fun v : Vars => { v with deferred := false }) (same _)
  | get =>
    rw [hv, threadSignal_blur]
    cases threadSignal w.sig th.vars with
    | some signal => exact kept b.blur_blur rfl
    | none =>
      cases g with
      | none => exact kept b.blur_blur rfl
      | some g => exact blur_fail .scheduleTls
  | kill =>
    cases unblock with
    | none => exact kept b.blur_blur rfl
    | some signal => exact kept b.blur_blur rfl
  | unblock =>
    cases unblock with
    | none => exact kept b.blur_blur rfl
    | some signal => exact kept b.blur_blur rfl
  | tail =>
    cases g with
    | some g =>
      simp only [reduceCtorEq, false_and, if_false]
      split
      · exact blur_fail .unsignaled
      · exact kept (by simp only [Body.blur, Pos.blur_blur]) rfl
    | none =>
      by_cases he : errno = 0
      · simp only [he, ne_eq, not_true_eq_false, and_false, if_false]
        exact kept b.blur_blur rfl
      · simp only [ne_eq, not_true_eq_false, and_false, if_false, he, not_false_eq_true,
          and_self, if_true]
        refine blur_goto th b.blur_blur rfl ?_ (Call.map_blur_blur th.call)
        rw [Vars.blur_setErrno]
        exact (congrArg (Vars.blur true _) hv).trans (same _)

theorem callPos_blur {b : Body} {c : Call V E} (hb : th.base = .body b) (hpos : b.pos = .call) :
    (th.blur.callPos c.blur b.blur).blur = (th.callPos c b).blur := by
  have hloc (l : Bool) : l = true → b.pos.located = true := fun _ => by rw [hpos]; rfl
  have hcall : (some c.blur).map Call.blur = (some c).map Call.blur := congrArg some c.blur_blur
  unfold callPos
  rw [show c.blur.linger = c.linger from rfl, show b.blur.fn = b.fn from rfl,
    show c.blur.functional = c.functional from rfl]
  split
  · cases c.functional with
    | function =>
      refine blur_goto th b.blur_blur rfl (vars_blur hb (hloc _)) ?_
      exact congrArg (Option.map fun c : Call V E => { c with functional := .empty }.log .enter)
        hcall
    | ret r => exact blur_fail .wild
    | empty => exact blur_goto_kept hb (hloc _) b.blur_blur rfl
  · exact blur_fail .wild

theorem bodyStep_blur {b : Body} {c : Call V E} (hu : th.Unflagged) (hb : th.base = .body b) :
    (th.blur.bodyStep w now c.blur b.blur).map blur = (th.bodyStep w now c b).map blur := by
  have hcall := Call.map_blur_blur th.call
  obtain ⟨fn, g, sg, pos⟩ := b
  cases pos with
  | stamp =>
    have hd : th.blur.vars.deadline = th.vars.deadline := by rw [Thread.blur, hb]; rfl
    simp only [bodyStep, Body.blur, Pos.blur, hd]
    split
    · exact congrArg some (blur_fail .overflow)
    · refine congrArg some (blur_goto th rfl rfl ?_ hcall)
      exact congrArg (fun v : Vars => { v with deadline := stamp now th.vars.deadline })
        (vars_blur (l := false) hb nofun)
  | enable e => exact congrArg some (enablePos_blur hu hb rfl)
  | call => exact congrArg some (callPos_blur hb rfl)
  | own => rfl
  | lib back => rfl
  | pause back =>
    refine congrArg some (blur_goto th rfl rfl ?_ hcall)
    exact congrArg (fun v : Vars => { v with deadline := 0 })
      (vars_blur (l := true) hb fun _ => rfl)
  | deferMask back =>
    simp only [bodyStep, Body.blur, Pos.blur]
    rw [show th.blur.group = th.group from rfl, show threadSignal w.sig th.blur.vars = threadSignal
      w.sig th.vars from rfl]
    split
    · exact congrArg some (blur_fail .deferring)
    · cases threadSignal w.sig th.vars with
      | some signal => exact congrArg some (blur_goto_kept hb (fun _ => rfl) rfl rfl)
      | none => exact congrArg some (blur_fail .pauseSignal)
  | deferFlag back =>
    refine congrArg some (blur_goto th rfl rfl ?_ hcall)
    exact congrArg (fun v : Vars => { v with deferred := true })
      (vars_blur (l := true) hb fun _ => rfl)
  | disable pc =>
    cases pc with
    | group => exact congrArg some (blur_goto_kept hb (fun _ => rfl) rfl rfl)
    | mask =>
      cases sg with
      | none => exact congrArg some (blur_goto_kept hb (fun _ => rfl) rfl rfl)
      | some signal => exact congrArg some (blur_goto_kept hb (fun _ => rfl) rfl rfl)
    | signal =>
      refine congrArg some (blur_goto th rfl rfl ?_ hcall)
      exact congrArg (fun v : Vars => { v with signal := none })
        (vars_blur (l := true) hb fun _ => rfl)
    | deferred =>
      refine congrArg some (blur_goto th rfl rfl ?_ hcall)
      exact congrArg (fun v : Vars => { v with deferred := false })
        (vars_blur (l := true) hb fun _ => rfl)
  | check =>
    simp only [bodyStep, Body.blur, Pos.blur]
    rw [show th.blur.vars.task.errno.isSome = th.vars.task.errno.isSome from Option.isSome_map]
    split
    · exact congrArg some (blur_fail .leftoverErrno)
    · exact congrArg some (blur_goto_kept hb (fun _ => rfl) rfl rfl)
  | ret =>
    refine congrArg some ?_
    simp only [setCall, Call.log, Call.blur, Thread.blur, Base.blur, Base.timed, Base.located,
      Vars.blur_blur, Bool.and_false, Option.map_some, Task.blur_blur, Frame.map_blur_blur]

theorem fnStep_blur {b : Body} {c : Call V E} {a : FnAct V E} (hb : th.base = .body b) :
    (th.blur.fnStep c.blur b.blur a).map blur = (th.fnStep c b a).map blur := by
  have hlog (e : Event V E) : (some (c.blur.log e)).map Call.blur =
      (some (c.log e)).map Call.blur :=
    congrArg (Option.map (·.log e)) (congrArg some c.blur_blur)
  obtain ⟨fn, g, sg, pos⟩ := b
  cases pos with
  | own =>
    cases a with
    | work e =>
      refine congrArg some ?_
      simp only [setCall, Thread.blur, Base.blur_blur, Frame.map_blur_blur, hlog,
        Vars.blur_setErrno, Base.timed_blur, Base.located_blur, Vars.blur_blur, Bool.and_self]
    | call => exact congrArg some (blur_goto th rfl rfl (vars_blur hb fun _ => rfl) (hlog .call))
    | pause => exact congrArg some (blur_goto th rfl rfl (vars_blur hb fun _ => rfl) (hlog .pause))
    | finish r =>
      refine congrArg some (blur_goto th rfl rfl (vars_blur hb fun _ => rfl) ?_)
      exact congrArg (Option.map fun c : Call V E => { c with functional := .ret r })
        (hlog (.done r))
    | exit => rfl
  | lib back =>
    cases a with
    | work e =>
      refine congrArg some ?_
      simp only [Thread.blur, Base.blur_blur, Frame.map_blur_blur, Call.map_blur_blur,
        Vars.blur_setErrno, Base.timed_blur, Base.located_blur, Vars.blur_blur, Bool.and_self]
    | exit => exact congrArg some (blur_goto_kept hb (fun _ => rfl) rfl rfl)
    | _ => rfl
  | enable e => rfl
  | _ => rfl

theorem bootStep_blur (hb : th.base = .boot) : th.blur.bootStep.blur = th.bootStep.blur := by
  unfold bootStep
  rw [show th.blur.vars.bootstrap = th.vars.bootstrap from rfl]
  cases th.vars.bootstrap with
  | none => exact blur_fail .notBootstrapped
  | some x =>
    simp only [Thread.blur, hb, Base.blur, Base.timed, Base.located, Call.map_blur_blur,
      Frame.map_blur_blur, Vars.blur, Task.blur_blur, Pos.located, if_true,
      Bool.false_eq_true, if_false]

/-! ## Any step of one thread -/

theorem ready_blur : th.blur.ready = th.ready :=
  congrArg (· && decide (th.pending ⊆ th.mask)) (Base.alive_blur th.base)

/-- **A step does not depend on what is blurred.** -/
theorem step_blur (hd : th.Timed) (hu : th.Unflagged) (a : Act V E) :
    (th.blur.step w a).map blur = (th.step w a).map blur := by
  cases a with
  | deliver no =>
    simp only [step]
    rw [show th.blur.base.alive = th.base.alive from Base.alive_blur _,
      show th.blur.mask = th.mask from rfl]
    split
    · simp only [interrupt, Thread.blur, Option.map_some, List.map_cons, Base.blur_blur,
        Base.timed_blur, Base.located_blur, Vars.blur_blur, Bool.and_self, Call.map_blur_blur,
        Frame.map_blur_blur, Frame.blur, HandlerPc.blur]
    · rfl
  | run now =>
    simp only [step, ready_blur]
    split
    · unfold runStep
      cases hh : th.handlers with
      | cons f rest =>
        rw [show th.blur.handlers = f.blur :: rest.map Frame.blur by rw [Thread.blur, hh]; rfl]
        exact congrArg some (handlerStep_blur f rest (hd f (by rw [hh]; exact List.mem_cons_self)))
      | nil =>
        rw [show th.blur.handlers = [] by rw [Thread.blur, hh]; rfl,
          show th.blur.call = th.call.map Call.blur from rfl]
        cases hc : th.call with
        | none =>
          cases hb : th.base <;> rw [show th.blur.base = th.base.blur from rfl, hb] <;> rfl
        | some c =>
          cases hb : th.base with
          | boot =>
            rw [show th.blur.base = .boot by rw [Thread.blur, hb]; rfl]
            exact congrArg some (bootStep_blur hb)
          | body b =>
            rw [show th.blur.base = .body b.blur by rw [Thread.blur, hb]; rfl]
            exact bodyStep_blur hu hb
          | _ =>
            rw [show th.blur.base = th.base.blur from rfl, hb]
            rfl
    · rfl
  | fn a =>
    simp only [step, ready_blur]
    rw [show th.blur.base = th.base.blur from rfl,
      show th.blur.call = th.call.map Call.blur from rfl,
      show th.blur.handlers = th.handlers.map Frame.blur from rfl]
    cases th.ready with
    | false => rfl
    | true =>
      cases th.handlers with
      | cons f rest => rfl
      | nil =>
        cases hb : th.base with
        | body b =>
          cases th.call with
          | none => rfl
          | some c => exact fnStep_blur hb
        | _ => cases th.call <;> rfl

/-- Where `errno_group` drops its guard on the thread it got it on, the build does
not matter. -/
theorem step_notls
    (h : ∀ b e, th.base = .body b → b.pos = .enable e → e.pc = .location → e.cell = th.vars.signal)
    (x : Bool) (a : Act V E) : th.step { w with notls := x } a = th.step w a := by
  have hbody (now : UInt64) (c : Call V E) (b : Body) (hb : th.base = .body b) :
      th.bodyStep { w with notls := x } now c b = th.bodyStep w now c b := by
    unfold bodyStep
    cases hpos : b.pos with
    | enable e =>
      cases hpc : e.pc with
      | location =>
        have hcell := h b e hb hpos hpc
        simp only [enablePos, enableStep, hpc, hcell, ne_eq, not_true_eq_false, and_false, if_false]
      | _ => simp only [enablePos, enableStep, hpc]
    | _ => rfl
  cases a with
  | run now =>
    simp only [step, runStep]
    split
    · split
      · rfl
      · rfl
      · rename_i hb _
        exact hbody _ _ _ hb
      · rfl
    · rfl
  | _ => rfl

/-- Two threads that look the same take the same steps. -/
theorem step_alike {th' : Thread V E} (h : th.blur = th'.blur) (hd : th.Timed) (hu : th.Unflagged)
    (hu' : th'.Unflagged) (a : Act V E) : (th.step w a).map blur = (th'.step w a).map blur := by
  have hd' : th'.Timed := by rw [← timed_blur, ← h, timed_blur]; exact hd
  rw [← step_blur hd hu, ← step_blur hd' hu', h]

end Thread
end Inger.L2
