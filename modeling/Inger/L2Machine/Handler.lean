import Inger.L2Machine.Resume

/-!
# What one step of `preempt` can do

`Frame.Ok pre past sw f` says how far a handler that has not swapped may be:
`pre` is whether the current group is preemptible, `past` whether the handler
must find its signal irrelevant, `sw` whether it may reach the swap. A handler
decides once, from `pre` and SIGNAL, and neither changes under it, so `Ok` is
kept (`handlerStep_cases`): the handler moves on and changes little
(`Vars.Kept`), or returns, or swaps, or finds TASK borrowed by the handler it
interrupted. Every invariant of a thread is derived from this one case split.

`Thread.step_kept` says what no step on a function's stack or in a handler
touches: the thread's preemption signal, the last result, the call it is in
(but for the closure and the history), and which stack TASK owns.
-/
namespace Inger.L2

variable {V E : Type}

/-- How far a handler that has not swapped may be (see the module doc). -/
def HandlerPc.Ok (pre past sw : Bool) : HandlerPc → Prop
  | .test _ r => r = true → past = false
  | .deadline _ => pre = true ∧ past = false
  | .clock _ _ => pre = true ∧ past = false
  | .yielded _ _ => pre = true ∧ past = false
  | .swap _ => pre = true ∧ past = false ∧ sw = true
  | .deferMask _ => pre = false ∧ past = false
  | .deferFlag _ => pre = false ∧ past = false
  | .errno _ => False
  | .block => False
  | .disable _ => False
  | _ => True

structure Frame.Ok (pre past sw : Bool) (f : Frame) : Prop where
  target : f.target = .interrupted
  pc : f.pc.Ok pre past sw

/-- A handler that finds its signal irrelevant does not look at the group. -/
theorem Frame.Ok.calm {pre pre' past' sw sw' : Bool} {f : Frame} (h : f.Ok pre true sw) :
    f.Ok pre' past' sw' := by
  refine ⟨h.target, ?_⟩
  have := h.pc
  cases hpc : f.pc <;> rw [hpc] at this <;> simp_all [HandlerPc.Ok]

/-- What a handler that has not swapped keeps of the thread-locals; one that
finds its signal irrelevant changes errno only. -/
structure Vars.Kept (past : Bool) (v v' : Vars) : Prop where
  bootstrap : v'.bootstrap = v.bootstrap
  errno : v'.task.errno = v.task.errno
  checkpoint : v'.task.checkpoint = v.task.checkpoint
  deadline : v'.deadline = v.deadline
  signal : v'.signal = v.signal
  errnoLocation : v'.errnoLocation = v.errnoLocation
  task : past = true → v'.task = v.task
  deferred : past = true → v'.deferred = v.deferred

theorem Vars.Kept.refl {past : Bool} (v : Vars) : v.Kept past v :=
  ⟨rfl, rfl, rfl, rfl, rfl, rfl, fun _ => rfl, fun _ => rfl⟩

theorem Vars.Kept.calm {past : Bool} {v v' : Vars} (h : v.Kept true v') : v.Kept past v' :=
  ⟨h.bootstrap, h.errno, h.checkpoint, h.deadline, h.signal, h.errnoLocation, fun _ => h.task rfl,
    fun _ => h.deferred rfl⟩

theorem Vars.Kept.setErrno {past : Bool} (v : Vars) (g : Group) (e : Int) :
    v.Kept past (v.setErrno g e) :=
  ⟨rfl, rfl, rfl, rfl, rfl, rfl, fun _ => rfl, fun _ => rfl⟩

/-- Where a handler that moves on goes; `deadline` is DEADLINE. -/
inductive HandlerPc.Next (now deadline : UInt64) : HandlerPc → HandlerPc → Prop
  | entry (e : Int) : Next now deadline .entry (.relevant e)
  | relevant (e : Int) (r : Bool) : Next now deadline (.relevant e) (.test e r)
  | irrelevant (e : Int) : Next now deadline (.test e false) (.ignore e)
  | pauses (e : Int) : Next now deadline (.test e true) (.deadline e)
  | defers (e : Int) : Next now deadline (.test e true) (.deferMask e)
  | deadline (e : Int) : Next now deadline (.deadline e) (.clock e deadline)
  | late (e : Int) (d : UInt64) (reached : d ≤ now) : Next now deadline (.clock e d) (.yielded e d)
  | early (e : Int) (d : UInt64) (reached : ¬d ≤ now) : Next now deadline (.clock e d) (.restore e)
  | yielded (e : Int) (d : UInt64) : Next now deadline (.yielded e d) (.swap e)
  | deferMask (e : Int) : Next now deadline (.deferMask e) (.deferFlag e)
  | deferFlag (e : Int) : Next now deadline (.deferFlag e) (.restore e)
  | ignore (e : Int) : Next now deadline (.ignore e) (.restore e)
  | restore (e : Int) : Next now deadline (.restore e) .ret

/-- TASK after a handler has moved on: only the step after the clock writes it. -/
def HandlerPc.writes (k : Task) : HandlerPc → Task
  | .yielded _ d => { k with yielded := d = 0 }
  | _ => k

namespace Thread

variable {w : World} {now : UInt64} {th th' : Thread V E} {f : Frame}
  {rest : List Frame} {pre past sw : Bool}

/-- The outcomes of a step of a handler that has not swapped. -/
inductive Handled (now : UInt64) (pre past sw : Bool) (th : Thread V E) (f : Frame)
    (rest : List Frame) :
    Thread V E → Prop
  | moves (f' : Frame) (v' : Vars) (ok : f'.Ok pre past sw) (no : f'.no = f.no)
      (mask : f.mask ⊆ f'.mask) (vars : th.vars.Kept past v')
      (next : f.pc.Next now th.vars.deadline f'.pc) (task : v'.task = f.pc.writes th.vars.task) :
      Handled now pre past sw th f rest { th with handlers := f' :: rest, vars := v' }
  | returns : Handled now pre past sw th f rest { th with mask := f.mask, handlers := rest }
  | swaps (e : Int) (pc : f.pc = .swap e) (pre : pre = true) (past : past = false)
      (sw : sw = true) :
      Handled now _ _ _ th f rest (th.swap f rest (.errno e))
  | borrowed (pre : pre = true) (past : past = false) :
      Handled now _ _ sw th f rest (th.fail .borrowed)

theorem Handled.calm {pre' past' sw' : Bool} (h : Handled now pre true sw th f rest th') :
    Handled now pre' past' sw' th f rest th' := by
  cases h with
  | moves f' v' ok no mask vars next task => exact .moves f' v' ok.calm no mask vars.calm next task
  | returns => exact .returns
  | swaps e pc pre past => cases past
  | borrowed pre past => cases past

theorem handlerStep_cases (hf : f.Ok pre past sw) (hg : th.group.preemptible = pre)
    (hq : past = true → threadSignal w.sig th.vars ≠ some f.no)
    (hb : pre = true → past = false → sw = false → rest.any (·.pc.borrows) = true)
    (hs : th.handlerStep w now f rest = th') : Handled now pre past sw th f rest th' := by
  subst hs
  -- All positions but the last move on, with the same signal and at least the same mask.
  have move : ∀ pc v' m, f.mask ⊆ m → pc.Ok pre past sw → th.vars.Kept past v' →
      f.pc.Next now th.vars.deadline pc → v'.task = f.pc.writes th.vars.task →
      th.handlerStep w now f rest = { th with handlers := ⟨f.no, m, f.target, pc⟩ :: rest, vars := v' } →
      Handled now pre past sw th f rest (th.handlerStep w now f rest) := by
    intro pc v' m hm hpc hv hnext htask he
    rw [he]
    exact .moves ⟨f.no, m, f.target, pc⟩ v' ⟨hf.target, hpc⟩ rfl hm hv hnext htask
  have hok := hf.pc
  cases hpc : f.pc with
  | entry =>
    rw [hpc] at move
    exact move (.relevant (th.vars.errno th.group)) _ _ subset_rfl trivial (.refl _) (.entry _) rfl
      (by simp [handlerStep, hpc])
  | relevant e =>
    rw [hpc] at move
    refine move (.test e (threadSignal w.sig th.vars = some f.no)) _ _ subset_rfl ?_ (.refl _)
      (.relevant e _) rfl (by simp [handlerStep, hpc])
    intro hr
    by_contra hp
    exact hq (by simpa using hp) (by simpa using hr)
  | test e r =>
    rw [hpc] at hok move
    cases r with
    | false =>
      exact move (.ignore e) _ _ subset_rfl trivial (.refl _) (.irrelevant e)
        rfl (by simp [handlerStep, hpc])
    | true =>
      have hp : past = false := hok rfl
      cases pre with
      | false =>
        exact move (.deferMask e) _ _ subset_rfl ⟨rfl, hp⟩ (.refl _) (.defers e) rfl
          (by simp [handlerStep, hpc, hg])
      | true =>
        exact move (.deadline e) _ _ subset_rfl ⟨rfl, hp⟩ (.refl _) (.pauses e) rfl
          (by simp [handlerStep, hpc, hg])
  | deadline e =>
    rw [hpc] at hok move
    exact move (.clock e th.vars.deadline) _ _ subset_rfl hok (.refl _) (.deadline e) rfl
      (by simp [handlerStep, hpc])
  | clock e d =>
    rw [hpc] at hok move
    by_cases hd : d ≤ now
    · exact move (.yielded e d) _ _ subset_rfl hok (.refl _) (.late e d hd)
        rfl (by simp [handlerStep, hpc, hd])
    · exact move (.restore e) _ _ subset_rfl trivial (.refl _) (.early e d hd) rfl
        (by simp [handlerStep, hpc, hd])
  | yielded e d =>
    rw [hpc] at hok move
    cases hr : rest.any (·.pc.borrows) with
    | true =>
      have he : th.handlerStep w now f rest = th.fail .borrowed := by simp [handlerStep, hpc, hr]
      rw [he]; exact .borrowed hok.1 hok.2
    | false =>
      have hsw : sw = true := by
        cases sw with
        | true => rfl
        | false => rw [hb hok.1 hok.2 rfl] at hr; cases hr
      refine move (.swap e) { th.vars with task := { th.vars.task with yielded := d = 0 } } _
        subset_rfl ⟨hok.1, hok.2, hsw⟩ ⟨rfl, rfl, rfl, rfl, rfl, rfl, ?_, fun _ => rfl⟩
          (.yielded e d) rfl
        (by simp [handlerStep, hpc, hr])
      intro hp; rw [hok.2] at hp; cases hp
  | swap e =>
    rw [hpc] at hok
    have he : th.handlerStep w now f rest = th.swap f rest (.errno e) := by simp [handlerStep, hpc]
    rw [he]; exact .swaps e hpc hok.1 hok.2.1 hok.2.2
  | deferMask e =>
    rw [hpc] at hok move
    exact move (.deferFlag e) _ _ (Finset.subset_insert f.no f.mask) hok (.refl _)
      (.deferMask e) rfl (by simp [handlerStep, hpc, hg, hok.1])
  | deferFlag e =>
    rw [hpc] at hok move
    refine move (.restore e) { th.vars with deferred := true } _ subset_rfl trivial
      ⟨rfl, rfl, rfl, rfl, rfl, rfl, fun _ => rfl, ?_⟩ (.deferFlag e)
        rfl (by simp [handlerStep, hpc])
    intro hp; rw [hok.2] at hp; cases hp
  | ignore e =>
    rw [hpc] at move
    exact move (.restore e) _ _ (Finset.subset_insert f.no f.mask) trivial (.refl _) (.ignore e) rfl
      (by simp [handlerStep, hpc])
  | restore e =>
    rw [hpc] at move
    exact move .ret _ _ subset_rfl trivial (.setErrno _ th.group e) (.restore e) rfl
      (by simp [handlerStep, hpc])
  | ret =>
    have he : th.handlerStep w now f rest = { th with mask := f.mask, handlers := rest } := by
      simp [handlerStep, hpc, sigreturn, hf.target]
    rw [he]; exact .returns
  | errno e => rw [hpc] at hok; exact hok.elim
  | block => rw [hpc] at hok; exact hok.elim
  | disable pc => rw [hpc] at hok; exact hok.elim

end Thread

/-! ## The steps of a thread by what takes them -/

/-- A step is the arrival of a signal, or of the innermost handler, `schedule`
before and after it took BOOTSTRAP, or the function. -/
inductive Thread.Acts (w : World) (th : Thread V E) : Act V E → Thread V E → Prop
  | delivers (no : L1.Signals.Signal) (alive : th.base.alive = true) (unblocked : no ∉ th.mask) :
      Acts w th (.deliver no) (th.interrupt no)
  | handles (now : UInt64) (f : Frame) (rest : List Frame) (ready : th.ready = true)
      (handlers : th.handlers = f :: rest) : Acts w th (.run now) (th.handlerStep w now f rest)
  | boots (now : UInt64) (c : Call V E) (ready : th.ready = true) (handlers : th.handlers = [])
      (base : th.base = .boot) (call : th.call = some c) : Acts w th (.run now) th.bootStep
  | runs (now : UInt64) (b : Body) (c : Call V E) (th' : Thread V E) (ready : th.ready = true)
      (handlers : th.handlers = []) (base : th.base = .body b) (call : th.call = some c)
      (step : th.bodyStep w now c b = some th') : Acts w th (.run now) th'
  | fn (a : FnAct V E) (b : Body) (c : Call V E) (th' : Thread V E) (ready : th.ready = true)
      (handlers : th.handlers = []) (base : th.base = .body b) (call : th.call = some c)
      (step : th.fnStep c b a = some th') : Acts w th (.fn a) th'

theorem Thread.step_acts {w : World} {th th' : Thread V E} {a : Act V E}
    (hs : th.step w a = some th') : Thread.Acts w th a th' := by
  cases a with
  | deliver no =>
    simp only [Thread.step, Option.ite_none_right_eq_some, Option.some.injEq] at hs
    obtain ⟨⟨ha, hno⟩, rfl⟩ := hs
    exact .delivers no ha hno
  | run now =>
    simp only [Thread.step, Option.ite_none_right_eq_some] at hs
    obtain ⟨hready, hs⟩ := hs
    unfold Thread.runStep at hs
    split at hs
    · rename_i f rest hh
      cases hs
      exact .handles now f rest hready hh
    · rename_i c hh hb hc
      cases hs
      exact .boots now c hready hh hb hc
    · rename_i b c hh hb hc
      exact .runs now b c th' hready hh hb hc hs
    · cases hs
  | fn a =>
    simp only [Thread.step] at hs
    split at hs
    · rename_i b c hready hh hb hc
      exact .fn a b c th' hready hh hb hc hs
    · cases hs

theorem Thread.alive_of_ready {th : Thread V E} (h : th.ready = true) : th.base.alive = true := by
  simp only [Thread.ready, Bool.and_eq_true] at h
  exact h.1

theorem Thread.alive_of_step {w : World} {th th' : Thread V E} {a : Act V E}
    (hs : th.step w a = some th') : th.base.alive = true := by
  cases Thread.step_acts hs with
  | delivers no alive => exact alive
  | handles now f rest ready => exact alive_of_ready ready
  | boots now c ready => exact alive_of_ready ready
  | runs now b c th' ready => exact alive_of_ready ready
  | fn a b c th' ready => exact alive_of_ready ready

/-! ## What every step leaves alone -/

/-- A call without the closure's state and the history. -/
def Call.anon (c : Call V E) : Call V E := { c with functional := .empty, trace := [] }

/-- What a thread keeps in every step of `Thread.step`. -/
structure Thread.Kept (th th' : Thread V E) : Prop where
  signaler : th'.signaler = th.signaler
  ret : th'.ret = th.ret
  call : th'.call.map Call.anon = th.call.map Call.anon
  stack : th'.vars.task.stack = th.vars.task.stack

namespace Thread

variable {w : World} {now : UInt64} {th th' : Thread V E}

theorem Kept.of_eq (hs : th'.signaler = th.signaler) (hr : th'.ret = th.ret)
    (hc : th'.call = th.call) (ht : th'.vars.task.checkpoint = th.vars.task.checkpoint) :
    Kept th th' :=
  ⟨hs, hr, by rw [hc], by rw [Task.stack, ht]; rfl⟩

theorem Kept.exists_call {c' : Call V E} (h : Kept th th') (hc : th'.call = some c') :
    ∃ c, th.call = some c ∧ c'.linger = c.linger ∧ c'.group = c.group ∧ c'.task = c.task := by
  have := h.call
  rw [hc, Option.map_some, eq_comm, Option.map_eq_some_iff] at this
  obtain ⟨c, hcall, he⟩ := this
  simp only [Call.anon, Call.mk.injEq] at he
  exact ⟨c, hcall, he.1.symm, he.2.2.2.1.symm, he.2.2.1.symm⟩

theorem disableStep_kept (block : Option L1.Signals.Signal) (pc : DisablePc) :
    Kept th (th.disableStep block pc) := by
  cases pc with
  | mask => cases block <;> exact .of_eq rfl rfl rfl rfl
  | _ => exact .of_eq rfl rfl rfl rfl

/-- A handler changes neither the call nor what is pending. -/
theorem handlerStep_outside (f : Frame) (rest : List Frame) :
    (th.handlerStep w now f rest).call = th.call ∧ (th.handlerStep w now f rest).pending =
      th.pending := by
  unfold handlerStep
  cases f.pc with
  | test e r => cases r <;> cases th.group.preemptible <;> exact ⟨rfl, rfl⟩
  | clock e d => dsimp only; split <;> exact ⟨rfl, rfl⟩
  | yielded e d => dsimp only; split <;> exact ⟨rfl, rfl⟩
  | swap e => simp only [swap]; split <;> exact ⟨rfl, rfl⟩
  | deferMask e => dsimp only; split <;> exact ⟨rfl, rfl⟩
  | disable pc => cases pc <;> exact ⟨rfl, rfl⟩
  | ret => simp only [sigreturn]; split <;> exact ⟨rfl, rfl⟩
  | _ => exact ⟨rfl, rfl⟩

theorem handlerStep_call {f : Frame} {rest : List Frame} :
    (th.handlerStep w now f rest).call = th.call :=
  (handlerStep_outside f rest).1

theorem handlerStep_pending {f : Frame} {rest : List Frame} :
    (th.handlerStep w now f rest).pending = th.pending :=
  (handlerStep_outside f rest).2

theorem handlerStep_kept (f : Frame) (rest : List Frame) :
    Kept th (th.handlerStep w now f rest) := by
  unfold handlerStep
  cases f.pc with
  | test e r => cases r <;> cases th.group.preemptible <;> exact .of_eq rfl rfl rfl rfl
  | clock e d => dsimp only; split <;> exact .of_eq rfl rfl rfl rfl
  | yielded e d => dsimp only; split <;> exact .of_eq rfl rfl rfl rfl
  | swap e =>
    simp only [swap]
    split
    · rename_i st m b hck _ _
      exact ⟨rfl, rfl, rfl, by simp [Task.stack, hck]⟩
    · exact .of_eq rfl rfl rfl rfl
  | deferMask e => dsimp only; split <;> exact .of_eq rfl rfl rfl rfl
  | disable pc => cases pc <;> exact .of_eq rfl rfl rfl rfl
  | ret => simp only [sigreturn]; split <;> exact .of_eq rfl rfl rfl rfl
  | _ => exact .of_eq rfl rfl rfl rfl

theorem enableStep_kept (e : Enable) : Kept th (th.enableStep w e).1 := by
  unfold enableStep
  cases e.pc with
  | errno =>
    dsimp only
    split
    · exact .of_eq rfl rfl rfl rfl
    · split <;> exact .of_eq rfl rfl rfl rfl
  | location => dsimp only; split <;> exact .of_eq rfl rfl rfl rfl
  | group => dsimp only; split <;> exact .of_eq rfl rfl rfl rfl
  | first => dsimp only; split <;> exact .of_eq rfl rfl rfl rfl
  | swap => exact .of_eq rfl rfl rfl rfl
  | get => dsimp only; split <;> exact .of_eq rfl rfl rfl rfl
  | kill => dsimp only; split <;> exact .of_eq rfl rfl rfl rfl
  | unblock => dsimp only; split <;> exact .of_eq rfl rfl rfl rfl
  | tail => dsimp only; split <;> exact .of_eq rfl rfl rfl rfl

theorem enablePos_kept (b : Body) (e : Enable) : Kept th (th.enablePos w b e) := by
  have h : Kept th (th.enableStep w e).1 := enableStep_kept e
  unfold enablePos
  split <;> rename_i heq <;> rw [heq] at h
  · exact ⟨h.signaler, h.ret, h.call, h.stack⟩
  · split
    · split <;> exact ⟨h.signaler, h.ret, h.call, h.stack⟩
    · exact ⟨h.signaler, h.ret, h.call, h.stack⟩
  · split <;> exact ⟨h.signaler, h.ret, h.call, h.stack⟩
  · exact ⟨h.signaler, h.ret, h.call, h.stack⟩

theorem bodyStep_kept {c : Call V E} {b : Body} (hc : th.call = some c)
    (hs : th.bodyStep w now c b = some th') : Kept th th' := by
  unfold bodyStep at hs
  cases hpos : b.pos <;> simp only [hpos, Option.some.injEq, reduceCtorEq] at hs
  case stamp => split at hs <;> cases hs <;> exact .of_eq rfl rfl rfl rfl
  case enable e => subst hs; exact enablePos_kept b e
  case call =>
    subst hs
    unfold callPos
    split
    · split
      · exact ⟨rfl, rfl, by rw [hc]; rfl, rfl⟩
      · exact .of_eq rfl rfl rfl rfl
      · exact .of_eq rfl rfl rfl rfl
    · exact .of_eq rfl rfl rfl rfl
  case pause back => subst hs; exact .of_eq rfl rfl rfl rfl
  case deferMask back =>
    split at hs
    · cases hs; exact .of_eq rfl rfl rfl rfl
    · split at hs <;> cases hs <;> exact .of_eq rfl rfl rfl rfl
  case deferFlag back => subst hs; exact .of_eq rfl rfl rfl rfl
  case disable pc =>
    subst hs
    have h : Kept th (th.disableStep b.signal pc) := disableStep_kept b.signal pc
    exact ⟨h.signaler, h.ret, h.call, h.stack⟩
  case check => split at hs <;> cases hs <;> exact .of_eq rfl rfl rfl rfl
  case ret => subst hs; exact ⟨rfl, rfl, by rw [hc]; rfl, rfl⟩

theorem fnStep_kept {c : Call V E} {b : Body} {a : FnAct V E} (hc : th.call = some c)
    (hs : th.fnStep c b a = some th') : Kept th th' := by
  unfold fnStep at hs
  split at hs <;> cases hs
  case h_5 => exact .of_eq rfl rfl rfl rfl
  case h_6 => exact .of_eq rfl rfl rfl rfl
  all_goals exact ⟨rfl, rfl, by rw [hc]; rfl, rfl⟩

theorem step_kept {a : Act V E} (hs : th.step w a = some th') : Kept th th' := by
  cases step_acts hs with
  | delivers no => exact .of_eq rfl rfl rfl rfl
  | handles now f rest => exact handlerStep_kept f rest
  | boots now c =>
    unfold bootStep
    split <;> exact .of_eq rfl rfl rfl rfl
  | runs now b c th' _ _ _ hc hs => exact bodyStep_kept hc hs
  | fn a b c th' _ _ _ hc hs => exact fnStep_kept hc hs

end Thread

/-! ## Where a step leads -/

/-- In `resume` before the function has been paused or has finished. -/
def Base.unpaused : Base → Bool
  | .main .leave => false
  | .main _ => true
  | .boot => true
  | .body _ => true
  | _ => false

/-- A step does not lead back before a pause; and the function's history grows
by `finish` only when `schedule` returns. -/
structure Thread.Flow (th th' : Thread V E) : Prop where
  unpaused : th'.base.unpaused = true → th.base.unpaused = true
  trace : ∀ c c', th.call = some c → th'.call = some c' →
    ((∃ b, th.base = .body b) ∧ th'.base = .main .leave) ∨ c'.trace = c.trace ∨
      ∃ e, e ≠ .finish ∧ c'.trace = c.trace ++ [e]

namespace Thread

variable {w : World} {now : UInt64} {th th' : Thread V E}

theorem Flow.of_call (hc : th'.call = th.call)
    (hb : th'.base.unpaused = true → th.base.unpaused = true) :
    Flow th th' where
  unpaused := hb
  trace c c' h h' := by
    rw [hc, h] at h'
    cases h'
    exact .inr (.inl rfl)

/-- On the function's stack: the closure is called, or the function acts. -/
theorem Flow.of_body {b : Body} {c cl : Call V E} (hb : th.base = .body b) (hc : th.call = some c)
    (hc' : th'.call = some cl) (htr : cl.trace = c.trace ∨ ∃ e, e ≠ .finish ∧
      cl.trace = c.trace ++ [e]) :
    Flow th th' where
  unpaused _ := by rw [hb]; rfl
  trace c₁ c₂ h h' := by
    rw [hc] at h
    rw [hc'] at h'
    cases h
    cases h'
    exact .inr htr

theorem handlerStep_flow (f : Frame) (rest : List Frame) :
    Flow th (th.handlerStep w now f rest) := by
  unfold handlerStep
  cases f.pc with
  | test e r => cases r <;> cases th.group.preemptible <;> exact .of_call rfl id
  | clock e d => dsimp only; split <;> exact .of_call rfl id
  | yielded e d =>
    dsimp only
    split
    · exact .of_call rfl nofun
    · exact .of_call rfl id
  | swap e => simp only [swap]; split <;> exact .of_call rfl nofun
  | deferMask e =>
    dsimp only
    split
    · exact .of_call rfl nofun
    · exact .of_call rfl id
  | disable pc => cases pc <;> exact .of_call rfl id
  | ret =>
    simp only [sigreturn]
    split
    · exact .of_call rfl id
    · exact .of_call rfl nofun
  | _ => exact .of_call rfl id

theorem enableStep_call (e : Enable) : (th.enableStep w e).1.call = th.call := by
  unfold enableStep
  cases e.pc with
  | errno =>
    dsimp only
    split
    · rfl
    · split <;> rfl
  | swap => rfl
  | _ => dsimp only; split <;> rfl

theorem enablePos_call (b : Body) (e : Enable) : (th.enablePos w b e).call = th.call := by
  have h : (th.enableStep w e).1.call = th.call := enableStep_call e
  unfold enablePos
  split <;> rename_i heq <;> rw [heq] at h
  · exact h
  · split
    · split <;> exact h
    · exact h
  · split <;> exact h
  · exact h

theorem disableStep_call (block : Option L1.Signals.Signal) (pc : DisablePc) :
    (th.disableStep block pc).call = th.call := by
  cases pc with
  | mask => cases block <;> rfl
  | _ => rfl

theorem bodyStep_flow {c : Call V E} {b : Body} (hb : th.base = .body b) (hc : th.call = some c)
    (hs : th.bodyStep w now c b = some th') : Flow th th' := by
  have same (h : th'.call = th.call) : Flow th th' := .of_call h fun _ => by rw [hb]; rfl
  unfold bodyStep at hs
  cases hpos : b.pos <;> simp only [hpos, Option.some.injEq, reduceCtorEq] at hs
  case stamp => split at hs <;> cases hs <;> exact same rfl
  case enable e => subst hs; exact same (enablePos_call b e)
  case call =>
    subst hs
    unfold callPos
    split
    · split
      · exact .of_body hb hc rfl (.inr ⟨.enter, by simp, rfl⟩)
      · exact .of_call rfl nofun
      · exact .of_call rfl fun _ => by rw [hb]; rfl
    · exact .of_call rfl nofun
  case pause back => subst hs; exact same rfl
  case deferMask back =>
    split at hs
    · cases hs; exact same rfl
    · split at hs <;> cases hs <;> exact same rfl
  case deferFlag back => subst hs; exact same rfl
  case disable pc => subst hs; exact same (disableStep_call b.signal pc)
  case check => split at hs <;> cases hs <;> exact same rfl
  case ret =>
    subst hs
    exact ⟨fun _ => by rw [hb]; rfl, fun _ _ _ _ => .inl ⟨⟨b, hb⟩, rfl⟩⟩

theorem fnStep_flow {c : Call V E} {b : Body} {a : FnAct V E} (hb : th.base = .body b)
    (hc : th.call = some c) (hs : th.fnStep c b a = some th') : Flow th th' := by
  unfold fnStep at hs
  split at hs <;> cases hs
  case h_1 => exact .of_body hb hc rfl (.inr ⟨.work, by simp, rfl⟩)
  case h_2 => exact .of_body hb hc rfl (.inr ⟨.call, by simp, rfl⟩)
  case h_3 => exact .of_body hb hc rfl (.inr ⟨.pause, by simp, rfl⟩)
  case h_4 => exact .of_body hb hc rfl (.inr ⟨.done _, by simp, rfl⟩)
  all_goals exact .of_call rfl fun _ => by rw [hb]; rfl

theorem step_flow {a : Act V E} (hs : th.step w a = some th') : Flow th th' := by
  cases step_acts hs with
  | delivers no => exact .of_call rfl id
  | handles now f rest => exact handlerStep_flow f rest
  | boots now c _ _ hb =>
    unfold bootStep
    split <;> exact .of_call rfl fun _ => by rw [hb]; rfl
  | runs now b c th' _ _ hb hc hs => exact bodyStep_flow hb hc hs
  | fn a b c th' _ _ hb hc hs => exact fnStep_flow hb hc hs

end Thread
end Inger.L2
