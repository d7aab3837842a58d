import Inger.L3Slice.Shape

/-!
# Every step of a thread keeps its shape

`Core` (see `Shape`) is kept by whatever one thread does on a function's stack
and in handlers: by a signal that arrives, by each step of `preempt` (on the
caller's stack, on the function's, on top of a handler that has swapped, and
after the swap), by each step of `schedule`, `enable_preemption`,
`disable_preemption` and `pause`, and by the function's own steps. The result
is `core_act`.
-/
namespace Inger.L3

open L2

variable {V E : Type}

/-! ## Handlers on the caller's stack -/

/-- What a step in a handler on the caller's stack leaves alone. -/
structure Undisturbed (th th' : Thread V E) : Prop where
  calm : Calm th'
  group : th'.group = th.group
  base : th'.base = th.base
  call : th'.call = th.call
  signaler : th'.signaler = th.signaler
  ret : th'.ret = th.ret
  vars : th.vars.Kept true th'.vars

theorem Calm.deliver {th : Thread V E} {no : L1.Signals.Signal} (h : Calm th) (hno : no ∉ th.mask) :
    Undisturbed th (th.interrupt no) where
  calm :=
    { mask := fun o ho => Finset.mem_insert_of_mem (h.mask o ho)
      frames := by
        intro f hf
        rcases List.mem_cons.mp hf with rfl | hf
        · exact ⟨rfl, trivial⟩
        · exact h.frames f hf
      foreign := by
        intro f hf o ho
        rcases List.mem_cons.mp hf with rfl | hf
        · exact ⟨fun e => hno (by rw [show no = o from e]; exact h.mask o ho), h.mask o ho⟩
        · exact h.foreign f hf o ho }
  group := rfl
  base := rfl
  call := rfl
  signaler := rfl
  ret := rfl
  vars := .refl _

theorem Calm.handler {w : World} {now : UInt64} {th th' : Thread V E}
    {f : Frame} {rest : List Frame} (h : Calm th) (hh : th.handlers = f :: rest)
    (hrel : ∀ o, threadSignal w.sig th.vars = some o → th.signaler = some o)
    (hs : th.handlerStep w now f rest = th') : Undisturbed th th' := by
  have hf : f ∈ th.handlers := by simp [hh]
  have hrest : ∀ x ∈ rest, x ∈ th.handlers := fun x hx => by simp [hh, hx]
  have hq : true = true → threadSignal w.sig th.vars ≠ some f.no :=
    fun _ he => (h.foreign f hf f.no (hrel _ he)).1 rfl
  have hcalm : f.Ok th.group.preemptible true false := (h.frames f hf).calm
  cases Thread.handlerStep_cases hcalm rfl hq (by simp) hs with
  | moves f' v' ok no mask vars =>
    refine ⟨⟨h.mask, ?_, ?_⟩, rfl, rfl, rfl, rfl, rfl, vars⟩
    · intro x hx
      rcases List.mem_cons.mp hx with rfl | hx
      · exact ok.calm
      · exact h.frames x (hrest x hx)
    · intro x hx o ho
      rcases List.mem_cons.mp hx with rfl | hx
      · exact ⟨no ▸ (h.foreign f hf o ho).1, mask (h.foreign f hf o ho).2⟩
      · exact h.foreign x (hrest x hx) o ho
  | returns =>
    exact ⟨⟨fun o ho => (h.foreign f hf o ho).2, fun x hx => h.frames x (hrest x hx),
      fun x hx => h.foreign x (hrest x hx)⟩, rfl, rfl, rfl, rfl, rfl, .refl _⟩
  | swaps e pc pre past => cases past
  | borrowed pre past => cases past

/-! ## Handlers on the function's stack -/

/-- The thread's signal, while SIGNAL names the thread. -/
theorem threadSignal_own {sig : Tid → Option L1.Signals.Signal} {t : Tid} {th : Thread V E}
    (hsig : sig t = th.signaler) (hv : th.vars.signal = some t) :
    threadSignal sig th.vars = th.signaler := by
  rw [threadSignal, hv, ← hsig]; rfl

theorem threadSignal_none {sig : Tid → Option L1.Signals.Signal} {v : Vars} (hv : v.signal = none) :
    threadSignal sig v = none := by
  rw [threadSignal, hv]; rfl

theorem Running.kept {th : Thread V E} {c : Call V E} (h : Running th c) {past : Bool} {v : Vars}
    (hv : th.vars.Kept past v) (m : L1.Signals.Sigset) (hs : List Frame) :
    Running { th with mask := m, vars := v, handlers := hs } c :=
  ⟨h.own, hv.errno.trans h.errno, by rw [hv.checkpoint]; exact h.checkpoint, h.link, h.taken,
    h.trace⟩

/-- SIGNAL, if set, names the thread, so what `thread_signal` returns is the
thread's own signal. -/
theorem own_of_threadSignal {sig : Tid → Option L1.Signals.Signal} {t : Tid} {th : Thread V E}
    (hsig : sig t = th.signaler) (hv : th.vars.signal = none ∨ th.vars.signal = some t) :
    ∀ o, threadSignal sig th.vars = some o → th.signaler = some o := by
  intro o ho
  rcases hv with hv | hv
  · rw [threadSignal_none hv] at ho; cases ho
  · rw [← threadSignal_own hsig hv]; exact ho

theorem InBody.names {t : Tid} {th : Thread V E} {c : Call V E} {b : Body} (h : InBody t th c b) :
    th.vars.signal = none ∨ th.vars.signal = some t := by
  rw [h.signal]
  split
  · exact .inl rfl
  · exact .inr rfl

/-- What a handler on the function's stack can do. -/
theorem InBody.handled {w : World} {now : UInt64} {t : Tid}
    {th th' : Thread V E} {c : Call V E} {b : Body} {f : Frame} {rest : List Frame}
    (h : InBody t th c b) (hsig : w.sig t = th.signaler) (hh : th.handlers = f :: rest)
    (hs : th.handlerStep w now f rest = th') :
    Thread.Handled now b.pos.preemptible b.pos.past true th f rest th' := by
  cases hent : b.pos.entering with
  | true =>
    -- The group may be anything, but the handler is not the thread's own.
    have hc := h.calm hent
    have hf : f ∈ th.handlers := by simp [hh]
    have hcalm : f.Ok th.group.preemptible true false := (hc.frames f hf).calm
    exact (Thread.handlerStep_cases hcalm rfl
      (fun _ he => (hc.foreign f hf f.no (own_of_threadSignal hsig h.names _ he)).1 rfl)
      (by simp) hs).calm
  | false =>
    have hg : th.group.preemptible = b.pos.preemptible := by
      rw [h.group hent]; cases b.pos.preemptible <;> rfl
    have hq : b.pos.past = true → threadSignal w.sig th.vars ≠ some f.no := by
      intro hp
      rw [threadSignal_none (by rw [h.signal, hp]; rfl)]
      exact nofun
    exact Thread.handlerStep_cases (h.frames f (by simp [hh])) hg hq (by simp) hs

/-- A handler on the function's stack moves on, returns or pauses the
function. -/
theorem InBody.handler {w : World} {now : UInt64} {t : Tid}
    {th th' : Thread V E} {c : Call V E} {b : Body} {f : Frame} {rest : List Frame}
    (h : InBody t th c b) (hsig : w.sig t = th.signaler) (hbase : th.base = .body b)
    (hh : th.handlers = f :: rest) (hs : th.handlerStep w now f rest = th') :
    (th'.base = .body b ∧ th'.call = th.call ∧ InBody t th' c b) ∨
      (th'.base = .gone ∧ th'.call = th.call ∧ ∃ bottom, Gone t th' c [] bottom) ∨
      th'.base = .stuck .borrowed := by
  have hf : f ∈ th.handlers := by simp [hh]
  have hrest : ∀ x ∈ rest, x.Ok b.pos.preemptible b.pos.past true :=
    fun x hx => h.frames x (by simp [hh, hx])
  have hcalm (he : b.pos.entering = true) : Calm th' :=
    ((h.calm he).handler hh (own_of_threadSignal hsig h.names) hs).calm
  cases h.handled hsig hh hs with
  | moves f' v' ok no mask vars =>
    refine .inl ⟨hbase, rfl, ?_⟩
    exact
      { run := h.run.kept vars th.mask _
        bootstrap := vars.bootstrap.trans h.bootstrap
        body := { h.body with located := by rw [vars.errnoLocation]; exact h.body.located }
        group := h.group
        calm := hcalm
        signal := vars.signal.trans h.signal
        deferred := by
          intro hc
          exact (vars.deferred (Pos.past_of_cleared hc)).trans (h.deferred hc)
        frames := by
          intro x hx
          rcases List.mem_cons.mp hx with rfl | hx
          · exact ok
          · exact hrest x hx }
  | returns =>
    refine .inl ⟨hbase, rfl, ?_⟩
    exact { h with
      run := h.run.kept (Vars.Kept.refl th.vars : th.vars.Kept true th.vars) f.mask rest
      calm := hcalm
      frames := hrest }
  | swaps e pc pre past =>
    obtain ⟨st, hck⟩ := h.run.checkpoint
    have hswap : th.swap f rest (.errno e) =
        { th with
          vars := { th.vars with
            task := { th.vars.task with checkpoint := some ⟨st, f.mask, .paused b rest⟩ } }
          base := .gone
          handlers := [⟨f.no, c.link, .callsite, .errno e⟩] } := by
      simp [Thread.swap, hck, (h.frames f hf).target, hbase]
    refine .inr (.inl ?_)
    rw [hswap]
    refine ⟨rfl, rfl, ⟨f.no, c.link, .callsite, .errno e⟩, ?_⟩
    exact
      { own := h.run.own
        handlers := rfl
        target := rfl
        leaving := rfl
        mask := h.run.link
        bootstrap := h.bootstrap
        errno := fun hne => absurd rfl (hne e)
        checkpoint := ⟨st, f.mask, b, rest, rfl, h.body, pre, fun x hx => by
          have := hrest x hx; rwa [pre, past] at this⟩
        taken := h.run.taken
        group := by rw [h.group (Pos.entering_of_preemptible pre), pre]; rfl
        signal := by rw [h.signal, past]; rfl
        deferred := by simp
        frames := by simp
        trace := h.run.trace }
  | borrowed => exact .inr (.inr rfl)

/-! ## Handlers on top of one that has swapped -/

/-- What a handler that interrupted one that has swapped can do. -/
theorem Gone.handled {w : World} {now : UInt64} {t : Tid}
    {th th' : Thread V E} {c : Call V E} {f bottom : Frame} {upper : List Frame}
    (h : Gone t th c (f :: upper) bottom) (hs : th.handlerStep w now f (upper ++ [bottom]) = th') :
    Thread.Handled now bottom.pc.inGroup bottom.pc.past false th f (upper ++ [bottom]) th' := by
  have hg : th.group.preemptible = bottom.pc.inGroup := by
    rw [h.group]; cases bottom.pc.inGroup <;> rfl
  have hq : bottom.pc.past = true → threadSignal w.sig th.vars ≠ some f.no := by
    intro hp
    rw [threadSignal_none (by rw [h.signal, hp]; rfl)]
    exact nofun
  -- Until the group has been switched `bottom` holds the borrow of TASK.
  have hb : bottom.pc.inGroup = true → bottom.pc.past = false → false = false →
      (upper ++ [bottom]).any (·.pc.borrows) = true := by
    intro hp _ _
    simp [HandlerPc.borrows_of_inGroup hp]
  exact Thread.handlerStep_cases (h.frames f List.mem_cons_self) hg hq hb hs

theorem Gone.upper {w : World} {now : UInt64} {t : Tid}
    {th th' : Thread V E} {c : Call V E} {f bottom : Frame} {upper : List Frame}
    (h : Gone t th c (f :: upper) bottom) (hs : th.handlerStep w now f (upper ++ [bottom]) = th') :
    (th'.base = th.base ∧ th'.call = th.call ∧ ∃ upper', Gone t th' c upper' bottom) ∨
      th'.base = .stuck .borrowed := by
  have hupper : ∀ x ∈ upper, x.Ok bottom.pc.inGroup bottom.pc.past false :=
    fun x hx => h.frames x (List.mem_cons_of_mem f hx)
  cases h.handled hs with
  | moves f' v' ok no mask vars =>
    refine .inl ⟨rfl, rfl, f' :: upper, ?_⟩
    obtain ⟨st, m, b, hs, hck, hp⟩ := h.checkpoint
    exact
      { h with
        handlers := rfl
        bootstrap := vars.bootstrap.trans h.bootstrap
        errno := fun hne => by rw [vars.errno]; exact h.errno hne
        checkpoint := ⟨st, m, b, hs,
          vars.checkpoint.trans hck, by rw [vars.errnoLocation]; exact hp⟩
        signal := vars.signal.trans h.signal
        deferred := fun hr => (vars.deferred (by rw [hr]; rfl)).trans (h.deferred hr)
        frames := by
          intro x hx
          rcases List.mem_cons.mp hx with rfl | hx
          · exact ok
          · exact hupper x hx }
  | returns => exact .inl ⟨rfl, rfl, upper, { h with handlers := rfl, frames := hupper }⟩
  | swaps e pc pre past sw => cases sw
  | borrowed => exact .inr rfl

/-- The steps of a handler that has swapped: save errno, block the signal in
the mask it returns to, `disable_preemption`, and return to the call site. -/
theorem Gone.bottom {w : World} {now : UInt64} {t : Tid}
    {th th' : Thread V E} {c : Call V E} {bottom : Frame} (h : Gone t th c [] bottom)
    (hs : th.handlerStep w now bottom [] = th') :
    (th'.base = th.base ∧ th'.call = th.call ∧ ∃ bottom', Gone t th' c [] bottom') ∨
      (th'.base = .main .leave ∧ th'.call = th.call ∧ Calm th' ∧ th'.signaler.isSome = true ∧
        Leaving th' c) := by
  subst hs
  have hl := h.leaving
  have hgroup := h.group
  have hsignal := h.signal
  have herr := h.errno
  obtain ⟨st, m, b, hs, hck, hp⟩ := h.checkpoint
  cases hpc : bottom.pc with
  | errno e =>
    simp only [hpc] at hgroup hsignal
    refine .inl ⟨by simp [Thread.handlerStep, hpc], by simp [Thread.handlerStep, hpc],
      { bottom with pc := .block }, ?_⟩
    simp only [Thread.handlerStep, hpc]
    exact { h with
      handlers := rfl, target := h.target, leaving := rfl, mask := h.mask, errno := fun _ => rfl
      checkpoint := ⟨st, m, b, hs, hck, hp⟩, group := hgroup, signal := hsignal
      deferred := by simp, frames := by simp }
  | block =>
    simp only [hpc] at hgroup hsignal herr
    refine .inl ⟨by simp [Thread.handlerStep, hpc], by simp [Thread.handlerStep, hpc],
      { bottom with mask := insert bottom.no bottom.mask, pc := .disable .group }, ?_⟩
    simp only [Thread.handlerStep, hpc]
    exact { h with
      handlers := rfl, target := h.target, leaving := rfl
      mask := fun o ho => Finset.mem_insert_of_mem (h.mask o ho)
      errno := fun _ => herr (by simp)
      group := hgroup, signal := hsignal, deferred := by simp, frames := by simp }
  | disable pc =>
    simp only [hpc] at hgroup hsignal herr
    refine .inl ?_
    cases pc with
    | group =>
      refine ⟨by simp [Thread.handlerStep, hpc, Thread.disableStep],
        by simp [Thread.handlerStep, hpc, Thread.disableStep],
        { bottom with pc := .disable .mask }, ?_⟩
      simp only [Thread.handlerStep, hpc, Thread.disableStep, DisablePc.next]
      exact { h with
        handlers := rfl, target := h.target, leaving := rfl, mask := h.mask
        errno := fun _ => herr (by simp)
        group := rfl, signal := hsignal, deferred := by simp, frames := by simp }
    | mask =>
      refine ⟨by simp [Thread.handlerStep, hpc, Thread.disableStep],
        by simp [Thread.handlerStep, hpc, Thread.disableStep],
        { bottom with pc := .disable .signal }, ?_⟩
      simp only [Thread.handlerStep, hpc, Thread.disableStep, DisablePc.next]
      exact { h with
        handlers := rfl, target := h.target, leaving := rfl, mask := h.mask
        errno := fun _ => herr (by simp)
        group := hgroup, signal := hsignal, deferred := by simp, frames := by simp }
    | signal =>
      refine ⟨by simp [Thread.handlerStep, hpc, Thread.disableStep],
        by simp [Thread.handlerStep, hpc, Thread.disableStep],
        { bottom with pc := .disable .deferred }, ?_⟩
      simp only [Thread.handlerStep, hpc, Thread.disableStep, DisablePc.next]
      exact { h with
        handlers := rfl, target := h.target, leaving := rfl, mask := h.mask
        errno := fun _ => herr (by simp)
        checkpoint := ⟨st, m, b, hs, hck, hp⟩
        group := hgroup, signal := rfl, deferred := by simp, frames := by simp }
    | deferred =>
      refine ⟨by simp [Thread.handlerStep, hpc, Thread.disableStep],
        by simp [Thread.handlerStep, hpc, Thread.disableStep], { bottom with pc := .ret }, ?_⟩
      simp only [Thread.handlerStep, hpc, Thread.disableStep, DisablePc.next]
      exact { h with
        handlers := rfl, target := h.target, leaving := rfl, mask := h.mask
        errno := fun _ => herr (by simp)
        checkpoint := ⟨st, m, b, hs, hck, hp⟩
        group := hgroup, signal := hsignal, deferred := fun _ => rfl, frames := by simp }
  | ret =>
    simp only [hpc] at hgroup hsignal herr
    refine .inr ?_
    simp only [Thread.handlerStep, hpc, Thread.sigreturn, h.target]
    refine ⟨trivial, trivial, ⟨h.mask, by simp, by simp⟩, h.own, ?_⟩
    obtain ⟨e, he⟩ := Option.isSome_iff_exists.mp (herr (by simp))
    refine ⟨hgroup, h.bootstrap, hsignal, h.deferred hpc, h.taken,
      .inr ⟨e, st, m, b, hs, th.vars.task.yielded, ?_, hp, h.trace⟩⟩
    rw [← he, ← hck]
  | _ => rw [hpc] at hl; cases hl

/-! ## The code on the function's stack -/

theorem entered_snoc (tr : List (Event V E)) (e : Event V E) :
    entered (tr ++ [e]) = entered tr + match e with | .enter => 1 | _ => 0 := by
  cases e <;> simp [entered]

theorem finishes_snoc (tr : List (Event V E)) (e : Event V E) :
    finishes (tr ++ [e]) = finishes tr + match e with | .finish => 1 | _ => 0 := by
  cases e <;> simp [finishes]

theorem results_snoc (tr : List (Event V E)) (e : Event V E) :
    results (tr ++ [e]) = results tr ++ match e with | .done r => [r] | _ => [] := by
  cases e <;> simp [results]

/-- An event that neither enters, ends nor finishes the function. -/
theorem Traced.log {fin : Bool} {f : Completion V E} {tr : List (Event V E)} {e : Event V E}
    (h : Traced fin f tr) (he : e = .work ∨ e = .call ∨ e = .pause ∨ ∃ y, e = .back y) :
    Traced fin f (tr ++ [e]) := by
  constructor
  · rw [finishes_snoc, h.finishes]; rcases he with rfl | rfl | rfl | ⟨y, rfl⟩ <;> rfl
  · rw [entered_snoc, h.entered]; rcases he with rfl | rfl | rfl | ⟨y, rfl⟩ <;> rfl
  · rw [results_snoc, h.results]; rcases he with rfl | rfl | rfl | ⟨y, rfl⟩ <;>
      exact List.append_nil _

theorem Traced.entered_le {fin : Bool} {f : Completion V E} {tr : List (Event V E)}
    (h : Traced fin f tr) : L3.entered tr ≤ 1 := by
  rw [h.entered]
  cases f <;> simp [Completion.called]

theorem Traced.enter {tr : List (Event V E)} (h : Traced false .function tr) :
    Traced false .empty (tr ++ [.enter]) := by
  constructor
  · rw [finishes_snoc, h.finishes]; rfl
  · rw [entered_snoc, h.entered]; rfl
  · rw [results_snoc, h.results]; rfl

theorem Traced.done {tr : List (Event V E)} (h : Traced false .empty tr) (r : Except E V) :
    Traced false (.ret r) (tr ++ [.done r]) := by
  constructor
  · rw [finishes_snoc, h.finishes]; rfl
  · rw [entered_snoc, h.entered]; rfl
  · rw [results_snoc, h.results]; rfl

theorem Traced.finish {f : Completion V E} {tr : List (Event V E)} (h : Traced false f tr) :
    Traced true f (tr ++ [.finish]) := by
  constructor
  · rw [finishes_snoc, h.finishes]; rfl
  · rw [entered_snoc, h.entered]; rfl
  · rw [results_snoc, h.results]; exact List.append_nil _

/-- A step on the function's stack outside any handler: what changes is the
position, the group, SIGNAL, DEFERRED, ERRNO_LOCATION, the closure and the
history. -/
theorem InBody.moveCall {t : Tid} {th : Thread V E} {c c' : Call V E} {cl : Option (Call V E)}
    {b b' : Body} {m p : L1.Signals.Sigset} {g : Group} {v : Vars} (h : InBody t th c b)
    (hh : th.handlers = []) (hlink : c'.link = c.link) (hctask : c'.task = c.task)
    (htrace : Traced false c'.functional c'.trace)
    (htask : v.task = th.vars.task) (hboot : v.bootstrap = th.vars.bootstrap)
    (hbody : Stacked c'.linger c'.group c'.functional v.errnoLocation b')
    (hgroup : g = if b'.pos.preemptible then .of c'.group else .SHARED)
    (hent : b'.pos.entering = false) (hsignal : v.signal = if b'.pos.past then none else some t)
    (hdeferred : b'.pos.cleared = true → v.deferred = false) :
    InBody t { th with mask := m, pending := p, group := g, vars := v, call := cl, base := .body b' }
      c' b' where
  run := ⟨h.run.own, by rw [htask]; exact h.run.errno, by rw [htask, hlink]; exact h.run.checkpoint,
    by rw [hlink]; exact h.run.link, by rw [hctask]; exact h.run.taken, htrace⟩
  bootstrap := hboot.trans h.bootstrap
  body := hbody
  group _ := hgroup
  calm he := Bool.noConfusion (hent.symm.trans he)
  signal := hsignal
  deferred := hdeferred
  frames := by simp [hh]

theorem InBody.move {t : Tid} {th : Thread V E} {c : Call V E} {cl : Option (Call V E)}
    {b b' : Body} {m p : L1.Signals.Sigset} {g : Group} {v : Vars} (h : InBody t th c b)
    (hh : th.handlers = []) (htask : v.task = th.vars.task)
    (hboot : v.bootstrap = th.vars.bootstrap)
    (hbody : Stacked c.linger c.group c.functional v.errnoLocation b')
    (hgroup : g = if b'.pos.preemptible then .of c.group else .SHARED)
    (hent : b'.pos.entering = false) (hsignal : v.signal = if b'.pos.past then none else some t)
    (hdeferred : b'.pos.cleared = true → v.deferred = false) :
    InBody t { th with mask := m, pending := p, group := g, vars := v, call := cl, base := .body b' }
      c b' :=
  h.moveCall hh rfl rfl h.run.trace htask hboot hbody hgroup hent hsignal hdeferred

/-- A step of `schedule` before it has switched groups. -/
theorem InBody.enter {t : Tid} {th : Thread V E} {c : Call V E} {b b' : Body} {v : Vars}
    (h : InBody t th c b) (hent : b.pos.entering = true) (hh : th.handlers = [])
    (htask : v.task = th.vars.task) (hboot : v.bootstrap = th.vars.bootstrap)
    (hbody : Stacked c.linger c.group c.functional v.errnoLocation b')
    (hent' : b'.pos.entering = true) (hsignal : v.signal = if b'.pos.past then none else some t)
    (hdeferred : b'.pos.cleared = true → v.deferred = false) :
    InBody t { th with vars := v, base := .body b' } c b' where
  run := ⟨h.run.own, by rw [htask]; exact h.run.errno, by rw [htask]; exact h.run.checkpoint,
    h.run.link, h.run.taken, h.run.trace⟩
  bootstrap := hboot.trans h.bootstrap
  body := hbody
  group he := Bool.noConfusion (hent'.symm.trans he)
  calm _ := ⟨(h.calm hent).mask, by simp [hh], by simp [hh]⟩
  signal := hsignal
  deferred := hdeferred
  frames := by simp [hh]

/-- `schedule` or the hook takes a step of `enable_preemption`. It fails only
before ERRNO_LOCATION is set, on a TCB whose cell is still borrowed. -/
theorem InBody.enable {w : World} {t : Tid} {th : Thread V E} {c : Call V E}
    {b : Body} {e : Enable} (h : InBody t th c b) (hw : w.notls = false)
    (hsig : w.sig t = th.signaler) (hh : th.handlers = []) (hpos : b.pos = .enable e) :
    (∃ b', (th.enablePos w b e).base = .body b' ∧ (th.enablePos w b e).call = th.call ∧
      InBody t (th.enablePos w b e) c b') ∨
    (b.pos.located = false ∧ th.vars.errnoLocation.borrowed = true ∧
      th.enablePos w b e = th.fail .errnoBorrowed) := by
  obtain ⟨fn, grp, sg, pos⟩ := b
  obtain ⟨pc, eg, erryes, errno, unblock, cell⟩ := e
  subst hpos
  have hfn : fn = c.linger := h.body.fn
  have hgrp : grp = c.group := h.body.group
  have hloc := h.body.located
  have hgroup := h.group
  have hsignal : th.vars.signal = some t := h.signal
  have hown := threadSignal_own hsig hsignal
  obtain ⟨o, ho⟩ := Option.isSome_iff_exists.mp h.run.own
  rw [ho] at hown
  cases eg with
  | some g' =>
    -- `schedule`: the group is the function's, the closure has not been called.
    obtain ⟨rfl, hfun, hask⟩ : g' = c.group ∧ c.functional = .function ∧
      (pc.asked = true → unblock.isSome = true) := h.body.fits
    cases pc with
    | errno =>
      cases hb : th.vars.errnoLocation.borrowed with
      | true => exact .inr ⟨rfl, rfl, by simp [Thread.enablePos, Thread.enableStep, hb]⟩
      | false =>
        simp only [Thread.enablePos, Thread.enableStep, hb, Bool.false_eq_true, if_false]
        exact .inl ⟨_, rfl, rfl, h.enter rfl hh rfl rfl
          ⟨hfn, hgrp, ⟨rfl, hfun, by simp [EnablePc.asked]⟩, fun _ => rfl⟩ rfl hsignal
          (by simp [Pos.cleared])⟩
    | location =>
      simp only [Thread.enablePos, Thread.enableStep, hw, Bool.false_eq_true, false_and, if_false]
      exact .inl ⟨_, rfl, rfl, h.enter rfl hh rfl rfl
        ⟨hfn, hgrp, ⟨rfl, hfun, by simp [EnablePc.asked]⟩, fun _ => by rw [hloc rfl]; rfl⟩
          rfl hsignal
        (by simp [Pos.cleared])⟩
    | group =>
      exact .inl ⟨_, rfl, rfl, h.move hh rfl rfl ⟨hfn, hgrp, ⟨rfl, hfun, by simp [EnablePc.asked]⟩,
        fun _ => hloc rfl⟩ rfl rfl hsignal (by simp [Pos.cleared])⟩
    | first =>
      simp only [Thread.enablePos, Thread.enableStep, hown]
      exact .inl ⟨_, rfl, rfl, h.move hh rfl rfl ⟨hfn, hgrp, ⟨rfl, hfun, fun _ => rfl⟩,
        fun _ => hloc rfl⟩ (hgroup rfl) rfl hsignal (by simp [Pos.cleared])⟩
    | swap =>
      cases hd : th.vars.deferred <;> simp only [Thread.enablePos, Thread.enableStep, hd]
      · exact .inl ⟨_, rfl, rfl, h.move hh rfl rfl ⟨hfn, hgrp, ⟨rfl, hfun, fun _ => hask rfl⟩,
          fun _ => hloc rfl⟩ (hgroup rfl) rfl hsignal (by simp [Pos.cleared])⟩
      · exact .inl ⟨_, rfl, rfl, h.move hh rfl rfl ⟨hfn, hgrp, ⟨rfl, hfun, fun _ => hask rfl⟩,
          fun _ => hloc rfl⟩ (hgroup rfl) rfl hsignal (by simp [Pos.cleared])⟩
    | get =>
      simp only [Thread.enablePos, Thread.enableStep, hown]
      exact .inl ⟨_, rfl, rfl, h.move hh rfl rfl ⟨hfn, hgrp, ⟨rfl, hfun, fun _ => rfl⟩,
        fun _ => hloc rfl⟩ (hgroup rfl) rfl hsignal (by simp [Pos.cleared])⟩
    | kill =>
      obtain ⟨u, rfl⟩ := Option.isSome_iff_exists.mp (hask rfl)
      exact .inl ⟨_, rfl, rfl, h.move hh rfl rfl ⟨hfn, hgrp, ⟨rfl, hfun, fun _ => rfl⟩,
        fun _ => hloc rfl⟩ (hgroup rfl) rfl hsignal (by simp [Pos.cleared])⟩
    | unblock =>
      obtain ⟨u, rfl⟩ := Option.isSome_iff_exists.mp (hask rfl)
      exact .inl ⟨_, rfl, rfl, h.move hh rfl rfl ⟨hfn, hgrp, ⟨rfl, hfun, fun _ => rfl⟩,
        fun _ => hloc rfl⟩ (hgroup rfl) rfl hsignal (by simp [Pos.cleared])⟩
    | tail =>
      obtain ⟨u, rfl⟩ := Option.isSome_iff_exists.mp (hask rfl)
      simp only [Thread.enablePos, Thread.enableStep, reduceCtorEq, and_false, false_and, if_false]
      exact .inl ⟨_, rfl, rfl, h.move hh rfl rfl ⟨hfn, hgrp, hfun, fun _ => hloc rfl⟩
        (hgroup rfl) rfl hsignal (by simp [Pos.cleared])⟩
  | none =>
    -- The hook: the function is running.
    obtain ⟨hfun, hne⟩ : c.functional = .empty ∧ pc ≠ .first := h.body.fits
    have hset := hloc rfl
    refine .inl ?_
    cases pc with
    | errno =>
      simp only [Thread.enablePos, Thread.enableStep, Option.none_or, hset, Pos.borrowing,
        show (EnablePc.errno == EnablePc.location) = false from rfl, Bool.false_eq_true, if_false]
      exact ⟨_, rfl, rfl, h.move hh rfl rfl ⟨hfn, hgrp, ⟨hfun, by simp⟩, fun _ => rfl⟩
        (hgroup rfl) rfl hsignal (by simp [Pos.cleared])⟩
    | location =>
      simp only [Thread.enablePos, Thread.enableStep, hw, Bool.false_eq_true, false_and, if_false]
      exact ⟨_, rfl, rfl, h.move hh rfl rfl ⟨hfn, hgrp, ⟨hfun, by simp⟩, fun _ => by rw [hset]; rfl⟩
        (hgroup rfl) rfl hsignal (by simp [Pos.cleared])⟩
    | group =>
      exact ⟨_, rfl, rfl, h.move hh rfl rfl ⟨hfn, hgrp, ⟨hfun, by simp⟩, fun _ => hset⟩
        (hgroup rfl) rfl hsignal (by simp [Pos.cleared])⟩
    | first => exact absurd rfl hne
    | swap =>
      cases hd : th.vars.deferred <;> simp only [Thread.enablePos, Thread.enableStep, hd]
      · exact ⟨_, rfl, rfl, h.move hh rfl rfl ⟨hfn, hgrp, ⟨hfun, by simp⟩, fun _ => hset⟩
          (hgroup rfl)
          rfl hsignal (by simp [Pos.cleared])⟩
      · exact ⟨_, rfl, rfl, h.move hh rfl rfl ⟨hfn, hgrp, ⟨hfun, by simp⟩, fun _ => hset⟩
          (hgroup rfl)
          rfl hsignal (by simp [Pos.cleared])⟩
    | get =>
      simp only [Thread.enablePos, Thread.enableStep, hown]
      exact ⟨_, rfl, rfl, h.move hh rfl rfl ⟨hfn, hgrp, ⟨hfun, by simp⟩, fun _ => hset⟩
        (hgroup rfl) rfl hsignal (by simp [Pos.cleared])⟩
    | kill =>
      cases unblock <;>
        exact ⟨_, rfl, rfl, h.move hh rfl rfl ⟨hfn, hgrp, ⟨hfun, by simp⟩, fun _ => hset⟩
          (hgroup rfl)
          rfl hsignal (by simp [Pos.cleared])⟩
    | unblock =>
      cases unblock <;>
        exact ⟨_, rfl, rfl, h.move hh rfl rfl ⟨hfn, hgrp, ⟨hfun, by simp⟩, fun _ => hset⟩
          (hgroup rfl)
          rfl hsignal (by simp [Pos.cleared])⟩
    | tail =>
      by_cases he : errno = 0
      · simp only [Thread.enablePos, Thread.enableStep, he, ne_eq, not_true_eq_false,
          and_false, if_false]
        exact ⟨_, rfl, rfl, h.move hh rfl rfl ⟨hfn, hgrp, hfun, fun _ => hset⟩ (hgroup rfl)
          rfl hsignal (by simp [Pos.cleared])⟩
      · simp only [Thread.enablePos, Thread.enableStep, he, ne_eq, not_false_eq_true,
          and_self, if_true]
        exact ⟨_, rfl, rfl, h.move hh rfl rfl ⟨hfn, hgrp, hfun, fun _ => hset⟩ (hgroup rfl)
          rfl hsignal (by simp [Pos.cleared])⟩

/-- `schedule` runs `stamp`; with overflow checks the sum may panic. -/
theorem InBody.stamp {w : World} {now : UInt64} {t : Tid} {th th' : Thread V E} {c : Call V E}
    {b : Body} (h : InBody t th c b) (hh : th.handlers = []) (hpos : b.pos = .stamp)
    (hs : th.bodyStep w now c b = some th') :
    (∃ b', th'.base = .body b' ∧ th'.call = th.call ∧ InBody t th' c b') ∨
    (w.overflowChecks = true ∧ stampOverflows now th.vars.deadline = true ∧
      th' = th.fail .overflow) := by
  obtain ⟨fn, grp, sg, pos⟩ := b
  subst hpos
  have hgrp : grp = c.group := h.body.group
  simp only [Thread.bodyStep] at hs
  split at hs <;> cases hs
  · rename_i ho
    obtain ⟨hc, ho⟩ := Bool.and_eq_true_iff.mp ho
    exact .inr ⟨hc, ho, rfl⟩
  · exact .inl ⟨_, rfl, rfl, h.enter rfl hh rfl rfl
      ⟨h.body.fn, hgrp, ⟨hgrp, h.body.fits, by simp [EnablePc.asked]⟩, by simp [Pos.located]⟩
        rfl h.signal
      (by simp [Pos.cleared])⟩

/-- A step of `schedule`, `pause` or the hook. -/
theorem InBody.step {w : World} {now : UInt64} {t : Tid}
    {th th' : Thread V E} {c : Call V E} {b : Body} {ok tidy : Prop} (h : InBody t th c b)
    (hw : w.notls = false) (hsig : w.sig t = th.signaler) (hcall : th.call = some c)
    (hother : CallOk tidy c) (hh : th.handlers = [])
    (hover : ok → w.overflowChecks = true → b.pos = .stamp →
      stampOverflows now th.vars.deadline = false)
    (hs : th.bodyStep w now c b = some th') : Core ok tidy t th' := by
  obtain ⟨fn, grp, sg, pos⟩ := b
  have hfn : fn = c.linger := h.body.fn
  have hgrp : grp = c.group := h.body.group
  have hfits := h.body.fits
  have hloc := h.body.located
  have hgroup := h.group
  have hsignal := h.signal
  have hdef := h.deferred
  cases pos with
  | stamp =>
    rcases h.stamp hh rfl hs with ⟨b', hbase', hcall', hin⟩ | ⟨hc, ho, rfl⟩
    · simp only [Core, hbase', hcall', hcall]
      exact ⟨hother, hin⟩
    · refine .inr (.inr (.inl ⟨fun hok => ?_, .inr rfl⟩))
      rw [hover hok hc rfl] at ho
      cases ho
  | enable e =>
    simp only [Thread.bodyStep, Option.some.injEq] at hs; subst hs
    rcases h.enable hw hsig hh rfl with ⟨b', hbase', hcall', hin⟩ | ⟨-, -, he⟩
    · simp only [Core, hbase', hcall', hcall]
      exact ⟨hother, hin⟩
    · rw [he]; exact .inr (.inl rfl)
  | call =>
    have hfun : c.functional = .function := hfits
    simp only [Thread.bodyStep, Thread.callPos, hfn, if_true, hfun, Option.some.injEq] at hs
    subst hs
    simp only [Core, Thread.goto, Thread.setCall]
    refine ⟨⟨hother.other, hother.launching, hother.error, hother.later⟩,
      h.moveCall hh rfl rfl ?_ rfl
      rfl ⟨rfl, hgrp, rfl, fun _ => hloc rfl⟩ (hgroup rfl) rfl hsignal (by simp [Pos.cleared])⟩
    have htr := h.run.trace
    rw [hfun] at htr
    exact htr.enter
  | own => cases hs
  | lib back => cases hs
  | pause back =>
    simp only [Thread.bodyStep, Option.some.injEq] at hs; subst hs
    simp only [Core, Thread.goto, hcall]
    exact ⟨hother, h.move hh rfl rfl ⟨hfn, hgrp, hfits, fun _ => hloc rfl⟩ (hgroup rfl) rfl hsignal
      (by simp [Pos.cleared])⟩
  | deferMask back =>
    have hshared : th.group = .SHARED := hgroup rfl
    obtain ⟨o, ho⟩ := Option.isSome_iff_exists.mp h.run.own
    have hown : threadSignal w.sig th.vars = some o := (threadSignal_own hsig hsignal).trans ho
    have hpre : th.group.preemptible = false := by rw [hshared]; rfl
    simp only [Thread.bodyStep, hpre, Bool.and_false, Bool.false_eq_true, if_false, hown,
      Option.some.injEq] at hs
    subst hs
    simp only [Core, Thread.goto, hcall]
    exact ⟨hother, h.move hh rfl rfl ⟨hfn, hgrp, hfits, fun _ => hloc rfl⟩ hshared rfl hsignal
      (by simp [Pos.cleared])⟩
  | deferFlag back =>
    simp only [Thread.bodyStep, Option.some.injEq] at hs; subst hs
    simp only [Core, Thread.goto, hcall]
    exact ⟨hother, h.move hh rfl rfl ⟨hfn, hgrp, hfits, fun _ => hloc rfl⟩ (hgroup rfl) rfl hsignal
      (by simp [Pos.cleared])⟩
  | disable pc =>
    simp only [Thread.bodyStep, Option.some.injEq] at hs; subst hs
    cases pc with
    | group =>
      simp only [Core, Thread.goto, Thread.disableStep, DisablePc.next, hcall]
      exact ⟨hother, h.move hh rfl rfl ⟨hfn, hgrp, hfits, fun _ => hloc rfl⟩ rfl rfl hsignal
        (by simp [Pos.cleared])⟩
    | mask =>
      cases sg <;> simp only [Core, Thread.goto, Thread.disableStep, DisablePc.next, hcall]
      all_goals
        exact ⟨hother, h.move hh rfl rfl ⟨hfn, hgrp, hfits, fun _ => hloc rfl⟩ (hgroup rfl)
          rfl hsignal (by simp [Pos.cleared])⟩
    | signal =>
      simp only [Core, Thread.goto, Thread.disableStep, DisablePc.next, hcall]
      exact ⟨hother, h.move hh rfl rfl ⟨hfn, hgrp, hfits, fun _ => hloc rfl⟩ (hgroup rfl) rfl rfl
        (by simp [Pos.cleared])⟩
    | deferred =>
      simp only [Core, Thread.goto, Thread.disableStep, DisablePc.next, hcall]
      exact ⟨hother, h.move hh rfl rfl ⟨hfn, hgrp, hfits, fun _ => hloc rfl⟩ (hgroup rfl)
        rfl hsignal (fun _ => rfl)⟩
  | check =>
    simp only [Thread.bodyStep, h.run.errno, Option.isSome_none, Bool.and_false, Bool.false_eq_true,
      if_false, Option.some.injEq] at hs
    subst hs
    simp only [Core, Thread.goto, hcall]
    exact ⟨hother, h.move hh rfl rfl ⟨hfn, hgrp, hfits, fun _ => hloc rfl⟩ (hgroup rfl)
      rfl hsignal hdef⟩
  | ret =>
    simp only [Thread.bodyStep, Option.some.injEq] at hs; subst hs
    simp only [Core, Thread.setCall, Call.log, MainOk]
    refine ⟨⟨h.run.link, by simp [hh], by simp [hh]⟩, fun _ => hgroup rfl,
      ⟨hother.other, hother.launching, hother.error, hother.later⟩, h.run.own, ?_⟩
    obtain ⟨st, hck⟩ := h.run.checkpoint
    obtain ⟨r, hr⟩ : ∃ r, c.functional = .ret r := hfits
    refine ⟨hgroup rfl, h.bootstrap, hsignal, hdef rfl, h.run.taken,
      .inl ⟨⟨st, c.link, .callsite⟩, th.vars.task.yielded, r, ?_, hr, h.run.trace.finish⟩⟩
    rw [← h.run.errno, ← hck]

/-- A step of the function itself. -/
theorem InBody.fn {t : Tid} {th th' : Thread V E} {c : Call V E} {b : Body} {a : FnAct V E}
    {ok tidy : Prop} (h : InBody t th c b) (hbase : th.base = .body b) (hcall : th.call = some c)
    (hother : CallOk tidy c) (hh : th.handlers = []) (hs : th.fnStep c b a = some th') :
    Core ok tidy t th' := by
  obtain ⟨fn, grp, sg, pos⟩ := b
  have hfn : fn = c.linger := h.body.fn
  have hgrp : grp = c.group := h.body.group
  have hfits := h.body.fits
  have hloc := h.body.located
  have hgroup := h.group
  have hsignal := h.signal
  have htr := h.run.trace
  cases pos with
  | own =>
    have hfun : c.functional = .empty := hfits
    cases a with
    | work e =>
      simp only [Thread.fnStep, Option.some.injEq] at hs; subst hs
      simp only [Core, Thread.setCall, hbase]
      exact ⟨⟨hother.other, hother.launching, hother.error, hother.later⟩,
        h.moveCall hh rfl rfl (htr.log (.inl rfl)) rfl rfl
        ⟨hfn, hgrp, hfun, fun _ => hloc rfl⟩ (hgroup rfl) rfl hsignal (by simp [Pos.cleared])⟩
    | call =>
      simp only [Thread.fnStep, Option.some.injEq] at hs; subst hs
      simp only [Core, Thread.goto, Thread.setCall]
      exact ⟨⟨hother.other, hother.launching, hother.error, hother.later⟩,
        h.moveCall hh rfl rfl (htr.log (.inr (.inl rfl))) rfl rfl
        ⟨hfn, hgrp, ⟨hgroup rfl, hfun⟩, fun _ => hloc rfl⟩ rfl rfl hsignal (by simp [Pos.cleared])⟩
    | pause =>
      simp only [Thread.fnStep, Option.some.injEq] at hs; subst hs
      simp only [Core, Thread.goto, Thread.setCall]
      exact ⟨⟨hother.other, hother.launching, hother.error, hother.later⟩,
        h.moveCall hh rfl rfl (htr.log (.inr (.inr (.inl rfl)))) rfl rfl
        ⟨hfn, hgrp, ⟨hgroup rfl, hfun⟩, fun _ => hloc rfl⟩ rfl rfl hsignal (by simp [Pos.cleared])⟩
    | exit => cases hs
    | finish r =>
      simp only [Thread.fnStep, Option.some.injEq] at hs; subst hs
      simp only [Core, Thread.goto, Thread.setCall]
      rw [hfun] at htr
      exact ⟨⟨hother.other, hother.launching, hother.error, hother.later⟩,
        h.moveCall hh rfl rfl (htr.done r) rfl rfl ⟨hfn, hgrp, ⟨r, rfl⟩, fun _ => hloc rfl⟩
          (hgroup rfl) rfl hsignal (by simp [Pos.cleared])⟩
  | lib back =>
    obtain ⟨rfl, hfun⟩ : back = .of c.group ∧ c.functional = .empty := hfits
    cases a with
    | work e =>
      simp only [Thread.fnStep, Option.some.injEq] at hs; subst hs
      simp only [Core, hbase, hcall]
      exact ⟨hother, h.move hh rfl rfl ⟨hfn, hgrp, ⟨rfl, hfun⟩, fun _ => hloc rfl⟩ (hgroup rfl) rfl
        hsignal (by simp [Pos.cleared])⟩
    | exit =>
      simp only [Thread.fnStep, Option.some.injEq] at hs; subst hs
      simp only [Core, Thread.goto, hcall]
      exact ⟨hother, h.move hh rfl rfl ⟨hfn, hgrp, ⟨hfun, by simp [Enable.hook]⟩, fun _ => hloc rfl⟩
        rfl rfl hsignal (by simp [Pos.cleared])⟩
    | _ => cases hs
  | _ => cases hs

/-! ## Any step of one thread -/

theorem Rest.kept {v v' : Vars} (h : Rest v) (hv : v.Kept true v') : Rest v' :=
  ⟨hv.bootstrap.trans h.bootstrap, (hv.task rfl).trans h.task, hv.signal.trans h.signal,
    (hv.deferred rfl).trans h.deferred⟩

theorem MainOk.kept {t : Tid} {th th' : Thread V E} {c : Call V E} {pc : MainPc}
    (h : MainOk t th c pc) (hs : th'.signaler = th.signaler) (hg : th'.group = th.group)
    (hv : th.vars.Kept true th'.vars) : MainOk t th' c pc := by
  cases pc with
  | setup =>
    obtain ⟨hr, htr, htask⟩ := h
    exact ⟨hr.kept hv, htr, by rw [hv.errnoLocation]; exact htask⟩
  | signal =>
    obtain ⟨ho, hr, htr, htask⟩ := h
    exact ⟨by rw [hs]; exact ho, hr.kept hv, htr, by rw [hv.errnoLocation]; exact htask⟩
  | stack =>
    obtain ⟨ho, hr, hsig, htr, htask⟩ := h
    refine ⟨by rw [hs]; exact ho, ?_, hv.signal.trans hsig, htr,
      by rw [hv.errnoLocation]; exact htask⟩
    exact ⟨hv.bootstrap.trans hr.bootstrap, (hv.task rfl).trans hr.task, rfl,
      (hv.deferred rfl).trans hr.deferred⟩
  | switch =>
    obtain ⟨ho, h⟩ := h
    refine ⟨by rw [hs]; exact ho, hv.signal.trans h.signal, (hv.task rfl).trans h.task,
      (hv.deferred rfl).trans h.deferred, hv.deadline.trans h.deadline, h.trace, ?_⟩
    rw [hs, hv.bootstrap, hv.errnoLocation]
    exact h.target
  | leave =>
    obtain ⟨ho, h⟩ := h
    refine ⟨by rw [hs]; exact ho, hg.trans h.group, hv.bootstrap.trans h.bootstrap,
      hv.signal.trans h.signal, (hv.deferred rfl).trans h.deferred, h.taken, ?_⟩
    rw [hv.task rfl, hv.errnoLocation]
    exact h.outcome

theorem MainOk.signal {t : Tid} {th : Thread V E} {c : Call V E} {pc : MainPc}
    (h : MainOk t th c pc) :
    th.vars.signal = none ∨ th.vars.signal = some t := by
  cases pc with
  | setup => exact .inl h.1.signal
  | signal => exact .inl h.2.1.signal
  | stack => exact .inr h.2.2.1
  | switch => exact .inr h.2.signal
  | leave => exact .inl h.2.signal

theorem Booting.kept {t : Tid} {th th' : Thread V E} {c : Call V E} (h : Booting t th c)
    (hs : th'.signaler = th.signaler) (hv : th.vars.Kept true th'.vars) : Booting t th' c where
  run := ⟨by rw [hs]; exact h.run.own, hv.errno.trans h.run.errno,
    by rw [hv.checkpoint]; exact h.run.checkpoint, by rw [hs]; exact h.run.link, h.run.taken,
    h.run.trace⟩
  bootstrap := hv.bootstrap.trans h.bootstrap
  signal := hv.signal.trans h.signal
  deferred := (hv.deferred rfl).trans h.deferred
  fn := h.fn

/-- A handler of another signal leaves a thread on its own stack as it is. -/
theorem core_undisturbed {ok tidy : Prop} {t : Tid} {th th' : Thread V E} (h : Core ok tidy t th)
    (hu : Undisturbed th th')
    (hbase : th.base = .caller ∨ (∃ pc, th.base = .main pc) ∨ th.base = .boot) :
    Core ok tidy t th' := by
  unfold Core at h ⊢
  rw [hu.base, hu.call, hu.group]
  rcases hbase with hb | ⟨pc, hb⟩ | hb <;> rw [hb] at h ⊢ <;> cases hc : th.call <;> rw [hc] at h
  · exact ⟨hu.calm, hu.vars.signal.trans h.2.1, h.2.2⟩
  · exact h
  · exact h
  · exact ⟨hu.calm, h.2.1, h.2.2.1, h.2.2.2.kept hu.signaler hu.group hu.vars⟩
  · exact h
  · exact ⟨hu.calm, h.2.1, h.2.2.kept hu.signaler hu.vars⟩

/-- On the caller's stack, at any point: the thread is `Calm` and SIGNAL, if
set, names it. -/
theorem Core.calm {ok tidy : Prop} {t : Tid} {th : Thread V E} (h : Core ok tidy t th)
    (hbase : th.base = .caller ∨ (∃ pc, th.base = .main pc) ∨ th.base = .boot) :
    Calm th ∧ (th.vars.signal = none ∨ th.vars.signal = some t) := by
  unfold Core at h
  rcases hbase with hb | ⟨pc, hb⟩ | hb <;> rw [hb] at h <;> cases hc : th.call <;> rw [hc] at h
  · exact ⟨h.1, .inl h.2.1⟩
  · exact h.elim
  · exact h.elim
  · exact ⟨h.1, h.2.2.2.signal⟩
  · exact h.elim
  · exact ⟨h.1, .inr h.2.2.signal⟩

/-- The call of a thread on a function's stack. -/
theorem Core.body {ok tidy : Prop} {t : Tid} {th : Thread V E} {b : Body} (h : Core ok tidy t th)
    (hb : th.base = .body b) : ∃ c, th.call = some c ∧ CallOk tidy c ∧ InBody t th c b := by
  unfold Core at h
  cases hc : th.call <;> rw [hb, hc] at h
  · exact h.elim
  · exact ⟨_, rfl, h⟩

theorem Core.gone {ok tidy : Prop} {t : Tid} {th : Thread V E} (h : Core ok tidy t th)
    (hb : th.base = .gone) :
    ∃ c upper bottom, th.call = some c ∧ CallOk tidy c ∧ Gone t th c upper bottom := by
  unfold Core at h
  cases hc : th.call <;> rw [hb, hc] at h
  · exact h.elim
  · obtain ⟨hok, upper, bottom, h⟩ := h
    exact ⟨_, upper, bottom, rfl, hok, h⟩

/-- A signal arrives. -/
theorem core_deliver {ok tidy : Prop} {t : Tid} {th : Thread V E} {no : L1.Signals.Signal}
    (h : Core ok tidy t th) (ha : th.base.alive = true) (hno : no ∉ th.mask) :
    Core ok tidy t (th.interrupt no) := by
  have hcalm (hbase : th.base = .caller ∨ (∃ pc, th.base = .main pc) ∨ th.base = .boot) :
      Core ok tidy t (th.interrupt no) := core_undisturbed h ((h.calm hbase).1.deliver hno) hbase
  cases hb : th.base with
  | caller => exact hcalm (.inl hb)
  | main pc => exact hcalm (.inr (.inl ⟨pc, hb⟩))
  | boot => exact hcalm (.inr (.inr hb))
  | body b =>
    obtain ⟨c, hc, hok, h⟩ := h.body hb
    simp only [Core, Thread.interrupt, hb, hc]
    have hcalm (he : b.pos.entering = true) := ((h.calm he).deliver hno).calm
    refine ⟨hok, { h with
      run := ⟨h.run.own, h.run.errno, h.run.checkpoint, h.run.link, h.run.taken, h.run.trace⟩
      calm := fun he => ⟨(hcalm he).mask, (hcalm he).frames, (hcalm he).foreign⟩
      frames := ?_ }⟩
    intro f hf
    rcases List.mem_cons.mp hf with rfl | hf
    · exact ⟨rfl, trivial⟩
    · exact h.frames f hf
  | gone =>
    obtain ⟨c, upper, bottom, hc, hok, h⟩ := h.gone hb
    simp only [Core, Thread.interrupt, hb, hc]
    refine ⟨hok, ⟨no, th.mask, .interrupted, .entry⟩ :: upper, bottom,
      { h with handlers := by rw [h.handlers]; rfl, frames := ?_ }⟩
    intro f hf
    rcases List.mem_cons.mp hf with rfl | hf
    · exact ⟨rfl, trivial⟩
    · exact h.frames f hf
  | exited => rw [hb] at ha; cases ha
  | stuck why => rw [hb] at ha; cases ha

/-- A step of the innermost handler. -/
theorem core_handler {w : World} {now : UInt64} {ok tidy : Prop} {t : Tid}
    {th th' : Thread V E} {f : Frame} {rest : List Frame} (h : Core ok tidy t th)
    (hsig : w.sig t = th.signaler) (ha : th.base.alive = true) (hh : th.handlers = f :: rest)
    (hs : th.handlerStep w now f rest = th') : Core ok tidy t th' := by
  have hcalm (hbase : th.base = .caller ∨ (∃ pc, th.base = .main pc) ∨ th.base = .boot) :
      Core ok tidy t th' :=
    core_undisturbed h
      ((h.calm hbase).1.handler hh (own_of_threadSignal hsig (h.calm hbase).2) hs) hbase
  cases hb : th.base with
  | caller => exact hcalm (.inl hb)
  | main pc => exact hcalm (.inr (.inl ⟨pc, hb⟩))
  | boot => exact hcalm (.inr (.inr hb))
  | body b =>
    obtain ⟨c, hc, hok, h⟩ := h.body hb
    rcases h.handler hsig hb hh hs with ⟨hb', hc', h'⟩ | ⟨hb', hc', bottom, h'⟩ | hb'
    · simp only [Core, hb', hc', hc]; exact ⟨hok, h'⟩
    · simp only [Core, hb', hc', hc]; exact ⟨hok, [], bottom, h'⟩
    · simp only [Core, hb']; exact .inl trivial
  | gone =>
    obtain ⟨c, upper, bottom, hc, hok, h⟩ := h.gone hb
    have hsplit := h.handlers
    rw [hh] at hsplit
    cases upper with
    | nil =>
      obtain ⟨rfl, rfl⟩ : f = bottom ∧ rest = [] := by simpa using hsplit
      rcases h.bottom hs with ⟨hb', hc', bottom', h'⟩ | ⟨hb', hc', h'⟩
      · simp only [Core, hb', hb, hc', hc]; exact ⟨hok, [], bottom', h'⟩
      · simp only [Core, hb', hc', hc]; exact ⟨h'.1, fun _ => h'.2.2.group, hok, h'.2⟩
    | cons f' upper =>
      obtain ⟨rfl, rfl⟩ : f = f' ∧ rest = upper ++ [bottom] := by simpa using hsplit
      rcases h.upper hs with ⟨hb', hc', upper', h'⟩ | hb'
      · simp only [Core, hb', hb, hc', hc]; exact ⟨hok, upper', bottom, h'⟩
      · simp only [Core, hb']; exact .inl trivial
  | exited => rw [hb] at ha; cases ha
  | stuck why => rw [hb] at ha; cases ha

/-- `schedule` takes BOOTSTRAP. -/
theorem core_boot {ok tidy : Prop} {t : Tid} {th : Thread V E} {c : Call V E}
    (h : Core ok tidy t th) (hb : th.base = .boot) (hc : th.call = some c) (hh : th.handlers = []) :
    Core ok tidy t th.bootStep := by
  simp only [Core, hb, hc] at h
  obtain ⟨hcalm, hok, h⟩ := h
  simp only [Thread.bootStep, h.bootstrap, Core, hc]
  refine ⟨hok, ⟨h.run.own, h.run.errno, h.run.checkpoint, h.run.link, h.run.taken, h.run.trace⟩,
    rfl, ?_, nofun, fun _ => ⟨hcalm.mask, by simp [hh], by simp [hh]⟩, h.signal, by
      simp [Pos.cleared], by simp [hh]⟩
  exact ⟨rfl, rfl, h.fn, by simp [Pos.located]⟩

/-- **One step of a thread.** Whatever arrives and whatever the function does,
`Core` is kept. -/
theorem core_act {w : World} {ok tidy : Prop} {t : Tid} {th th' : Thread V E}
    {a : Act V E} (h : Core ok tidy t th) (hw : w.notls = false) (hsig : w.sig t = th.signaler)
    (hfits : ok → w.overflowChecks = true → ∀ now, a = .run now → th.StampFits now)
    (hs : th.step w a = some th') :
    Core ok tidy t th' := by
  cases Thread.step_acts hs with
  | delivers no ha hno => exact core_deliver h ha hno
  | handles now f rest hr hh => exact core_handler h hsig (Thread.alive_of_ready hr) hh rfl
  | boots now c _ hh hb hc => exact core_boot h hb hc hh
  | runs now b c th' _ hh hb hc hs =>
    simp only [Core, hb, hc] at h
    refine h.2.step hw hsig hc h.1 hh (fun hok ho hpos => ?_) hs
    exact hfits hok ho now rfl (by simp [Thread.stamping, hh, hb, hpos])
  | fn a b c th' _ hh hb hc hs =>
    simp only [Core, hb, hc] at h
    exact h.2.fn hb hc h.1 hh hs

end Inger.L3
