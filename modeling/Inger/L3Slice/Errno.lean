import Inger.L3Slice.Fate

/-!
# Preemption is transparent to errno

`preempt` saves errno on entry. A handler that does not pause the function
restores it before it returns. One that does leaves it in `Task`, and
`switch_stack` restores it as the last thing before the jump, after it has
switched to the function's group. In between the handler, `resume`, its callers
and other functions run, on any thread, and any of that code may set errno.

`code` follows one function: the place it is at below all handlers, the group it
has found there if `schedule` has not switched yet, and the
errno its code there sees when it continues. The second is read off the handlers
on the stack, the outermost of which has the last word (`behind`), off `Task`,
or is the current errno. `noisy` adds to the process the steps in which the code
of a handler sets errno, at any point between saving and restoring it, and those
in which the code on a thread's own stack does. `errno_transparent`: while the
function itself takes no step, `code` does not change, whatever interrupts it and
wherever it is resumed.
-/
namespace Inger.L2

variable {V E : Type}

/-- The errno a handler has saved and not yet restored or handed on. -/
def HandlerPc.saved : HandlerPc → Option Int
  | .entry => none
  | .relevant e => some e
  | .test e _ => some e
  | .deadline e => some e
  | .clock e _ => some e
  | .yielded e _ => some e
  | .swap e => some e
  | .errno e => some e
  | .block => none
  | .disable _ => none
  | .deferMask e => some e
  | .deferFlag e => some e
  | .ignore e => some e
  | .restore e => some e
  | .ret => none

/-- errno as the code below the handlers sees it once they have returned, if
`cur` is the current one. -/
def behind : List Frame → Int → Int
  | [], cur => cur
  | f :: rest, cur => behind rest (f.pc.saved.getD cur)

/-- A paused function. -/
def Task.code (k : Task) : Option (Body × Option Group × Int) :=
  match k.errno, k.checkpoint with
  | some e, some ⟨_, _, .paused b hs⟩ => some (b, none, behind hs e)
  | _, _ => none

/-- The group `schedule` has found, until it switches to the function's. -/
def Thread.found (th : Thread V E) (b : Body) : Option Group :=
  if b.pos.entering then some th.group else none

/-- The function of a call in progress. -/
def Thread.code (th : Thread V E) (c : Call V E) : Option (Body × Option Group × Int) :=
  match th.base with
  | .main .leave => th.vars.task.code
  | .main _ => c.task.code
  | .body b => some (b, th.found b, behind th.handlers (th.vars.errno th.group))
  -- The handler that has swapped is the outermost one; `Task` has no errno yet or has it.
  | .gone =>
    { th.vars.task with
      errno := (th.handlers.getLast?.bind fun f => f.pc.saved).or th.vars.task.errno }.code
  | _ => none

/-- Code that may set errno runs: a handler that has saved it and not yet
restored it, or `resume` or its caller. -/
def Thread.loose (th : Thread V E) : Bool :=
  match th.handlers, th.base with
  | f :: _, _ => f.pc != .entry && f.pc != .ret
  | [], .caller => true
  | [], .main _ => true
  | _, _ => false

/-- A step of the process, or thread `t` sets the errno of its group. -/
inductive Noise (V E : Type) where
  | step (l : Label V E)
  | clobber (t : Tid) (e : Int)

def Thread.clobber (th : Thread V E) (e : Int) : Thread V E :=
  { th with vars := th.vars.setErrno th.group e }

def noisyStep (cfg : Cfg V) (s : Sys V E) : Noise V E → Option (Sys V E)
  | .step l => s.step cfg l
  | .clobber t e =>
    if (s.threads t).loose then some (s.setThread t ((s.threads t).clobber e)) else none

def noisy (cfg : Cfg V) : LTS (Sys V E) (Noise V E) :=
  LTS.ofFn (fun s => ∃ masks, s = Sys.initial cfg masks) (noisyStep cfg)

end Inger.L2

namespace Inger.L3

open L1.Reusable L1.Signals L2

variable {V E : Type}

/-- Where the function is and the errno it sees when it continues; `none` if it
is not between its first step and its last, or has lost its block. -/
def Status.code : Status V E → Option (Body × Option Group × Int)
  | .idle c _ => if c.tls.isSome then c.stateful.code else none
  | .running _ th c => th.code c
  | .over _ => none

/-- The function's code never continues. -/
def Status.Lost : Status V E → Prop
  | .idle c _ => c.tls = none
  | .running _ th _ => ∃ why, th.base = .stuck why
  | .over _ => True

/-- Thread `t` executes the code of function `k`, below all handlers. -/
structure Executes (s : Sys V E) (t : Tid) (k : Lid) (b : Body) : Prop where
  call : ∃ c, (s.threads t).call = some c ∧ c.linger = k
  base : (s.threads t).base = .body b
  handlers : (s.threads t).handlers = []

/-- `Executes`, at some place. -/
def executing (s : Sys V E) (t : Tid) (k : Lid) : Bool :=
  match (s.threads t).call, (s.threads t).base, (s.threads t).handlers with
  | some c, .body _, [] => c.linger = k
  | _, _, _ => false

theorem executing_iff {s : Sys V E} {t : Tid} {k : Lid} :
    executing s t k = true ↔ ∃ b, Executes s t k b := by
  constructor
  · intro h
    unfold executing at h
    split at h
    · rename_i c b hc hb hh
      exact ⟨b, ⟨c, hc, of_decide_eq_true h⟩, hb, hh⟩
    · cases h
  · rintro ⟨b, ⟨c, hc, hk⟩, hb, hh⟩
    simp only [executing, hc, hb, hh, hk, decide_true]

/-- The function itself takes no step. -/
def Away (k : Lid) (s : Sys V E) : Noise V E → Prop
  | .step (.act t (.run _)) => executing s t k = false
  | .step (.act t (.fn _)) => executing s t k = false
  | _ => True

instance (k : Lid) (s : Sys V E) (n : Noise V E) : Decidable (Away k s n) := by
  unfold Away
  split <;> infer_instance

/-! ## One thread -/

section
variable {w : World} {now : UInt64} {t : Tid} {th th' : Thread V E} {c c' : Call V E}
  {f : Frame} {rest : List Frame} {b : Body} {v : Body × Option Group × Int}

theorem behind_entry (no : Signal) (m : Sigset) (hs : List Frame) (cur : Int) :
    behind (⟨no, m, .interrupted, .entry⟩ :: hs) cur = behind hs cur := rfl

/-- A handler on the function's stack: it moves on with the errno it saved,
restores it, returns, or leaves it to `Task`. -/
theorem InBody.code_handler (h : InBody t th c b) (hb : th.base = .body b)
    (hh : th.handlers = f :: rest) :
    (th.handlerStep w now f rest).code c =
        some (b, th.found b, behind th.handlers (th.vars.errno th.group)) ∨
      ∃ why, (th.handlerStep w now f rest).base = .stuck why := by
  have hf : f.Ok b.pos.preemptible b.pos.past true :=
    h.frames f (by rw [hh]; exact List.mem_cons_self)
  have hok := hf.pc
  rw [hh]
  unfold Thread.handlerStep behind
  cases hpc : f.pc with
  | entry => exact .inl (by simp [Thread.code, hb, behind, HandlerPc.saved, Thread.found])
  | relevant e => exact .inl (by simp [Thread.code, hb, behind, HandlerPc.saved, Thread.found])
  | test e r =>
    refine .inl ?_
    cases r <;> cases th.group.preemptible <;>
      simp [Thread.code, hb, behind, HandlerPc.saved, Thread.found]
  | deadline e => exact .inl (by simp [Thread.code, hb, behind, HandlerPc.saved, Thread.found])
  | clock e d =>
    refine .inl ?_
    dsimp only
    split <;> simp [Thread.code, hb, behind, HandlerPc.saved, Thread.found]
  | yielded e d =>
    dsimp only
    split
    · exact .inr ⟨.borrowed, rfl⟩
    · exact .inl (by simp [Thread.code, hb, behind, HandlerPc.saved, Thread.found])
  | swap e =>
    obtain ⟨st, hck⟩ := h.run.checkpoint
    rw [hpc] at hok
    refine .inl ?_
    simp [Pos.entering_of_preemptible hok.1, Thread.swap, hck, hf.target, hb, Thread.code,
      Task.code, HandlerPc.saved, Thread.found]
  | deferMask e =>
    dsimp only
    split
    · exact .inr ⟨.deferring, rfl⟩
    · exact .inl (by simp [Thread.code, hb, behind, HandlerPc.saved, Thread.found])
  | deferFlag e => exact .inl (by simp [Thread.code, hb, behind, HandlerPc.saved, Thread.found])
  | ignore e => exact .inl (by simp [Thread.code, hb, behind, HandlerPc.saved, Thread.found])
  | restore e =>
    exact .inl (by simp [Thread.code, hb, behind, HandlerPc.saved, Vars.setErrno, Thread.found])
  | ret =>
    exact .inl (by simp [Thread.sigreturn, hf.target, Thread.code, hb, HandlerPc.saved, Thread.found])
  | errno e => rw [hpc] at hok; exact hok.elim
  | block => rw [hpc] at hok; exact hok.elim
  | disable pc => rw [hpc] at hok; exact hok.elim

/-- On top of the handler that has swapped, nothing touches what it saved. -/
theorem Gone.code_upper {upper : List Frame} {bottom : Frame} (h : Gone t th c (f :: upper) bottom)
    (hb : th.base = .gone) (hs : th.handlerStep w now f (upper ++ [bottom]) = th') :
    th'.code c = th.code c ∨ ∃ why, th'.base = .stuck why := by
  have hlast {hs : List Frame} (x : Frame) (hh : hs = upper ++ [bottom]) :
      (x :: hs).getLast? = some bottom ∧ hs.getLast? = some bottom := by
    subst hh
    exact ⟨by rw [← List.cons_append, List.getLast?_concat], List.getLast?_concat⟩
  have hh : th.handlers = f :: (upper ++ [bottom]) := h.handlers
  cases h.handled hs with
  | moves f' v' ok no mask vars =>
    refine .inl ?_
    simp only [Thread.code, hb, hh, Task.code, (hlast f' rfl).1, (hlast f rfl).1, vars.errno,
      vars.checkpoint]
  | returns =>
    refine .inl ?_
    simp only [Thread.code, hb, hh, (hlast f rfl).1, (hlast f rfl).2]
  | swaps e pc pre past sw => cases sw
  | borrowed => exact .inr ⟨.borrowed, rfl⟩

/-- The handler that has swapped: what it saved goes to `Task` and stays there. -/
theorem Gone.code_bottom {bottom : Frame} (h : Gone t th c [] bottom) (hb : th.base = .gone)
    (hs : th.handlerStep w now bottom [] = th') : th'.code c = th.code c := by
  have hh : th.handlers = [bottom] := h.handlers
  have hl := h.leaving
  subst hs
  unfold Thread.handlerStep
  cases hpc : bottom.pc with
  | errno e => simp [Thread.code, hb, hh, hpc, HandlerPc.saved, Task.code]
  | block => simp [Thread.code, hb, hh, hpc, HandlerPc.saved]
  | disable pc =>
    cases pc <;> simp [Thread.code, hb, hh, hpc, HandlerPc.saved, Thread.disableStep,
      DisablePc.next]
  | ret => simp [Thread.code, hb, hh, hpc, HandlerPc.saved, Thread.sigreturn, h.target]
  | _ => rw [hpc] at hl; cases hl

/-- On the thread's own stack the function is paused, or finished. -/
theorem Undisturbed.code (h : Undisturbed th th') (hbase : ∃ pc, th.base = .main pc) :
    th'.code c = th.code c := by
  obtain ⟨pc, hb⟩ := hbase
  unfold Thread.code
  rw [h.base, hb, h.vars.task rfl]
  cases pc <;> rfl

/-- **A step of a thread on which the function does not act itself.** -/
theorem code_act {a : Act V E} (h : Core False False t th) (hsig : w.sig t = th.signaler)
    (hcall : th.call = some c) (hs : th.step w a = some th') (hcall' : th'.call = some c')
    (ha : (∃ no, a = .deliver no) ∨ ∀ b, th.base = .body b → th.handlers ≠ [])
    (hv : th.code c = some v) :
    th'.code c' = some v ∨ ∃ why, th'.base = .stuck why := by
  cases Thread.step_acts hs with
  | delivers no _ hno =>
    obtain rfl : c = c' := Option.some.inj (hcall.symm.trans hcall')
    refine .inl (Eq.trans ?_ hv)
    cases hb : th.base with
    | body b => simp only [Thread.code, Thread.interrupt, hb, behind_entry, Thread.found]
    | gone =>
      obtain ⟨c₀, upper, bottom, hc₀, -, hgone⟩ := h.gone hb
      simp only [Thread.code, Thread.interrupt, hb, hgone.handlers]
      rw [← List.cons_append, List.getLast?_concat, List.getLast?_concat]
    | main pc => exact ((h.calm (.inr (.inl ⟨pc, hb⟩))).1.deliver hno).code ⟨pc, hb⟩
    | _ => simp only [Thread.code, Thread.interrupt, hb]
  | handles now f rest _ hh =>
    rw [Thread.handlerStep_call, hcall] at hcall'
    cases hcall'
    cases hb : th.base with
    | body b =>
      obtain ⟨c₀, hc₀, -, hbody⟩ := h.body hb
      rw [hcall] at hc₀
      cases hc₀
      rw [Thread.code, hb] at hv
      exact hv ▸ hbody.code_handler hb hh
    | gone =>
      obtain ⟨c₀, upper, bottom, hc₀, -, hgone⟩ := h.gone hb
      rw [hcall] at hc₀
      cases hc₀
      have hsplit := hgone.handlers
      rw [hh] at hsplit
      cases upper with
      | nil =>
        obtain ⟨rfl, rfl⟩ : f = bottom ∧ rest = [] := by simpa using hsplit
        exact .inl ((hgone.code_bottom hb rfl).trans hv)
      | cons f' upper =>
        obtain ⟨rfl, rfl⟩ : f = f' ∧ rest = upper ++ [bottom] := by simpa using hsplit
        exact hv ▸ hgone.code_upper hb rfl
    | main pc =>
      have hcalm := h.calm (.inr (.inl ⟨pc, hb⟩))
      have hu : Undisturbed th (th.handlerStep w now f rest) :=
        hcalm.1.handler hh (own_of_threadSignal hsig hcalm.2) rfl
      exact .inl ((hu.code ⟨pc, hb⟩).trans hv)
    | _ => rw [Thread.code, hb] at hv; cases hv
  | boots now c₀ _ _ hb =>
    rw [Thread.code, hb] at hv
    cases hv
  | runs now b c₀ th' _ hh hb =>
    obtain ⟨no, hno⟩ | ha := ha
    · cases hno
    · exact absurd hh (ha b hb)
  | fn a b c₀ th' _ hh hb =>
    obtain ⟨no, hno⟩ | ha := ha
    · cases hno
    · exact absurd hh (ha b hb)

/-- Between saving and restoring errno, setting it makes no difference. -/
theorem code_clobber (h : Core False False t th) (hl : th.loose = true) (e : Int) :
    (th.clobber e).code c = th.code c := by
  cases hb : th.base with
  | body b =>
    obtain ⟨c₀, -, -, hbody⟩ := h.body hb
    unfold Thread.loose at hl
    split at hl
    · rename_i f rest hh
      have hok := (hbody.frames f (by rw [hh]; exact List.mem_cons_self)).pc
      simp only [Thread.code, Thread.clobber, hb, hh, behind, Thread.found]
      cases hpc : f.pc <;> simp_all [HandlerPc.saved, HandlerPc.Ok]
    all_goals simp_all
  | main pc => cases pc <;> simp only [Thread.code, Thread.clobber, hb, Vars.setErrno]
  | _ => simp only [Thread.code, Thread.clobber, hb, Vars.setErrno]

end

/-! ## One function -/

section
variable {cfg : Cfg V} {s s' : Sys V E} {t : Tid} {k : Lid} {l : Label V E} {x x' : Status V E}
  {v : Body × Option Group × Int}

theorem fate_code (hf : Fate cfg s k l x x') (hi : Away k s (.step l)) (hv : x.code = some v) :
    x'.code = some v ∨ x'.Lost := by
  cases hf with
  | same => exact .inl hv
  | begins t us env c trace tcb idle tls =>
    rw [Status.code, tls] at hv
    exact .inl hv
  | forfeits => exact .inr rfl
  | prepares t env c c' th pc base early call same us task base' =>
    have hcode : c.task.code = some v := by
      rw [Status.code, Thread.code, base] at hv
      cases pc with
      | leave => exact absurd rfl early.2
      | _ => exact hv
    obtain htask | ⟨herr, -⟩ := task
    · refine .inl ?_
      rw [Status.code, Thread.code, base', htask]
      cases pc with
      | switch => exact absurd rfl early.1
      | leave => exact absurd rfl early.2
      | _ => exact hcode
    · rw [Task.code, herr] at hcode
      cases hcode
  | sticks t env c th pc why base early base' => exact .inr ⟨why, base'⟩
  | starts t env c st m y base handlers task =>
    rw [Status.code, Thread.code, base] at hv
    simp only [Task.code, task] at hv
    cases hv
  | resumes t env c e st m b hs y o base call task own paused =>
    rw [Status.code, Thread.code, base] at hv
    simp only [Task.code, task] at hv
    refine .inl (Eq.trans ?_ hv)
    simp [Status.code, Thread.code, Vars.setErrno, Thread.found,
      Pos.entering_of_preemptible paused.pre]
  | acts t a c c' th core call linger step call' =>
    have hother (he : executing s t k = false) (b : Body) (hb : (s.threads t).base = .body b) :
        (s.threads t).handlers ≠ [] := fun hh =>
      Bool.false_ne_true (he.symm.trans (executing_iff.mpr ⟨b, ⟨c, call, linger⟩, hb, hh⟩))
    refine code_act core rfl call step call' ?_ hv
    cases a with
    | deliver no => exact .inl ⟨no, rfl⟩
    | run now => exact .inr (hother hi)
    | fn a => exact .inr (hother hi)
  | fails t env c cont tls => exact .inr tls
  | dropped => exact .inr trivial
  | pauses t env c e st m b hs y base task =>
    rw [Status.code, Thread.code, base] at hv
    simp only [task] at hv
    exact .inl hv
  | settles => exact .inr trivial
  | drops => exact .inr trivial
  | cancels => exact .inr trivial
  | forgets => exact .inr trivial

theorem fate_lost (hf : Fate cfg s k l x x') (hx : x.Lost) : x'.Lost := by
  -- A thread that is stuck takes no step.
  have stuck {t : Tid} {b : Base} (hb : (s.threads t).base = b) (hlive : ∀ why, b ≠ .stuck why)
      {c : Call V E} (hx : (Status.running t (s.threads t) c).Lost) : x'.Lost := by
    obtain ⟨why, hw⟩ := hx
    exact absurd (hb.symm.trans hw) (hlive why)
  cases hf with
  | same => exact hx
  | begins t us env c trace tcb idle tls => exact absurd (tls.symm.trans hx) (by simp)
  | forfeits => rfl
  | prepares t env c c' th pc base => exact stuck base (by simp) hx
  | sticks t env c th pc why base early base' => exact ⟨why, base'⟩
  | starts t env c st m y base => exact stuck base (by simp) hx
  | resumes t env c e st m b hs y o base => exact stuck base (by simp) hx
  | acts t a c c' th core call linger step =>
    obtain ⟨why, hw⟩ := hx
    have hdead : (s.threads t).base.alive = false := by rw [hw]; rfl
    cases a <;> simp [Thread.step, Thread.ready, hdead] at step
  | fails t env c cont tls => exact tls
  | dropped => trivial
  | pauses t env c e st m b hs y base => exact stuck base (by simp) hx
  | settles => trivial
  | drops => trivial
  | cancels => trivial
  | forgets => trivial

/-- The invariant does not look at errno. -/
theorem core_clobber {th : Thread V E} {ok tidy : Prop} (h : Core ok tidy t th) (e : Int) :
    Core ok tidy t (th.clobber e) := by
  have hcalm (hbase : th.base = .caller ∨ (∃ pc, th.base = .main pc) ∨ th.base = .boot) :
      Core ok tidy t (th.clobber e) := by
    have hc := (h.calm hbase).1
    exact core_undisturbed h
      ⟨⟨hc.mask, hc.frames, hc.foreign⟩, rfl, rfl, rfl, rfl, rfl, .setErrno _ _ _⟩ hbase
  cases hb : th.base with
  | caller => exact hcalm (.inl hb)
  | main pc => exact hcalm (.inr (.inl ⟨pc, hb⟩))
  | boot => exact hcalm (.inr (.inr hb))
  | body b =>
    obtain ⟨c, hc, hok, h⟩ := h.body hb
    simp only [Core, Thread.clobber, hb, hc]
    exact ⟨hok, { h with
      run := ⟨h.run.own, h.run.errno, h.run.checkpoint, h.run.link, h.run.taken, h.run.trace⟩
      calm := fun he => ⟨(h.calm he).mask, (h.calm he).frames, (h.calm he).foreign⟩ }⟩
  | gone =>
    obtain ⟨c, upper, bottom, hc, hok, h⟩ := h.gone hb
    simp only [Core, Thread.clobber, hb, hc]
    exact ⟨hok, upper, bottom, { h with handlers := h.handlers }⟩
  | exited =>
    cases hc : th.call <;> simp only [Core, hb, hc] at h
    simp only [Core, Thread.clobber, hb, hc]
  | stuck why =>
    simp only [Core, hb] at h
    simp only [Core, Thread.clobber, hb]
    exact h

theorem noisy_kept {n : Noise V E} (hn : cfg.notls = false) (hg : Good False False s)
    (hl : Linked s) (hs : noisyStep cfg s n = some s') : Good False False s' ∧ Linked s' := by
  cases n with
  | step l => exact ⟨good_step hn hg False.elim False.elim hs, linked_step hn hg hl hs⟩
  | clobber t e =>
    simp only [noisyStep, Option.ite_none_right_eq_some, Option.some.injEq] at hs
    obtain ⟨-, rfl⟩ := hs
    exact ⟨hg.setThread (core_clobber (hg.threads t) e) (hg.rets t),
      hl.setThread (fun _ => rfl) rfl rfl⟩

theorem noisy_reachable (hn : cfg.notls = false) (hr : (noisy cfg).Reachable s) :
    Good False False s ∧ Linked s := by
  refine LTS.Inductive.reachable (I := fun s => Good False False s ∧ Linked s) ⟨?_, ?_⟩ s hr
  · rintro s ⟨masks, rfl⟩
    exact ⟨good_init False.elim cfg masks, linked_init cfg masks⟩
  · rintro s n s' ⟨hg, hl⟩ hs
    exact noisy_kept hn hg hl hs

/-- Function `k` is where it was and will see the errno it saw, or it never
continues. -/
def Keeps (k : Lid) (v : Body × Option Group × Int) (s : Sys V E) : Prop :=
  ∃ x, status s k = some x ∧ (x.code = some v ∨ x.Lost)

theorem keeps_clobber (hg : Good False False s) (hl : Linked s) (h : Keeps k v s) {e : Int}
    (hloose : (s.threads t).loose = true) :
    Keeps k v (s.setThread t ((s.threads t).clobber e)) := by
  obtain ⟨x, hx, hv⟩ := h
  by_cases hj : ∃ c, (s.threads t).call = some c ∧ c.linger = k
  · obtain ⟨c, hcall, rfl⟩ := hj
    rw [hl.running hcall] at hx
    cases hx
    refine ⟨_, hl.goes hcall rfl hcall, ?_⟩
    rw [Status.code, code_clobber (hg.threads t) hloose]
    exact hv
  · have hsame : status (s.setThread t ((s.threads t).clobber e)) k = status s k :=
      status_congr rfl fun u g trace hu =>
        threads_setThread_ne _ (hl.ne hu fun c hc hck => hj ⟨c, hc, hck⟩)
    exact ⟨x, hsame.trans hx, hv⟩

theorem keeps_step {n : Noise V E} (hn : cfg.notls = false) (hg : Good False False s)
    (hl : Linked s) (h : Keeps k v s) (hs : noisyStep cfg s n = some s') (hi : Away k s n) :
    Keeps k v s' := by
  cases n with
  | step l =>
    obtain ⟨x, hx, hv⟩ := h
    obtain ⟨x', hx', hf⟩ := status_step hn hg hl hs hx
    exact ⟨x', hx', hv.elim (fun hv => fate_code hf hi hv) fun hlost => .inr (fate_lost hf hlost)⟩
  | clobber t e =>
    simp only [noisyStep, Option.ite_none_right_eq_some, Option.some.injEq] at hs
    obtain ⟨hloose, rfl⟩ := hs
    exact keeps_clobber hg hl h hloose

/-- Over a whole run, by induction on it. -/
theorem keeps_run {ns : List (Noise V E)} (hn : cfg.notls = false)
    (hrun : ((noisy cfg).only (Away k)).Run s ns s') (hg : Good False False s) (hl : Linked s)
    (h : Keeps k v s) : Good False False s' ∧ Linked s' ∧ Keeps k v s' := by
  induction hrun with
  | nil => exact ⟨hg, hl, h⟩
  | cons hst _ ih =>
    obtain ⟨hg', hl'⟩ := noisy_kept hn hg hl hst.1
    exact ih hg' hl' (keeps_step hn hg hl h hst.1 hst.2)

theorem Executes.status {b : Body} (h : Executes s t k b) (hl : Linked s) :
    ∃ c, (s.threads t).call = some c ∧ L3.status s k = some (.running t (s.threads t) c) ∧
      (s.threads t).code c =
        some (b, (s.threads t).found b, (s.threads t).vars.errno (s.threads t).group) := by
  obtain ⟨c, hcall, rfl⟩ := h.call
  refine ⟨c, hcall, hl.running hcall, ?_⟩
  simp only [Thread.code, h.base, h.handlers, behind]

end

/-- **errno is not disturbed.** From a state in which a thread is about to
execute the function's code (in its own group, or in a library call it made)
take any run in which that code takes no step: any signals, this thread's or
others', with the deadline reached or not, pauses and slices on any threads, other
functions, and any handler and caller setting errno. If in the last state some
thread is about to execute the function's code, it is the same place, in the same
group, and errno is what it was. -/
theorem errno_transparent (cfg : Cfg V) (hn : cfg.notls = false) (s s' : Sys V E) (k : Lid)
    (ns : List (Noise V E)) (hr : (noisy cfg).Reachable s)
    (hrun : ((noisy cfg).only (Away k)).Run s ns s') (t t' : Tid) (b b' : Body)
    (h : Executes s t k b) (h' : Executes s' t' k b') :
    b' = b ∧ (s'.threads t').group = (s.threads t).group ∧
      (s'.threads t').vars.errno (s'.threads t').group = (s.threads t).vars.errno
        (s.threads t).group := by
  obtain ⟨hg, hl⟩ := noisy_reachable hn hr
  obtain ⟨c, hcall, hx, hcode⟩ := h.status hl
  obtain ⟨hg', hl', x, hx', hv⟩ := keeps_run hn hrun hg hl ⟨_, hx, .inl hcode⟩
  obtain ⟨c', hcall', hx'', hcode'⟩ := h'.status hl'
  rw [hx''] at hx'
  cases hx'
  obtain hv | ⟨why, hw⟩ := hv
  · rw [Status.code, hcode'] at hv
    obtain ⟨rfl, hfound, he⟩ : b' = b ∧ (s'.threads t').found b' = (s.threads t).found b ∧ _ := by
      simpa using hv
    refine ⟨rfl, ?_, he⟩
    obtain ⟨c₁, hc₁, -, hb⟩ := (hg.threads t).body h.base
    obtain ⟨c₂, hc₂, -, hb'⟩ := (hg'.threads t').body h'.base
    cases hent : b'.pos.entering with
    | true => simpa [Thread.found, hent] using hfound
    | false => rw [hb.group hent, hb'.group hent, ← hb.body.group, ← hb'.body.group]
  · exact absurd (h'.base.symm.trans hw) (by simp)

theorem noisy_of_exec (cfg : Cfg V) (k : Lid) (ns ns' : List (Noise V E))
    (p : Sys V E → Sys V E → Bool)
    (h : ((LTS.exec (noisyStep cfg) (Sys.initial cfg fun _ => ∅) ns).bind fun s =>
      (LTS.exec (LTS.checked (Away k) (noisyStep cfg)) s ns').map (p s)) = some true) :
    ∃ s s', (noisy cfg).Reachable s ∧ ((noisy cfg).only (Away k)).Run s ns' s' ∧ p s s' = true :=
  LTS.reach_run_of_exec ⟨_, rfl⟩ h

def quiet (ls : List (Label Bool Bool)) : List (Noise Bool Bool) := ls.map .step

/-- Thread `0` launches a function, which sets errno. -/
def setsErrno : List (Noise Bool Bool) :=
  quiet (launchOn 0 ++ [.act 0 (.fn (.work 7))])

/-- The slice ends; the handler, `resume` and the caller set errno. Another
function runs on thread `1`, sets errno and finishes, and the first one is
resumed there. -/
def pausedElsewhere : List (Noise Bool Bool) :=
  quiet (.act 0 (.deliver .Alarm) :: List.replicate 5 (.act 0 (.run 5000))) ++ [.clobber 0 1] ++
    quiet (List.replicate 9 (.act 0 (.run 5000)) ++ [.main 0 (.fine 0)]) ++ [.clobber 0 2] ++
    quiet (launchOn 1 ++ [.act 1 (.fn (.work 3)), .act 1 (.fn (.finish (.ok true)))] ++
      List.replicate 6 (.act 1 (.run 0)) ++ [.main 1 (.fine 0), .resume 1 0 5 (.fine 0)]) ++
        [.clobber 1 4] ++
    quiet (List.replicate 4 (.main 1 (.fine 0)))

theorem errno_transparent_pausedElsewhere :
    ∃ (s s' : Sys Bool Bool) (b : Body), (noisy Cfg.small).Reachable s ∧
      ((noisy Cfg.small).only (Away 0)).Run s pausedElsewhere s' ∧ Executes s 0 0 b ∧
      Executes s' 1 0 b ∧ (s'.threads 1).group = .of 0 ∧ (s'.threads 1).vars.errno (.of 0) = 7 := by
  obtain ⟨s, s', hr, hrun, hp⟩ := noisy_of_exec Cfg.small 0 setsErrno pausedElsewhere
    (fun s s' => executing s 0 0 && executing s' 1 0 && decide ((s.threads 0).group = .of 0) &&
      decide ((s.threads 0).vars.errno (.of 0) = 7)) (by decide +kernel)
  simp only [Bool.and_eq_true, decide_eq_true_eq, executing_iff] at hp
  obtain ⟨⟨⟨⟨b, hb⟩, ⟨b', hb'⟩⟩, hg⟩, he⟩ := hp
  obtain ⟨rfl, hg', he'⟩ := errno_transparent Cfg.small rfl s s' 0 _ hr hrun 0 1 b b' hb hb'
  rw [hg] at hg' he'
  rw [hg', he] at he'
  exact ⟨s, s', b', hr, hrun, hb, hb', hg', he'⟩

end Inger.L3
