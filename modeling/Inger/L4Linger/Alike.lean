import Inger.L3Slice.Blur
import Inger.L3Slice.Jump
import Inger.L3Slice.Location
import Inger.L4Linger.Once

/-!
# A step of the default build and of the build with the stub TCB

In the default build `resume` installs the continuation's own block of
thread-locals and puts it back; in the `notls` build (src/tcbstub.rs) it installs
nothing, and all functions of a kernel thread share that thread's. `Sys.Alike d n`
relates a process of the one build to a process of the other: they are equal but
for what `blur` forgets and for the contents of the TCBs.

`step_alike`: from states that look the same, no system call failing, a step can
be taken in both builds or in neither, and the states look the same again. What
it needs of the default build is the invariant `Good` and that the thread's own
block is at rest while it is not installed (`Outer`): both builds then enter and
leave `resume` with blocks that look fresh; and that no function starts with
ERRNO_LOCATION borrowed (`Unheld`). What it needs of the other build is `Placed`.
ERRNO_LOCATION is the only variable of a paused function that neither the function
nor `resume` writes again, and the only one that is left borrowed by a pause: the
thread's has to be as the function left it, or not borrowed if it has not started.
-/
namespace Inger.L2

open L1.Reusable L1.Signals

variable {V E : Type}

/-- The default build, or the one with the stub TCB. -/
def Cfg.build (cfg : Cfg V) (notls : Bool) : Cfg V := { cfg with notls := notls }

theorem Cfg.build_debugAssertions (cfg : Cfg V) :
    (cfg.build true).debugAssertions = (cfg.build false).debugAssertions := rfl

/-- What a TCB holds is forgotten, but not that it is there. -/
def Continuation.blur (c : Continuation V E) : Continuation V E :=
  { c with stateful := c.stateful.blur, tls := c.tls.map fun _ => .fresh }

theorem Continuation.borrowing_blur (c : Continuation V E) : c.blur.borrowing = c.borrowing := by
  obtain ⟨f, ⟨e, _ | ⟨st, m, _ | _ | _⟩, y⟩, g, tls⟩ := c
  case some.paused b hs => exact b.pos.borrowing_blur
  all_goals rfl

def Cell.blur : Cell V E → Cell V E
  | .continuation c => .continuation c.blur
  | x => x

def Linger.blur (l : Linger V E) : Linger V E := { l with cell := l.cell.blur }

/-- The free TCBs, by their number. -/
def blurPool (p : Pool (Option Vars)) : Pool (Option Vars) :=
  { p with free := p.free.map (Option.map fun _ => Vars.fresh) }

/-- Two processes look the same. -/
structure Sys.Alike (d n : Sys V E) : Prop where
  threads : ∀ t, (d.threads t).blur = (n.threads t).blur
  lingers : d.lingers.map Linger.blur = n.lingers.map Linger.blur
  groups : d.groups = n.groups
  localstores : blurPool d.localstores = blurPool n.localstores
  stackPool : d.stackPool = n.stackPool
  signals : d.signals = n.signals
  dirty : d.dirty = n.dirty

@[simp] theorem Task.stack_blur (k : Task) : k.blur.stack = k.stack := by
  cases hk : k.checkpoint with
  | none => simp only [Task.stack, Task.blur, hk, Option.map_none]
  | some ctx => simp only [Task.stack, Task.blur, hk, Option.map_some, Context.blur]

theorem Task.blur_eq_default {k : Task} (h : k.blur = .default) : k = .default := by
  obtain ⟨_ | e, _ | ck, y⟩ := k <;> simp_all [Task.blur, Task.default]

/-- Nothing of a function that has not started is forgotten. -/
theorem Task.blur_eq_entry {k : Task} {st : Sid} {m : Sigset} {y : Bool}
    (h : k.blur = Task.blur ⟨none, some ⟨st, m, .entry⟩, y⟩) :
    k = ⟨none, some ⟨st, m, .entry⟩, y⟩ := by
  obtain ⟨_ | e, _ | ⟨st', m', _ | _ | _⟩, y'⟩ := k <;>
    simp_all [Task.blur, Context.blur, Code.blur]

/-- Where a paused task goes on. -/
def Task.paused (k : Task) : Option Pos :=
  match k with
  | ⟨some _, some ⟨_, _, .paused b _⟩, _⟩ => some b.pos
  | _ => none

/-- `errno_group`, if the code is in it, was called on thread `t`. -/
def Pos.on (t : Tid) : Pos → Bool
  | .enable e => decide (e.pc = .location → e.cell = some t)
  | _ => true

/-- ERRNO_LOCATION of thread `t` is as the task needs it there. A paused function
has left it so: the location is its group's, and borrowed only by itself, on this
thread. One that has not started needs the cell not to be borrowed. -/
def Task.Fits (k : Task) (t : Tid) (g : Gid) (loc : RefCell (Option Gid)) : Prop :=
  (∀ p ∈ k.paused, loc = ⟨some g, p.borrowing⟩ ∧ p.on t = true) ∧
    (k.paused.isNone = true → loc.borrowed = false)

instance (k : Task) (t : Tid) (g : Gid) (loc : RefCell (Option Gid)) : Decidable (k.Fits t g loc) :=
  inferInstanceAs (Decidable (_ ∧ _))

theorem Task.fits_of_errno {k : Task} {t : Tid} {g : Gid} {loc : RefCell (Option Gid)}
    (h : k.errno = none) : k.Fits t g loc ↔ loc.borrowed = false := by
  have hp : k.paused = none := by
    unfold Task.paused
    split
    · cases h
    · rfl
  simp [Task.Fits, hp]

theorem Pos.borrowing_of_located {p : Pos} (h : p.located = false) : p.borrowing = false := by
  cases p with
  | enable e =>
    simp only [Pos.located, Bool.or_eq_false_iff, bne_eq_false_iff_eq] at h
    simp [Pos.borrowing, h.2]
  | _ => rfl

theorem Task.blur_eq_paused {k : Task} {e : Int} {st : Sid} {m : Sigset} {b : Body}
    {hs : List Frame} {y : Bool} (h : k.blur = Task.blur ⟨some e, some ⟨st, m, .paused b hs⟩, y⟩) :
    ∃ e' b' hs', k = ⟨some e', some ⟨st, m, .paused b' hs'⟩, y⟩ ∧ b.blur = b'.blur ∧
      hs.map Frame.blur = hs'.map Frame.blur := by
  obtain ⟨_ | e', _ | ⟨st', m', _ | _ | _⟩, y'⟩ := k <;>
    simp_all [Task.blur, Context.blur, Code.blur]

namespace Sys

variable {d n : Sys V E} {t : Tid} {k : Lid}

theorem Alike.setThread (h : d.Alike n) {th th' : Thread V E} (hth : th.blur = th'.blur) :
    (d.setThread t th).Alike (n.setThread t th') := by
  refine { h with threads := fun u => ?_ }
  simp only [Sys.setThread, Function.update_apply]
  split
  · exact hth
  · exact h.threads u

theorem Alike.setLinger (h : d.Alike n) {l l' : Linger V E} (hl : l.blur = l'.blur) :
    (d.setLinger k l).Alike (n.setLinger k l') := by
  refine { h with lingers := ?_ }
  simp only [Sys.setLinger, List.map_set, hl, h.lingers]

theorem Alike.setGroups (h : d.Alike n) (p : Pool Gid) :
    Alike { d with groups := p } { n with groups := p } :=
  { h with groups := rfl }

theorem Alike.setSignals (h : d.Alike n) (p : Pool Signal) :
    Alike { d with signals := p } { n with signals := p } :=
  { h with signals := rfl }

theorem Alike.setStacks (h : d.Alike n) (p : Pool Sid) :
    Alike { d with stackPool := p } { n with stackPool := p } :=
  { h with stackPool := rfl }

theorem Alike.freeStack (h : d.Alike n) (o : Option Sid) :
    (d.freeStack o).Alike (n.freeStack o) := by
  cases o with
  | none => exact h
  | some i => exact { h with stackPool := congrArg (release · i) h.stackPool }

theorem Alike.dropContinuation (h : d.Alike n) {c c' : Continuation V E} (hc : c.blur = c'.blur)
    (renew : Bool) :
    (d.dropContinuation c renew).Alike (n.dropContinuation c' renew) := by
  have hstack : c.stateful.stack = c'.stateful.stack := by
    rw [← Task.stack_blur, ← Task.stack_blur c'.stateful]
    exact congrArg (fun c => c.stateful.stack) hc
  have hgroup : c.blur.group = c'.blur.group := congrArg Continuation.group hc
  have herrno : c.stateful.errno.isSome = c'.stateful.errno.isSome := by
    have := congrArg (fun c => c.stateful.errno.isSome) hc
    simpa only [Continuation.blur, Task.blur, Option.isSome_map] using this
  have hfree := h.freeStack c.stateful.stack
  unfold Sys.dropContinuation
  rw [← hstack, show c'.group = c.group from hgroup.symm, ← herrno, h.dirty]
  refine ⟨hfree.threads, hfree.lingers, congrArg (release · c.group) h.groups, ?_, hfree.stackPool,
    hfree.signals, rfl⟩
  have htls := congrArg Continuation.tls hc
  have hpool := h.localstores
  simp only [blurPool, Pool.mk.injEq, release, List.map_cons] at hpool ⊢
  exact ⟨by rw [hpool.1]; exact congrArg (· :: _) htls, hpool.2⟩

theorem Alike.abandon (h : d.Alike n) {c c' : Continuation V E} (hc : c.blur = c'.blur)
    (trace : List (Event V E)) (launching renew : Bool) :
    (d.abandon k c trace launching renew).Alike (n.abandon k c' trace launching renew) := by
  unfold Sys.abandon
  split
  · exact (h.dropContinuation hc renew).setLinger rfl
  · exact h.setLinger (congrArg (fun c => Linger.mk (.continuation c) trace) hc)

theorem Alike.sig (h : d.Alike n) : d.sig = n.sig := by
  funext u
  exact (congrArg Thread.signaler (h.threads u) :)

theorem Alike.world (h : d.Alike n) (cfg : Cfg V) :
    n.world (cfg.build true) = { d.world (cfg.build false) with notls := true } := by
  simp only [Sys.world, h.sig, Cfg.build]

/-- A TCB is taken from the pool. -/
theorem alloc_alike {p p' : Pool (Option Vars)} (h : blurPool p = blurPool p') :
    (alloc (fun _ => some Vars.fresh) p).1.map (fun _ => Vars.fresh) =
        (alloc (fun _ => some Vars.fresh) p').1.map (fun _ => Vars.fresh) ∧
      blurPool (alloc (fun _ => some Vars.fresh) p).2 =
        blurPool (alloc (fun _ => some Vars.fresh) p').2 := by
  obtain ⟨free, calls⟩ := p
  obtain ⟨free', calls'⟩ := p'
  simp only [blurPool, Pool.mk.injEq] at h
  obtain ⟨hfree, rfl⟩ := h
  cases free with
  | nil =>
    cases free' with
    | nil => exact ⟨rfl, rfl⟩
    | cons y free' => cases hfree
  | cons x free =>
    cases free' with
    | nil => cases hfree
    | cons y free' =>
      simp only [List.map_cons, List.cons.injEq] at hfree
      exact ⟨hfree.1, by simp only [alloc, blurPool, hfree.2]⟩

end Sys

/-! ## Cells -/

section
variable {d n : Sys V E} {th th' : Thread V E}

/-- Two `Linger`s that look the same: both are continuations, or they are equal. -/
theorem Linger.blur_cases {l l' : Linger V E} (h : l.blur = l'.blur) :
    (∃ c c' trace, l = ⟨.continuation c, trace⟩ ∧ l' = ⟨.continuation c', trace⟩ ∧
      c.blur = c'.blur) ∨
      l = l' ∧ ∀ c, l.cell ≠ .continuation c := by
  obtain ⟨x, trace⟩ := l
  obtain ⟨x', trace'⟩ := l'
  simp only [Linger.blur, Linger.mk.injEq] at h
  obtain ⟨hx, rfl⟩ := h
  cases x <;> cases x' <;> simp_all [Cell.blur]

/-- What the two processes have under one number. -/
inductive Sys.SameLinger : Option (Linger V E) → Option (Linger V E) → Prop
  | none : SameLinger none none
  | continuation (c c' : Continuation V E) (trace : List (Event V E)) (same : c.blur = c'.blur) :
      SameLinger (some ⟨.continuation c, trace⟩) (some ⟨.continuation c', trace⟩)
  | other (l : Linger V E) (other : ∀ c, l.cell ≠ .continuation c) : SameLinger (some l) (some l)

theorem Sys.Alike.linger (h : d.Alike n) (k : Lid) :
    Sys.SameLinger d.lingers[k]? n.lingers[k]? := by
  have hk : d.lingers[k]?.map Linger.blur = n.lingers[k]?.map Linger.blur := by
    rw [← List.getElem?_map, ← List.getElem?_map, h.lingers]
  match hd : d.lingers[k]?, hn : n.lingers[k]? with
  | none, none => exact .none
  | none, some _ => rw [hd, hn] at hk; cases hk
  | some _, none => rw [hd, hn] at hk; cases hk
  | some l, some l' =>
    rw [hd, hn] at hk
    rcases Linger.blur_cases (Option.some.inj hk) with ⟨c, c', trace, rfl, rfl, hc⟩ | ⟨rfl, hother⟩
    · exact .continuation c c' trace hc
    · exact .other l hother

/-! ## Idle threads -/

theorem Base.blur_eq_caller {b : Base} : b.blur = .caller ↔ b = .caller := by
  cases b <;> simp [Base.blur]

theorem Base.blur_eq_main {b : Base} {pc : MainPc} : b.blur = .main pc ↔ b = .main pc := by
  cases b <;> simp [Base.blur]

theorem Base.blur_eq_stuck {b : Base} {why : Stuck} : b.blur = .stuck why ↔ b = .stuck why := by
  cases b <;> simp [Base.blur]

theorem idle_blur : Sys.idle th.blur = Sys.idle th := by
  simp only [Sys.idle, Thread.ready_blur]
  simp only [Thread.blur, Base.blur_eq_caller, List.isEmpty_map]

theorem idle_alike (h : th.blur = th'.blur) : Sys.idle th = Sys.idle th' := by
  rw [← idle_blur, h, idle_blur]

theorem ret_alike (h : th.blur = th'.blur) (r : Option (Ret E)) :
    Thread.blur { th with ret := r } = Thread.blur { th' with ret := r } :=
  congrArg (fun th : Thread V E => { th with ret := r }) h

theorem preemptible_alike (h : th.blur = th'.blur) : th.group.preemptible = th'.group.preemptible :=
  (congrArg (fun th : Thread V E => th.group.preemptible) h :)

theorem fail_alike (h : th.blur = th'.blur) (why : Stuck) :
    (th.fail why).blur = (th'.fail why).blur := by
  rw [← Thread.blur_fail, h, Thread.blur_fail]

/-- What two threads that look the same may differ in. -/
theorem thread_cases (h : th.blur = th'.blur) : ∃ v c b hs,
    th' = { th with vars := v, call := c, base := b, handlers := hs } ∧
      th.vars.blur false false = v.blur false false ∧ th.call.map Call.blur = c.map Call.blur ∧
      th.handlers.map Frame.blur = hs.map Frame.blur := by
  have hv := congrArg (fun th : Thread V E => th.vars.blur false false) h
  simp only [Thread.blur, Vars.blur_blur, Bool.and_false] at hv
  obtain ⟨sg, m, p, g, v, c, b, hs, r⟩ := th
  obtain ⟨sg', m', p', g', v', c', b', hs', r'⟩ := th'
  simp only [Thread.blur, Thread.mk.injEq] at h
  obtain ⟨rfl, rfl, rfl, rfl, -, hc, -, hhs, rfl⟩ := h
  exact ⟨v', c', b', hs', rfl, hv, hc, hhs⟩

/-- The call of a thread in `resume`, in the other build. -/
theorem call_alike {pc : MainPc} {c : Call V E} (h : th.blur = th'.blur) (hb : th'.base = .main pc)
    (hc : th'.call = some c) : ∃ c', th.call = some c' ∧ th.base = .main pc ∧ c'.blur = c.blur := by
  have hbase : th.base.blur = th'.base.blur := congrArg Thread.base h
  have hcall : th.call.map Call.blur = th'.call.map Call.blur := congrArg Thread.call h
  rw [hb] at hbase
  rw [hc, Option.map_some, Option.map_eq_some_iff] at hcall
  obtain ⟨c', hc', hsame⟩ := hcall
  exact ⟨c', hc', Base.blur_eq_main.mp hbase, hsame⟩

theorem call_cases {c c' : Call V E} (h : c.blur = c'.blur) :
    ∃ task other, c' = { c with task := task, other := other } ∧ c.task.blur = task.blur := by
  obtain ⟨k, f, task, g, us, launching, error, link, other, trace⟩ := c
  obtain ⟨k', f', task', g', us', launching', error', link', other', trace'⟩ := c'
  simp only [Call.blur, Call.mk.injEq] at h
  obtain ⟨rfl, rfl, htask, rfl, rfl, rfl, rfl, rfl, -, rfl⟩ := h
  exact ⟨task', other', rfl, htask⟩

/-- A thread is sent elsewhere. -/
theorem moves_alike {sg : Option Signal} {m p : Sigset} {g : Group} {v v' : Vars}
    {c c' : Option (Call V E)} {b b' : Base} {hs hs' : List Frame} {r : Option (Ret E)}
    (hv : v.blur b'.timed b'.located = v'.blur b'.timed b'.located)
    (hc : c.map Call.blur = c'.map Call.blur) (hb : b.blur = b'.blur)
    (hhs : hs.map Frame.blur = hs'.map Frame.blur) :
    Thread.blur ⟨sg, m, p, g, v, c, b, hs, r⟩ = Thread.blur ⟨sg, m, p, g, v', c', b', hs', r⟩ := by
  have ht : b.timed = b'.timed := by rw [← Base.timed_blur, hb, Base.timed_blur]
  have hl : b.located = b'.located := by rw [← Base.located_blur, hb, Base.located_blur]
  simp only [Thread.blur, ht, hl, hv, hc, hb, hhs]

end

end Inger.L2

namespace Inger.L4

open L1.Reusable L1.Signals L2 L3

variable {V E : Type}

/-- A thread's own thread-locals are at rest, installed or not. -/
structure OuterRests (th : Thread V E) : Prop where
  installed : th.call = none → Rest th.vars
  replaced : ∀ c, th.call = some c → Rest c.other

def Outer (s : Sys V E) : Prop := ∀ t, OuterRests (s.threads t)

theorem rest_blur {v : Vars} (h : Rest v) : v.blur false false = .fresh := by
  simp only [Vars.blur, h.bootstrap, h.task, h.signal, h.deferred]
  rfl

section
variable {cfg : Cfg V} {ok tidy : Prop} {d n : Sys V E} {t : Tid} {k : Lid} {env : Env}

/-- The thread-locals of a thread on its own stack. -/
theorem vars_alike {th th' : Thread V E} (h : th.blur = th'.blur) :
    th.vars.blur false false = th'.vars.blur false false := by
  have hv := congrArg (fun th : Thread V E => th.vars.blur false false) h
  simpa only [Thread.blur, Vars.blur_blur, Bool.and_false] using hv

/-! ## Calls of the API -/

theorem dropRet_alike {c c' : Continuation V E} (h : c.blur = c'.blur) (renew : Bool) :
    Sys.dropRet c renew = Sys.dropRet c' renew := by
  have herrno : c.stateful.errno.isSome = c'.stateful.errno.isSome := by
    have := congrArg (fun c : Continuation V E => c.stateful.errno.isSome) h
    simpa only [Continuation.blur, Task.blur, Option.isSome_map] using this
  rw [Sys.dropRet, herrno, Sys.dropRet]

theorem beginResume_alike {cd cn : Continuation V E} {trace : List (Event V E)} {us : UInt64}
    {launching : Bool} (h : d.Alike n) (hc : cd.blur = cn.blur) (hrest : Rest (d.threads t).vars)
    (htls : ∀ v, cd.tls = some v → Rest v) (hf : EnvFine env) :
    Sys.Alike (Sys.beginResume (cfg.build false) d t k cd trace us launching env)
      (Sys.beginResume (cfg.build true) n t k cn trace us launching env) := by
  have hth := h.threads t
  have hab := h.abandon (k := k) hc trace launching env.renew
  obtain ⟨f, task, g, tls⟩ := cd
  obtain ⟨f', task', g', tls'⟩ := cn
  simp only [Continuation.blur, Continuation.mk.injEq] at hc
  obtain ⟨rfl, htask, rfl, htlsn⟩ := hc
  unfold Sys.beginResume
  match tls, tls' with
  | none, none => exact hab.setThread (ret_alike hth _)
  | none, some _ => cases htlsn
  | some _, none => cases htlsn
  | some tcb, some tcb' =>
    simp only [hf.install, Bool.true_or, if_true, Cfg.build, Bool.false_eq_true, if_false]
    obtain ⟨v, cl, b, hs, hn, hv, -, hhs⟩ := thread_cases hth
    refine (h.setLinger rfl).setThread ?_
    rw [hn]
    refine moves_alike ?_ ?_ rfl hhs
    · exact (rest_blur (htls tcb rfl)).trans ((rest_blur hrest).symm.trans hv)
    · simp only [Option.map_some, Call.blur, htask]

theorem resumeStep_alike {us : UInt64} (h : d.Alike n) (hg : Good False True d) (ho : Outer d)
    (hf : EnvFine env) :
    Option.Rel Sys.Alike (Sys.resumeStep (cfg.build false) d t k us env)
      (Sys.resumeStep (cfg.build true) n t k us env) := by
  have hth := h.threads t
  simp only [Sys.resumeStep]
  rw [← idle_alike hth, ← preemptible_alike hth, Cfg.build_debugAssertions]
  split
  · exact .none
  · rename_i hi
    obtain ⟨-, -, hcall, -⟩ := (hg.threads t).idle (by simpa using hi)
    split
    · exact .some (h.setThread (fail_alike hth _))
    · have hcell := hg.lingers k
      have hlinger := h.linger k
      generalize d.lingers[k]? = x at hcell hlinger ⊢
      generalize n.lingers[k]? = x' at hlinger ⊢
      cases hlinger with
      | none => exact .none
      | continuation c c' trace hc =>
        exact .some (beginResume_alike h hc ((ho t).installed hcall)
          (fun v hv => ((hcell _ rfl).2.2 v hv).1) hf)
      | other l hx =>
        obtain ⟨x, trace⟩ := l
        cases x with
        | continuation c => exact absurd rfl (hx c)
        | completion v => exact .some (h.setThread (ret_alike hth _))
        | poison => exact .some (h.setThread (ret_alike hth _))
        | resuming t g => exact .none
        | dropped => exact .none

theorem launchStep_alike {us : UInt64} (h : d.Alike n) (hg : Good False True d) (ho : Outer d)
    (hf : EnvFine env) :
    Option.Rel Sys.Alike (Sys.launchStep (cfg.build false) d t us env)
      (Sys.launchStep (cfg.build true) n t us env) := by
  have hth := h.threads t
  simp only [Sys.launchStep]
  rw [← idle_alike hth, ← preemptible_alike hth, Cfg.build_debugAssertions,
    show (cfg.build true).newGroup = (cfg.build false).newGroup from rfl, ← h.groups]
  split
  · exact .none
  · rename_i hi
    obtain ⟨-, -, hcall, -⟩ := (hg.threads t).idle (by simpa using hi)
    split
    · exact .some (h.setThread (fail_alike hth _))
    · split
      · rename_i p _
        exact .some ((h.setGroups p).setThread (ret_alike hth _))
      · rename_i group p _
        obtain ⟨htls, hpool⟩ := Sys.alloc_alike h.localstores
        have hc : Continuation.blur (V := V) (E := E) ⟨.function, .default, group,
            (alloc (fun _ => some Vars.fresh) d.localstores).1⟩ =
              Continuation.blur ⟨.function, .default, group,
            (alloc (fun _ => some Vars.fresh) n.localstores).1⟩ := by
          simp only [Continuation.blur, htls]
        have hlen : n.lingers.length = d.lingers.length := by
          rw [← List.length_map, ← h.lingers, List.length_map]
        have hnew : Sys.Alike (d.launched group p) (n.launched group p) := by
          refine { h with groups := rfl, localstores := hpool, lingers := ?_ }
          simp only [Sys.launched, List.map_append, h.lingers, List.map_cons, Linger.blur,
            Cell.blur, hc, List.map_nil]
        split
        · exact .some (hnew.setThread (ret_alike hth _))
        · rw [hlen]
          exact .some (beginResume_alike hnew hc ((ho t).installed hcall)
            (fun v hv => ((hg.cell_launched d.lingers.length group).2.2 v hv).1) hf)

theorem dropStep_alike (h : d.Alike n) :
    Option.Rel Sys.Alike (Sys.dropStep (cfg.build false) d t k env)
      (Sys.dropStep (cfg.build true) n t k env) := by
  have hth := h.threads t
  simp only [Sys.dropStep]
  rw [← idle_alike hth, ← preemptible_alike hth, Cfg.build_debugAssertions]
  split
  · exact .none
  · have hlinger := h.linger k
    generalize d.lingers[k]? = x at hlinger ⊢
    generalize n.lingers[k]? = x' at hlinger ⊢
    cases hlinger with
    | none => exact .none
    | continuation c c' trace hc =>
      dsimp only
      split
      · exact .some (h.setThread (fail_alike hth _))
      · rw [dropRet_alike hc]
        exact .some (((h.dropContinuation hc env.renew).setLinger rfl).setThread (ret_alike hth _))
    | other l hx =>
      obtain ⟨x, trace⟩ := l
      cases x with
      | continuation c => exact absurd rfl (hx c)
      | completion v => exact .some ((h.setLinger rfl).setThread (ret_alike hth _))
      | poison => exact .some ((h.setLinger rfl).setThread (ret_alike hth _))
      | resuming t g => exact .none
      | dropped => exact .none

theorem cancelStep_alike (h : d.Alike n) :
    Option.Rel Sys.Alike (Sys.cancelStep (cfg.build false) d t k env)
      (Sys.cancelStep (cfg.build true) n t k env) := by
  have hth := h.threads t
  simp only [Sys.cancelStep]
  rw [← idle_alike hth, ← preemptible_alike hth, Cfg.build_debugAssertions]
  split
  · exact .none
  · have hlinger := h.linger k
    generalize d.lingers[k]? = x at hlinger ⊢
    generalize n.lingers[k]? = x' at hlinger ⊢
    cases hlinger with
    | none => exact .none
    | continuation c c' trace hc =>
      dsimp only
      split
      · exact .some (h.setThread (fail_alike hth _))
      · rw [dropRet_alike hc]
        exact .some (((h.dropContinuation hc env.renew).setLinger rfl).setThread (ret_alike hth _))
    | other l hx =>
      obtain ⟨x, trace⟩ := l
      cases x with
      | continuation c => exact absurd rfl (hx c)
      | completion v => exact .some (h.setThread (ret_alike hth _))
      | poison => exact .some (h.setThread (ret_alike hth _))
      | resuming t g => exact .none
      | dropped => exact .none

theorem exitStep_alike (h : d.Alike n) :
    Option.Rel Sys.Alike (Sys.exitStep d t) (Sys.exitStep n t) := by
  have hth := h.threads t
  simp only [Sys.exitStep]
  rw [← idle_alike hth]
  split
  · exact .none
  · have hexit : Thread.blur { d.threads t with signaler := none, base := .exited } =
        Thread.blur { n.threads t with signaler := none, base := .exited } := by
      obtain ⟨v, cl, b, hs, hn, hv, hcall, hhs⟩ := thread_cases hth
      rw [hn]
      exact moves_alike hv hcall rfl hhs
    have hs := h.setThread (t := t) hexit
    rw [show (n.threads t).signaler = (d.threads t).signaler
      from (congrArg Thread.signaler hth :).symm]
    split
    · exact .some { hs with signals := congrArg (release · _) h.signals }
    · exact .some hs

end

/-! ## The steps of `resume` -/

section
variable {cfg : Cfg V} {d n : Sys V E} {t : Tid} {th th' : Thread V E} {c c' : Call V E} {env : Env}

theorem failResume_alike (h : d.Alike n) (hth : th.blur = th'.blur) (hc : c.blur = c'.blur)
    (hrest : Rest th.vars) (hother : Rest c.other) (ret : Ret E) :
    Sys.Alike (Sys.failResume (cfg.build false) d t th c env ret)
      (Sys.failResume (cfg.build true) n t th' c' env ret) := by
  have hstack : th.vars.task.stack = none := by rw [hrest.task]; rfl
  obtain ⟨task, other, rfl, htask⟩ := call_cases hc
  obtain ⟨v, cl, b, hs, rfl, hv, -, hhs⟩ := thread_cases hth
  simp only [Sys.failResume, Cfg.build, Bool.false_eq_true, if_false, if_true, hstack,
    Sys.freeStack]
  have hcont : Continuation.blur ⟨c.functional, c.task, c.group, none⟩ =
      Continuation.blur ⟨c.functional, task, c.group, none⟩ := by
    simp only [Continuation.blur, htask]
  refine (h.abandon hcont c.trace c.launching env.renew).setThread ?_
  exact moves_alike ((rest_blur hother).trans ((rest_blur hrest).symm.trans hv)) rfl rfl hhs

theorem setupStep_alike (h : d.Alike n) (hth : th.blur = th'.blur) (hc : c.blur = c'.blur)
    (hrest : Rest th.vars) (hother : Rest c.other) (hf : EnvFine env) :
    Sys.Alike (Sys.setupStep (cfg.build false) d t th c env)
      (Sys.setupStep (cfg.build true) n t th' c' env) := by
  have hfail (p : Pool Signal) : Sys.Alike
      (Sys.failResume (cfg.build false) { d with signals := p } t th c env (.panic .noSignal))
      (Sys.failResume (cfg.build true) { n with signals := p } t th' c' env (.panic .noSignal)) :=
    failResume_alike (h.setSignals p) hth hc hrest hother _
  obtain ⟨v, cl, b, hs, rfl, hv, hcall, hhs⟩ := thread_cases hth
  simp only [Sys.setupStep]
  rw [← h.signals]
  split
  · exact h.setThread (moves_alike hv hcall rfl hhs)
  · split
    · exact hfail _
    · rename_i signal p _
      rw [if_pos hf.setup, if_pos hf.setup]
      exact (h.setSignals p).setThread (moves_alike hv hcall rfl hhs)

theorem signalStep_alike (h : d.Alike n) (hth : th.blur = th'.blur) :
    Sys.Alike
      (d.setThread t { th with vars := { th.vars with signal := some t }, base := .main .stack })
      (n.setThread t
        { th' with vars := { th'.vars with signal := some t }, base := .main .stack }) := by
  obtain ⟨v, cl, b, hs, rfl, hv, hcall, hhs⟩ := thread_cases hth
  exact h.setThread (moves_alike (congrArg (fun v : Vars => { v with signal := some t }) hv)
    hcall rfl hhs)

theorem stackStep_alike (h : d.Alike n) (hth : th.blur = th'.blur) (hc : c.blur = c'.blur)
    (hf : EnvFine env) :
    Sys.Alike (Sys.stackStep (cfg.build false) d t th c env)
      (Sys.stackStep (cfg.build true) n t th' c' env) := by
  obtain ⟨task, other, rfl, htask⟩ := call_cases hc
  obtain ⟨v, cl, b, hs, rfl, hv, hcall, hhs⟩ := thread_cases hth
  have herrno : c.task.errno.map (fun _ => (0 : Int)) = task.errno.map fun _ => 0 :=
    congrArg Task.errno htask
  match he : c.task.errno, he' : task.errno with
  | none, some _ => rw [he, he'] at herrno; cases herrno
  | some _, none => rw [he, he'] at herrno; cases herrno
  | some e, some e' =>
    simp only [Sys.stackStep, he, he']
    exact h.setThread (moves_alike (congrArg (fun v : Vars => { v with deadline := c.us }) hv)
      hcall rfl hhs)
  | none, none =>
    have hboot : th.vars.bootstrap = v.bootstrap := (congrArg Vars.bootstrap hv :)
    have hstack : c.task.stack = task.stack := by rw [← Task.stack_blur, htask, Task.stack_blur]
    have hpool := (h.setStacks (alloc id d.stackPool).2).freeStack c.task.stack
    simp only [Sys.stackStep, he, he', if_pos hf.makecontext]
    rw [← h.stackPool, ← hstack, ← hboot, Cfg.build_debugAssertions]
    have hcall' (x : Sid) : Call.blur
        { c with task := ⟨none, some ⟨x, th.mask, .entry⟩, c.task.yielded⟩ } = Call.blur
        { c with task := ⟨none, some ⟨x, th.mask, .entry⟩, task.yielded⟩, other := other } := by
      rw [show task.yielded = c.task.yielded from (congrArg Task.yielded htask :).symm]
      rfl
    split
    · exact hpool.setThread (moves_alike hv (congrArg some (hcall' _)) rfl hhs)
    · exact hpool.setThread (moves_alike (congrArg (fun v : Vars =>
        { v with bootstrap := some (c.linger, c.group), deadline := c.us }) hv)
          (congrArg some (hcall' _)) rfl hhs)

/-- `switch_stack` jumps to the entry of `schedule`, in either build. -/
theorem switchStep_starts {s : Sys V E} {st : Sid} {m : Sigset} {y : Bool}
    (htask : c.task = ⟨none, some ⟨st, m, .entry⟩, y⟩) (hidle : th.vars.task = .default)
    (hf : EnvFine env) :
    Sys.switchStep cfg s t th c env = s.setThread t { th with
      mask := m
      vars := { th.vars with task := ⟨none, some ⟨st, th.mask, .callsite⟩, false⟩ }
      call := some { c with task := ⟨none, none, y⟩, link := th.mask }
      base := .boot } := by
  simp only [Sys.switchStep, htask, hidle, Task.default, hf.restorecontext, hf.sigsetcontext,
    Sys.jump, Thread.setCall, Sys.getOrInsert, if_true, Option.isSome_none, Bool.and_false,
    Bool.false_eq_true, if_false]

/-- `switch_stack` jumps into the paused function, in either build. -/
theorem switchStep_resumes {s : Sys V E} {e : Int} {st : Sid} {m : Sigset} {b : Body}
    {hs : List Frame} {y : Bool} {o : Signal}
    (htask : c.task = ⟨some e, some ⟨st, m, .paused b hs⟩, y⟩) (hidle : th.vars.task = .default)
    (ho : threadSignal s.sig th.vars = some o) (hf : EnvFine env)
    (hstamp : cfg.overflowChecks = true → stampOverflows env.now th.vars.deadline = false) :
    Sys.switchStep cfg s t th c env = s.setThread t { th with
      mask := th.mask.erase o
      group := .of c.group
      vars := { th.vars with
        task := ⟨none, some ⟨st, th.mask, .callsite⟩, false⟩
        deadline := stamp env.now th.vars.deadline }.setErrno (.of c.group) e
      call := some { c with task := ⟨some e, none, y⟩, error := false, link := th.mask }
      base := .body b
      handlers := hs } := by
  have hno : (cfg.overflowChecks && stampOverflows env.now th.vars.deadline) = false := by
    cases hc : cfg.overflowChecks with
    | false => rfl
    | true => exact hstamp hc
  simp only [Sys.switchStep, htask, hidle, Task.default, hf.restorecontext, hf.sigsetcontext,
    hf.sigmask, ho, hno, Sys.getOrInsert, Sys.reenable, Sys.jump, Thread.setCall, Vars.setErrno,
    if_true, Option.isSome_none, Bool.and_false, Bool.false_eq_true, if_false, Bool.not_true]

/-- Both builds are about to jump, to the same place. -/
structure Jumps (d n : Sys V E) (t : Tid) (c c' : Call V E) : Prop where
  idle : (d.threads t).vars.task = .default
  idle' : (n.threads t).vars.task = .default
  vars : (d.threads t).vars.blur true false = (n.threads t).vars.blur true false
  target :
    (∃ st m y, c.task = ⟨none, some ⟨st, m, .entry⟩, y⟩ ∧
      c'.task = ⟨none, some ⟨st, m, .entry⟩, y⟩) ∨
    ∃ e e' st m b b' hs hs' y o, c.task = ⟨some e, some ⟨st, m, .paused b hs⟩, y⟩ ∧
      c'.task = ⟨some e', some ⟨st, m, .paused b' hs'⟩, y⟩ ∧ b.blur = b'.blur ∧
      hs.map Frame.blur = hs'.map Frame.blur ∧ threadSignal d.sig (d.threads t).vars = some o ∧
      threadSignal n.sig (n.threads t).vars = some o ∧
      (d.threads t).vars.errnoLocation = ⟨some c.group, b.pos.borrowing⟩

theorem jumps_alike (h : d.Alike n) (hg : Good False True d) (hcall : (d.threads t).call = some c)
    (hbase : (d.threads t).base = .main .switch) (hbase' : (n.threads t).base = .main .switch)
    (hc : c.blur = c'.blur) : Jumps d n t c c' := by
  have hcore := hg.threads t
  simp only [Core, hbase, hcall] at hcore
  obtain ⟨-, -, -, hown, hsw⟩ := hcore
  have hv : (d.threads t).vars.blur true false = (n.threads t).vars.blur true false := by
    have := congrArg Thread.vars (h.threads t)
    simpa only [Thread.blur, hbase, hbase', Base.timed, Base.located] using this
  have hthr : threadSignal n.sig (n.threads t).vars = threadSignal d.sig (d.threads t).vars := by
    simp only [threadSignal, ← h.sig, show (n.threads t).vars.signal = (d.threads t).vars.signal
      from (congrArg Vars.signal hv :).symm]
  have htask : c.task.blur = c'.task.blur := congrArg Call.task hc
  refine ⟨hsw.task, ?_, hv, ?_⟩
  · exact Task.blur_eq_default ((congrArg Vars.task hv :).symm.trans (congrArg Task.blur hsw.task))
  · rcases hsw.target with ⟨st, m, y, hct, -⟩ | ⟨e, st, m, b, hs, y, hct, -, hp⟩
    · exact .inl ⟨st, m, y, hct, Task.blur_eq_entry (htask.symm.trans (congrArg Task.blur hct))⟩
    · obtain ⟨e', b', hs', hct', hb, hhs⟩ :=
        Task.blur_eq_paused (htask.symm.trans (congrArg Task.blur hct))
      obtain ⟨o, ho⟩ := Option.isSome_iff_exists.mp hown
      have hsig : threadSignal d.sig (d.threads t).vars = some o :=
        (threadSignal_own rfl hsw.signal).trans ho
      exact .inr ⟨e, e', st, m, b, b', hs, hs', y, o, hct, hct', hb, hhs, hsig, hthr.trans hsig,
        hp.body.located (Pos.located_of_preemptible hp.pre)⟩

/-- No deadline overflows where the build checks for it. -/
def Bounded (cfg : Cfg V) (s : Sys V E) : Label V E → Prop
  | .main t env => cfg.overflowChecks = true → (s.threads t).StampFits env.now
  | _ => True

instance (cfg : Cfg V) (s : Sys V E) : (l : Label V E) → Decidable (Bounded cfg s l)
  | .main t env =>
    inferInstanceAs (Decidable (cfg.overflowChecks = true → (s.threads t).StampFits env.now))
  | .launch _ _ _ => isTrue trivial
  | .resume _ _ _ _ => isTrue trivial
  | .act _ _ => isTrue trivial
  | .drop _ _ _ => isTrue trivial
  | .cancel _ _ _ => isTrue trivial
  | .erase _ _ => isTrue trivial
  | .exit _ => isTrue trivial

theorem switchStep_alike (h : d.Alike n) (hj : Jumps d n t c c') (hc : c.blur = c'.blur)
    (hf : EnvFine env) (hstamp : c'.task.errno.isSome = true → cfg.overflowChecks = true →
      stampOverflows env.now (n.threads t).vars.deadline = false)
    (hloc : c'.task.Fits t c'.group (n.threads t).vars.errnoLocation) :
    Sys.Alike (Sys.switchStep (cfg.build false) d t (d.threads t) c env)
      (Sys.switchStep (cfg.build true) n t (n.threads t) c' env) := by
  have hth := h.threads t
  have hv := hj.vars
  rcases hj.target with ⟨st, m, y, hct, hct'⟩ | ⟨e, e', st, m, b, b', hs, hs', y, o, hct, hct', hb,
    hhs, hsig, hsig', hd⟩
  · rw [switchStep_starts hct hj.idle hf, switchStep_starts hct' hj.idle' hf]
    obtain ⟨v, cl, b, hs, hn, -, -, hhs⟩ := thread_cases hth
    rw [hn] at hv ⊢
    refine h.setThread (moves_alike ?_ ?_ rfl hhs)
    · exact congrArg (fun v : Vars =>
        { v with task := ⟨none, some ⟨st, (d.threads t).mask, .callsite⟩, false⟩ }) hv
    · exact congrArg (fun c : Call V E =>
        some { c with task := ⟨none, none, y⟩, link := (d.threads t).mask }) hc
  · have hgroup : c.group = c'.group := (congrArg Call.group hc :)
    have hdeadline : (d.threads t).vars.deadline = (n.threads t).vars.deadline :=
      (congrArg Vars.deadline hv :)
    have hfit : (cfg.build true).overflowChecks = true →
        stampOverflows env.now (n.threads t).vars.deadline = false := hstamp (by rw [hct']; rfl)
    -- Both builds have the location of the function's group, and the same borrow.
    have hlocated : (d.threads t).vars.errnoLocation = (n.threads t).vars.errnoLocation := by
      have hbor : b.pos.borrowing = b'.pos.borrowing := by
        rw [← Pos.borrowing_blur, show b.pos.blur = b'.pos.blur from congrArg Body.pos hb,
          Pos.borrowing_blur]
      rw [(hloc.1 b'.pos (by rw [hct']; rfl)).1, hd, hgroup, hbor]
    rw [switchStep_resumes hct hj.idle hsig hf (by rw [hdeadline]; exact hfit),
      switchStep_resumes hct' hj.idle' hsig' hf hfit]
    obtain ⟨v, cl, b₁, hs₁, hn, -, -, -⟩ := thread_cases hth
    rw [hn] at hv hlocated ⊢
    rw [hgroup]
    refine h.setThread (moves_alike ?_ ?_ (congrArg Base.body hb) hhs)
    · have hlocated : (d.threads t).vars.errnoLocation = v.errnoLocation := hlocated
      simp only [Vars.blur, if_true, Vars.mk.injEq] at hv
      rw [Vars.blur_setErrno, Vars.blur_setErrno]
      simp only [Vars.blur, hv.1, hv.2.2.1, hv.2.2.2.1, hv.2.2.2.2.1, hlocated]
    · exact congrArg (fun c : Call V E => some { c with
        task := ⟨some 0, none, y⟩, group := c'.group, error := false, link := (d.threads t).mask })
          hc

theorem endResume_alike (h : d.Alike n) (hth : th.blur = th'.blur) (hrest : Rest th.vars)
    (hother : Rest c.other) (ret : Ret E) :
    Sys.Alike (Sys.endResume (cfg.build false) d t th c ret)
      (Sys.endResume (cfg.build true) n t th' c' ret) := by
  obtain ⟨v, cl, b, hs, rfl, hv, -, hhs⟩ := thread_cases hth
  exact h.setThread (moves_alike ((rest_blur hother).trans ((rest_blur hrest).symm.trans hv))
    rfl rfl hhs)

theorem leaveStep_alike (h : d.Alike n) (hth : th.blur = th'.blur) (hc : c.blur = c'.blur)
    (herr : c.error = false) (hlv : Leaving th c) (hother : Rest c.other) :
    Sys.Alike (Sys.leaveStep (cfg.build false) d t th c env)
      (Sys.leaveStep (cfg.build true) n t th' c' env) := by
  have hend {d n : Sys V E} (h : d.Alike n) (ret : Ret E) :
      Sys.Alike (Sys.endResume (cfg.build false) d t
        { th with vars := { th.vars with task := .default } } c ret)
        (Sys.endResume (cfg.build true) n t { th' with vars := { th'.vars with task := .default } }
          c' ret) :=
    endResume_alike h
      (congrArg (fun th : Thread V E => { th with vars := { th.vars with task := .default } }) hth)
        hlv.rest hother ret
  have htask : th.vars.task.blur = th'.vars.task.blur := (congrArg Vars.task (vars_alike hth) :)
  have herrno : th.vars.task.errno.isSome = th'.vars.task.errno.isSome := by
    have := congrArg (fun k : Task => k.errno.isSome) htask
    simpa only [Task.blur, Option.isSome_map] using this
  have hstack : th.vars.task.stack = th'.vars.task.stack := by
    rw [← Task.stack_blur, htask, Task.stack_blur]
  have hyielded : th.vars.task.yielded = th'.vars.task.yielded := (congrArg Task.yielded htask :)
  obtain ⟨task, other, rfl, hctask⟩ := call_cases hc
  have hstack' : c.task.stack = task.stack := by rw [← Task.stack_blur, hctask, Task.stack_blur]
  have hdone (v v' : Vars) :
      Continuation.blur (⟨.empty, { c.task with errno := none }, c.group,
        some v⟩ : Continuation V E) =
        Continuation.blur ⟨.empty, { task with errno := none }, c.group, some v'⟩ :=
    congrArg (fun k : Task => Continuation.mk .empty { k with errno := none } c.group (some .fresh))
      hctask
  simp only [Sys.leaveStep, herr, Bool.false_eq_true, if_false]
  rw [← herrno, ← hstack, ← hstack', ← hyielded]
  split
  · refine hend ((h.freeStack _).setLinger ?_) _
    simp only [Linger.blur, Cell.blur, Continuation.blur, htask, Option.map_some]
  · have hfree := h.freeStack th.vars.task.stack
    split
    · exact hend ((hfree.dropContinuation (hdone _ _) _).setLinger rfl) _
    · exact hend ((hfree.dropContinuation (hdone _ _) _).setLinger rfl) _
    · exact hend (hfree.abandon (hdone _ _) _ _ _) _
    · exact hend (hfree.abandon (hdone _ _) _ _ _) _

/-- A step of `resume` on the thread's own stack is next. -/
def OnMain (th : Thread V E) : Prop :=
  th.ready = true ∧ th.handlers = [] ∧ ∃ pc c, th.base = .main pc ∧ th.call = some c

theorem onMain_blur : OnMain th.blur ↔ OnMain th := by
  simp only [OnMain, Thread.ready_blur]
  simp only [Thread.blur, List.map_eq_nil_iff, Base.blur_eq_main, Option.map_eq_some_iff]
  constructor
  · rintro ⟨hr, hh, pc, _, hb, c, hc, -⟩
    exact ⟨hr, hh, pc, c, hb, hc⟩
  · rintro ⟨hr, hh, pc, c, hb, hc⟩
    exact ⟨hr, hh, pc, c.blur, hb, c, hc, rfl⟩

theorem mainStep_eq_none {s : Sys V E} (h : ¬OnMain (s.threads t)) :
    Sys.mainStep cfg s t env = none := by
  simp only [Sys.mainStep]
  split
  case h_6 => rfl
  all_goals rename_i hr hh hb hc; exact absurd ⟨hr, hh, _, _, hb, hc⟩ h

theorem mainStep_signal {s : Sys V E} (hr : (s.threads t).ready = true)
    (hh : (s.threads t).handlers = []) (hb : (s.threads t).base = .main .signal)
    (hc : (s.threads t).call = some c) :
    Sys.mainStep cfg s t env = some (s.setThread t { s.threads t with
      vars := { (s.threads t).vars with signal := some t }, base := .main .stack }) := by
  simp only [Sys.mainStep, hr, hh, hb, hc]

/-- ERRNO_LOCATION fits what thread `t` is about to start, resume or go on with. -/
structure PlacedAt (t : Tid) (th : Thread V E) : Prop where
  main : ∀ c pc, th.base = .main pc → pc ≠ .leave → th.call = some c →
    c.task.Fits t c.group th.vars.errnoLocation
  boot : th.base = .boot → th.vars.errnoLocation.borrowed = false
  body : ∀ b, th.base = .body b →
    (b.pos.located = false → th.vars.errnoLocation.borrowed = false) ∧ b.pos.on t = true

def Placed (s : Sys V E) : Prop := ∀ t, PlacedAt t (s.threads t)

theorem mainStep_alike (h : d.Alike n) (hg : Good False True d) (ho : Outer d) (hp : Placed n)
    (hf : EnvFine env) (hstamp : cfg.overflowChecks = true → (n.threads t).StampFits env.now) :
    Option.Rel Sys.Alike (Sys.mainStep (cfg.build false) d t env)
      (Sys.mainStep (cfg.build true) n t env) := by
  have hth := h.threads t
  by_cases hm : OnMain (d.threads t)
  · obtain ⟨hr', hh', pc', c', hb', hc'⟩ : OnMain (n.threads t) := by
      rwa [← onMain_blur, ← hth, onMain_blur]
    obtain ⟨hr, hh, pc, c, hb, hc⟩ := hm
    obtain rfl : pc = pc' := by
      have hbase := congrArg Thread.base hth
      simp only [Thread.blur, hb, hb', Base.blur, Base.main.injEq] at hbase
      exact hbase
    have hcall : c.blur = c'.blur := by
      have := congrArg Thread.call hth
      simpa only [Thread.blur, hc, hc', Option.map_some, Option.some.injEq] using this
    have hother := (ho t).replaced c hc
    have hcore := hg.threads t
    simp only [Core, hb, hc] at hcore
    obtain ⟨-, -, hcok, hmain⟩ := hcore
    cases pc with
    | setup =>
      simp only [Sys.mainStep, hr, hh, hb, hc, hr', hh', hb', hc']
      exact .some (setupStep_alike h hth hcall hmain.1 hother hf)
    | signal =>
      rw [mainStep_signal hr hh hb hc, mainStep_signal hr' hh' hb' hc']
      exact .some (signalStep_alike h hth)
    | stack =>
      simp only [Sys.mainStep, hr, hh, hb, hc, hr', hh', hb', hc']
      exact .some (stackStep_alike h hth hcall hf)
    | switch =>
      simp only [Sys.mainStep, hr, hh, hb, hc, hr', hh', hb', hc']
      refine .some (switchStep_alike h (jumps_alike h hg hc hb hb' hcall) hcall hf
        (fun he hov => ?_) ((hp t).main c' .switch hb' (by decide) hc'))
      exact hstamp hov (by simpa only [Thread.stamping, hh', hb', hc'] using he)
    | leave =>
      simp only [Sys.mainStep, hr, hh, hb, hc, hr', hh', hb', hc']
      exact .some (leaveStep_alike h hth hcall (hcok.error trivial) hmain.2 hother)
  · have hm' : ¬OnMain (n.threads t) := by rwa [← onMain_blur, ← hth, onMain_blur]
    rw [mainStep_eq_none hm, mainStep_eq_none hm']
    exact .none

/-! ## Every step -/

/-- On the caller's stack no handler gets as far as DEADLINE. -/
theorem calm_timed (h : Calm th) : th.Timed := by
  intro f hf hpc
  have hok := (h.frames f hf).pc
  cases hp : f.pc with
  | deadline e => rw [hp] at hok; cases hok.1
  | _ => rw [hp] at hpc; cases hpc

theorem core_timed {ok tidy : Prop} (h : Core ok tidy t th) (ha : th.base.alive = true) :
    th.Timed := by
  cases hb : th.base with
  | caller => exact calm_timed (h.calm (.inl hb)).1
  | main pc => exact calm_timed (h.calm (.inr (.inl ⟨pc, hb⟩))).1
  | boot => exact calm_timed (h.calm (.inr (.inr hb))).1
  | body b => intro f _ _; rw [hb]; rfl
  | gone => intro f _ _; rw [hb]; rfl
  | exited => rw [hb] at ha; cases ha
  | stuck why => rw [hb] at ha; cases ha

theorem dirtyAfter_alike {th₁ th₁' : Thread V E} (h : d.Alike n) (hth : th.blur = th'.blur)
    (hth₁ : th₁.blur = th₁'.blur) : d.dirtyAfter th th₁ = n.dirtyAfter th' th₁' := by
  have key (s : Sys V E) (th th₁ : Thread V E) :
      s.dirtyAfter th.blur th₁.blur = s.dirtyAfter th th₁ := by
    simp only [Sys.dirtyAfter, Thread.blur]
    cases th.base <;> cases th₁.base <;> cases th.call <;> rfl
  rw [← key, hth, hth₁, key]
  simp only [Sys.dirtyAfter, h.dirty]

/-- On thread `t`, `errno_group` drops its guard where it got it. -/
theorem PlacedAt.cell {b : Body} {e : Enable} (hp : PlacedAt t th) (hb : th.base = .body b)
    (hpos : b.pos = .enable e) (hpc : e.pc = .location) : e.cell = some t := by
  have hon := (hp.body b hb).2
  simp only [hpos, Pos.on, decide_eq_true_eq] at hon
  exact hon hpc

/-- SIGNAL of the build with the stub TCB, while preemption is being enabled. -/
theorem signal_alike {b : Body} {e : Enable} {ok tidy : Prop} (h : th.blur = th'.blur)
    (hcore : Core ok tidy t th) (hb : th'.base = .body b) (hpos : b.pos = .enable e) :
    th'.vars.signal = some t := by
  obtain ⟨b₀, hb₀, hbody⟩ : ∃ b₀, th.base = .body b₀ ∧ b₀.blur = b.blur := by
    have hbase : th.base.blur = th'.base.blur := congrArg Thread.base h
    rw [hb] at hbase
    cases hb₀ : th.base with
    | body b₀ => rw [hb₀] at hbase; exact ⟨b₀, rfl, Base.body.inj hbase⟩
    | _ => rw [hb₀] at hbase; cases hbase
  have hpast : b₀.pos.past = false := by
    have hpos₀ : b₀.pos.blur = b.pos.blur := congrArg Body.pos hbody
    rw [hpos] at hpos₀
    cases hp₀ : b₀.pos with
    | enable => rfl
    | _ => rw [hp₀] at hpos₀; cases hpos₀
  obtain ⟨c, -, -, hin⟩ := hcore.body hb₀
  have hsignal := hin.signal
  rw [hpast] at hsignal
  exact ((congrArg (fun th : Thread V E => th.vars.signal) h :).symm).trans hsignal

theorem actStep_alike {a : Act V E} (h : d.Alike n) (hg : Good False True d) (hu : Unheld d)
    (hp : Placed n) :
    Option.Rel Sys.Alike (Sys.actStep (cfg.build false) d t a)
      (Sys.actStep (cfg.build true) n t a) := by
  have hth := h.threads t
  have hd : (d.threads t).Unflagged := by
    intro b hb hl
    have := hu.threads t
    simp only [Unborrowed, hb] at this
    exact this hl
  have hstub : (n.threads t).step (n.world (cfg.build true)) a =
      (n.threads t).step (d.world (cfg.build false)) a := by
    rw [h.world]
    refine Thread.step_notls (fun b e hb hpos hpc => ?_) true a
    rw [(hp t).cell hb hpos hpc, signal_alike hth (hg.threads t) hb hpos]
  simp only [Sys.actStep, hstub]
  cases ha : (d.threads t).base.alive with
  | false =>
    have hbase : (d.threads t).base.blur = (n.threads t).base.blur := congrArg Thread.base hth
    have ha' : (n.threads t).base.alive = false := by
      rw [← Base.alive_blur, ← hbase, Base.alive_blur, ha]
    have hnone {th : Thread V E} (h : th.base.alive = false) :
        th.step (d.world (cfg.build false)) a = none := by
      refine Option.eq_none_iff_forall_ne_some.mpr fun th' hs => ?_
      rw [Thread.alive_of_step hs] at h
      cases h
    rw [hnone ha, hnone ha']
    exact .none
  | true =>
    have hstep : ((d.threads t).step (d.world (cfg.build false)) a).map Thread.blur =
        ((n.threads t).step (d.world (cfg.build false)) a).map Thread.blur :=
      Thread.step_alike hth (core_timed (hg.threads t) ha) hd (fun b hb => ((hp t).body b hb).1) a
    cases hd : (d.threads t).step (d.world (cfg.build false)) a with
    | none =>
      cases hn : (n.threads t).step (d.world (cfg.build false)) a with
      | none => exact .none
      | some th' =>
        rw [hd, hn] at hstep
        cases hstep
    | some th =>
      cases hn : (n.threads t).step (d.world (cfg.build false)) a with
      | none =>
        rw [hd, hn] at hstep
        cases hstep
      | some th' =>
        rw [hd, hn] at hstep
        have hnext : th.blur = th'.blur := Option.some.inj hstep
        exact .some { h.setThread (t := t) hnext with dirty := dirtyAfter_alike h hth hnext }

/-- A step of the two builds, from states that look the same. -/
theorem step_alike {l : Label V E} (h : d.Alike n) (hg : Good False True d) (ho : Outer d)
    (hu : Unheld d) (hp : Placed n) (hf : NoFault n l) (hstamp : Bounded cfg n l) :
    Option.Rel Sys.Alike (Sys.step (cfg.build false) d l) (Sys.step (cfg.build true) n l) := by
  cases l with
  | launch t us env => exact launchStep_alike h hg ho hf
  | resume t k us env => exact resumeStep_alike h hg ho hf
  | main t env => exact mainStep_alike h hg ho hp hf hstamp
  | act t a => exact actStep_alike h hg hu hp
  | drop t k env => exact dropStep_alike h
  | cancel t k env => exact cancelStep_alike h
  | erase t k =>
    have hk : d.lingers[k]?.isSome = n.lingers[k]?.isSome := by
      rw [← Option.isSome_map, ← List.getElem?_map, h.lingers, List.getElem?_map, Option.isSome_map]
    simp only [Sys.step]
    rw [← idle_alike (h.threads t), ← hk]
    split
    · exact .some h
    · exact .none
  | exit t => exact exitStep_alike h

end

/-! ## The thread's own thread-locals -/

section
variable {cfg : Cfg V} {ok tidy : Prop} {s s' : Sys V E} {t : Tid} {th th' : Thread V E}

theorem Outer.setThread (h : Outer s) (hth : OuterRests th) : Outer (s.setThread t th) := by
  intro u
  simp only [Sys.setThread, Function.update_apply]
  split
  · exact hth
  · exact h u

theorem Outer.of_eq (h : Outer s) (ht : s'.threads = s.threads) : Outer s' := fun u => by
  rw [ht]; exact h u

/-- A call that changes nothing of its thread but the result. -/
theorem Outer.returns (h : Outer s) (ht : s'.threads = s.threads) (r : Ret E) :
    Outer (s'.setThread t { s.threads t with ret := some r }) :=
  (h.of_eq ht).setThread ⟨(h t).installed, (h t).replaced⟩

/-- `resume` ends, and the thread-locals of its caller are back. -/
theorem Outer.ends {v : Vars} (h : Outer s) (ht : s'.threads = s.threads) (hv : Rest v)
    (ret : Option (Ret E)) :
    Outer (s'.setThread t { th with vars := v, call := none, base := .caller, ret := ret }) :=
  (h.of_eq ht).setThread ⟨fun _ => hv, fun _ hc => absurd hc (Option.some_ne_none _).symm⟩

theorem outerRests_step {w : World} {a : Act V E} (h : OuterRests th) (hcore : Core ok tidy t th)
    (hsig : w.sig t = th.signaler) (hs : th.step w a = some th') : OuterRests th' := by
  have hcall := (Thread.step_kept hs).call
  constructor
  · intro hnone
    rw [hnone, Option.map_none, eq_comm, Option.map_eq_none_iff] at hcall
    have hb : th.base = .caller := by
      have ha := Thread.alive_of_step hs
      unfold Core at hcore
      rw [hcall] at hcore
      cases hb : th.base <;> simp_all [Base.alive]
    obtain ⟨hcalm, hsignal⟩ := hcore.calm (.inl hb)
    cases Thread.step_acts hs with
    | delivers no _ hno => exact (h.installed hcall).kept (hcalm.deliver hno).vars
    | handles now f rest _ hh =>
      exact (h.installed hcall).kept (hcalm.handler hh (own_of_threadSignal hsig hsignal) rfl).vars
    | boots now c _ _ base => rw [hb] at base; cases base
    | runs now b c _ _ _ base => rw [hb] at base; cases base
    | fn a b c _ _ _ base => rw [hb] at base; cases base
  · intro c' hc'
    rw [hc', Option.map_some, eq_comm, Option.map_eq_some_iff] at hcall
    obtain ⟨c, hc, hsame⟩ := hcall
    have hother : c.other = c'.other := (congrArg Call.other hsame :)
    rw [← hother]
    exact h.replaced c hc

theorem Outer.begin {k : Lid} {cont : Continuation V E} {trace : List (Event V E)} {us : UInt64}
    {launching : Bool} {env : Env} (h : Outer s) (hcall : (s.threads t).call = none)
    (hb : Begin s t k cont trace us launching env s') : Outer s' := by
  cases hb with
  | missing => exact h.returns (threads_abandon ..) _
  | enters tcb =>
    refine (h.of_eq rfl).setThread ⟨nofun, ?_⟩
    rintro _ ⟨⟩
    exact (h t).installed hcall
  | fails => exact h.returns ((threads_abandon ..).trans (threads_freeStack _)) _

theorem outer_step {l : Label V E} (hn : cfg.notls = false) (hg : Good ok tidy s) (h : Outer s)
    (hs : Sys.step cfg s l = some s') : Outer s' := by
  cases step_change hn hs with
  | returns _ t => exact h.returns rfl _
  | caught _ t => exact h.setThread ⟨(h t).installed, (h t).replaced⟩
  | full => exact h.returns rfl _
  | sets => exact h.returns rfl _
  | launches t us env group p _ idle _ _ _ begin =>
    have h' : Outer (s.launched group p) := h.of_eq rfl
    exact h'.begin ((hg.threads t).idle idle).2.2.1 begin
  | resumes t k us env c trace _ idle _ _ begin =>
    exact h.begin ((hg.threads t).idle idle).2.2.1 begin
  | advances t env c pc _ call _ _ _ adv =>
    have hc := (h t).replaced c call
    cases adv with
    | goes s₁ th c' shared call' same =>
      refine (h.of_eq shared.threads).setThread ⟨fun hnone => (by rw [hnone] at call'; cases call'),
        fun c₁ hc₁ => ?_⟩
      rw [call'] at hc₁
      cases hc₁
      rw [same.other]
      exact hc
    | fails s₁ th c' ret shared same =>
      have hc' : Rest c'.other := by rw [same.other]; exact hc
      simp only [Sys.failResume, hn, Bool.false_eq_true, if_false]
      exact h.ends ((threads_abandon ..).trans ((threads_freeStack _).trans shared.threads)) hc' _
  | leaves t env c _ call base _ left =>
    have hc := (h t).replaced c call
    cases leaveStep_left hn hg call base left with
    | fails =>
      simp only [Sys.failResume, hn, Bool.false_eq_true, if_false]
      exact h.ends ((threads_abandon ..).trans (threads_freeStack _)) hc _
    | paused => exact h.ends rfl hc _
    | settled =>
      exact h.ends ((threads_dropContinuation _ env.renew).trans (threads_freeStack _)) hc _
  | acts t a th step =>
    exact Outer.of_eq (h.setThread (outerRests_step (h t) (hg.threads t) rfl step)) rfl
  | drops _ t k c trace renew => exact h.returns (threads_dropContinuation c renew) _
  | forgets => exact h.returns rfl _
  | stays => exact h
  | exits t =>
    have h' : Outer (s.setThread t { s.threads t with signaler := none, base := .exited }) :=
      h.setThread ⟨(h t).installed, (h t).replaced⟩
    exact h'.of_eq rfl

end

end Inger.L4
