import Inger.L3Slice.Jump

/-!
# One function through a whole run

A timed function lives in its `Linger` while it waits and in a call of `resume`,
on whichever thread, while it has control; `status` is where it is. `status_step`
says what a step of the process can do to one function (`Fate`): leave it alone,
start or end a call on it, advance the call, or act on its stack. What a property
of single functions has to be shown of is thus the cases of `Fate` and `Born`;
`status_reachable` is the induction.

The states are those with `Good` and `Linked`, so the default build's, whatever
fails.
-/
namespace Inger.L2

variable {V E : Type}

/-! ## A function's own events -/

/-- A step of the function itself. -/
def Event.own : Event V E → Bool
  | .enter => true
  | .work => true
  | .call => true
  | .pause => true
  | .done _ => true
  | _ => false

def FnAct.event : FnAct V E → Option (Event V E)
  | .work _ => some .work
  | .call => some .call
  | .pause => some .pause
  | .exit => none
  | .finish r => some (.done r)

/-- The step of the function that a step of the thread is: `schedule` calls the
closure for the first time, or the function's own code acts. -/
def Thread.event (th : Thread V E) : Act V E → Option (Event V E)
  | .deliver _ => none
  | .run _ =>
    match th.handlers, th.base, th.call with
    | [], .body b, some c =>
      if b.pos = .call ∧ b.fn = c.linger ∧ c.functional.called = 0 then some .enter else none
    | _, _, _ => none
  | .fn a =>
    match th.handlers, th.base with
    | [], .body b => if b.pos = .own then a.event else none
    | _, _ => none

namespace Thread

variable {w : World} {now : UInt64} {th th' : Thread V E} {c c' : Call V E}

theorem event_own {a : Act V E} {e : Event V E} (h : th.event a = some e) : e.own = true := by
  unfold event at h
  split at h
  · cases h
  · split at h
    · split at h <;> cases h
      rfl
    · cases h
  · rename_i a
    split at h
    · split at h
      · cases a <;> cases h <;> rfl
      · cases h
    · cases h

theorem bodyStep_event {b : Body} (hh : th.handlers = []) (hb : th.base = .body b)
    (hc : th.call = some c) (hs : th.bodyStep w now c b = some th') (hc' : th'.call = some c') :
    c'.trace = c.trace ++ (th.event (.run now)).toList ∨
      th.event (.run now) = none ∧ c'.trace = c.trace ++ [.finish] := by
  have other (hpos : b.pos ≠ .call) : th.event (.run now) = none := by
    simp [event, hh, hb, hc, hpos]
  have same (hpos : b.pos ≠ .call) (h : th'.call = some c) :
      c'.trace = c.trace ++ (th.event (.run now)).toList := by
    cases h.symm.trans hc'
    simp [other hpos]
  unfold bodyStep at hs
  cases hpos : b.pos <;> simp only [hpos, Option.some.injEq, reduceCtorEq] at hs
  case stamp => split at hs <;> cases hs <;> exact .inl (same (by simp [hpos]) hc)
  case enable e => subst hs; exact .inl (same (by simp [hpos]) ((enablePos_call b e).trans hc))
  case call =>
    subst hs
    refine .inl ?_
    unfold callPos at hc'
    split at hc'
    · rename_i hfn
      split at hc' <;> rename_i hf
      · cases hc'
        simp [event, hh, hb, hc, hpos, hfn, hf, Completion.called, Call.log]
      · cases hc.symm.trans hc'
        simp [event, hh, hb, hc, hpos, hf, Completion.called]
      · cases hc.symm.trans hc'
        simp [event, hh, hb, hc, hpos, hf, Completion.called]
    · rename_i hfn
      cases hc.symm.trans hc'
      simp [event, hh, hb, hc, hfn]
  case pause back => subst hs; exact .inl (same (by simp [hpos]) hc)
  case deferMask back =>
    split at hs
    · cases hs; exact .inl (same (by simp [hpos]) hc)
    · split at hs <;> cases hs <;> exact .inl (same (by simp [hpos]) hc)
  case deferFlag back => subst hs; exact .inl (same (by simp [hpos]) hc)
  case disable pc =>
    subst hs
    exact .inl (same (by simp [hpos]) ((disableStep_call b.signal pc).trans hc))
  case check => split at hs <;> cases hs <;> exact .inl (same (by simp [hpos]) hc)
  case ret =>
    subst hs
    cases hc'
    exact .inr ⟨other (by simp [hpos]), rfl⟩

theorem fnStep_event {a : FnAct V E} {b : Body} (hh : th.handlers = []) (hb : th.base = .body b)
    (hc : th.call = some c) (hs : th.fnStep c b a = some th') (hc' : th'.call = some c') :
    c'.trace = c.trace ++ (th.event (.fn a)).toList := by
  have hown (hpos : b.pos = .own) : th.event (.fn a) = a.event := by simp [event, hh, hb, hpos]
  have same (hpos : b.pos ≠ .own) (h : th'.call = th.call) :
      c'.trace = c.trace ++ (th.event (.fn a)).toList := by
    cases (hc'.symm.trans h).trans hc
    simp [event, hh, hb, hpos]
  unfold fnStep at hs
  split at hs
  case h_1 hpos => cases hs; cases hc'; rw [hown hpos]; rfl
  case h_2 hpos => cases hs; cases hc'; rw [hown hpos]; rfl
  case h_3 hpos => cases hs; cases hc'; rw [hown hpos]; rfl
  case h_4 hpos => cases hs; cases hc'; rw [hown hpos]; rfl
  case h_5 hpos => cases hs; exact same (by simp [hpos]) rfl
  case h_6 hpos => cases hs; exact same (by simp [hpos]) rfl
  case h_7 => cases hs

/-- **What a step adds to the history**: the function's own step, or the return of
`schedule`. -/
theorem step_event {a : Act V E} (hs : th.step w a = some th') (hc : th.call = some c)
    (hc' : th'.call = some c') :
    c'.trace = c.trace ++ (th.event a).toList ∨ th.event a = none ∧
      c'.trace = c.trace ++ [.finish] := by
  have same (he : th.event a = none) (h : th'.call = th.call) :
      c'.trace = c.trace ++ (th.event a).toList := by
    cases (hc'.symm.trans h).trans hc
    simp [he]
  cases step_acts hs with
  | delivers no => exact .inl (same rfl rfl)
  | handles now f rest _ hh => exact .inl (same (by simp [event, hh]) handlerStep_call)
  | boots now _ _ hh hb =>
    refine .inl (same (by simp [event, hh, hb]) ?_)
    unfold bootStep
    split <;> rfl
  | runs now b c₀ _ _ hh hb hc₀ hs =>
    cases hc₀.symm.trans hc
    exact bodyStep_event hh hb hc hs hc'
  | fn a b c₀ _ _ hh hb hc₀ hs =>
    cases hc₀.symm.trans hc
    exact .inl (fnStep_event hh hb hc hs hc')

end Thread
end Inger.L2

namespace Inger.L3

open L1.Reusable L1.Signals L2

variable {V E : Type}

/-- Where a function is: in its `Linger`, in a call on a thread, or gone. -/
inductive Status (V E : Type) where
  | idle (c : Continuation V E) (trace : List (Event V E))
  | running (t : Tid) (th : Thread V E) (c : Call V E)
  | over (l : Linger V E)

def Status.trace : Status V E → List (Event V E)
  | .idle _ tr => tr
  | .running _ _ c => c.trace
  | .over l => l.trace

/-- A function's own part of its history. -/
def own (tr : List (Event V E)) : List (Event V E) := tr.filter Event.own

def status (s : Sys V E) (k : Lid) : Option (Status V E) :=
  match s.lingers[k]? with
  | some ⟨.continuation c, trace⟩ => some (.idle c trace)
  | some ⟨.resuming t _, _⟩ => (s.threads t).call.map (.running t (s.threads t))
  | some l => some (.over l)
  | none => none

/-- The thread and the call once `resume` has installed the block `tcb`. -/
def beginCall (k : Lid) (c : Continuation V E) (trace : List (Event V E)) (us : UInt64)
    (launching : Bool) (th : Thread V E) : Call V E :=
  ⟨k, c.functional, c.stateful, c.group, us, launching, false, ∅, th.vars, trace⟩

def beginThread (k : Lid) (c : Continuation V E) (trace : List (Event V E)) (us : UInt64)
    (launching : Bool) (tcb : Vars) (th : Thread V E) : Thread V E :=
  { th with
    vars := tcb
    call := some (beginCall k c trace us launching th)
    base := .main .setup }

/-- What a step with label `l` of state `s` can do to function `k`. -/
inductive Fate (cfg : Cfg V) (s : Sys V E) (k : Lid) : Label V E → Status V E → Status V E → Prop
  | same (l : Label V E) (x : Status V E) : Fate cfg s k l x x
  | begins (t : Tid) (us : UInt64) (env : Env) (c : Continuation V E) (trace : List (Event V E))
      (tcb : Vars) (idle : Sys.idle (s.threads t) = true) (tls : c.tls = some tcb) :
      Fate cfg s k (.resume t k us env) (.idle c trace)
        (.running t (beginThread k c trace us false tcb (s.threads t))
          (beginCall k c trace us false (s.threads t)))
  /-- The block could not be installed. -/
  | forfeits (l : Label V E) (c : Continuation V E) (trace : List (Event V E)) :
      Fate cfg s k l (.idle c trace) (.idle { c with tls := none } trace)
  | prepares (t : Tid) (env : Env) (c c' : Call V E) (th : Thread V E) (pc : MainPc)
      (base : (s.threads t).base = .main pc) (early : pc ≠ .switch ∧ pc ≠ .leave)
      (call : th.call = some c') (same : c.Same c') (us : c'.us = c.us)
      (task : c'.task = c.task ∨
        c.task.errno = none ∧ ∃ st m, c'.task.checkpoint = some ⟨st, m, .entry⟩)
      (base' : th.base = .main pc.next) (handlers : th.handlers = [])
      (pending : th.pending = (s.threads t).pending)
      (installed : th.vars.task = (s.threads t).vars.task) :
      Fate cfg s k (.main t env) (.running t (s.threads t) c) (.running t th c')
  | sticks (t : Tid) (env : Env) (c : Call V E) (th : Thread V E) (pc : MainPc) (why : Stuck)
      (base : (s.threads t).base = .main pc) (early : pc ≠ .leave) (base' : th.base = .stuck why)
      (call : th.call = some c) (installed : th.vars.task = (s.threads t).vars.task) :
      Fate cfg s k (.main t env) (.running t (s.threads t) c) (.running t th c)
  | starts (t : Tid) (env : Env) (c : Call V E) (st : Sid) (m : Sigset) (y : Bool)
      (base : (s.threads t).base = .main .switch) (handlers : (s.threads t).handlers = [])
      (task : c.task = ⟨none, some ⟨st, m, .entry⟩, y⟩)
      (bootstrap : (s.threads t).vars.bootstrap = some (c.linger, c.group)) :
      Fate cfg s k (.main t env) (.running t (s.threads t) c)
        (.running t
          { s.threads t with
            mask := m
            vars := { (s.threads t).vars with
              task := ⟨none, some ⟨st, (s.threads t).mask, .callsite⟩, false⟩ }
            call := some { c with task := ⟨none, none, y⟩, link := (s.threads t).mask }
            base := .boot }
          { c with task := ⟨none, none, y⟩, link := (s.threads t).mask })
  | resumes (t : Tid) (env : Env) (c : Call V E) (e : Int) (st : Sid) (m : Sigset) (b : Body)
      (hs : List Frame) (y : Bool) (o : Signal) (base : (s.threads t).base = .main .switch)
      (call : (s.threads t).call = some c) (task : c.task = ⟨some e, some ⟨st, m, .paused b hs⟩, y⟩)
      (own : (s.threads t).signaler = some o)
      (paused : Paused c.linger c.group c.functional (s.threads t).vars.errnoLocation b hs) :
      Fate cfg s k (.main t env) (.running t (s.threads t) c)
        (.running t
          { s.threads t with
            mask := (if env.sigmask then (s.threads t).mask else ∅).erase o
            group := .of c.group
            vars := { (s.threads t).vars with
              task := ⟨none, some ⟨st, (s.threads t).mask, .callsite⟩, false⟩
              deadline := stamp env.now c.us }.setErrno (.of c.group) e
            call := some { c with
              task := ⟨some e, none, y⟩, error := !env.sigmask, link := (s.threads t).mask }
            base := .body b
            handlers := hs }
          { c with task := ⟨some e, none, y⟩, error := !env.sigmask, link := (s.threads t).mask })
  | acts (t : Tid) (a : Act V E) (c c' : Call V E) (th : Thread V E)
      (core : Core False False t (s.threads t)) (call : (s.threads t).call = some c)
      (linger : c.linger = k) (step : (s.threads t).step (s.world cfg) a = some th)
      (call' : th.call = some c') :
      Fate cfg s k (.act t a) (.running t (s.threads t) c) (.running t th c')
  /-- `resume` ended early: the slot of the block is empty, or `launch` has
  dropped the continuation. -/
  | fails (t : Tid) (env : Env) (c : Call V E) (cont : Continuation V E) (tls : cont.tls = none)
      (task : cont.stateful = c.task ∨ cont.stateful.checkpoint = none) :
      Fate cfg s k (.main t env) (.running t (s.threads t) c) (.idle cont c.trace)
  | dropped (t : Tid) (env : Env) (c : Call V E) :
      Fate cfg s k (.main t env) (.running t (s.threads t) c) (.over ⟨.dropped, c.trace⟩)
  | pauses (t : Tid) (env : Env) (c : Call V E) (e : Int) (st : Sid) (m : Sigset) (b : Body)
      (hs : List Frame) (y : Bool) (base : (s.threads t).base = .main .leave)
      (task : (s.threads t).vars.task = ⟨some e, some ⟨st, m, .paused b hs⟩, y⟩) :
      Fate cfg s k (.main t env) (.running t (s.threads t) c)
        (.idle ⟨c.functional, ⟨some e, some ⟨st, m, .paused b hs⟩, y⟩, c.group,
          some { (s.threads t).vars with task := .default }⟩ (c.trace ++ [.back y]))
  | settles (t : Tid) (env : Env) (c : Call V E) (ctx : Context) (y : Bool) (r : Except E V)
      (base : (s.threads t).base = .main .leave)
      (task : (s.threads t).vars.task = ⟨none, some ctx, y⟩)
      (trace : Traced true (.ret r) c.trace) :
      Fate cfg s k (.main t env) (.running t (s.threads t) c)
        (.over ⟨settledCell c.launching r, c.trace⟩)
  | drops (l : Label V E) (c : Continuation V E) (trace : List (Event V E)) :
      Fate cfg s k l (.idle c trace) (.over ⟨.dropped, trace⟩)
  | cancels (l : Label V E) (c : Continuation V E) (trace : List (Event V E)) (v : V) :
      Fate cfg s k l (.idle c trace) (.over ⟨.completion v, trace ++ [.cancel]⟩)
  | forgets (l : Label V E) (x : Linger V E) : Fate cfg s k l (.over x) (.over ⟨.dropped, x.trace⟩)

/-- How `launch` leaves a new function. -/
inductive Born (s : Sys V E) (k : Lid) : Status V E → Prop
  | idle (c : Continuation V E) (functional : c.functional = .function)
      (task : c.stateful = .default) :
      Born s k (.idle c [])
  | running (t : Tid) (us : UInt64) (c : Continuation V E) (tcb : Vars)
      (functional : c.functional = .function) (task : c.stateful = .default) :
      Born s k (.running t (beginThread k c [] us true tcb (s.threads t))
        (beginCall k c [] us true (s.threads t)))
  | dropped : Born s k (.over ⟨.dropped, []⟩)

section
variable {cfg : Cfg V} {s s' : Sys V E} {t : Tid} {k : Lid} {c : Call V E} {env : Env}
  {x : Status V E}

/-! ## Reading off -/

theorem status_idle {cont : Continuation V E} {trace : List (Event V E)}
    (h : s.lingers[k]? = some ⟨.continuation cont, trace⟩) :
    status s k = some (.idle cont trace) := by
  rw [status, h]

theorem lingers_of_idle {cont : Continuation V E} {tr : List (Event V E)}
    (h : status s k = some (.idle cont tr)) : s.lingers[k]? = some ⟨.continuation cont, tr⟩ := by
  unfold status at h
  split at h
  · rename_i hl
    cases h
    exact hl
  · rw [Option.map_eq_some_iff] at h
    obtain ⟨c, -, h⟩ := h
    cases h
  · cases h
  · cases h

theorem lingers_of_over {l : Linger V E} (h : status s k = some (.over l)) :
    s.lingers[k]? = some l ∧ ∀ c, l.cell ≠ .continuation c := by
  unfold status at h
  split at h
  · cases h
  · rw [Option.map_eq_some_iff] at h
    obtain ⟨c, -, h⟩ := h
    cases h
  · rename_i l' hne hne' hl
    cases h
    obtain ⟨cell, tr⟩ := l
    refine ⟨hl, ?_⟩
    rintro c rfl
    exact hne c tr rfl
  · cases h

theorem running_of_status {th : Thread V E} (h : status s k = some (.running t th c)) :
    th = s.threads t ∧ (s.threads t).call = some c := by
  unfold status at h
  split at h
  · cases h
  · rw [Option.map_eq_some_iff] at h
    obtain ⟨c', hc', h⟩ := h
    cases h
    exact ⟨rfl, hc'⟩
  · cases h
  · cases h

theorem status_running {g : Gid} {trace : List (Event V E)}
    (h : s.lingers[k]? = some ⟨.resuming t g, trace⟩) (hc : (s.threads t).call = some c) :
    status s k = some (.running t (s.threads t) c) := by
  simp only [status, h, hc, Option.map_some]

theorem status_over {l : Linger V E} (h : s.lingers[k]? = some l)
    (hl : (∃ v, l.cell = .completion v) ∨ l.cell = .poison ∨ l.cell = .dropped) :
    status s k = some (.over l) := by
  obtain ⟨cell, trace⟩ := l
  rw [status, h]
  obtain ⟨v, rfl⟩ | rfl | rfl := hl <;> rfl

/-- The cell of the call a thread is in. -/
theorem Linked.cell (h : Linked s) (hcall : (s.threads t).call = some c) :
    ∃ trace, s.lingers[c.linger]? = some ⟨.resuming t c.group, trace⟩ := by
  have ho := (h t c.linger c.group).mp (owned_call hcall)
  simp only [owner, Option.bind_eq_some_iff] at ho
  obtain ⟨⟨cell, trace⟩, hl, hcell⟩ := ho
  cases cell <;> cases hcell
  exact ⟨trace, hl⟩

theorem Linked.running (h : Linked s) (hcall : (s.threads t).call = some c) :
    status s c.linger = some (.running t (s.threads t) c) := by
  obtain ⟨trace, hl⟩ := h.cell hcall
  exact status_running hl hcall

/-- A function whose cell and thread a step leaves alone. -/
theorem status_congr (hl : s'.lingers[k]? = s.lingers[k]?)
    (ht : ∀ u g trace, s.lingers[k]? = some ⟨.resuming u g, trace⟩ → s'.threads u = s.threads u) :
    status s' k = status s k := by
  unfold status
  rw [hl]
  split
  · rfl
  · rename_i u g trace hu
    rw [ht u g trace hu]
  · rfl
  · rfl

/-- A thread that is in no call, or in one on another function, is not the one
that `k`'s cell names. -/
theorem Linked.ne (h : Linked s) {u : Tid} {g : Gid} {trace : List (Event V E)}
    (hu : s.lingers[k]? = some ⟨.resuming u g, trace⟩)
    (hcall : ∀ c, (s.threads t).call = some c → c.linger ≠ k) : u ≠ t := by
  rintro rfl
  have ho := (h u k g).mpr (by rw [owner, hu]; rfl)
  rw [owned, Option.map_eq_some_iff] at ho
  obtain ⟨c, hc, he⟩ := ho
  exact hcall c hc (congrArg Prod.fst he)

/-- A step of a thread that is not in a call on `k`, and that does not touch its
cell. -/
theorem status_of_other {l : Label V E} (hn : cfg.notls = false) (hl : Linked s)
    (hs : Sys.step cfg s l = some s') (hcell : s'.lingers[k]? = s.lingers[k]?)
    (hcall : ∀ c, (s.threads l.tid).call = some c → c.linger ≠ k) : status s' k = status s k :=
  status_congr hcell fun _ _ _ hu => step_threads_ne hn hs (hl.ne hu hcall)

/-! ## Steps of a call -/

theorem lingers_abandon (cont : Continuation V E) (trace : List (Event V E))
    (launching renew : Bool) :
    (s.abandon k cont trace launching renew).lingers =
      s.lingers.set k ⟨if launching then .dropped else .continuation cont, trace⟩ := by
  cases launching with
  | false => rfl
  | true => exact congrArg (List.set · k _) (lingers_dropContinuation cont renew)

theorem lingers_failResume (cfg : Cfg V) (s : Sys V E) (t : Tid) (th : Thread V E) (c : Call V E)
    (env : Env) (ret : Ret E) : (Sys.failResume cfg s t th c env ret).lingers =
      s.lingers.set c.linger
      ⟨if c.launching then .dropped else .continuation ⟨c.functional, c.task, c.group, none⟩,
        c.trace⟩ := by
  refine (lingers_abandon _ _ _ _).trans ?_
  split
  · rfl
  · rw [lingers_freeStack]

/-- A call that ended early. -/
theorem fate_failResume {th : Thread V E} {c' : Call V E} {ret : Ret E} {s₁ : Sys V E}
    (hk : k < s.lingers.length) (hl : s₁.lingers = s.lingers) (hlinger : c'.linger = k)
    (htrace : c'.trace = c.trace) (htask : c'.task = c.task ∨ c'.task.checkpoint = none) :
    ∃ x', status (Sys.failResume cfg s₁ t th c' env ret) k = some x' ∧
      Fate cfg s k (.main t env) (.running t (s.threads t) c) x' := by
  have hk' : (Sys.failResume cfg s₁ t th c' env ret).lingers[k]? =
      some ⟨if c'.launching then .dropped else
        .continuation ⟨c'.functional, c'.task, c'.group, none⟩,
        c.trace⟩ := by
    rw [lingers_failResume, hl, hlinger, htrace, List.getElem?_set_self hk]
  cases hlau : c'.launching with
  | true =>
    rw [hlau] at hk'
    exact ⟨_, status_over hk' (.inr (.inr rfl)), .dropped t env c⟩
  | false =>
    rw [hlau] at hk'
    exact ⟨_, status_idle hk', .fails t env c _ rfl htask⟩

/-- The thread goes on in the same call. -/
theorem Linked.goes {s₁ : Sys V E} {th : Thread V E} {c' : Call V E} (h : Linked s)
    (hcall : (s.threads t).call = some c) (hl : s₁.lingers = s.lingers)
    (hcall' : th.call = some c') :
    status (s₁.setThread t th) c.linger = some (.running t th c') := by
  obtain ⟨trace, hcell⟩ := h.cell hcall
  have hcell' : (s₁.setThread t th).lingers[c.linger]? = some ⟨.resuming t c.group, trace⟩ := by
    rw [← hcell, ← hl]
    rfl
  have hth : ((s₁.setThread t th).threads t).call = some c' := by
    rw [threads_setThread_self, hcall']
  rw [status_running hcell' hth, threads_setThread_self]

theorem fate_main (hn : cfg.notls = false) (hg : Good False False s) (hl : Linked s)
    (hcall : (s.threads t).call = some c) (hs : Sys.mainStep cfg s t env = some s') :
    ∃ x', status s' c.linger = some x' ∧
      Fate cfg s c.linger (.main t env) (.running t (s.threads t) c) x' := by
  have hk := hl.lt_length hcall
  obtain ⟨c₀, pc, hc₀, hbase, hh, hcases⟩ := mainStep_sorted hg hs
  rw [hcall] at hc₀
  cases hc₀
  obtain ⟨hpc, hpc', hp⟩ | ⟨rfl, hsw⟩ | ⟨rfl, hleft⟩ := hcases
  · cases hp with
    | goes s₁ th c' shared call same us task base' handlers pending installed =>
      exact ⟨_, hl.goes hcall shared.lingers call, .prepares t env c c' th pc hbase ⟨hpc, hpc'⟩ call
        same us task base' handlers pending installed⟩
    | stuck s₁ th shared base' call installed =>
      exact ⟨_, hl.goes hcall shared.lingers call,
        .sticks t env c th pc .setup hbase hpc' base' call installed⟩
    | fails s₁ ret shared failed => exact fate_failResume hk shared.lingers rfl rfl (.inl rfl)
  · cases hsw with
    | starts st m y task bootstrap blocked =>
      exact ⟨_, hl.goes hcall rfl rfl, .starts t env c st m y hbase hh task bootstrap⟩
    | resumes e st m b frames y o task own paused =>
      exact ⟨_, hl.goes hcall rfl rfl, .resumes t env c e st m b frames y o hbase hcall task
        own paused⟩
    | fails s₁ th c' ret shared same taken handlers failed =>
      exact fate_failResume hk shared.lingers same.linger same.trace (.inr taken)
  · cases leaveStep_left hn hg hcall hbase hleft with
    | fails error => exact fate_failResume hk rfl rfl rfl (.inl rfl)
    | paused e st m b frames y error task trace =>
      refine ⟨_, status_idle ?_, .pauses t env c e st m b frames y hbase task⟩
      exact List.getElem?_set_self hk
    | settled ctx y r error task trace =>
      refine ⟨_, status_over ?_ ?_, .settles t env c ctx y r hbase task trace⟩
      · refine List.getElem?_set_self ?_
        rw [lingers_dropContinuation, lingers_freeStack]
        exact hk
      · cases r with
        | ok v => exact .inl ⟨v, rfl⟩
        | error e => cases c.launching <;> simp [settledCell]

/-- Another thread's call. -/
theorem lingers_mainStep_ne (hn : cfg.notls = false) (hg : Good False False s)
    (hcall : (s.threads t).call = some c) (hk : c.linger ≠ k)
    (hs : Sys.mainStep cfg s t env = some s') : s'.lingers[k]? = s.lingers[k]? := by
  obtain ⟨c₀, pc, hc₀, hbase, -, hcases⟩ := mainStep_cases hs
  rw [hcall] at hc₀
  cases hc₀
  have hset (l : Linger V E) (ls : List (Linger V E)) (hls : ls = s.lingers) :
      (ls.set c.linger l)[k]? = s.lingers[k]? := by rw [hls, List.getElem?_set_ne hk]
  obtain ⟨hadv, -⟩ | ⟨rfl, hleft⟩ := hcases
  · cases hadv with
    | goes s₁ th c' shared => exact congrArg (·[k]?) shared.lingers
    | fails s₁ th c' ret shared same =>
      rw [lingers_failResume, same.linger]
      exact hset _ _ shared.lingers
  · cases leaveStep_left hn hg hcall hbase hleft with
    | fails error =>
      rw [lingers_failResume]
      exact hset _ _ rfl
    | paused => exact hset _ _ rfl
    | settled => exact hset _ _ ((lingers_dropContinuation ..).trans (lingers_freeStack _))

/-! ## Every step -/

theorem lt_of_status (hx : status s k = some x) : k < s.lingers.length := by
  by_contra hk
  rw [status, List.getElem?_eq_none (Nat.not_lt.mp hk)] at hx
  cases hx

theorem begin_lingers_ne {j : Lid} {cont : Continuation V E} {trace : List (Event V E)}
    {us : UInt64} {launching : Bool} (h : Begin s t k cont trace us launching env s') (hj : k ≠ j) :
    s'.lingers[j]? = s.lingers[j]? := by
  cases h with
  | missing => exact (congrArg (·[j]?) (lingers_abandon ..)).trans (List.getElem?_set_ne hj)
  | enters => exact List.getElem?_set_ne hj
  | fails =>
    refine (congrArg (·[j]?) (lingers_abandon ..)).trans ((List.getElem?_set_ne hj).trans ?_)
    rw [lingers_freeStack]

/-- A thread has entered `resume`. -/
theorem status_entered {th : Thread V E} {g : Gid} {trace : List (Event V E)}
    (hk : k < s.lingers.length) (hcall : th.call = some c) :
    status ((s.setLinger k ⟨.resuming t g, trace⟩).setThread t th) k = some (.running t th c) := by
  have hth : (((s.setLinger k ⟨.resuming t g, trace⟩).setThread t th).threads t).call = some c := by
    rw [threads_setThread_self, hcall]
  rw [status_running (List.getElem?_set_self hk) hth, threads_setThread_self]

/-- The beginning of a call of `resume`. -/
theorem fate_begin {cont : Continuation V E} {trace : List (Event V E)} {us : UInt64}
    (hi : Sys.idle (s.threads t) = true) (hcell : s.lingers[k]? = some ⟨.continuation cont, trace⟩)
    (h : Begin s t k cont trace us false env s') :
    ∃ x', status s' k = some x' ∧ Fate cfg s k (.resume t k us env) (.idle cont trace) x' := by
  have hk := (List.getElem?_eq_some_iff.mp hcell).1
  cases h with
  | missing tls =>
    refine ⟨_, status_idle ?_, .same _ _⟩
    exact (congrArg (·[k]?) (lingers_abandon ..)).trans (List.getElem?_set_self hk)
  | enters tcb tls installs =>
    exact ⟨_, status_entered hk rfl, .begins t us env cont trace tcb hi tls⟩
  | fails tcb tls installs =>
    refine ⟨_, status_idle ?_, .forfeits _ cont trace⟩
    refine (congrArg (·[k]?) (lingers_abandon ..)).trans (List.getElem?_set_self ?_)
    rw [lingers_freeStack]
    exact hk

/-- A step of `resume` on its caller's stack: of the `Linger` that it is given,
or of another one. -/
theorem status_main (hn : cfg.notls = false) (hg : Good False False s) (hl : Linked s)
    (hcall : (s.threads t).call = some c) (hs : Sys.mainStep cfg s t env = some s')
    (hx : status s k = some x) :
    ∃ x', status s' k = some x' ∧ Fate cfg s k (.main t env) x x' := by
  by_cases hj : c.linger = k
  · subst hj
    rw [hl.running hcall] at hx
    cases hx
    exact fate_main hn hg hl hcall hs
  · have hother : status s' k = status s k := by
      refine status_of_other (l := .main t env) hn hl hs (lingers_mainStep_ne hn hg hcall hj hs)
        fun c' hc' => ?_
      rw [show (s.threads t).call = _ from hc'] at hcall
      cases hcall
      exact hj
    exact ⟨x, hother.trans hx, .same _ x⟩

/-- **What a step can do to a function.** -/
theorem status_step {l : Label V E} (hn : cfg.notls = false) (hg : Good False False s)
    (hl : Linked s) (hs : Sys.step cfg s l = some s') (hx : status s k = some x) :
    ∃ x', status s' k = some x' ∧ Fate cfg s k l x x' := by
  have hk := lt_of_status hx
  have same (h : status s' k = status s k) : ∃ x', status s' k = some x' ∧ Fate cfg s k l x x' :=
    ⟨x, h.trans hx, .same l x⟩
  -- A thread outside `resume` that does not touch the cell.
  have other (hi : Sys.idle (s.threads l.tid) = true) (hcell : s'.lingers[k]? = s.lingers[k]?) :
      ∃ x', status s' k = some x' ∧ Fate cfg s k l x x' := by
    refine same (status_of_other hn hl hs hcell fun c hc => ?_)
    rw [((hg.threads _).idle hi).2.2.1] at hc
    cases hc
  -- A cell that nobody borrows is overwritten.
  have overwrite (ls : List (Linger V E)) (hls : ls = s.lingers) (l' : Linger V E) :
      (ls.set k l')[k]? = some l' := by rw [hls]; exact List.getElem?_set_self hk
  cases step_change hn hs with
  | returns _ t j idle label =>
    refine other ?_ rfl
    rcases label with ⟨_, _, rfl⟩ | ⟨_, rfl⟩ <;> exact idle
  | caught _ t tid idle pre => exact other (tid ▸ idle) rfl
  | full t us env p idle => exact other idle rfl
  | sets t env group p idle => exact other idle (List.getElem?_append_left hk)
  | launches t us env group p _ idle shared _ _ begin =>
    exact other idle ((begin_lingers_ne begin (Nat.ne_of_gt hk)).trans
      (List.getElem?_append_left hk))
  | resumes t j us env c trace _ idle shared cell begin =>
    by_cases hj : j = k
    · subst hj
      rw [status_idle cell] at hx
      cases hx
      exact fate_begin idle cell begin
    · exact other idle (begin_lingers_ne begin hj)
  | advances t env c pc _ call base early handlers adv => exact status_main hn hg hl call hs hx
  | leaves t env c _ call base handlers left => exact status_main hn hg hl call hs hx
  | acts t a th step =>
    by_cases hj : ∃ c, (s.threads t).call = some c ∧ c.linger = k
    · obtain ⟨c, call, rfl⟩ := hj
      rw [hl.running call] at hx
      cases hx
      obtain ⟨c', call'⟩ : ∃ c', th.call = some c' := by
        have := (Thread.step_kept step).call
        rw [call, Option.map_some, Option.map_eq_some_iff] at this
        obtain ⟨c', hc', -⟩ := this
        exact ⟨c', hc'⟩
      have hgo : status ({ s with dirty := s.dirtyAfter (s.threads t) th }.setThread t th)
        c.linger =
          some (.running t th c') := hl.goes call rfl call'
      exact ⟨_, hgo, .acts t a c c' th (hg.threads t) call rfl step call'⟩
    · exact same (status_of_other hn hl hs rfl fun c hc hck => hj ⟨c, hc, hck⟩)
  | drops _ t j c trace renew new idle cell label =>
    by_cases hj : j = k
    · subst hj
      rw [status_idle cell] at hx
      cases hx
      have hcell := overwrite _ (lingers_dropContinuation c renew) new
      rcases label with ⟨_, rfl, _, rfl⟩ | ⟨_, rfl, _, rfl⟩
      · exact ⟨_, status_over hcell (.inr (.inr rfl)), .drops _ c trace⟩
      · exact ⟨_, status_over hcell (.inl ⟨_, rfl⟩), .cancels _ c trace _⟩
    · refine other ?_ ((List.getElem?_set_ne hj).trans ?_)
      · rcases label with ⟨_, rfl, _⟩ | ⟨_, rfl, _⟩ <;> exact idle
      · rw [lingers_dropContinuation]
  | forgets t j env l idle cell done =>
    by_cases hj : j = k
    · subst hj
      have hover : status s j = some (.over l) := by
        refine status_over cell ?_
        rcases done with hd | ⟨v, hd⟩
        · exact .inr (.inl hd)
        · exact .inl ⟨v, hd⟩
      rw [hover] at hx
      cases hx
      exact ⟨_, status_over (overwrite _ rfl _) (.inr (.inr rfl)), .forgets _ l⟩
    · exact other idle (List.getElem?_set_ne hj)
  | stays => exact same rfl
  | exits t p idle => exact other idle rfl

/-! ## Launches -/

theorem begin_length {cont : Continuation V E} {trace : List (Event V E)} {us : UInt64}
    {launching : Bool} (h : Begin s t k cont trace us launching env s') :
    s'.lingers.length = s.lingers.length := by
  cases h with
  | missing => exact (congrArg List.length (lingers_abandon ..)).trans List.length_set
  | enters => exact List.length_set
  | fails =>
    refine (congrArg List.length (lingers_abandon ..)).trans (List.length_set.trans ?_)
    rw [lingers_freeStack]

theorem mainStep_length (hn : cfg.notls = false) (hg : Good False False s)
    (hs : Sys.mainStep cfg s t env = some s') : s'.lingers.length = s.lingers.length := by
  obtain ⟨c, pc, hcall, hbase, -, ⟨hadv, -⟩ | ⟨rfl, hleft⟩⟩ := mainStep_cases hs
  · cases hadv with
    | goes s₁ th c' shared => exact congrArg List.length shared.lingers
    | fails s₁ th c' ret shared => rw [lingers_failResume, List.length_set, shared.lingers]
  · cases leaveStep_left hn hg hcall hbase hleft with
    | fails error => rw [lingers_failResume, List.length_set]
    | paused => exact List.length_set
    | settled =>
      refine List.length_set.trans ?_
      rw [lingers_dropContinuation, lingers_freeStack]

theorem length_le_of_status (hl : Linked s) (hx : status s k = none) : s.lingers.length ≤ k := by
  by_contra hk
  obtain ⟨⟨cell, trace⟩, hcell⟩ : ∃ l, s.lingers[k]? = some l :=
    ⟨_, List.getElem?_eq_getElem (Nat.not_le.mp hk)⟩
  rw [status, hcell] at hx
  cases cell with
  | resuming t g =>
    -- The thread is in the call.
    have ho := (hl t k g).mpr (by rw [owner, hcell]; rfl)
    rw [owned, Option.map_eq_some_iff] at ho
    obtain ⟨c, hc, -⟩ := ho
    dsimp only at hx
    rw [hc] at hx
    cases hx
  | _ => cases hx

/-- Only `launch` makes functions. -/
theorem status_born {l : Label V E} (hn : cfg.notls = false) (hg : Good False False s)
    (hl : Linked s) (hs : Sys.step cfg s l = some s') (hx : status s k = none)
    (hx' : status s' k = some x) :
    Born s k x := by
  have hk := length_le_of_status hl hx
  have hk' := lt_of_status hx'
  have absurd_length (h : s'.lingers.length = s.lingers.length) : Born s k x :=
    absurd (h ▸ hk') (Nat.not_lt.mpr hk)
  cases step_change hn hs with
  | sets t env group p idle =>
    have hlen : ((s.launched group p).setThread t
        { s.threads t with ret := some .ok }).lingers.length =
        s.lingers.length + 1 := List.length_append
    rw [hlen] at hk'
    obtain rfl : k = s.lingers.length := Nat.le_antisymm (Nat.lt_succ_iff.mp hk') hk
    have hcell : ((s.launched group p).setThread t
        { s.threads t with ret := some .ok }).lingers[s.lingers.length]? =
        some ⟨.continuation ⟨.function, .default, group,
          (alloc (fun _ => some Vars.fresh) s.localstores).1⟩, []⟩ := List.getElem?_concat_length
    rw [status_idle hcell] at hx'
    cases hx'
    exact .idle _ rfl rfl
  | launches t us env group p _ idle shared _ _ begin =>
    have hlen : (s.launched group p).lingers.length = s.lingers.length + 1 := List.length_append
    rw [begin_length begin, hlen] at hk'
    obtain rfl : k = s.lingers.length := Nat.le_antisymm (Nat.lt_succ_iff.mp hk') hk
    have hlt : s.lingers.length < (s.launched group p).lingers.length := by
      rw [hlen]; exact Nat.lt_succ_self _
    have dropped {s₁ : Sys V E} {ls : List (Linger V E)} (h' : status s₁ s.lingers.length = some x)
        (h : s₁.lingers = ls.set s.lingers.length ⟨.dropped, []⟩)
        (hls : ls = (s.launched group p).lingers) :
        Born s s.lingers.length x := by
      rw [status_over (h ▸ hls ▸ List.getElem?_set_self hlt) (.inr (.inr rfl))] at h'
      cases h'
      exact .dropped
    cases begin with
    | missing tls => exact dropped hx' (lingers_abandon ..) rfl
    | enters tcb tls installs =>
      rw [status_entered hlt rfl] at hx'
      cases hx'
      exact .running t us _ tcb rfl rfl
    | fails tcb tls installs =>
      exact dropped hx' (lingers_abandon ..) (lingers_freeStack _)
  | returns => exact absurd_length rfl
  | caught => exact absurd_length rfl
  | full => exact absurd_length rfl
  | resumes t j us env c trace _ idle shared cell begin => exact absurd_length (begin_length begin)
  | advances => exact absurd_length (mainStep_length hn hg hs)
  | leaves => exact absurd_length (mainStep_length hn hg hs)
  | acts => exact absurd_length rfl
  | drops _ t j c trace renew =>
    exact absurd_length (List.length_set.trans
      (congrArg List.length (lingers_dropContinuation c renew)))
  | forgets => exact absurd_length List.length_set
  | stays => exact absurd_length rfl
  | exits => exact absurd_length rfl

/-! ## Runs -/

/-- What every `launch` gives a function and every step keeps holds of every
function in every run whose steps meet `C`. -/
theorem status_reachable {C : Sys V E → Label V E → Prop} {I : Lid → Status V E → Prop}
    (hn : cfg.notls = false) (hborn : ∀ s k x, Born s k x → I k x)
    (hfate : ∀ s l k x x', C s l → Good False False s → Linked s → Fate cfg s k l x x' →
      I k x → I k x')
    (hr : ((process cfg).only C).Reachable s) (hx : status s k = some x) : I k x := by
  have key : (Good False False s ∧ Linked s) ∧ ∀ k x, status s k = some x → I k x := by
    refine LTS.Inductive.reachable (I := fun s => (Good False False s ∧ Linked s) ∧
      ∀ k x, status s k = some x → I k x) ⟨?_, ?_⟩ s hr
    · rintro s ⟨masks, rfl⟩
      refine ⟨⟨good_init False.elim cfg masks, linked_init cfg masks⟩, fun k x hx => ?_⟩
      cases hx
    · rintro s l s' ⟨⟨hg, hl⟩, h⟩ ⟨hs, hC⟩
      refine ⟨⟨good_step hn hg False.elim False.elim hs, linked_step hn hg hl hs⟩, fun k x hx => ?_⟩
      cases hx₀ : status s k with
      | none => exact hborn s k x (status_born hn hg hl hs hx₀ hx)
      | some x₀ =>
        obtain ⟨x', hx', hf⟩ := status_step hn hg hl hs hx₀
        rw [hx] at hx'
        cases hx'
        exact hfate s l k x₀ x hC hg hl hf (h k x₀ hx₀)
  exact key.2 k x hx

end

end Inger.L3
