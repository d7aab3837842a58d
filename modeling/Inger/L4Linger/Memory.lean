import Inger.L4Linger.Coroutines

/-!
# What is on the functions' stacks

A context names a stack and a place in the code; what a function has got to is in
the frames on that stack. `Mem` is a process with the contents of its stacks. A
step writes to one of them at most (`writes`): a thread to the stack it runs on,
where besides the function's frames there are those of `schedule`, of `preempt` and
of the kernel's signal delivery; `resume` writes the first context on a stack from
the pool, and the mask of the one it is about to jump to. A function's own frames
change as its body says (`Effect`). Bodies are any transition systems whose labels
are the function's own events; they do not write to each other's stacks.

Each stack is in one place (`StacksOk`), so that only steps about a function write
to its stack (`writes_touched`). Of every run of the default build, with or without
debug assertions and overflow checks and whatever fails, this gives

* `paused_isolated`: a paused function is left alone, with all that is on its stack;
* `history_ordered`: what a function has done, over all slices and threads, is a
  path of its body from the entry, which has led to the frames on its stack; it is
  entered once, never takes a step back, and has a result only at the end.
-/
namespace Inger.L4.Memory

open L1.Reusable L1.Signals L2 L3 Tokens

variable {V E σ ρ : Type}

/-- A stack: the frames of the function itself, and all else. -/
structure Contents (σ ρ : Type) where
  frames : σ
  rest : ρ
  deriving DecidableEq

/-- A process with its stacks. -/
structure Mem (V E σ ρ : Type) where
  sys : Sys V E
  stack : Sid → Contents σ ρ

/-- The stack a step writes to.
mirrors src/linger.rs:291-304,355,391-468 -/
def writes (s : Sys V E) : Label V E → Option Sid
  | .act t _ =>
    match (s.threads t).base with
    | .boot => (s.threads t).vars.task.stack
    | .body _ => (s.threads t).vars.task.stack
    | .gone => (s.threads t).vars.task.stack
    | _ => none
  | .main t _ =>
    match (s.threads t).base, (s.threads t).call with
    | .main .stack, some c => if c.task.errno.isSome then none else some (alloc id s.stackPool).1
    | .main .switch, some c => c.task.stack
    | _, _ => none
  | _ => none

/-- What a step makes of the function's frames on the stack it writes to. -/
def Effect (bodies : Lid → LTS σ (Event V E)) (s : Sys V E) (y y' : σ) : Label V E → Prop
  | .act t a =>
    match (s.threads t).call, (s.threads t).event a with
    | some c, some .enter => (bodies c.linger).init y'
    | some c, some e => (bodies c.linger).step y e y'
    | _, _ => y' = y
  -- A stack from the pool may hold anything.
  | .main t _ => (s.threads t).base = .main .switch → y' = y
  | _ => True

structure Step (cfg : Cfg V) (bodies : Lid → LTS σ (Event V E)) (m : Mem V E σ ρ) (l : Label V E)
    (m' : Mem V E σ ρ) : Prop where
  sys : Sys.step cfg m.sys l = some m'.sys
  frame : ∀ st, writes m.sys l ≠ some st → m'.stack st = m.stack st
  effect : ∀ st, writes m.sys l = some st →
    Effect bodies m.sys (m.stack st).frames (m'.stack st).frames l

/-- The stacks may hold anything at first. -/
def machine (cfg : Cfg V) (bodies : Lid → LTS σ (Event V E)) : LTS (Mem V E σ ρ) (Label V E) where
  init m := ∃ masks, m.sys = Sys.initial cfg masks
  step := Step cfg bodies

/-- The stacks of a function. -/
def ownStacks : Status V E → Multiset Sid
  | .idle c _ => c.stateful.stackBag
  | .running _ th _ => callStacks th
  | .over _ => 0

section
variable {cfg : Cfg V} {bodies : Lid → LTS σ (Event V E)} {m m' : Mem V E σ ρ}
  {ls : List (Label V E)}

theorem sys_run (h : (machine cfg bodies).Run m ls m') : (process cfg).Run m.sys ls m'.sys := by
  induction h with
  | nil => exact .nil _
  | cons hst _ ih => exact .cons hst.sys ih

theorem sys_reachable (h : (machine cfg bodies).Reachable m) : (process cfg).Reachable m.sys := by
  obtain ⟨m₀, ls, ⟨masks, hm₀⟩, hrun⟩ := h
  exact ⟨m₀.sys, ls, ⟨masks, hm₀⟩, sys_run hrun⟩

end

/-! ## Bodies that are programs -/

/-- The frames after a step, with bodies that have one entry and at most one state
after each event. -/
def after (entry : Lid → σ) (next : Lid → σ → Event V E → Option σ) (s : Sys V E) (y : σ) :
    Label V E → Option σ
  | .act t a =>
    match (s.threads t).call, (s.threads t).event a with
    | some c, some .enter => some (entry c.linger)
    | some c, some e => next c.linger y e
    | _, _ => some y
  | _ => some y

def step (cfg : Cfg V) (entry : Lid → σ) (next : Lid → σ → Event V E → Option σ) (m : Mem V E σ ρ)
    (l : Label V E) : Option (Mem V E σ ρ) :=
  (Sys.step cfg m.sys l).bind fun s' =>
    match writes m.sys l with
    | none => some ⟨s', m.stack⟩
    | some st => (after entry next m.sys (m.stack st).frames l).map fun y =>
        ⟨s', Function.update m.stack st ⟨y, (m.stack st).rest⟩⟩

section
variable {cfg : Cfg V} {entry : Lid → σ} {next : Lid → σ → Event V E → Option σ}
  {m m' : Mem V E σ ρ} {l : Label V E} {ls : List (Label V E)}

theorem after_effect {s : Sys V E} {y y' : σ} (h : after entry next s y l = some y') :
    Effect (fun k => .ofFn (· = entry k) (next k)) s y y' l := by
  cases l with
  | act t a =>
    simp only [after, Effect] at h ⊢
    split at h
    · cases h; rfl
    · exact h
    · cases h; rfl
  | main t env => cases h; exact fun _ => rfl
  | _ => trivial

theorem step_sound (h : step cfg entry next m l = some m') :
    Step cfg (fun k => .ofFn (· = entry k) (next k)) m l m' := by
  simp only [step, Option.bind_eq_some_iff] at h
  obtain ⟨s', hs, h⟩ := h
  split at h
  · rename_i hw
    cases h
    exact ⟨hs, fun _ _ => rfl, fun st hst => by rw [hw] at hst; cases hst⟩
  · rename_i st hw
    rw [Option.map_eq_some_iff] at h
    obtain ⟨y, hy, rfl⟩ := h
    refine ⟨hs, fun st' hne => Function.update_of_ne ?_ _ _, fun st' hst => ?_⟩
    · rintro rfl
      exact hne hw
    · rw [hw] at hst
      cases hst
      simp only [Function.update_self]
      exact after_effect hy

theorem run_sound {init : Mem V E σ ρ → Prop}
    (h : (LTS.ofFn init (step cfg entry next)).Run m ls m') :
    (machine cfg fun k => .ofFn (· = entry k) (next k)).Run m ls m' := by
  induction h with
  | nil => exact .nil _
  | cons hst _ ih => exact .cons (step_sound hst) ih

end

/-- A body that does the events of a list one after the other. -/
def follow (es : List (Event Bool Bool)) (y : Nat) (e : Event Bool Bool) : Option Nat :=
  if es[y]? = some e then some (y + 1) else none

/-- The first function works once, the second one three times. -/
def programs : Lid → List (Event Bool Bool)
  | 0 => [.work, .done (.ok true)]
  | _ => [.work, .work, .work, .done (.ok true)]

def scripts (k : Lid) : LTS Nat (Event Bool Bool) := .ofFn (· = 0) (follow (programs k))

/-- Two lists of steps of functions that follow their scripts. -/
theorem scripts_of_exec (ls ls' : List (Label Bool Bool))
    (p : Mem Bool Bool Nat Unit → Mem Bool Bool Nat Unit → Bool)
    (h : ((LTS.exec (step Cfg.small (fun _ => 0) fun k => follow (programs k))
      ⟨Sys.initial Cfg.small fun _ => ∅, fun _ => ⟨7, ()⟩⟩ ls).bind fun m =>
        (LTS.exec (step Cfg.small (fun _ => 0) fun k => follow (programs k)) m ls').map (p m)) =
          some true) :
    ∃ m m' : Mem Bool Bool Nat Unit, (machine Cfg.small scripts).Reachable m ∧
      (machine Cfg.small scripts).Run m ls' m' ∧ p m m' = true := by
  simp only [Option.bind_eq_some_iff, Option.map_eq_some_iff] at h
  obtain ⟨m, hm, m', hm', hp⟩ := h
  have run {m m' : Mem Bool Bool Nat Unit} {ls : List (Label Bool Bool)}
      (h : LTS.exec (step Cfg.small (fun _ => 0) fun k => follow (programs k)) m ls = some m') :
      (machine Cfg.small scripts).Run m ls m' := by
    have hrun : (LTS.ofFn (fun _ => True)
        (step Cfg.small (fun _ => 0) fun k => follow (programs k))).Run m ls m' :=
      LTS.run_of_exec h
    exact run_sound hrun
  exact ⟨m, m', ⟨_, ls, ⟨_, rfl⟩, run hm⟩, run hm', hp⟩

/-! ## Whose stack is written -/

section
variable {cfg : Cfg V} {ok tidy : Prop} {s s' : Sys V E} {t : Tid} {k : Lid} {x x' : Status V E}
  {st : Sid} {l : Label V E}

theorem stackBag_of_status (hx : status s k = some x) :
    ∃ y, s.lingers[k]? = some y ∧ stackBag s.threads y = ownStacks x := by
  unfold status at hx
  split at hx
  · rename_i hk
    cases hx
    exact ⟨_, hk, rfl⟩
  · rename_i hk
    rw [Option.map_eq_some_iff] at hx
    obtain ⟨c, -, rfl⟩ := hx
    exact ⟨_, hk, rfl⟩
  · rename_i y hcont hres hk
    cases hx
    refine ⟨y, hk, ?_⟩
    obtain ⟨cell, tr⟩ := y
    cases cell with
    | continuation c => exact absurd rfl (hcont c tr)
    | resuming u g => exact absurd rfl (hres u g tr)
    | _ => rfl
  · cases hx

/-- A stack from the pool is nobody's. -/
theorem ownStacks_ne_alloc (h : StacksOk s) (hx : status s k = some x) (hst : st ∈ ownStacks x) :
    st ≠ (alloc id s.stackPool).1 := by
  obtain ⟨y, hk, hbag⟩ := stackBag_of_status hx
  rw [← hbag] at hst
  rintro rfl
  rcases alloc_fst id s.stackPool with hfree | hnew
  · exact held_not_free h.nodup hk hst (Multiset.mem_coe.mpr hfree)
  · have hmade : (alloc id s.stackPool).1 ∈ produced some s.stackPool.calls := by
      rw [← show _ = produced some s.stackPool.calls from h]
      exact Multiset.mem_add.mpr (.inl (mem_held.mpr ⟨y, List.mem_of_getElem? hk, hst⟩))
    obtain ⟨i, hi, he⟩ := mem_produced.mp hmade
    rw [hnew, Option.some.injEq] at he
    exact absurd he (Nat.ne_of_lt hi)

/-- No two functions have the same stack. -/
theorem ownStacks_unique (h : StacksOk s) {j : Lid} (hx : status s k = some x)
    (hx' : status s j = some x') (hst : st ∈ ownStacks x) (hst' : st ∈ ownStacks x') : j = k := by
  obtain ⟨y, hk, hbag⟩ := stackBag_of_status hx
  obtain ⟨y', hj, hbag'⟩ := stackBag_of_status hx'
  exact held_unique h.nodup hj hk (hbag' ▸ hst') (hbag ▸ hst)

theorem mem_stackBag {y : Task} : st ∈ y.stackBag ↔ y.stack = some st := by
  simp [Task.stackBag, eq_comm]

/-- **Only a step about a function writes to its stack.** -/
theorem writes_touched (hg : Good ok tidy s) (hl : Linked s) (h : StacksOk s)
    (hx : status s k = some x) (hst : st ∈ ownStacks x) (hw : writes s l = some st) :
    touched s l = some k := by
  -- The step is one of a call, and the stack is the call's.
  have inCall {t : Tid} {c : Call V E} (hc : (s.threads t).call = some c)
      (hmem : c.task.stack = some st ∨ (s.threads t).vars.task.stack = some st) :
      (s.threads t).call.map Call.linger = some k := by
    have hin : st ∈ ownStacks (.running t (s.threads t) c : Status V E) := by
      simp only [ownStacks, callStacks, hc, Multiset.mem_add, mem_stackBag]
      exact hmem
    rw [hc, Option.map_some, ownStacks_unique h hx (hl.running hc) hst hin]
  have call {t : Tid} (hb : (s.threads t).base = .boot ∨ (∃ b, (s.threads t).base = .body b) ∨
      (s.threads t).base = .gone) : ∃ c, (s.threads t).call = some c := by
    have hcore := hg.threads t
    cases hc : (s.threads t).call with
    | some c => exact ⟨c, rfl⟩
    | none => rcases hb with hb | ⟨b, hb⟩ | hb <;> simp only [Core, hb, hc] at hcore
  cases l with
  | act t a =>
    simp only [writes] at hw
    split at hw
    · rename_i hb
      obtain ⟨c, hc⟩ := call (.inl hb)
      exact inCall hc (.inr hw)
    · rename_i b hb
      obtain ⟨c, hc⟩ := call (.inr (.inl ⟨b, hb⟩))
      exact inCall hc (.inr hw)
    · rename_i hb
      obtain ⟨c, hc⟩ := call (.inr (.inr hb))
      exact inCall hc (.inr hw)
    · cases hw
  | main t env =>
    simp only [writes] at hw
    split at hw
    · split at hw <;> cases hw
      exact absurd rfl (ownStacks_ne_alloc h hx hst)
    · rename_i c _ hc
      exact inCall hc (.inl hw)
    · cases hw
  | _ => cases hw

/-! ## Isolation -/

end

/-- **A paused function is left alone**: through every run in which no call is
given its `Linger`, what is saved of it and what is on its stack stay as they are. -/
theorem paused_isolated (cfg : Cfg V) (hn : cfg.notls = false) (bodies : Lid → LTS σ (Event V E))
    (m m' : Mem V E σ ρ) (ls : List (Label V E)) (hr : (machine cfg bodies).Reachable m)
    (hrun : (machine cfg bodies).Run m ls m') (k : Lid) (c : Continuation V E)
    (tr : List (Event V E)) (hk : m.sys.lingers[k]? = some ⟨.continuation c, tr⟩)
    (hls : ∀ l ∈ ls, l.subject ≠ some k) :
    m'.sys.lingers[k]? = some ⟨.continuation c, tr⟩ ∧
      ∀ st, c.stateful.stack = some st → m'.stack st = m.stack st := by
  induction hrun with
  | nil => exact ⟨hk, fun _ _ => rfl⟩
  | @cons m m₁ m' l ls hst _ ih =>
    obtain ⟨hg, hl, hS⟩ := stacksOk_reachable hn (sys_reachable hr)
    rw [List.forall_mem_cons] at hls
    have hx := status_idle hk
    obtain ⟨hk', hstack⟩ := ih (hr.step hst)
      (lingers_of_idle (paused_step hn hg hl hst.sys hx hls.1)) hls.2
    refine ⟨hk', fun st hc => (hstack st hc).trans (hst.frame st fun hw => hls.1 ?_)⟩
    exact touched_idle hl hx (writes_touched hg hl hS hx (mem_stackBag.mpr hc) hw)

/-- Thread `0`'s function has worked once and is paused; thread `1` launches
another, which works twice. -/
theorem paused_isolated_runsAnother : ∃ (m m' : Mem Bool Bool Nat Unit) (c : Continuation Bool Bool)
    (tr : List (Event Bool Bool)) (st : Sid),
    m.sys.lingers[0]? = some ⟨.continuation c, tr⟩ ∧ c.stateful.stack = some st ∧
      (m.stack st).frames = 1 ∧
    (∃ st', (m.stack st').frames = 7 ∧ (m'.stack st').frames = 2) ∧
    m'.sys.lingers[0]? = some ⟨.continuation c, tr⟩ ∧ m'.stack st = m.stack st := by
  obtain ⟨m, m', hr, hrun, hp⟩ := scripts_of_exec
    (launchOn 0 ++ .act 0 (.fn (.work 7)) :: preempted 0 .Alarm 10000)
    (launchOn 1 ++ [.act 1 (.fn (.work 7)), .act 1 (.fn (.work 7))])
    (fun m m' => m.sys.lingers[0]?.any (fun l : Linger Bool Bool =>
        l.cell.task.any fun k : Task => decide (k.stack = some 1)) &&
      decide ((m.stack 1).frames = 1 ∧ (m.stack 0).frames = 7 ∧ (m'.stack 0).frames = 2))
    (by decide +kernel)
  simp only [Bool.and_eq_true, decide_eq_true_eq, Option.any_eq_true] at hp
  obtain ⟨⟨⟨cell, tr⟩, hl, k, hk, hstack⟩, hone, hseven, htwo⟩ := hp
  obtain ⟨c, rfl, rfl⟩ := Cell.eq_continuation hk
  obtain ⟨hl', hst⟩ := paused_isolated Cfg.small rfl scripts m m' _ hr hrun 0 c tr hl (by decide)
  exact ⟨m, m', c, tr, 1, hl, hstack, hone, ⟨0, hseven, htwo⟩, hl', hst 1 hstack⟩

/-! ## The order of a function's events -/

/-- Not entered; or entered, then working, calling and pausing; and then done. -/
inductive Ordered : List (Event V E) → Prop
  | nil : Ordered []
  | runs (mid : List (Event V E)) (h : ∀ e ∈ mid, e = .work ∨ e = .call ∨ e = .pause) :
      Ordered (.enter :: mid)
  | ended (mid : List (Event V E)) (r : Except E V)
      (h : ∀ e ∈ mid, e = .work ∨ e = .call ∨ e = .pause) :
      Ordered (.enter :: mid ++ [.done r])

theorem entered_cons_enter (h : List (Event V E)) : entered (.enter :: h) ≠ 0 := by
  simp [entered]

theorem Ordered.snoc {h : List (Event V E)} {e : Event V E} (ho : Ordered h) (hf : Follows h e) :
    Ordered (h ++ [e]) := by
  cases ho with
  | nil =>
    cases e with
    | enter => exact .runs [] (List.forall_mem_nil _)
    | back y => exact hf.elim
    | finish => exact hf.elim
    | cancel => exact hf.elim
    | _ => exact absurd hf.1 Nat.zero_ne_one
  | runs mid hmid =>
    have more (he : e = .work ∨ e = .call ∨ e = .pause) : Ordered (.enter :: mid ++ [e]) := by
      refine .runs (mid ++ [e]) fun e' he' => ?_
      rcases List.mem_append.mp he' with he' | he'
      · exact hmid e' he'
      · rw [List.mem_singleton.mp he']; exact he
    cases e with
    | enter => exact absurd hf (entered_cons_enter mid)
    | work => exact more (.inl rfl)
    | call => exact more (.inr (.inl rfl))
    | pause => exact more (.inr (.inr rfl))
    | done r => exact .ended mid r hmid
    | back y => exact hf.elim
    | finish => exact hf.elim
    | cancel => exact hf.elim
  | ended mid r hmid =>
    have hres : results (.enter :: mid ++ [.done r]) = results (.enter :: mid) ++ [r] :=
      results_snoc _ _
    have hne : results (.enter :: mid ++ [.done r]) ≠ [] := by rw [hres]; simp
    cases e with
    | enter => exact absurd hf (entered_cons_enter _)
    | back y => exact hf.elim
    | finish => exact hf.elim
    | cancel => exact hf.elim
    | _ => exact absurd hf.2 hne

/-- A history with a result ends with it. -/
theorem Ordered.ends {h : List (Event V E)} {r : Except E V} (ho : Ordered h)
    (hr : results h = [r]) :
    ∃ h', h = h' ++ [.done r] := by
  have none (mid : List (Event V E)) (hmid : ∀ e ∈ mid, e = .work ∨ e = .call ∨ e = .pause) :
      results (.enter :: mid) = [] := by
    simp only [results, List.filterMap_cons, List.filterMap_eq_nil_iff]
    intro e he
    rcases hmid e he with rfl | rfl | rfl <;> rfl
  cases ho with
  | nil => cases hr
  | runs mid hmid => rw [none mid hmid] at hr; cases hr
  | ended mid r' hmid =>
    rw [results_snoc, none mid hmid] at hr
    cases hr
    exact ⟨_, rfl⟩

theorem Ordered.eq_nil {h : List (Event V E)} (ho : Ordered h) (he : entered h = 0) : h = [] := by
  cases ho with
  | nil => rfl
  | runs mid => exact absurd he (entered_cons_enter mid)
  | ended mid r => exact absurd he (entered_cons_enter _)

/-! ## Histories are paths of bodies -/

/-- The function's own events so far are a path of its body from the entry, and it
has led to the frames on its stack. -/
def Performed (B : LTS σ (Event V E)) (stack : Sid → Contents σ ρ) (x : Status V E) : Prop :=
  own x.trace = [] ∨ ∃ y₀ w y, B.init y₀ ∧ B.Run y₀ w y ∧ own x.trace = .enter :: w ∧
    ∀ st ∈ ownStacks x, (stack st).frames = y

/-- A function that has returned, or panicked, has a result. -/
def Concluded : Status V E → Prop
  | .over ⟨.completion v, tr⟩ => .cancel ∈ tr ∨ ∃ h, own tr = h ++ [.done (.ok v)]
  | .over ⟨.poison, tr⟩ => ∃ h e, own tr = h ++ [.done (.error e)]
  | _ => True

section
variable {cfg : Cfg V} {bodies : Lid → LTS σ (Event V E)} {m m' : Mem V E σ ρ} {s s' : Sys V E}
  {t : Tid} {k : Lid} {x x' : Status V E} {l : Label V E} {B : LTS σ (Event V E)}
  {stack stack' : Sid → Contents σ ρ}

theorem Performed.kept (h : Performed B stack x) (hown : own x'.trace = own x.trace)
    (hst : own x.trace = [] ∨
      ∀ st ∈ ownStacks x', st ∈ ownStacks x ∧ (stack' st).frames = (stack st).frames) :
    Performed B stack' x' := by
  rcases h with h | ⟨y₀, w, y, hi, hrun, hw, hframes⟩
  · exact .inl (hown.trans h)
  · rcases hst with hst | hst
    · exact .inl (hown.trans hst)
    · refine .inr ⟨y₀, w, y, hi, hrun, hown.trans hw, fun st hmem => ?_⟩
      rw [(hst st hmem).2]
      exact hframes st (hst st hmem).1

/-- A function that `resume` has not given a first context has not been entered. -/
theorem not_entered {ok tidy : Prop} {th : Thread V E} {c : Call V E} {pc : MainPc}
    (hcore : Core ok tidy t th)
    (hb : th.base = .main pc) (early : pc ≠ .switch ∧ pc ≠ .leave) (hc : th.call = some c)
    (herr : c.task.errno = none) : entered c.trace = 0 := by
  simp only [Core, hb, hc] at hcore
  obtain ⟨htr, htask⟩ : Traced false c.functional c.trace ∧
      TaskOk c.linger c.group c.functional th.vars.errnoLocation c.task := by
    cases pc with
    | setup => exact hcore.2.2.2.2
    | signal => exact hcore.2.2.2.2.2
    | stack => exact hcore.2.2.2.2.2.2
    | switch => exact absurd rfl early.1
    | leave => exact absurd rfl early.2
  cases hck : c.task with
  | mk e ck y =>
    rw [hck] at htask herr
    cases htask with
    | fresh _ fn => exact htr.entered.trans (by rw [fn]; rfl)
    | paused => cases herr

/-- Outside its own stack, a function does nothing and gets no stack, unless it has
not started. -/
theorem fate_stacks (hg : Good False False s) (hf : Fate cfg s k l x x') (hx : status s k = some x)
    (hl : ∀ t a, l ≠ .act t a) : own x'.trace = own x.trace ∧
      (entered x.trace = 0 ∨ ∀ st ∈ ownStacks x', st ∈ ownStacks x) := by
  have hcall {t : Tid} {th : Thread V E} {c : Call V E} (hx : status s k = some (.running t th c)) :
      th.call = some c := by
    obtain ⟨rfl, hc⟩ := running_of_status hx
    exact hc
  cases hf with
  | same => exact ⟨rfl, .inr fun _ h => h⟩
  | begins t us env c tr tcb idle tls =>
    refine ⟨rfl, .inr fun st hst => ?_⟩
    have hrest := ((hg.lingers k _ (lingers_of_idle hx)).2.2 tcb tls).1
    simpa [ownStacks, callStacks, beginThread, beginCall, hrest.task, Task.default, mem_stackBag,
      Task.stack] using hst
  | forfeits => exact ⟨rfl, .inr fun _ h => h⟩
  | prepares t env c c' th pc base early call same us task base' handlers pending installed =>
    refine ⟨congrArg own same.trace, ?_⟩
    rcases task with task | ⟨herr, -⟩
    · refine .inr fun st hst => ?_
      simpa only [ownStacks, callStacks, call, hcall hx, Task.stackBag, installed, task] using hst
    · exact .inl (not_entered (hg.threads t) base early (hcall hx) herr)
  | sticks t env c th pc why base early base' call installed =>
    refine ⟨rfl, .inr fun st hst => ?_⟩
    simpa only [ownStacks, callStacks, call, hcall hx, Task.stackBag, installed] using hst
  | starts t env c st m y base handlers task =>
    refine ⟨rfl, .inr fun st' hst => ?_⟩
    have hjump : st = st' := by
      simpa [ownStacks, callStacks, mem_stackBag, Task.stack, Vars.setErrno] using hst
    simp [ownStacks, callStacks, hcall hx, mem_stackBag, Task.stack, task, hjump]
  | resumes t env c e st m b hs y o base call task =>
    refine ⟨rfl, .inr fun st' hst => ?_⟩
    have hjump : st = st' := by
      simpa [ownStacks, callStacks, mem_stackBag, Task.stack, Vars.setErrno] using hst
    simp [ownStacks, callStacks, hcall hx, mem_stackBag, Task.stack, task, hjump]
  | acts t a => exact absurd rfl (hl t a)
  | fails t env c cont tls task =>
    refine ⟨rfl, .inr fun st hst => ?_⟩
    simp only [ownStacks, callStacks, hcall hx, Multiset.mem_add, mem_stackBag] at hst ⊢
    rcases task with task | task
    · exact .inl (task ▸ hst)
    · simp [Task.stack, task] at hst
  | dropped => exact ⟨rfl, .inr fun _ h => (Multiset.notMem_zero _ h).elim⟩
  | pauses t env c e st m b hs y base task =>
    refine ⟨own_snoc_not rfl, .inr fun st' hst => ?_⟩
    simp only [ownStacks, callStacks, hcall hx, Multiset.mem_add, mem_stackBag, task] at hst ⊢
    exact .inr hst
  | settles => exact ⟨rfl, .inr fun _ h => (Multiset.notMem_zero _ h).elim⟩
  | drops => exact ⟨rfl, .inr fun _ h => (Multiset.notMem_zero _ h).elim⟩
  | cancels => exact ⟨own_snoc_not rfl, .inr fun _ h => (Multiset.notMem_zero _ h).elim⟩
  | forgets => exact ⟨rfl, .inr fun _ h => h⟩

/-- Off the function's stack its frames stay as they are. -/
theorem frames_kept (hg : Good False False m.sys) (hl : Linked m.sys) (hS : StacksOk m.sys)
    (hst : Step cfg bodies m l m') (hx : status m.sys k = some x)
    (ht : touched m.sys l ≠ some k ∨ ∀ t a, l ≠ .act t a) :
    ∀ st ∈ ownStacks x, (m'.stack st).frames = (m.stack st).frames := by
  intro st hmem
  by_cases hw : writes m.sys l = some st
  · have htouched := writes_touched hg hl hS hx hmem hw
    have heffect := hst.effect st hw
    cases l with
    | act t a => exact absurd rfl ((ht.resolve_left (absurd htouched ·)) t a)
    | main t env =>
      refine heffect ?_
      simp only [writes] at hw
      split at hw
      · split at hw <;> cases hw
        exact absurd rfl (ownStacks_ne_alloc hS hx hmem)
      · assumption
      · cases hw
    | _ => cases hw
  · rw [hst.frame st hw]

/-- The stack a function runs on is the only one it has, and the one that is
written. -/
theorem event_writes {a : Act V E} {e : Event V E} {c : Call V E} (hg : Good False False s)
    (hc : (s.threads t).call = some c) (he : (s.threads t).event a = some e) :
    ∃ st, writes s (.act t a) = some st ∧ callStacks (s.threads t) = {st} := by
  obtain ⟨b, hb⟩ : ∃ b, (s.threads t).base = .body b := by
    cases a with
    | deliver no => cases he
    | run now =>
      simp only [Thread.event] at he
      split at he
      · exact ⟨_, by assumption⟩
      · cases he
    | fn a =>
      simp only [Thread.event] at he
      split at he
      · exact ⟨_, by assumption⟩
      · cases he
  have hcore := hg.threads t
  simp only [Core, hb, hc] at hcore
  obtain ⟨st, hck⟩ := hcore.2.run.checkpoint
  have htask : (s.threads t).vars.task.stack = some st := by simp [Task.stack, hck]
  refine ⟨st, by simp [writes, hb, htask], ?_⟩
  simp only [callStacks, hc, stackBag_none hcore.2.run.taken, zero_add]
  simp [Task.stackBag, htask]

/-- A step on the function's stack. -/
theorem Performed.act {a : Act V E} {c c' : Call V E} {th : Thread V E}
    (hg : Good False False m.sys) (hst : Step cfg bodies m (.act t a) m')
    (hc : (m.sys.threads t).call = some c)
    (hth : (m.sys.threads t).step (m.sys.world cfg) a = some th) (hc' : th.call = some c')
    (ho : Ordered (own c.trace)) (h : Performed (bodies c.linger) m.stack
      (.running t (m.sys.threads t) c)) :
    Performed (bodies c.linger) m'.stack (.running t th c') := by
  have hown := act_own hth hc hc'
  have hbag : callStacks th = callStacks (m.sys.threads t) := callStacks_kept (Thread.step_kept hth)
  cases he : (m.sys.threads t).event a with
  | none =>
    rw [he, Option.toList_none, List.append_nil] at hown
    refine h.kept hown (.inr fun st hmem => ⟨by rwa [ownStacks, hbag] at hmem, ?_⟩)
    by_cases hw : writes m.sys (.act t a) = some st
    · have heffect := hst.effect st hw
      simp only [Effect, hc, he] at heffect
      exact heffect
    · rw [hst.frame st hw]
  | some e =>
    rw [he, Option.toList_some] at hown
    have hfollows : Follows (own c.trace) e := event_follows (hg.threads t) hc he
    obtain ⟨st, hw, honly⟩ := event_writes hg hc he
    have heffect := hst.effect st hw
    have hframes {y : σ} (hy : (m'.stack st).frames = y) :
        ∀ st' ∈ ownStacks (.running t th c' : Status V E), (m'.stack st').frames = y := by
      intro st' hmem
      rw [ownStacks, hbag, honly, Multiset.mem_singleton] at hmem
      rw [hmem]
      exact hy
    by_cases hent : e = .enter
    · -- The function starts: its frames are those of its entry.
      subst hent
      simp only [Effect, hc, he] at heffect
      have hnil : own c.trace = [] := ho.eq_nil hfollows
      refine .inr ⟨_, [], _, heffect, .nil _, ?_, hframes rfl⟩
      exact hown.trans (by rw [hnil]; rfl)
    · have hstep : (bodies c.linger).step (m.stack st).frames e (m'.stack st).frames := by
        cases e with
        | enter => exact absurd rfl hent
        | _ => simpa only [Effect, hc, he] using heffect
      have hentered : entered (own c.trace) = 1 := hfollows.entered hent
      rcases h with h | ⟨y₀, w, y, hi, hrun, hw', hy⟩
      · rw [show own c.trace = [] from h] at hentered
        cases hentered
      · rw [hy st (by rw [ownStacks, honly, Multiset.mem_singleton])] at hstep
        refine .inr ⟨y₀, w ++ [e], _, hi, hrun.snoc hstep, ?_, hframes rfl⟩
        exact hown.trans (by rw [show own c.trace = _ from hw']; rfl)

/-- What holds of every function, -/
structure Kept (B : LTS σ (Event V E)) (stack : Sid → Contents σ ρ) (x : Status V E) : Prop where
  ordered : Ordered (own x.trace)
  performed : Performed B stack x

/-- and what a step makes of one. -/
theorem kept_step (hn : cfg.notls = false) (hg : Good False False m.sys) (hl : Linked m.sys)
    (hS : StacksOk m.sys) (hst : Step cfg bodies m l m') (hx : status m.sys k = some x)
    (h : Kept (bodies k) m.stack x) :
    ∃ x', status m'.sys k = some x' ∧ own x.trace <+: own x'.trace ∧
      Kept (bodies k) m'.stack x' := by
  by_cases ht : touched m.sys l = some k
  · cases l with
    | act t a =>
      simp only [touched, Option.map_eq_some_iff] at ht
      obtain ⟨c, hc, rfl⟩ := ht
      rw [hl.running hc] at hx
      cases hx
      have hs := hst.sys
      simp only [Sys.step, Sys.actStep, Option.map_eq_some_iff] at hs
      obtain ⟨th, hth, hm'⟩ := hs
      obtain ⟨c', hc'⟩ : ∃ c', th.call = some c' := by
        have := (Thread.step_kept hth).call
        rw [hc, Option.map_some, Option.map_eq_some_iff] at this
        obtain ⟨c', hc', -⟩ := this
        exact ⟨c', hc'⟩
      have hx' : status ({ m.sys with dirty := m.sys.dirtyAfter (m.sys.threads t) th }.setThread t
        th) c.linger =
          some (.running t th c') := hl.goes hc rfl hc'
      have hown := act_own hth hc hc'
      refine ⟨_, hm' ▸ hx', ⟨_, hown.symm⟩, ?_, h.performed.act hg hst hc hth hc' h.ordered⟩
      change Ordered (own c'.trace)
      rw [hown]
      cases he : (m.sys.threads t).event a with
      | none => rw [Option.toList_none, List.append_nil]; exact h.ordered
      | some e => exact h.ordered.snoc (event_follows (hg.threads t) hc he)
    | _ =>
      obtain ⟨x', hx', hfate⟩ := status_step hn hg hl hst.sys hx
      obtain ⟨hown, hstacks⟩ := fate_stacks hg hfate hx (by simp)
      refine ⟨x', hx', by rw [hown], by rw [hown]; exact h.ordered, h.performed.kept hown ?_⟩
      rcases hstacks with hzero | hsub
      · exact .inl (h.ordered.eq_nil (by rw [entered_own]; exact hzero))
      · exact .inr fun st hmem =>
          ⟨hsub st hmem, frames_kept hg hl hS hst hx (.inr (by simp)) st (hsub st hmem)⟩
  · refine ⟨x, (status_untouched hn hg hl hst.sys (lt_of_status hx) ht).trans hx, List.prefix_rfl,
      h.ordered, h.performed.kept rfl (.inr fun st hmem => ⟨hmem, ?_⟩)⟩
    exact frames_kept hg hl hS hst hx (.inl ht) st hmem

theorem kept_born {stack : Sid → Contents σ ρ} (h : Born s k x) : Kept B stack x := by
  have hnil : own x.trace = [] := by cases h <;> rfl
  exact ⟨hnil ▸ .nil, .inl hnil⟩

theorem kept_reachable (hn : cfg.notls = false) (hr : (machine cfg bodies).Reachable m)
    (hx : status m.sys k = some x) : Kept (bodies k) m.stack x := by
  have hinv : (machine cfg bodies).Reachable m ∧ ∀ k x, status m.sys k = some x →
      Kept (bodies k) m.stack x := by
    refine LTS.Inductive.reachable (I := fun m => (machine cfg bodies).Reachable m ∧
      ∀ k x, status m.sys k = some x → Kept (bodies k) m.stack x) ⟨?_, ?_⟩ m hr
    · rintro m ⟨masks, hm⟩
      refine ⟨⟨m, [], ⟨masks, hm⟩, .nil m⟩, fun k x hx => ?_⟩
      rw [hm] at hx
      cases hx
    · rintro m l m' ⟨hr, h⟩ hst
      refine ⟨hr.step hst, fun k x' hx' => ?_⟩
      obtain ⟨hg, hl, hS⟩ := stacksOk_reachable hn (sys_reachable hr)
      cases hx : status m.sys k with
      | none => exact kept_born (status_born hn hg hl hst.sys hx hx')
      | some x =>
        obtain ⟨x₁, hx₁, -, hkept⟩ := kept_step hn hg hl hS hst hx (h k x hx)
        cases hx₁.symm.trans hx'
        exact hkept
  exact hinv.2 k x hx

theorem concluded (hg : Good False False s) (hx : status s k = some x)
    (ho : Ordered (own x.trace)) :
    Concluded x := by
  unfold Concluded
  split
  · rename_i v tr
    rcases hg.lingers k _ (lingers_of_over hx).1 with hcancel | htr
    · exact .inl hcancel
    · exact .inr (ho.ends (by rw [results_own]; exact htr.results))
  · rename_i tr
    obtain ⟨e, htr⟩ := hg.lingers k _ (lingers_of_over hx).1
    obtain ⟨h', heq⟩ := ho.ends (by rw [results_own]; exact htr.results)
    exact ⟨h', e, heq⟩
  · trivial

end

/-- **A function goes on where it was.** In every reachable state, whatever fails,
what a function has done over all slices and threads is a path of its body from the
entry, which has led to the frames on its stack; it is entered once, does not go on
once it is done, has a result only then, and never takes a step back. -/
theorem history_ordered (cfg : Cfg V) (hn : cfg.notls = false) (bodies : Lid → LTS σ (Event V E))
    (m : Mem V E σ ρ) (hr : (machine cfg bodies).Reachable m) (k : Lid) (x : Status V E)
    (hk : status m.sys k = some x) :
    Performed (bodies k) m.stack x ∧ Ordered (own x.trace) ∧ Concluded x ∧
      ∀ ls m', (machine cfg bodies).Run m ls m' →
        ∃ x', status m'.sys k = some x' ∧ own x.trace <+: own x'.trace := by
  obtain ⟨ho, hp⟩ := kept_reachable hn hr hk
  refine ⟨hp, ho, concluded (stacksOk_reachable hn (sys_reachable hr)).1 hk ho, ?_⟩
  intro ls m' hrun
  clear ho hp
  induction hrun generalizing x with
  | nil => exact ⟨x, hk, List.prefix_rfl⟩
  | @cons m m₁ m' l ls hst _ ih =>
    obtain ⟨hg, hl, hS⟩ := stacksOk_reachable hn (sys_reachable hr)
    obtain ⟨x₁, hx₁, hpre, -⟩ := kept_step hn hg hl hS hst hk (kept_reachable hn hr hk)
    obtain ⟨x', hx', hpre'⟩ := ih (hr.step hst) x₁ hx₁
    exact ⟨x', hx', hpre.trans hpre'⟩

/-- A function has worked on thread `0` and is done on thread `1`, on the stack it
was paused with. -/
theorem history_ordered_movesOn : ∃ (m : Mem Bool Bool Nat Unit) (x : Status Bool Bool),
    (machine Cfg.small scripts).Reachable m ∧ status m.sys 0 = some x ∧
    own x.trace = [.enter, .work, .done (.ok true)] ∧ 1 ∈ ownStacks x ∧ (m.stack 1).frames = 2 ∧
    Performed (scripts 0) m.stack x := by
  obtain ⟨m, -, hr, -, hp⟩ := scripts_of_exec movesOn []
    (fun m _ => (status m.sys 0).any fun x : Status Bool Bool =>
      decide (own x.trace = [.enter, .work, .done (.ok true)]) && decide (1 ∈ ownStacks x) &&
        decide ((m.stack 1).frames = 2)) (by decide +kernel)
  simp only [Option.any_eq_true, Bool.and_eq_true, decide_eq_true_eq] at hp
  obtain ⟨x, hx, ⟨hown, hst⟩, hframes⟩ := hp
  exact ⟨m, x, hr, hx, hown, hst, hframes, (history_ordered Cfg.small rfl scripts m hr 0 x hx).1⟩

end Inger.L4.Memory
