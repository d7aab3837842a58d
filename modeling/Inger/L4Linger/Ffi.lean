import Inger.L4Linger.Isolation
import Inger.L4Linger.Stacks

/-!
# The C interface

src/ffi.rs gives C three functions: `launch`, `resume` and `cancel`. A C program
holds structs of which it reads one field, `is_complete`; the other is the
`Linger` of `Resume`. Each function calls the one of `Resume` and then brings the
flag up to date, or ends the process: by `abort` where the pointer is null or
`resume` returned `Err`, or by a panic that leaves an `extern` function, of which
the language does not say what follows.

A thread is between the two parts of a function (`pending`) while `resume` runs,
and other threads call other functions meanwhile. The caller does not use a
struct that it has passed to a call which has not returned (`user`); that is what
`&mut` asks of it.

Every `Linger` belongs to one struct or to one `launch` in progress (`Claims`), so
what a thread does changes the flag's meaning for its own struct only. Hence the
flag tells between calls what the function's history says (`isComplete_iff`), and
is final (`isComplete_final`). A function is over when `schedule` has returned: one
that is preempted after its own return, before `disable_preemption`, is not.
-/
namespace Inger.L4.Ffi

open L1.Reusable L1.Signals L2 L3

variable {V E : Type}

/-- What C holds. `user` is ghost: the thread inside a call that has the pointer.
mirrors src/ffi.rs:7-11 -/
structure Linger where
  isComplete : Bool
  continuation : Lid
  user : Option Tid
  deriving DecidableEq

/-- What a thread has left to do once the call of `Resume` is back. -/
inductive Pending where
  | launch (k : Lid)
  | resume (i : Nat)
  | cancel (i : Nat)
  deriving DecidableEq

inductive End where
  | abort
  | unwind
  deriving DecidableEq, Repr

structure St (V E : Type) where
  sys : Sys V E
  timed : List Linger
  pending : Tid → Option Pending
  ended : Option End

/-- mirrors src/linger.rs:33-39 -/
def isCompletion (s : Sys V E) (k : Lid) : Bool :=
  match s.lingers[k]? with
  | some ⟨.completion _, _⟩ => true
  | _ => false

/-- mirrors src/linger.rs:41-47 -/
def isContinuation (s : Sys V E) (k : Lid) : Bool :=
  match s.lingers[k]? with
  | some ⟨.continuation _, _⟩ => true
  | _ => false

/-- `launch` up to the return of `Resume`'s. When it has made no `Linger` it has
panicked.
mirrors src/ffi.rs:14-24 -/
def launch (cfg : Cfg V) (s : St V E) (t : Tid) (us : UInt64) (env : Env) : Option (St V E) :=
  if (s.pending t).isSome then none
  else
    (Sys.step cfg s.sys (.launch t us env)).map fun sys =>
      if sys.lingers.length = s.sys.lingers.length then { s with sys := sys, ended := some .unwind }
      else { s with sys := sys, pending := Function.update s.pending t (some (.launch s.sys.lingers.length)) }

/-- mirrors src/ffi.rs:35-39,43-45 -/
def resume (cfg : Cfg V) (s : St V E) (t : Tid) (timed : Option Nat) (us : UInt64) (env : Env) :
    Option (St V E) :=
  if (s.pending t).isSome then none
  else
    match timed with
    | none => if Sys.idle (s.sys.threads t) then some { s with ended := some .abort } else none
    | some i =>
      match s.timed[i]? with
      | some ⟨done, k, none⟩ =>
        (Sys.step cfg s.sys (.resume t k us env)).map fun sys =>
          { s with
            sys := sys
            timed := s.timed.set i ⟨done, k, some t⟩
            pending := Function.update s.pending t (some (.resume i)) }
      | _ => none

/-- A struct that is not a continuation is left as it is.
mirrors src/ffi.rs:49-51,55-57 -/
def cancel (cfg : Cfg V) (s : St V E) (t : Tid) (timed : Option Nat) (env : Env) :
    Option (St V E) :=
  if (s.pending t).isSome then none
  else
    match timed with
    | none => if Sys.idle (s.sys.threads t) then some { s with ended := some .abort } else none
    | some i =>
      match s.timed[i]? with
      | some ⟨done, k, none⟩ =>
        if isContinuation s.sys k then
          (Sys.step cfg s.sys (.cancel t k env)).map fun sys =>
            { s with
              sys := sys
              timed := s.timed.set i ⟨done, k, some t⟩
              pending := Function.update s.pending t (some (.cancel i)) }
        else if Sys.idle (s.sys.threads t) then some s
        else none
      | _ => none

/-- The flag of struct `i`, written by the call that has the pointer. -/
def St.give (s : St V E) (i : Nat) (flag : Lid → Bool) : St V E :=
  match s.timed[i]? with
  | some x => { s with timed := s.timed.set i ⟨flag x.continuation, x.continuation, none⟩ }
  | none => s

/-- The rest of the C function.
mirrors src/ffi.rs:24-31,40-42,52-53 -/
def back (s : St V E) (t : Tid) : Option (St V E) :=
  if Sys.idle (s.sys.threads t) then
    match s.pending t, (s.sys.threads t).ret with
    | none, _ => none
    | some p, some .ok =>
      let s' := { s with pending := Function.update s.pending t none }
      match p with
      | .launch k => some { s' with timed := s.timed ++ [⟨isCompletion s.sys k, k, none⟩] }
      | .resume i => some (s'.give i (isCompletion s.sys))
      | .cancel i => some (s'.give i fun _ => true)
    | some _, some .err => some { s with ended := some .abort }
    | some _, _ => some { s with ended := some .unwind }
  else none

/-- What a C program does, and the steps of the library underneath. -/
inductive Ev (V E : Type) where
  | launch (t : Tid) (us : UInt64) (env : Env)
  | resume (t : Tid) (timed : Option Nat) (us : UInt64) (env : Env)
  | cancel (t : Tid) (timed : Option Nat) (env : Env)
  | back (t : Tid)
  | main (t : Tid) (env : Env)
  | act (t : Tid) (a : Act V E)
  | exit (t : Tid)

def step (cfg : Cfg V) (s : St V E) (e : Ev V E) : Option (St V E) :=
  if s.ended.isSome then none
  else
    match e with
    | .launch t us env => launch cfg s t us env
    | .resume t timed us env => resume cfg s t timed us env
    | .cancel t timed env => cancel cfg s t timed env
    | .back t => back s t
    | .main t env => (Sys.step cfg s.sys (.main t env)).map fun sys => { s with sys := sys }
    | .act t a => (Sys.step cfg s.sys (.act t a)).map fun sys => { s with sys := sys }
    | .exit t =>
      if (s.pending t).isSome then none
      else (Sys.step cfg s.sys (.exit t)).map fun sys => { s with sys := sys }

def initial (cfg : Cfg V) (masks : Tid → Sigset) : St V E :=
  ⟨Sys.initial cfg masks, [], fun _ => none, none⟩

/-- The process with a C program. -/
def machine (cfg : Cfg V) : LTS (St V E) (Ev V E) :=
  LTS.ofFn (fun s => ∃ masks, s = initial cfg masks) (step cfg)

/-! ## What a step can do -/

/-- C has no destructor. -/
def isDrop : Label V E → Bool
  | .drop _ _ _ => true
  | _ => false

/-- A label of the library's own steps, and of a thread that exits outside of calls. -/
def Inner (s : St V E) : Label V E → Prop
  | .main _ _ => True
  | .act _ _ => True
  | .exit t => s.pending t = none
  | _ => False

inductive Moves (cfg : Cfg V) (s : St V E) : St V E → Prop
  | ends (e : End) : Moves cfg s { s with ended := some e }
  | skips : Moves cfg s s
  | inner (l : Label V E) (sys : Sys V E) (label : Inner s l)
      (step : Sys.step cfg s.sys l = some sys) :
      Moves cfg s { s with sys := sys }
  | panics (t : Tid) (us : UInt64) (env : Env) (sys : Sys V E) (free : s.pending t = none)
      (step : Sys.step cfg s.sys (.launch t us env) = some sys)
      (none : sys.lingers.length = s.sys.lingers.length) :
      Moves cfg s { s with sys := sys, ended := some .unwind }
  | launches (t : Tid) (us : UInt64) (env : Env) (sys : Sys V E) (free : s.pending t = none)
      (step : Sys.step cfg s.sys (.launch t us env) = some sys)
      (made : sys.lingers.length ≠ s.sys.lingers.length) :
      Moves cfg s
        { s with sys := sys, pending := Function.update s.pending t (some (.launch s.sys.lingers.length)) }
  | takes (t : Tid) (l : Label V E) (p : Pending) (i : Nat) (done : Bool) (k : Lid) (sys : Sys V E)
      (free : s.pending t = none) (cell : s.timed[i]? = some ⟨done, k, none⟩)
      (label : (∃ us env, l = .resume t k us env) ∧ p = .resume i ∨
        (∃ env, l = .cancel t k env) ∧ p = .cancel i ∧ isContinuation s.sys k = true)
      (step : Sys.step cfg s.sys l = some sys) :
      Moves cfg s
        { s with
          sys := sys
          timed := s.timed.set i ⟨done, k, some t⟩
          pending := Function.update s.pending t (some p) }
  | makes (t : Tid) (k : Lid) (pending : s.pending t = some (.launch k))
      (idle : Sys.idle (s.sys.threads t) = true) (ret : (s.sys.threads t).ret = some .ok) :
      Moves cfg s
        { s with
          timed := s.timed ++ [⟨isCompletion s.sys k, k, none⟩]
          pending := Function.update s.pending t none }
  | gives (t : Tid) (i : Nat) (p : Pending) (flag : Lid → Bool) (pending : s.pending t = some p)
      (kind : p = .resume i ∧ flag = isCompletion s.sys ∨ p = .cancel i ∧ flag = fun _ => true)
      (idle : Sys.idle (s.sys.threads t) = true) (ret : (s.sys.threads t).ret = some .ok) :
      Moves cfg s ({ s with pending := Function.update s.pending t none }.give i flag)

section
variable {cfg : Cfg V} {s s' : St V E} {e : Ev V E} {t : Tid} {k : Lid}

theorem launch_moves {us : UInt64} {env : Env} (hs : launch cfg s t us env = some s') :
    Moves cfg s s' := by
  simp only [launch, Option.ite_none_left_eq_some, Option.not_isSome_iff_eq_none] at hs
  obtain ⟨hfree, hs⟩ := hs
  obtain ⟨sys, hstep, rfl⟩ := Option.map_eq_some_iff.mp hs
  split
  · rename_i hlen
    exact .panics t us env sys hfree hstep hlen
  · rename_i hlen
    exact .launches t us env sys hfree hstep hlen

theorem resume_moves {timed : Option Nat} {us : UInt64} {env : Env}
    (hs : resume cfg s t timed us env = some s') : Moves cfg s s' := by
  simp only [resume, Option.ite_none_left_eq_some, Option.not_isSome_iff_eq_none] at hs
  obtain ⟨hfree, hs⟩ := hs
  split at hs
  · split at hs
    · cases hs
      exact .ends .abort
    · cases hs
  · rename_i i
    split at hs
    · rename_i done k hcell
      obtain ⟨sys, hstep, rfl⟩ := Option.map_eq_some_iff.mp hs
      exact .takes t _ (.resume i) i done k sys hfree hcell (.inl ⟨⟨us, env, rfl⟩, rfl⟩) hstep
    · cases hs

theorem cancel_moves {timed : Option Nat} {env : Env} (hs : cancel cfg s t timed env = some s') :
    Moves cfg s s' := by
  simp only [cancel, Option.ite_none_left_eq_some, Option.not_isSome_iff_eq_none] at hs
  obtain ⟨hfree, hs⟩ := hs
  split at hs
  · split at hs
    · cases hs
      exact .ends .abort
    · cases hs
  · rename_i i
    split at hs
    · rename_i done k hcell
      split at hs
      · rename_i hcont
        obtain ⟨sys, hstep, rfl⟩ := Option.map_eq_some_iff.mp hs
        exact .takes t _ (.cancel i) i done k sys hfree hcell (.inr ⟨⟨env, rfl⟩, rfl, hcont⟩) hstep
      · split at hs
        · cases hs
          exact .skips
        · cases hs
    · cases hs

theorem back_moves (hs : back s t = some s') : Moves cfg s s' := by
  simp only [back, Option.ite_none_right_eq_some] at hs
  obtain ⟨hidle, hs⟩ := hs
  split at hs
  · cases hs
  · rename_i p hp hret
    cases p with
    | launch k =>
      cases hs
      exact .makes t k hp hidle hret
    | resume i =>
      cases hs
      exact .gives t i (.resume i) _ hp (.inl ⟨rfl, rfl⟩) hidle hret
    | cancel i =>
      cases hs
      exact .gives t i (.cancel i) _ hp (.inr ⟨rfl, rfl⟩) hidle hret
  · cases hs
    exact .ends .abort
  · cases hs
    exact .ends .unwind

theorem step_moves (hs : step cfg s e = some s') : Moves cfg s s' := by
  simp only [step, Option.ite_none_left_eq_some] at hs
  obtain ⟨-, hs⟩ := hs
  cases e with
  | launch t us env => exact launch_moves hs
  | resume t timed us env => exact resume_moves hs
  | cancel t timed env => exact cancel_moves hs
  | back t => exact back_moves hs
  | main t env =>
    obtain ⟨sys, hstep, rfl⟩ := Option.map_eq_some_iff.mp hs
    exact .inner (.main t env) sys trivial hstep
  | act t a =>
    obtain ⟨sys, hstep, rfl⟩ := Option.map_eq_some_iff.mp hs
    exact .inner (.act t a) sys trivial hstep
  | exit t =>
    simp only [Option.ite_none_left_eq_some, Option.not_isSome_iff_eq_none] at hs
    obtain ⟨hfree, hs⟩ := hs
    obtain ⟨sys, hstep, rfl⟩ := Option.map_eq_some_iff.mp hs
    exact .inner (.exit t) sys hfree hstep

/-! ## The library's steps, seen from a struct -/

end

section
variable {cfg : Cfg V} {s s' : Sys V E} {l : Label V E} {t : Tid} {k : Lid}

theorem isCompletion_iff : isCompletion s k = true ↔
      ∃ v tr, s.lingers[k]? = some ⟨.completion v, tr⟩ := by
  unfold isCompletion
  split
  · rename_i v tr h
    simp [h]
  · rename_i h
    simp only [Bool.false_eq_true, false_iff]
    rintro ⟨v, tr, he⟩
    exact h v tr he

/-- Whether it is complete can be told from where the function is. -/
theorem isCompletion_congr (h : status s' k = status s k) :
    isCompletion s' k = isCompletion s k := by
  have key (s : Sys V E) : isCompletion s k = true ↔
      ∃ v tr, status s k = some (.over ⟨.completion v, tr⟩) := by
    rw [isCompletion_iff]
    unfold status
    split <;> rename_i hc <;> rw [hc] <;> simp
  rw [Bool.eq_iff_iff, key, key, h]

theorem lt_step (hn : cfg.notls = false) (hg : Good False False s) (hl : Linked s)
    (hs : Sys.step cfg s l = some s') (hk : k < s.lingers.length) : k < s'.lingers.length := by
  cases hx : status s k with
  | none => exact absurd hk (Nat.not_lt.mpr (length_le_of_status hl hx))
  | some x =>
    obtain ⟨x', hx', -⟩ := status_step hn hg hl hs hx
    exact lt_of_status hx'

/-- A thread is in a call because it was, or because this step is the call. -/
theorem call_from {c : Call V E} (hn : cfg.notls = false) (hg : Good False False s)
    (hs : Sys.step cfg s l = some s') (hc : (s'.threads t).call = some c) :
    (∃ c₀, (s.threads t).call = some c₀ ∧ c₀.linger = c.linger) ∨
      (∃ us env, l = .launch t us env ∧ c.linger = s.lingers.length) ∨
      ∃ us env, l = .resume t c.linger us env := by
  have same (h : (s'.threads t).call = (s.threads t).call) :
      ∃ c₀, (s.threads t).call = some c₀ ∧ c₀.linger = c.linger := ⟨c, h ▸ hc, rfl⟩
  by_cases ht : t = l.tid
  · cases step_change hn hs with
    | returns _ u j idle label =>
      obtain rfl : t = u := by rcases label with ⟨_, _, rfl⟩ | ⟨_, rfl⟩ <;> exact ht
      exact .inl (same (by rw [threads_setThread_self]))
    | caught _ u tid =>
      obtain rfl : t = u := ht.trans tid
      exact .inl (same (by rw [threads_setThread_self]; rfl))
    | full u =>
      obtain rfl : t = u := ht
      exact .inl (same (by rw [threads_setThread_self]))
    | sets u =>
      obtain rfl : t = u := ht
      exact .inl (same (by rw [threads_setThread_self]))
    | launches u us env group p _ idle shared budget some begin =>
      obtain rfl : t = u := ht
      cases begin with
      | enters tcb tls installs =>
        rw [threads_setThread_self] at hc
        cases hc
        exact .inr (.inl ⟨us, env, rfl, rfl⟩)
      | missing tls => exact .inl (same (by rw [threads_setThread_self]; rfl))
      | fails tcb tls installs => exact .inl (same (by rw [threads_setThread_self]; rfl))
    | resumes u j us env cont trace _ idle shared cell begin =>
      obtain rfl : t = u := ht
      cases begin with
      | enters tcb tls installs =>
        rw [threads_setThread_self] at hc
        cases hc
        exact .inr (.inr ⟨us, env, rfl⟩)
      | missing tls => exact .inl (same (by rw [threads_setThread_self]))
      | fails tcb tls installs => exact .inl (same (by rw [threads_setThread_self]))
    | advances u env c₀ pc _ call base early handlers adv =>
      obtain rfl : t = u := ht
      cases adv with
      | goes s₁ th c' shared call' same' =>
        rw [threads_setThread_self, call'] at hc
        cases hc
        exact .inl ⟨c₀, call, same'.linger.symm⟩
      | fails s₁ th c' ret =>
        rw [Sys.failResume, threads_setThread_self] at hc
        cases hc
    | leaves u env c₀ _ call base handlers left =>
      obtain rfl : t = u := ht
      cases leaveStep_left hn hg call base left with
      | fails =>
        rw [Sys.failResume, threads_setThread_self] at hc
        cases hc
      | paused =>
        rw [threads_setThread_self] at hc
        cases hc
      | settled =>
        rw [threads_setThread_self] at hc
        cases hc
    | acts u a th step =>
      obtain rfl : t = u := ht
      have hc : th.call = some c := by rwa [threads_setThread_self] at hc
      obtain ⟨c₀, hc₀, hk, -⟩ := (Thread.step_kept step).exists_call hc
      exact .inl ⟨c₀, hc₀, hk.symm⟩
    | drops _ u j cont trace renew new idle cell label =>
      obtain rfl : t = u := by rcases label with ⟨_, rfl, _⟩ | ⟨_, rfl, _⟩ <;> exact ht
      exact .inl (same (by rw [threads_setThread_self]))
    | forgets u =>
      obtain rfl : t = u := ht
      exact .inl (same (by rw [threads_setThread_self]))
    | stays => exact .inl (same rfl)
    | exits u =>
      obtain rfl : t = u := ht
      exact .inl (same (by rw [threads_setThread_self]))
  · exact .inl (same (congrArg Thread.call (step_threads_ne hn hs ht)))

theorem alive_of_idle {th : Thread V E} (h : Sys.idle th = true) : th.base.alive = true := by
  simp only [Sys.idle, Bool.and_eq_true, decide_eq_true_eq] at h
  rw [h.1.2]
  rfl

/-- A thread that is stuck takes no step. -/
theorem stuck_step {why : Stuck} (hn : cfg.notls = false) (hb : (s.threads t).base = .stuck why)
    (hs : Sys.step cfg s l = some s') : s'.threads t = s.threads t := by
  have hdead : (s.threads t).base.alive ≠ true := by
    rw [hb]
    exact Bool.false_ne_true
  by_cases ht : t = l.tid
  · have hidle (h : Sys.idle (s.threads l.tid) = true) : s'.threads t = s.threads t :=
      absurd (ht ▸ alive_of_idle h) hdead
    have hmain {pc : MainPc} (h : (s.threads l.tid).base = .main pc) :
        s'.threads t = s.threads t := by
      rw [ht, h] at hb
      cases hb
    cases step_change hn hs with
    | returns _ u j idle label => rcases label with ⟨_, _, rfl⟩ | ⟨_, rfl⟩ <;> exact hidle idle
    | caught _ u tid idle => exact hidle (tid ▸ idle)
    | full u us env p idle => exact hidle idle
    | sets u env group p idle => exact hidle idle
    | launches u us env group p _ idle => exact hidle idle
    | resumes u j us env cont trace _ idle => exact hidle idle
    | advances u env c pc _ call base => exact hmain base
    | leaves u env c _ call base => exact hmain base
    | acts u a th step => exact absurd (ht ▸ Thread.alive_of_step step) hdead
    | drops _ u j cont trace renew new idle cell label =>
      rcases label with ⟨_, rfl, _⟩ | ⟨_, rfl, _⟩ <;> exact hidle idle
    | forgets u j env x idle => exact hidle idle
    | stays => rfl
    | exits u p idle => exact hidle idle
  · exact step_threads_ne hn hs ht

/-- A `Linger` as a call that succeeds leaves it: complete, or a continuation whose
`schedule` has not returned. -/
def Sound (s : Sys V E) (k : Lid) : Prop :=
  isCompletion s k = true ∨ ∃ c tr, s.lingers[k]? = some ⟨.continuation c, tr⟩ ∧ finishes tr = 0

theorem Sound.congr (h : Sound s k) (hl : s'.lingers[k]? = s.lingers[k]?) : Sound s' k := by
  unfold Sound isCompletion at h ⊢
  rw [hl]
  exact h

theorem Sound.untouched (h : Sound s k) (hx : status s' k = status s k) : Sound s' k := by
  rcases h with h | ⟨c, tr, hk, hf⟩
  · exact .inl ((isCompletion_congr hx).trans h)
  · exact .inr ⟨c, tr, lingers_of_idle (hx.trans (status_idle hk)), hf⟩

/-- If thread `t` is out of the library, and with `Ok`, then `k` is sound. -/
def Came (s : Sys V E) (t : Tid) (k : Lid) : Prop :=
  (s.threads t).call = none → (s.threads t).base.alive = true →
    (s.threads t).ret = some .ok → Sound s k

theorem came_main {c : Call V E} {env : Env} (hn : cfg.notls = false) (hg : Good False False s)
    (hl : Linked s) (hc : (s.threads t).call = some c)
    (hs : Sys.step cfg s (.main t env) = some s') : Came s' t c.linger := by
  have hk := hl.lt_length hc
  have failed {s₁ : Sys V E} {th : Thread V E} {c' : Call V E} {ret : Ret E} (hr : ret ≠ .ok) :
      Came (Sys.failResume cfg s₁ t th c' env ret) t c.linger := by
    intro _ _ h
    rw [Sys.failResume, threads_setThread_self] at h
    exact absurd (Option.some.inj h) hr
  obtain ⟨c₀, pc, hc₀, hbase, -, ⟨hadv, -⟩ | ⟨rfl, hleft⟩⟩ := mainStep_cases hs
  · cases hc.symm.trans hc₀
    cases hadv with
    | goes s₁ th c' shared call =>
      intro h
      rw [threads_setThread_self, call] at h
      cases h
    | fails s₁ th c' ret shared same early =>
      refine failed ?_
      rintro rfl
      cases early
  · cases hc.symm.trans hc₀
    cases leaveStep_left hn hg hc hbase hleft with
    | fails => exact failed (by simp)
    | paused e st m b frames y error task trace =>
      refine fun _ _ _ => .inr ⟨_, _, List.getElem?_set_self hk, ?_⟩
      rw [finishes_snoc]
      exact trace.finishes
    | settled ctx y r error task trace =>
      intro _ _ h
      rw [threads_setThread_self] at h
      cases r with
      | error e => cases h
      | ok v =>
        refine .inl (isCompletion_iff.mpr ⟨v, c.trace, List.getElem?_set_self ?_⟩)
        rw [lingers_dropContinuation, lingers_freeStack]
        exact hk

theorem came_act {a : Act V E} (hs : Sys.step cfg s (.act t a) = some s') (h : Came s t k) :
    Came s' t k := by
  obtain ⟨th', hth, rfl⟩ := Option.map_eq_some_iff.mp hs
  unfold Came
  rw [threads_acted]
  intro hc _ hr
  have hkept := Thread.step_kept hth
  have hcall := hkept.call
  rw [hc, Option.map_none, eq_comm, Option.map_eq_none_iff] at hcall
  exact (h hcall (Thread.alive_of_step hth) (hkept.ret.symm.trans hr)).congr rfl

theorem came_begin {cont : Continuation V E} {tr : List (Event V E)} {us : UInt64}
    {launching : Bool} {env : Env} {s₀ : Sys V E} (h : Begin s₀ t k cont tr us launching env s') :
    Came s' t k := by
  cases h with
  | missing => intro _ _ h; rw [threads_setThread_self] at h; cases h
  | enters => intro h; rw [threads_setThread_self] at h; cases h
  | fails => intro _ _ h; rw [threads_setThread_self] at h; cases h

theorem came_caught : Came (s.setThread t ((s.threads t).fail .preemptible)) t k := by
  intro _ ha
  rw [threads_setThread_self] at ha
  cases ha

theorem came_launch {us : UInt64} {env : Env} (hn : cfg.notls = false)
    (hs : Sys.step cfg s (.launch t us env) = some s') : Came s' t s.lingers.length := by
  cases launchStep_change hn hs with
  | returns _ u j idle label => rcases label with ⟨_, _, h⟩ | ⟨_, h⟩ <;> cases h
  | caught _ u tid => cases tid; exact came_caught
  | full => intro _ _ h; rw [threads_setThread_self] at h; cases h
  | sets => exact fun _ _ _ => .inr ⟨_, [], List.getElem?_concat_length, rfl⟩
  | launches _ _ _ group p _ idle shared budget some begin => exact came_begin begin
  | drops _ u j cont tr renew new idle cell label =>
    rcases label with ⟨_, h, _⟩ | ⟨_, h, _⟩ <;> cases h

theorem came_resume {us : UInt64} {env : Env} (hn : cfg.notls = false)
    (hs : Sys.step cfg s (.resume t k us env) = some s') (h : Sound s k) : Came s' t k := by
  cases resumeStep_change hn hs with
  | returns => exact fun _ _ _ => h.congr rfl
  | caught _ u tid => cases tid; exact came_caught
  | resumes _ _ _ _ c tr _ idle shared cell begin => exact came_begin begin
  | drops _ u j cont tr renew new idle cell label =>
    rcases label with ⟨_, h, _⟩ | ⟨_, h, _⟩ <;> cases h

/-- A function that waits or runs has not been cancelled. -/
def Status.Kept : Status V E → Prop
  | .over _ => True
  | x => .cancel ∉ x.trace

theorem kept_reachable {x : Status V E} (hn : cfg.notls = false) (hr : (process cfg).Reachable s)
    (hx : status s k = some x) : Status.Kept x := by
  have snoc {tr : List (Event V E)} {e : Event V E} (h : .cancel ∉ tr) (he : e ≠ .cancel) :
      .cancel ∉ tr ++ [e] := by
    simp [h, he.symm]
  refine status_reachable (C := fun _ _ => True) (I := fun _ => Status.Kept) hn ?_ ?_
    (hr.only_of_forall fun _ _ => trivial) hx
  · intro s k x hb
    cases hb with
    | idle => exact List.not_mem_nil
    | running => exact List.not_mem_nil
    | dropped => trivial
  · intro s l k x x' _ _ _ hf h
    cases hf with
    | same => exact h
    | begins => exact h
    | forfeits => exact h
    | prepares t env c c' th pc base early call same =>
      simp only [Status.Kept, Status.trace, same.trace]
      exact h
    | sticks => exact h
    | starts => exact h
    | resumes => exact h
    | acts t a c c' th core call linger step call' =>
      simp only [Status.Kept, Status.trace]
      rcases Thread.step_event step call call' with he | ⟨-, he⟩
      · rw [he]
        cases hev : (s.threads t).event a with
        | none => simpa [Status.Kept, Status.trace] using h
        | some e =>
          refine snoc h ?_
          rintro rfl
          cases Thread.event_own hev
      · rw [he]
        exact snoc h (by simp)
    | fails => exact h
    | pauses => exact snoc h (by simp)
    | _ => trivial

/-- `cancel` has made the assignment, or was called by a preemptible function. -/
theorem cancel_step {env : Env} (hc : isContinuation s k = true)
    (hs : Sys.step cfg s (.cancel t k env) = some s') :
    isCompletion s' k = true ∨ ∃ why, (s'.threads t).base = .stuck why := by
  obtain ⟨c, tr, hk⟩ : ∃ c tr, s.lingers[k]? = some ⟨.continuation c, tr⟩ := by
    unfold isContinuation at hc
    split at hc
    · rename_i c tr h
      exact ⟨c, tr, h⟩
    · cases hc
  simp only [Sys.step, Sys.cancelStep, hk] at hs
  split at hs
  · cases hs
  · split at hs
    · cases hs
      exact .inr ⟨_, congrArg Thread.base (threads_setThread_self _)⟩
    · cases hs
      refine .inl (isCompletion_iff.mpr ⟨cfg.unit, tr ++ [.cancel], List.getElem?_set_self ?_⟩)
      rw [lingers_dropContinuation]
      exact (List.getElem?_eq_some_iff.mp hk).1

end

/-! ## Who has a `Linger` -/

/-- A struct that a thread works on says so; every `Linger` is that of one struct or
of one `launch` in progress. -/
structure Claims (timed : List Linger) (pending : Tid → Option Pending) : Prop where
  users : ∀ t i, pending t = some (.resume i) ∨ pending t = some (.cancel i) →
    ∃ x : Linger, timed[i]? = some x ∧ x.user = some t
  distinct : ∀ (i j : Nat) (x y : Linger), timed[i]? = some x → timed[j]? = some y →
    x.continuation = y.continuation → i = j
  fresh : ∀ t k, pending t = some (.launch k) → ∀ (i : Nat) (x : Linger), timed[i]? = some x →
    x.continuation ≠ k
  once : ∀ t u k, pending t = some (.launch k) → pending u = some (.launch k) → t = u

/-- The `Linger` that thread `t` has to report on. -/
def Reports (timed : List Linger) (pending : Tid → Option Pending) (t : Tid) (k : Lid) : Prop :=
  pending t = some (.launch k) ∨
    ∃ (i : Nat) (x : Linger), pending t = some (.resume i) ∧ timed[i]? = some x ∧ x.continuation = k

structure Inv (cfg : Cfg V) (sys : Sys V E) (timed : List Linger)
    (pending : Tid → Option Pending) : Prop where
  reachable : (process cfg).Reachable sys
  claims : Claims timed pending
  /-- A thread inside `Resume`'s functions works on the `Linger` it has to report on. -/
  calls : ∀ t c, (sys.threads t).call = some c → Reports timed pending t c.linger
  came : ∀ t k, Reports timed pending t k → Came sys t k
  sound : ∀ (i : Nat) (x : Linger), timed[i]? = some x → x.user = none → Sound sys x.continuation
  bound : ∀ (i : Nat) (x : Linger), timed[i]? = some x → x.continuation < sys.lingers.length
  made : ∀ t k, pending t = some (.launch k) → k < sys.lingers.length
  flag : ∀ (i : Nat) (x : Linger), timed[i]? = some x → x.user = none →
    x.isComplete = isCompletion sys x.continuation
  /-- also while a thread works on it -/
  done : ∀ (i : Nat) (x : Linger), timed[i]? = some x → x.isComplete = true →
    isCompletion sys x.continuation = true
  cancelled : ∀ t (i : Nat) (x : Linger), pending t = some (.cancel i) → timed[i]? = some x →
    isCompletion sys x.continuation = true ∨ ∃ why, (sys.threads t).base = .stuck why

section
variable {cfg : Cfg V} {s s' : St V E} {sys sys' : Sys V E} {timed : List Linger}
  {pending : Tid → Option Pending} {l : Label V E} {t : Tid} {i : Nat} {k : Lid}

/-- Thread `t` begins or ends a call. -/
theorem of_update {u : Tid} {p : Option Pending} {q : Pending}
    (h : Function.update pending t p u = some q) :
    (u = t ∧ p = some q) ∨ (u ≠ t ∧ pending u = some q) := by
  by_cases hu : u = t
  · subst hu
    rw [Function.update_self] at h
    exact .inl ⟨rfl, h⟩
  · rw [Function.update_of_ne hu] at h
    exact .inr ⟨hu, h⟩

/-- The structs when the user or the flag of one has changed. -/
theorem cell_of_give {x₀ x' x : Linger} {j : Nat} (h : (timed.set i x')[j]? = some x)
    (h₀ : timed[i]? = some x₀) (hk : x'.continuation = x₀.continuation) :
    ∃ y, timed[j]? = some y ∧ x.continuation = y.continuation := by
  rcases Tokens.cell_of_set h with ⟨rfl, rfl⟩ | ⟨-, hx⟩
  · exact ⟨x₀, h₀, hk⟩
  · exact ⟨x, hx, rfl⟩

theorem cell_give (x' : Linger) {x₀ y : Linger} {j : Nat} (h₀ : timed[i]? = some x₀)
    (hk : x'.continuation = x₀.continuation) (h : timed[j]? = some y) :
    ∃ x, (timed.set i x')[j]? = some x ∧ x.continuation = y.continuation := by
  by_cases hj : j = i
  · subst hj
    cases h₀.symm.trans h
    exact ⟨x', List.getElem?_set_self (List.getElem?_eq_some_iff.mp h).1, hk⟩
  · exact ⟨y, (List.getElem?_set_ne (Ne.symm hj)).trans h, rfl⟩

theorem cell_of_make {x' x : Linger} {j : Nat} (h : (timed ++ [x'])[j]? = some x) :
    timed[j]? = some x ∨ j = timed.length ∧ x = x' := by
  rw [List.getElem?_append] at h
  split at h
  · exact .inl h
  · rename_i hj
    rw [List.getElem?_singleton] at h
    split at h
    · cases h
      exact .inr ⟨by omega, rfl⟩
    · cases h

namespace Claims

/-- Nobody else works on a struct that is free or that `t` works on. -/
theorem other {x₀ : Linger} {u : Tid} {j : Nat} (h : Claims timed pending)
    (h₀ : timed[i]? = some x₀) (hold : x₀.user = none ∨ x₀.user = some t) (hu : u ≠ t)
    (hj : pending u = some (.resume j) ∨ pending u = some (.cancel j)) : j ≠ i := by
  rintro rfl
  obtain ⟨y, hy, hyu⟩ := h.users u j hj
  cases h₀.symm.trans hy
  rcases hold with hold | hold
  · cases hold.symm.trans hyu
  · exact hu (Option.some.inj (hyu.symm.trans hold))

/-- A struct changes hands: thread `t` begins or ends its work on it. -/
theorem give {x₀ x' : Linger} {p : Option Pending} (h : Claims timed pending)
    (h₀ : timed[i]? = some x₀) (hk : x'.continuation = x₀.continuation)
    (hold : x₀.user = none ∨ x₀.user = some t)
    (hp : ∀ q, p = some q → (q = .resume i ∨ q = .cancel i) ∧ x'.user = some t) :
    Claims (timed.set i x') (Function.update pending t p) where
  users := by
    intro u j hj
    have hnew {q : Pending} (hq : q = .resume j ∨ q = .cancel j)
        (hj : Function.update pending t p u = some q) :
        ∃ x, (timed.set i x')[j]? = some x ∧ x.user = some u := by
      rcases of_update hj with ⟨rfl, rfl⟩ | ⟨hu, hpu⟩
      · obtain ⟨hqi, hx'⟩ := hp q rfl
        obtain rfl : j = i := by
          rcases hq with rfl | rfl <;> rcases hqi with h | h <;> cases h <;> rfl
        exact ⟨x', List.getElem?_set_self (List.getElem?_eq_some_iff.mp h₀).1, hx'⟩
      · have hpu : pending u = some (.resume j) ∨ pending u = some (.cancel j) := by
          rcases hq with rfl | rfl
          · exact .inl hpu
          · exact .inr hpu
        obtain ⟨y, hy, hyu⟩ := h.users u j hpu
        exact ⟨y, (List.getElem?_set_ne (Ne.symm (h.other h₀ hold hu hpu))).trans hy, hyu⟩
    rcases hj with hj | hj
    · exact hnew (.inl rfl) hj
    · exact hnew (.inr rfl) hj
  distinct := by
    intro a b x y hx hy hxy
    obtain ⟨x₁, hx₁, hxk⟩ := cell_of_give hx h₀ hk
    obtain ⟨y₁, hy₁, hyk⟩ := cell_of_give hy h₀ hk
    exact h.distinct a b x₁ y₁ hx₁ hy₁ (hxk.symm.trans (hxy.trans hyk))
  fresh := by
    intro u k hu a x hx
    obtain ⟨y, hy, hxy⟩ := cell_of_give hx h₀ hk
    rcases of_update hu with ⟨-, hp'⟩ | ⟨-, hu⟩
    · rcases (hp _ hp').1 with h | h <;> cases h
    · rw [hxy]
      exact h.fresh u k hu a y hy
  once := by
    intro u v k hu hv
    have hold {w : Tid} (hw : Function.update pending t p w = some (.launch k)) :
        pending w = some (.launch k) := by
      rcases of_update hw with ⟨-, hp'⟩ | ⟨-, hw⟩
      · rcases (hp _ hp').1 with h | h <;> cases h
      · exact hw
    exact h.once u v k (hold hu) (hold hv)

/-- Thread `t` begins to make a new `Linger`. -/
theorem launch (h : Claims timed pending)
    (hb : ∀ (i : Nat) (x : Linger), timed[i]? = some x → x.continuation < k)
    (hm : ∀ u j, pending u = some (.launch j) → j < k) :
    Claims timed (Function.update pending t (some (.launch k))) where
  users := by
    intro u i hu
    rcases hu with hu | hu
    · rcases of_update hu with ⟨-, he⟩ | ⟨-, hu⟩
      · cases he
      · exact h.users u i (.inl hu)
    · rcases of_update hu with ⟨-, he⟩ | ⟨-, hu⟩
      · cases he
      · exact h.users u i (.inr hu)
  distinct := h.distinct
  fresh := by
    intro u j hu i x hx
    rcases of_update hu with ⟨-, he⟩ | ⟨-, hu⟩
    · cases he
      exact Nat.ne_of_lt (hb i x hx)
    · exact h.fresh u j hu i x hx
  once := by
    intro u v j hu hv
    rcases of_update hu with ⟨hut, he⟩ | ⟨-, hu⟩ <;> rcases of_update hv with ⟨hvt, he'⟩ | ⟨-, hv⟩
    · exact hut.trans hvt.symm
    · cases he
      exact absurd (hm v k hv) (Nat.lt_irrefl k)
    · cases he'
      exact absurd (hm u k hu) (Nat.lt_irrefl k)
    · exact h.once u v j hu hv

/-- It hands out the struct. -/
theorem make {x' : Linger} (h : Claims timed pending)
    (hp : pending t = some (.launch x'.continuation)) :
    Claims (timed ++ [x']) (Function.update pending t none) := by
  have old {j : Nat} {x : Linger} (hx : (timed ++ [x'])[j]? = some x) :
      timed[j]? = some x ∨ j = timed.length ∧ x = x' := cell_of_make hx
  have hnew {j : Nat} {x : Linger} (hx : timed[j]? = some x) : x.continuation ≠ x'.continuation :=
    h.fresh t _ hp j x hx
  refine ⟨?_, ?_, ?_, ?_⟩
  · intro u i hu
    have hu : pending u = some (.resume i) ∨ pending u = some (.cancel i) := by
      rcases hu with hu | hu <;> rcases of_update hu with ⟨-, he⟩ | ⟨-, hu⟩
      · cases he
      · exact .inl hu
      · cases he
      · exact .inr hu
    obtain ⟨x, hx, hxu⟩ := h.users u i hu
    exact ⟨x, (List.getElem?_append_left (List.getElem?_eq_some_iff.mp hx).1).trans hx, hxu⟩
  · intro a b x y hx hy hxy
    rcases old hx with hx₀ | ⟨rfl, rfl⟩ <;> rcases old hy with hy₀ | ⟨rfl, rfl⟩
    · exact h.distinct a b x y hx₀ hy₀ hxy
    · exact absurd hxy (hnew hx₀)
    · exact absurd hxy.symm (hnew hy₀)
    · rfl
  · intro u k hu i x hx
    rcases of_update hu with ⟨-, he⟩ | ⟨hut, hu⟩
    · cases he
    · rcases old hx with hx | ⟨rfl, rfl⟩
      · exact h.fresh u k hu i x hx
      · rintro rfl
        exact hut (h.once u t _ hu hp)
  · intro u v k hu hv
    rcases of_update hu with ⟨-, he⟩ | ⟨-, hu⟩
    · cases he
    · rcases of_update hv with ⟨-, he⟩ | ⟨-, hv⟩
      · cases he
      · exact h.once u v k hu hv

/-- Two threads do not report on one `Linger`. -/
theorem reports_unique {u : Tid} (h : Claims timed pending) (ht : Reports timed pending t k)
    (hu : Reports timed pending u k) : t = u := by
  rcases ht with ht | ⟨i, x, ht, hx, hxk⟩ <;> rcases hu with hu | ⟨j, y, hu, hy, hyk⟩
  · exact h.once t u k ht hu
  · exact absurd hyk (h.fresh t k ht j y hy)
  · exact absurd hxk (h.fresh u k hu i x hx)
  · obtain rfl := h.distinct i j x y hx hy (hxk.trans hyk.symm)
    obtain ⟨z, hz, hzt⟩ := h.users t i (.inl ht)
    obtain ⟨z', hz', hzu⟩ := h.users u i (.inl hu)
    cases hz.symm.trans hz'
    exact Option.some.inj (hzt.symm.trans hzu)

end Claims

namespace Reports

variable {u : Tid} {p : Option Pending}

theorem unique {j : Lid} (h : Reports timed pending t k) (h' : Reports timed pending t j) :
    k = j := by
  rcases h with h | ⟨i, x, h, hx, hxk⟩ <;> rcases h' with h' | ⟨i', y, h', hy, hyk⟩ <;>
    cases h.symm.trans h'
  · rfl
  · cases hx.symm.trans hy
    exact hxk.symm.trans hyk

theorem busy (h : Reports timed pending t k) : pending t ≠ none := by
  rcases h with h | ⟨i, x, h, -⟩ <;> simp [h]

theorem update_iff (hu : u ≠ t) : Reports timed (Function.update pending t p) u k ↔
      Reports timed pending u k := by
  simp only [Reports, Function.update_of_ne hu]

theorem give_iff (x' : Linger) {x₀ : Linger} (h₀ : timed[i]? = some x₀)
    (hk : x'.continuation = x₀.continuation) :
    Reports (timed.set i x') pending t k ↔ Reports timed pending t k := by
  refine or_congr_right ⟨?_, ?_⟩
  · rintro ⟨j, x, hp, hx, rfl⟩
    obtain ⟨y, hy, hxy⟩ := cell_of_give hx h₀ hk
    exact ⟨j, y, hp, hy, hxy.symm⟩
  · rintro ⟨j, y, hp, hy, rfl⟩
    obtain ⟨x, hx, hxy⟩ := cell_give x' h₀ hk hy
    exact ⟨j, x, hp, hx, hxy⟩

theorem make_iff {x' : Linger} (h : Claims timed pending) :
    Reports (timed ++ [x']) pending t k ↔ Reports timed pending t k := by
  have hleft {j : Nat} {x : Linger} (hx : timed[j]? = some x) : (timed ++ [x'])[j]? = some x :=
    (List.getElem?_append_left (List.getElem?_eq_some_iff.mp hx).1).trans hx
  refine or_congr_right ⟨?_, ?_⟩
  · rintro ⟨j, x, hp, hx, rfl⟩
    obtain ⟨y, hy, -⟩ := h.users t j (.inl hp)
    cases hx.symm.trans (hleft hy)
    exact ⟨j, x, hp, hy, rfl⟩
  · rintro ⟨j, y, hp, hy, rfl⟩
    exact ⟨j, y, hp, hleft hy, rfl⟩

end Reports

namespace Inv

/-! A step of the library keeps what is known of every `Linger` it is not about. -/

theorem lt (h : Inv cfg sys timed pending) (hn : cfg.notls = false)
    (hs : Sys.step cfg sys l = some sys') (hk : k < sys.lingers.length) :
    k < sys'.lingers.length := by
  obtain ⟨hg, hl⟩ := linked_reachable hn h.reachable
  exact lt_step hn hg hl hs hk

theorem still (h : Inv cfg sys timed pending) (hn : cfg.notls = false)
    (hs : Sys.step cfg sys l = some sys') (hk : k < sys.lingers.length)
    (hne : touched sys l ≠ some k) : status sys' k = status sys k := by
  obtain ⟨hg, hl⟩ := linked_reachable hn h.reachable
  exact status_untouched hn hg hl hs hk hne

theorem untouched (h : Inv cfg sys timed pending) (hn : cfg.notls = false)
    (hs : Sys.step cfg sys l = some sys') (hk : k < sys.lingers.length)
    (hne : touched sys l ≠ some k) : isCompletion sys' k = isCompletion sys k :=
  isCompletion_congr (h.still hn hs hk hne)

theorem reported_lt (h : Inv cfg sys timed pending) (hr : Reports timed pending t k) :
    k < sys.lingers.length := by
  rcases hr with hp | ⟨i, x, -, hx, rfl⟩
  · exact h.made t k hp
  · exact h.bound i x hx

/-- Another thread than the one that takes the step. -/
theorem came_other (h : Inv cfg sys timed pending) (hn : cfg.notls = false)
    (hs : Sys.step cfg sys l = some sys') (ht : t ≠ l.tid) (hne : touched sys l ≠ some k)
    (hr : Reports timed pending t k) : Came sys' t k := by
  unfold Came
  rw [step_threads_ne hn hs ht]
  intro hc ha hret
  exact (h.came t k hr hc ha hret).untouched (h.still hn hs (h.reported_lt hr) hne)

theorem completed (h : Inv cfg sys timed pending) (hn : cfg.notls = false)
    (hs : Sys.step cfg sys l = some sys') (hd : isDrop l = false) (hk : isCompletion sys k = true) :
    isCompletion sys' k = true := by
  obtain ⟨hg, hl⟩ := linked_reachable hn h.reachable
  obtain ⟨v, tr, hcell⟩ := isCompletion_iff.mp hk
  refine isCompletion_iff.mpr ⟨v, tr, settled_kept hn hg hl hs hcell (.inr ⟨v, rfl⟩) ?_⟩
  rintro t env rfl
  cases hd

theorem cancels (h : Inv cfg sys timed pending) (hn : cfg.notls = false)
    (hs : Sys.step cfg sys l = some sys') (hd : isDrop l = false)
    (hc : isCompletion sys k = true ∨ ∃ why, (sys.threads t).base = .stuck why) :
    isCompletion sys' k = true ∨ ∃ why, (sys'.threads t).base = .stuck why := by
  rcases hc with hc | ⟨why, hb⟩
  · exact .inl (h.completed hn hs hd hc)
  · exact .inr ⟨why, by rw [stuck_step hn hb hs, hb]⟩

/-- A thread outside of C's functions is in no call. -/
theorem ne_free {u : Tid} {c : Call V E} (h : Inv cfg sys timed pending) (hfree : pending t = none)
    (hc : (sys.threads u).call = some c) : u ≠ t := by
  rintro rfl
  exact (h.calls u c hc).busy hfree

theorem ne_idle {u : Tid} {c : Call V E} (h : Inv cfg sys timed pending) (hn : cfg.notls = false)
    (hidle : Sys.idle (sys.threads t) = true) (hc : (sys.threads u).call = some c) : u ≠ t := by
  rintro rfl
  rw [(((linked_reachable hn h.reachable).1.threads u).idle hidle).2.2.1] at hc
  cases hc

/-- The library takes a step that is not about a struct that is free. -/
theorem step (h : Inv cfg sys timed pending) (hn : cfg.notls = false)
    (hs : Sys.step cfg sys l = some sys') (hd : isDrop l = false)
    (hne : ∀ (i : Nat) (x : Linger), timed[i]? = some x → x.user = none →
      touched sys l ≠ some x.continuation)
    (hc : ∀ t c, (sys'.threads t).call = some c → Reports timed pending t c.linger)
    (hcame : ∀ t k, Reports timed pending t k → Came sys' t k) : Inv cfg sys' timed pending where
  reachable := h.reachable.step hs
  claims := h.claims
  calls := hc
  came := hcame
  sound := fun i x hx hu => (h.sound i x hx hu).untouched
    (h.still hn hs (h.bound i x hx) (hne i x hx hu))
  bound := fun i x hx => h.lt hn hs (h.bound i x hx)
  made := fun t k hp => h.lt hn hs (h.made t k hp)
  flag := by
    intro i x hx hu
    rw [h.flag i x hx hu]
    exact (h.untouched hn hs (h.bound i x hx) (hne i x hx hu)).symm
  done := fun i x hx hdone => h.completed hn hs hd (h.done i x hx hdone)
  cancelled := fun t i x hp hx => h.cancels hn hs hd (h.cancelled t i x hp hx)

/-- A struct that is free is not what a step of the library is about. -/
theorem unused {x : Linger} (h : Inv cfg s.sys s.timed s.pending) (hl : Inner s l)
    (hx : s.timed[i]? = some x) (hu : x.user = none) : touched s.sys l ≠ some x.continuation := by
  have hcall {t : Tid} : (s.sys.threads t).call.map Call.linger ≠ some x.continuation := by
    intro ht
    obtain ⟨c, hc, hk⟩ := Option.map_eq_some_iff.mp ht
    rcases h.calls t c hc with hp | ⟨j, y, hp, hy, hyk⟩
    · exact h.claims.fresh t _ hp i x hx hk.symm
    · obtain rfl := h.claims.distinct i j x y hx hy (hk.symm.trans hyk.symm)
      obtain ⟨z, hz, hzu⟩ := h.claims.users t i (.inl hp)
      cases hx.symm.trans hz
      cases hu.symm.trans hzu
  cases l with
  | main t env => exact hcall
  | act t a => exact hcall
  | exit t => nofun
  | _ => exact hl.elim

theorem inner (h : Inv cfg s.sys s.timed s.pending) (hn : cfg.notls = false) (hl : Inner s l)
    (hs : Sys.step cfg s.sys l = some sys) : Inv cfg sys s.timed s.pending := by
  obtain ⟨hg, hlk⟩ := linked_reachable hn h.reachable
  refine h.step hn hs ?_ (fun i x hx hu => h.unused hl hx hu) ?_ ?_
  · cases l with
    | drop => exact hl.elim
    | _ => rfl
  · intro t c hc
    rcases call_from hn hg hs hc with ⟨c₀, hc₀, hk⟩ | ⟨us, env, rfl, -⟩ | ⟨us, env, rfl⟩
    · exact hk ▸ h.calls t c₀ hc₀
    · exact hl.elim
    · exact hl.elim
  · intro t k hr
    -- The thread that takes the step works on another `Linger` than the others.
    have other {u : Tid} (hu : t ≠ u) : (s.sys.threads u).call.map Call.linger ≠ some k := by
      intro he
      obtain ⟨c, hc, rfl⟩ := Option.map_eq_some_iff.mp he
      exact hu (h.claims.reports_unique hr (h.calls u c hc))
    by_cases ht : t = l.tid
    · cases l with
      | main u env =>
        obtain rfl : t = u := ht
        obtain ⟨c, pc, hc, -⟩ := mainStep_cases hs
        cases hr.unique (h.calls t c hc)
        exact came_main hn hg hlk hc hs
      | act u a =>
        obtain rfl : t = u := ht
        exact came_act hs (h.came t k hr)
      | exit u =>
        obtain rfl : t = u := ht
        exact absurd hl hr.busy
      | _ => exact hl.elim
    · refine h.came_other hn hs ht ?_ hr
      cases l with
      | main u env => exact other ht
      | act u a => exact other ht
      | exit u => nofun
      | _ => exact hl.elim

/-- A `launch` is about no `Linger` there is. -/
theorem unmade {us : UInt64} {env : Env} (hk : k < sys.lingers.length) :
    touched sys (.launch t us env) ≠ some k :=
  fun he => Nat.ne_of_gt hk (Option.some.inj he)

theorem panics {us : UInt64} {env : Env} (h : Inv cfg sys timed pending) (hn : cfg.notls = false)
    (hfree : pending t = none) (hs : Sys.step cfg sys (.launch t us env) = some sys')
    (hlen : sys'.lingers.length = sys.lingers.length) : Inv cfg sys' timed pending := by
  refine h.step hn hs rfl (fun i x hx _ => unmade (h.bound i x hx)) ?_ ?_
  · intro u c hc
    rcases call_from hn (linked_reachable hn h.reachable).1 hs hc with
      ⟨c₀, hc₀, hk⟩ | ⟨us', env', -, hk⟩ | ⟨us', env', he⟩
    · exact hk ▸ h.calls u c₀ hc₀
    · have hlt := (linked_reachable hn (h.reachable.step hs)).2.lt_length hc
      rw [hk, hlen] at hlt
      exact absurd hlt (Nat.lt_irrefl _)
    · cases he
  · intro u k hr
    refine h.came_other hn hs ?_ (unmade (h.reported_lt hr)) hr
    rintro rfl
    exact hr.busy hfree

theorem launches {us : UInt64} {env : Env} (h : Inv cfg sys timed pending) (hn : cfg.notls = false)
    (hfree : pending t = none) (hs : Sys.step cfg sys (.launch t us env) = some sys')
    (hlen : sys'.lingers.length ≠ sys.lingers.length) :
    Inv cfg sys' timed (Function.update pending t (some (.launch sys.lingers.length))) where
  reachable := h.reachable.step hs
  claims := h.claims.launch h.bound h.made
  calls := by
    intro u c hc
    rcases call_from hn (linked_reachable hn h.reachable).1 hs hc with
      ⟨c₀, hc₀, hk⟩ | ⟨us', env', he, hk⟩ | ⟨us', env', he⟩
    · exact (Reports.update_iff (h.ne_free hfree hc₀)).mpr (hk ▸ h.calls u c₀ hc₀)
    · cases he
      exact .inl ((Function.update_self ..).trans (by rw [hk]))
    · cases he
  came := by
    intro u k hr
    by_cases hu : u = t
    · subst hu
      cases hr.unique (.inl (Function.update_self ..))
      exact came_launch hn hs
    · rw [Reports.update_iff hu] at hr
      exact h.came_other hn hs hu (unmade (h.reported_lt hr)) hr
  sound := fun i x hx hu =>
    (h.sound i x hx hu).untouched (h.still hn hs (h.bound i x hx) (unmade (h.bound i x hx)))
  bound := fun i x hx => h.lt hn hs (h.bound i x hx)
  made := by
    intro u k hu
    rcases of_update hu with ⟨-, he⟩ | ⟨-, hu⟩
    · cases he
      -- The list has not got shorter.
      by_contra hle
      have hlt : sys'.lingers.length < sys.lingers.length :=
        Nat.lt_of_le_of_ne (Nat.not_lt.mp hle) hlen
      exact Nat.lt_irrefl _ (h.lt hn hs hlt)
    · exact h.lt hn hs (h.made u k hu)
  flag := by
    intro i x hx hu
    rw [h.flag i x hx hu]
    exact (h.untouched hn hs (h.bound i x hx) (unmade (h.bound i x hx))).symm
  done := fun i x hx hd => h.completed hn hs rfl (h.done i x hx hd)
  cancelled := by
    intro u i x hu hx
    rcases of_update hu with ⟨-, he⟩ | ⟨-, hu⟩
    · cases he
    · exact h.cancels hn hs rfl (h.cancelled u i x hu hx)

theorem takes {p : Pending} {done : Bool} (h : Inv cfg sys timed pending) (hn : cfg.notls = false)
    (hfree : pending t = none) (hcell : timed[i]? = some ⟨done, k, none⟩)
    (hl : (∃ us env, l = .resume t k us env) ∧ p = .resume i ∨
      (∃ env, l = .cancel t k env) ∧ p = .cancel i ∧ isContinuation sys k = true)
    (hs : Sys.step cfg sys l = some sys') :
    Inv cfg sys' (timed.set i ⟨done, k, some t⟩) (Function.update pending t (some p)) := by
  have hd : isDrop l = false := by
    rcases hl with ⟨⟨us, env, rfl⟩, -⟩ | ⟨⟨env, rfl⟩, -⟩ <;> rfl
  have htouched : touched sys l = some k := by
    rcases hl with ⟨⟨us, env, rfl⟩, -⟩ | ⟨⟨env, rfl⟩, -⟩ <;> rfl
  have hp : p = .resume i ∨ p = .cancel i := by
    rcases hl with ⟨-, hp⟩ | ⟨-, hp, -⟩
    · exact .inl hp
    · exact .inr hp
  -- The step is about the struct's `Linger`, which no one else works on.
  have hne {j : Lid} (hj : k ≠ j) : touched sys l ≠ some j := by
    rw [htouched]
    exact fun he => hj (Option.some.inj he)
  have htid : l.tid = t := by
    rcases hl with ⟨⟨us, env, rfl⟩, -⟩ | ⟨⟨env, rfl⟩, -⟩ <;> rfl
  have hother {j : Nat} {x : Linger} (hj : j ≠ i) (hx : timed[j]? = some x) : k ≠ x.continuation :=
    fun he => hj (h.claims.distinct j i x _ hx hcell he.symm)
  refine ⟨h.reachable.step hs, ?_, ?_, ?_, ?_, ?_, ?_, ?_, ?_, ?_⟩
  · refine h.claims.give hcell rfl (.inl rfl) ?_
    rintro q ⟨⟩
    exact ⟨hp, rfl⟩
  · intro u c hc
    rcases call_from hn (linked_reachable hn h.reachable).1 hs hc with
      ⟨c₀, hc₀, hk⟩ | ⟨us', env', rfl, -⟩ | ⟨us', env', rfl⟩
    · exact (Reports.update_iff (h.ne_free hfree hc₀)).mpr
        ((Reports.give_iff ⟨done, k, some t⟩ hcell rfl).mpr (hk ▸ h.calls u c₀ hc₀))
    · rcases hl with ⟨⟨_, _, he⟩, -⟩ | ⟨⟨_, he⟩, -⟩ <;> cases he
    · rcases hl with ⟨⟨_, _, he⟩, hp⟩ | ⟨⟨_, he⟩, -⟩
      · cases he
        subst hp
        exact .inr ⟨i, _, Function.update_self ..,
          List.getElem?_set_self (List.getElem?_eq_some_iff.mp hcell).1, rfl⟩
      · cases he
  · intro u j hr
    by_cases hu : u = t
    · subst hu
      rcases hl with ⟨⟨us, env, rfl⟩, rfl⟩ | ⟨-, rfl, -⟩
      · cases hr.unique (.inr ⟨i, _, Function.update_self ..,
          List.getElem?_set_self (List.getElem?_eq_some_iff.mp hcell).1, rfl⟩)
        exact came_resume hn hs (h.sound i ⟨done, k, none⟩ hcell rfl)
      · rcases hr with hr | ⟨_, _, hr, -⟩ <;> rw [Function.update_self] at hr <;> cases hr
    · rw [Reports.update_iff hu, Reports.give_iff ⟨done, k, some t⟩ hcell rfl] at hr
      refine h.came_other hn hs (htid ▸ hu) (hne ?_) hr
      rintro rfl
      rcases hr with hr | ⟨j, x, hr, hx, hxk⟩
      · exact h.claims.fresh u k hr i _ hcell rfl
      · exact h.claims.other hcell (.inl rfl) hu (.inl hr) (h.claims.distinct j i x _ hx hcell hxk)
  · intro j x hx hu
    rcases Tokens.cell_of_set hx with ⟨rfl, rfl⟩ | ⟨hj, hx⟩
    · cases hu
    · exact (h.sound j x hx hu).untouched (h.still hn hs (h.bound j x hx) (hne (hother hj hx)))
  · intro j x hx
    obtain ⟨y, hy, hxy⟩ := cell_of_give hx hcell rfl
    rw [hxy]
    exact h.lt hn hs (h.bound j y hy)
  · intro u j hu
    rcases of_update hu with ⟨-, he⟩ | ⟨-, hu⟩
    · rcases hp with rfl | rfl <;> cases he
    · exact h.lt hn hs (h.made u j hu)
  · intro j x hx hu
    rcases Tokens.cell_of_set hx with ⟨rfl, rfl⟩ | ⟨hj, hx⟩
    · cases hu
    · rw [h.flag j x hx hu]
      exact (h.untouched hn hs (h.bound j x hx) (hne (hother hj hx))).symm
  · intro j x hx hdone
    rcases Tokens.cell_of_set hx with ⟨rfl, rfl⟩ | ⟨-, hx⟩
    · exact h.completed hn hs hd (h.done j ⟨done, k, none⟩ hcell hdone)
    · exact h.completed hn hs hd (h.done j x hx hdone)
  · intro u j x hu hx
    rcases of_update hu with ⟨rfl, he⟩ | ⟨hut, hu⟩
    · rcases hl with ⟨-, hp⟩ | ⟨⟨env, rfl⟩, hp, hcont⟩
      · rw [hp] at he
        cases he
      · rw [hp] at he
        cases he
        rcases Tokens.cell_of_set hx with ⟨-, rfl⟩ | ⟨hj, -⟩
        · exact cancel_step hcont hs
        · exact absurd rfl hj
    · rcases Tokens.cell_of_set hx with ⟨rfl, rfl⟩ | ⟨-, hx⟩
      · exact absurd rfl (h.claims.other hcell (.inl rfl) hut (.inr hu))
      · exact h.cancels hn hs hd (h.cancelled u j x hu hx)

/-- A call of C that is about to return `Ok` has left its `Linger` sound. -/
theorem returned (h : Inv cfg sys timed pending) (hn : cfg.notls = false)
    (hr : Reports timed pending t k) (hidle : Sys.idle (sys.threads t) = true)
    (hret : (sys.threads t).ret = some .ok) : Sound sys k :=
  h.came t k hr (((linked_reachable hn h.reachable).1.threads t).idle hidle).2.2.1
    (alive_of_idle hidle) hret

theorem makes (h : Inv cfg sys timed pending) (hn : cfg.notls = false)
    (hp : pending t = some (.launch k)) (hidle : Sys.idle (sys.threads t) = true)
    (hret : (sys.threads t).ret = some .ok) :
    Inv cfg sys (timed ++ [⟨isCompletion sys k, k, none⟩]) (Function.update pending t none) := by
  have hleft {j : Nat} {x y : Linger} (hx : timed[j]? = some x) : (timed ++ [y])[j]? = some x :=
    (List.getElem?_append_left (List.getElem?_eq_some_iff.mp hx).1).trans hx
  refine ⟨h.reachable, h.claims.make hp, ?_, ?_, ?_, ?_, ?_, ?_, ?_, ?_⟩
  · intro u c hc
    exact (Reports.update_iff (h.ne_idle hn hidle hc)).mpr
      ((Reports.make_iff h.claims).mpr (h.calls u c hc))
  · intro u j hr
    by_cases hu : u = t
    · subst hu
      exact absurd (Function.update_self ..) hr.busy
    · exact h.came u j ((Reports.make_iff h.claims).mp ((Reports.update_iff hu).mp hr))
  · intro j x hx hu
    rcases cell_of_make hx with hx | ⟨-, rfl⟩
    · exact h.sound j x hx hu
    · exact h.returned hn (.inl hp) hidle hret
  · intro j x hx
    rcases cell_of_make hx with hx | ⟨-, rfl⟩
    · exact h.bound j x hx
    · exact h.made t k hp
  · intro u j hu
    rcases of_update hu with ⟨-, he⟩ | ⟨-, hu⟩
    · cases he
    · exact h.made u j hu
  · intro j x hx hu
    rcases cell_of_make hx with hx | ⟨-, rfl⟩
    · exact h.flag j x hx hu
    · rfl
  · intro j x hx hd
    rcases cell_of_make hx with hx | ⟨-, rfl⟩
    · exact h.done j x hx hd
    · exact hd
  · intro u j x hu hx
    rcases of_update hu with ⟨-, he⟩ | ⟨-, hu⟩
    · cases he
    · obtain ⟨y, hy, -⟩ := h.claims.users u j (.inr hu)
      have hxy := (hleft hy).symm.trans hx
      rw [Option.some.injEq] at hxy
      exact h.cancelled u j x hu (hxy ▸ hy)

theorem gives {flag : Lid → Bool} {p : Pending} (h : Inv cfg sys timed pending)
    (hn : cfg.notls = false) (hp : pending t = some p)
    (hkind : p = .resume i ∧ flag = isCompletion sys ∨ p = .cancel i ∧ flag = fun _ => true)
    (hidle : Sys.idle (sys.threads t) = true) (hret : (sys.threads t).ret = some .ok) {x₀ : Linger}
    (hx₀ : timed[i]? = some x₀) :
    Inv cfg sys (timed.set i ⟨flag x₀.continuation, x₀.continuation, none⟩)
      (Function.update pending t none) := by
  have huser : x₀.user = some t := by
    obtain ⟨y, hy, hyu⟩ := h.claims.users t i (by
      rcases hkind with ⟨rfl, -⟩ | ⟨rfl, -⟩
      · exact .inl hp
      · exact .inr hp)
    cases hx₀.symm.trans hy
    exact hyu
  have hcancel (hp : pending t = some (.cancel i)) : isCompletion sys x₀.continuation = true := by
    rcases h.cancelled t i x₀ hp hx₀ with hc | ⟨why, hb⟩
    · exact hc
    · have halive := alive_of_idle hidle
      rw [hb] at halive
      cases halive
  have hflag : flag x₀.continuation = isCompletion sys x₀.continuation := by
    rcases hkind with ⟨-, rfl⟩ | ⟨rfl, rfl⟩
    · rfl
    · exact (hcancel hp).symm
  refine ⟨h.reachable, h.claims.give hx₀ rfl (.inr huser) nofun, ?_, ?_, ?_, ?_, ?_, ?_, ?_, ?_⟩
  · intro u c hc
    exact (Reports.update_iff (h.ne_idle hn hidle hc)).mpr
      ((Reports.give_iff ⟨flag x₀.continuation, x₀.continuation, none⟩ hx₀ rfl).mpr
        (h.calls u c hc))
  · intro u j hr
    by_cases hu : u = t
    · subst hu
      exact absurd (Function.update_self ..) hr.busy
    · exact h.came u j ((Reports.give_iff ⟨flag x₀.continuation, x₀.continuation, none⟩ hx₀ rfl).mp
        ((Reports.update_iff hu).mp hr))
  · intro j x hx hu
    rcases Tokens.cell_of_set hx with ⟨rfl, rfl⟩ | ⟨-, hx⟩
    · rcases hkind with ⟨rfl, -⟩ | ⟨rfl, -⟩
      · exact h.returned hn (.inr ⟨j, x₀, hp, hx₀, rfl⟩) hidle hret
      · exact .inl (hcancel hp)
    · exact h.sound j x hx hu
  · intro j x hx
    obtain ⟨y, hy, hxy⟩ := cell_of_give hx hx₀ rfl
    rw [hxy]
    exact h.bound j y hy
  · intro u j hu
    rcases of_update hu with ⟨-, he⟩ | ⟨-, hu⟩
    · cases he
    · exact h.made u j hu
  · intro j x hx hu
    rcases Tokens.cell_of_set hx with ⟨rfl, rfl⟩ | ⟨-, hx⟩
    · exact hflag
    · exact h.flag j x hx hu
  · intro j x hx hd
    rcases Tokens.cell_of_set hx with ⟨rfl, rfl⟩ | ⟨-, hx⟩
    · exact hflag.symm.trans hd
    · exact h.done j x hx hd
  · intro u j x hu hx
    rcases of_update hu with ⟨-, he⟩ | ⟨hut, hu⟩
    · cases he
    · rcases Tokens.cell_of_set hx with ⟨rfl, rfl⟩ | ⟨-, hx⟩
      · exact absurd rfl (h.claims.other hx₀ (.inr huser) hut (.inr hu))
      · exact h.cancelled u j x hu hx

theorem moves (h : Inv cfg s.sys s.timed s.pending) (hn : cfg.notls = false) (hm : Moves cfg s s') :
    Inv cfg s'.sys s'.timed s'.pending := by
  cases hm with
  | ends e => exact h
  | skips => exact h
  | inner l sys label step => exact h.inner hn label step
  | panics t us env sys free step none => exact h.panics hn free step none
  | launches t us env sys free step made => exact h.launches hn free step made
  | takes t l p i done k sys free cell label step => exact h.takes hn free cell label step
  | makes t k pending idle ret => exact h.makes hn pending idle ret
  | gives t i p flag pending kind idle ret =>
    obtain ⟨x₀, hx₀, -⟩ := h.claims.users t i (by
      rcases kind with ⟨rfl, -⟩ | ⟨rfl, -⟩
      · exact .inl pending
      · exact .inr pending)
    have he : ({ s with pending := Function.update s.pending t none } : St V E).give i flag =
        { s with
          timed := s.timed.set i ⟨flag x₀.continuation, x₀.continuation, none⟩
          pending := Function.update s.pending t none } := by
      simp only [St.give, hx₀]
    rw [he]
    exact h.gives hn pending kind idle ret hx₀

end Inv

theorem inv_reachable (hn : cfg.notls = false) (hr : (machine cfg).Reachable s) :
    Inv cfg s.sys s.timed s.pending := by
  refine LTS.Inductive.reachable (M := machine cfg) (I := fun s => Inv cfg s.sys s.timed s.pending)
    ⟨?_, ?_⟩ s hr
  · rintro s ⟨masks, rfl⟩
    refine ⟨⟨_, [], ⟨masks, rfl⟩, .nil _⟩, ⟨?_, ?_, ?_, ?_⟩, ?_, ?_, ?_, ?_, ?_, ?_, ?_, ?_⟩ <;>
      simp [initial, Reports]
    intro t c hc
    cases hc
  · intro s e s' h hs
    exact h.moves hn (step_moves hs)

/-! ## The flag -/

/-- **`is_complete` tells the truth.** In every state of every run, whatever other
threads do and whatever fails: the flag of a struct that no call works on is set
exactly when the history of its function, which is entered once at most, says that
`schedule` has returned with a value or that the function was cancelled. -/
theorem isComplete_iff (cfg : Cfg V) (hn : cfg.notls = false) (s : St V E)
    (hr : (machine cfg).Reachable s) (i : Nat) (x : Linger) (hx : s.timed[i]? = some x)
    (hu : x.user = none) :
    ∃ l, s.sys.lingers[x.continuation]? = some l ∧ entered l.trace ≤ 1 ∧
      (x.isComplete = true ↔ .cancel ∈ l.trace ∨ ∃ v, verdict l.trace = some (.ok v)) := by
  have h := inv_reachable hn hr
  have hg := (linked_reachable hn h.reachable).1
  rw [h.flag i x hx hu]
  rcases h.sound i x hx hu with hc | ⟨c, tr, hk, hf⟩
  · obtain ⟨v, tr, hk⟩ := isCompletion_iff.mp hc
    refine ⟨_, hk, hg.entries _ _ hk, fun _ => ?_, fun _ => hc⟩
    rcases hg.lingers _ _ hk with hcancel | htr
    · exact .inl hcancel
    · exact .inr ⟨v, verdict_finished htr⟩
  · refine ⟨_, hk, hg.entries _ _ hk, fun hc => ?_, fun hc => ?_⟩
    · obtain ⟨v, tr', hk'⟩ := isCompletion_iff.mp hc
      cases hk.symm.trans hk'
    · rcases hc with hc | ⟨v, hv⟩
      · exact absurd hc (kept_reachable hn h.reachable (status_idle hk))
      · simp [verdict, hf] at hv

/-- A struct that is complete, and its `Linger`. -/
def Complete (s s' : St V E) (i : Nat) (k : Lid) : Prop :=
  ∃ x : Linger, s'.timed[i]? = some x ∧ x.isComplete = true ∧ x.continuation = k ∧
    s'.sys.lingers[k]? = s.sys.lingers[k]?

theorem complete_moves {x : Linger} (h : Inv cfg s.sys s.timed s.pending) (hn : cfg.notls = false)
    (hm : Moves cfg s s') (hx : s.timed[i]? = some x) (hd : x.isComplete = true) :
    Complete s s' i x.continuation := by
  have hdone := h.done i x hx hd
  have hkept {l : Label V E} {sys : Sys V E} (hs : Sys.step cfg s.sys l = some sys)
      (hl : isDrop l = false) : sys.lingers[x.continuation]? = s.sys.lingers[x.continuation]? := by
    obtain ⟨hg, hlk⟩ := linked_reachable hn h.reachable
    obtain ⟨v, tr, hcell⟩ := isCompletion_iff.mp hdone
    rw [hcell]
    refine settled_kept hn hg hlk hs hcell (.inr ⟨v, rfl⟩) ?_
    rintro t env rfl
    cases hl
  cases hm with
  | ends e => exact ⟨x, hx, hd, rfl, rfl⟩
  | skips => exact ⟨x, hx, hd, rfl, rfl⟩
  | inner l sys label step =>
    refine ⟨x, hx, hd, rfl, hkept step ?_⟩
    cases l with
    | drop => exact label.elim
    | _ => rfl
  | panics t us env sys free step none => exact ⟨x, hx, hd, rfl, hkept step rfl⟩
  | launches t us env sys free step made => exact ⟨x, hx, hd, rfl, hkept step rfl⟩
  | takes t l p j done k sys free cell label step =>
    have hl : isDrop l = false := by
      rcases label with ⟨⟨us, env, rfl⟩, -⟩ | ⟨⟨env, rfl⟩, -⟩ <;> rfl
    by_cases hj : j = i
    · subst hj
      cases hx.symm.trans cell
      exact ⟨_, List.getElem?_set_self (List.getElem?_eq_some_iff.mp hx).1, hd, rfl, hkept step hl⟩
    · exact ⟨x, (List.getElem?_set_ne hj).trans hx, hd, rfl, hkept step hl⟩
  | makes t k =>
    exact ⟨x, (List.getElem?_append_left (List.getElem?_eq_some_iff.mp hx).1).trans hx,
      hd, rfl, rfl⟩
  | gives t j p flag pending kind =>
    have hflag : flag x.continuation = true := by
      rcases kind with ⟨-, rfl⟩ | ⟨-, rfl⟩
      · exact hdone
      · rfl
    unfold St.give
    split
    · rename_i y hy
      by_cases hj : j = i
      · subst hj
        cases hx.symm.trans hy
        exact ⟨_, List.getElem?_set_self (List.getElem?_eq_some_iff.mp hx).1, hflag, rfl, rfl⟩
      · exact ⟨x, (List.getElem?_set_ne hj).trans hx, hd, rfl, rfl⟩
    · exact ⟨x, hx, hd, rfl, rfl⟩

/-- **Completion is final.** A flag that is set stays set, and the `Linger` of the
struct stays as it is, through every run: whatever is called on the struct and
whatever happens to the others. -/
theorem isComplete_final (cfg : Cfg V) (hn : cfg.notls = false) (s s' : St V E) (es : List (Ev V E))
    (hr : (machine cfg).Reachable s) (hrun : (machine cfg).Run s es s') (i : Nat) (x : Linger)
    (hx : s.timed[i]? = some x) (hd : x.isComplete = true) : Complete s s' i x.continuation := by
  induction hrun generalizing x with
  | nil s => exact ⟨x, hx, hd, rfl, rfl⟩
  | @cons s s₁ s' e es hs _ ih =>
    obtain ⟨x₁, hx₁, hd₁, hk₁, hl₁⟩ := complete_moves (inv_reachable hn hr) hn (step_moves hs) hx hd
    obtain ⟨x', hx', hd', hk', hl'⟩ := ih (hr.step hs) x₁ hx₁ hd₁
    rw [hk₁] at hk' hl'
    exact ⟨x', hx', hd', hk', hl'.trans hl₁⟩

end

/-- Thread `0` launches a function that returns in its first slice. -/
def returning {E : Type} : List (Ev Bool E) :=
  .launch 0 5 (.fine 0) :: List.replicate 4 (.main 0 (.fine 0)) ++
    List.replicate 10 (.act 0 (.run 0)) ++ .act 0 (.fn (.finish (.ok true))) ::
      List.replicate 6 (.act 0 (.run 0)) ++ [.main 0 (.fine 0), .back 0]

/-- Two lists of events one after the other. -/
theorem machine_run_of_exec (cfg : Cfg V) (es es' : List (Ev V E)) (p : St V E → St V E → Bool)
    (h : ((LTS.exec (step cfg) (initial cfg fun _ => ∅) es).bind fun s =>
      (LTS.exec (LTS.checked (fun _ _ => True) (step cfg)) s es').map (p s)) = some true) :
    ∃ s s', (machine cfg).Reachable s ∧ (machine cfg).Run s es' s' ∧ p s s' = true := by
  obtain ⟨s, s', hr, hrun, hp⟩ : ∃ s s', (machine cfg).Reachable s ∧
      ((machine cfg).only fun _ _ => True).Run s es' s' ∧ p s s' = true :=
        LTS.reach_run_of_exec ⟨_, rfl⟩ h
  exact ⟨s, s', hr, hrun.of_only, hp⟩

/-- Then it launches another, which waits. -/
theorem isComplete_iff_returning : ∃ s : St Bool Bool, (machine Cfg.small).Reachable s ∧
    (∃ l, s.sys.lingers[0]? = some l ∧ (.cancel ∈ l.trace ∨ ∃ v, verdict l.trace = some (.ok v))) ∧
    ∃ l, s.sys.lingers[1]? = some l ∧
      ¬(.cancel ∈ l.trace ∨ ∃ v, verdict l.trace = some (.ok v)) := by
  obtain ⟨s, _, hr, -, hp⟩ := machine_run_of_exec Cfg.small
    (returning ++ [.launch 0 0 (.fine 0), .back 0]) []
    (fun (s _ : St Bool Bool) => decide (s.timed = [Linger.mk true 0 none, Linger.mk false 1 none]))
    (by decide +kernel)
  have ht : s.timed = [⟨true, 0, none⟩, ⟨false, 1, none⟩] := of_decide_eq_true hp
  obtain ⟨l, hl, -, h⟩ := isComplete_iff Cfg.small rfl s hr 0 ⟨true, 0, none⟩ (by rw [ht]; rfl) rfl
  obtain ⟨l', hl', -, h'⟩ := isComplete_iff Cfg.small rfl s hr 1 ⟨false, 1, none⟩
    (by rw [ht]; rfl) rfl
  exact ⟨s, hr, ⟨l, hl, h.mp rfl⟩, l', hl', fun hc => Bool.false_ne_true (h'.mpr hc)⟩

/-- `resume` and `cancel` after that. -/
theorem isComplete_final_returning : ∃ s s' : St Bool Bool,
    (machine Cfg.small).Run s [.resume 0 (some 0) 5 (.fine 0), .back 0,
      .cancel 0 (some 0) (.fine 0)] s' ∧
      Complete s s' 0 0 := by
  obtain ⟨s, s', hr, hrun, hp⟩ := machine_run_of_exec Cfg.small returning
    [.resume 0 (some 0) 5 (.fine 0), .back 0, .cancel 0 (some 0) (.fine 0)]
    (fun (s _ : St Bool Bool) => decide (s.timed[0]? = some (Linger.mk true 0 none)))
      (by decide +kernel)
  exact ⟨s, s', hrun, isComplete_final Cfg.small rfl s s' _ hr hrun 0 ⟨true, 0, none⟩
    (of_decide_eq_true hp) rfl⟩

end Inger.L4.Ffi
