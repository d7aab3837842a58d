import Inger.L2Machine.Handler

/-!
# What a step can do

Between taking the TCB and the jump, a step of `resume` either goes on in the
same call or ends it early (`failResume`). `mainStep_advance` says so once, with
everything such a step leaves alone: the other threads, the `Linger`s, the
groups, the TCBs and the ghost marks, and of the call itself all but its task.
The stack is at each moment in the continuation's task, in TASK or in the pool
(`StackBalance`).
-/
namespace Inger.L2

open L1.Reusable L1.Signals

variable {V E : Type}

/-- What only `launch`, the end of `resume`, drop and `cancel` change. -/
structure Sys.SameShared (s s' : Sys V E) : Prop where
  threads : s'.threads = s.threads
  lingers : s'.lingers = s.lingers
  groups : s'.groups = s.groups
  localstores : s'.localstores = s.localstores
  dirty : s'.dirty = s.dirty

theorem Sys.SameShared.refl (s : Sys V E) : s.SameShared s := ⟨rfl, rfl, rfl, rfl, rfl⟩

theorem Sys.SameShared.freeStack {s s' : Sys V E} (h : s.SameShared s') (o : Option Sid) :
    s.SameShared (s'.freeStack o) := by
  cases o
  · exact h
  · exact ⟨h.threads, h.lingers, h.groups, h.localstores, h.dirty⟩

/-- One call, before and after a step of `resume`. -/
structure Call.Same (c c' : Call V E) : Prop where
  linger : c'.linger = c.linger
  group : c'.group = c.group
  functional : c'.functional = c.functional
  launching : c'.launching = c.launching
  other : c'.other = c.other
  trace : c'.trace = c.trace
  errno : c'.task.errno = c.task.errno

theorem Call.Same.refl (c : Call V E) : c.Same c := ⟨rfl, rfl, rfl, rfl, rfl, rfl, rfl⟩

/-! ## Where the stack is -/

/-- The stack of a task, as a bag of at most one. -/
def Task.stackBag (k : Task) : Multiset Sid := (k.stack.toList : List Sid)

/-- With the stacks of a continuation's task, TASK and anything else (`m`), the
pool accounts for all stacks ever made; and so it does after a step. -/
def StackBalance (k k₁ : Task) (p : Pool Sid) (k' k₁' : Task) (p' : Pool Sid) : Prop :=
  ∀ m : Multiset Sid,
    k.stackBag + k₁.stackBag + m + (p.free : Multiset Sid) = produced some p.calls →
    k'.stackBag + k₁'.stackBag + m + (p'.free : Multiset Sid) = produced some p'.calls

theorem StackBalance.refl (k k₁ : Task) (p : Pool Sid) : StackBalance k k₁ p k k₁ p := fun _ h => h

theorem freeStack_conserves {s : Sys V E} (k : Task) (m : Multiset Sid)
    (h : k.stackBag + m + (s.stackPool.free : Multiset Sid) = produced some s.stackPool.calls) :
    m + ((s.freeStack k.stack).stackPool.free : Multiset Sid) =
      produced some (s.freeStack k.stack).stackPool.calls := by
  unfold Task.stackBag at h
  cases hk : k.stack with
  | none => rw [hk] at h; simpa [Sys.freeStack] using h
  | some i =>
    rw [hk] at h
    exact release_conserves some s.stackPool m i (by simpa using h)

/-- A new stack. -/
theorem alloc_conserves (p : Pool Sid) (m : Multiset Sid)
    (h : m + (p.free : Multiset Sid) = produced some p.calls) :
    {(alloc id p).1} + m + ((alloc id p).2.free : Multiset Sid) =
      produced some (alloc id p).2.calls := by
  have ht := tryFrom_conserves (fun i => some (id i)) p m h
  rw [tryFrom_alloc id p] at ht
  simpa using ht

/-! ## The steps -/

/-- A result with which `resume` ends early. -/
def Ret.early : Ret E → Bool
  | .err => true
  | .panic .noSignal => true
  | .panic .missingContinuation => true
  | .panic .invalidContinuation => true
  | .panic .overflow => true
  | _ => false

/-- The outcomes of a step of `resume` before the jump. -/
inductive Advance (cfg : Cfg V) (s : Sys V E) (t : Tid) (c : Call V E) (env : Env) : Sys V E → Prop
  | goes (s₁ : Sys V E) (th : Thread V E) (c' : Call V E) (shared : s.SameShared s₁)
      (call : th.call = some c') (same : c.Same c') (base : th.base ≠ .caller)
      (ret : th.ret = (s.threads t).ret)
      (stack : StackBalance c.task (s.threads t).vars.task s.stackPool c'.task th.vars.task
        s₁.stackPool) :
      Advance cfg s t c env (s₁.setThread t th)
  | fails (s₁ : Sys V E) (th : Thread V E) (c' : Call V E) (ret : Ret E) (shared : s.SameShared s₁)
      (same : c.Same c') (failed : ret.early = true)
      (stack : StackBalance c.task (s.threads t).vars.task s.stackPool c'.task th.vars.task
        s₁.stackPool) :
      Advance cfg s t c env (Sys.failResume cfg s₁ t th c' env ret)

section
variable {cfg : Cfg V} {s s' : Sys V E} {t : Tid} {c : Call V E} {env : Env}

theorem setupStep_advance (hcall : (s.threads t).call = some c) :
    Advance cfg s t c env (Sys.setupStep cfg s t (s.threads t) c env) := by
  have hshared (p : Pool Signal) : s.SameShared { s with signals := p } := ⟨rfl, rfl, rfl, rfl, rfl⟩
  unfold Sys.setupStep
  split
  · exact .goes s _ c (.refl s) hcall (.refl c) (by simp) rfl (.refl _ _ _)
  · split
    · exact .fails _ _ c _ (hshared _) (.refl c) rfl (.refl _ _ _)
    · split
      · exact .goes _ _ c (hshared _) hcall (.refl c) (by simp) rfl (.refl _ _ _)
      · exact .goes _ _ c (hshared _) hcall (.refl c) (by simp [Thread.fail]) rfl (.refl _ _ _)

theorem stackStep_advance (hcall : (s.threads t).call = some c) :
    Advance cfg s t c env (Sys.stackStep cfg s t (s.threads t) c env) := by
  unfold Sys.stackStep
  split
  · exact .goes s _ c (.refl s) hcall (.refl c) (by simp) rfl (.refl _ _ _)
  · rename_i herr
    have hshared (p : Pool Sid) : s.SameShared { s with stackPool := p } :=
      ⟨rfl, rfl, rfl, rfl, rfl⟩
    dsimp only
    split
    · -- The new stack is in the task, whatever was there goes back.
      have hbal (v : Vars) (hv : v.task = (s.threads t).vars.task) :
          StackBalance c.task (s.threads t).vars.task s.stackPool
            { c.task with
              checkpoint := some ⟨(alloc id s.stackPool).1, (s.threads t).mask, .entry⟩ } v.task
          (Sys.freeStack { s with stackPool := (alloc id s.stackPool).2 }
            c.task.stack).stackPool := by
        intro m h
        rw [hv]
        refine freeStack_conserves (s := { s with stackPool := (alloc id s.stackPool).2 })
          c.task _ ?_
        have hnew : Task.stackBag { c.task with
            checkpoint := some ⟨(alloc id s.stackPool).1, (s.threads t).mask, .entry⟩ } =
          {(alloc id s.stackPool).1} := rfl
        dsimp only
        rw [hnew, ← alloc_conserves s.stackPool _ h]
        ac_rfl
      split
      · exact .goes _ _ _ ((hshared _).freeStack _) rfl ⟨rfl, rfl, rfl, rfl, rfl, rfl, rfl⟩
          (by simp [Thread.fail]) rfl (hbal (s.threads t).vars rfl)
      · exact .goes _ _ _ ((hshared _).freeStack _) rfl ⟨rfl, rfl, rfl, rfl, rfl, rfl, rfl⟩
          (by simp) rfl (hbal _ rfl)
    · refine .fails _ _ c _ (hshared _) (.refl c) rfl fun m h => ?_
      exact release_conserves some _ _ _ (by
        have := alloc_conserves s.stackPool _ h
        rw [← this])

/-- `get_or_insert` takes the stack out of the continuation's task: it is in TASK
from here on, or back in the pool if TASK had one. -/
theorem getOrInsert_balance {ctx : Context} {k k' : Task} {v : Vars}
    (hck : k.stack = some ctx.stack) (hk : k'.checkpoint = none)
    (hv : v.task.stack = some (s.getOrInsert (s.threads t).vars.task.checkpoint ctx).2.stack) :
    StackBalance k (s.threads t).vars.task s.stackPool k' v.task
      (s.getOrInsert (s.threads t).vars.task.checkpoint ctx).1.stackPool := by
  intro m h
  have h0 : k'.stackBag = 0 := by simp [Task.stackBag, Task.stack, hk]
  have h1 : v.task.stackBag =
      {(s.getOrInsert (s.threads t).vars.task.checkpoint ctx).2.stack} := by
    rw [Task.stackBag, hv]; rfl
  rw [h0, h1, zero_add]
  cases hvars : (s.threads t).vars.task.checkpoint with
  | none =>
    have h2 : (s.threads t).vars.task.stackBag = 0 := by simp [Task.stackBag, Task.stack, hvars]
    have h3 : k.stackBag = {ctx.stack} := by rw [Task.stackBag, hck]; rfl
    rwa [h2, h3, add_zero] at h
  | some own =>
    have h2 : (s.threads t).vars.task.stackBag = {own.stack} := by
      simp [Task.stackBag, Task.stack, hvars]
    rw [h2, add_assoc k.stackBag] at h
    have hfree := freeStack_conserves k _ h
    rwa [hck] at hfree

theorem getOrInsert_shared (ck : Option Context) (ctx : Context) :
    s.SameShared (s.getOrInsert ck ctx).1 := by
  cases ck
  · exact .refl s
  · exact (Sys.SameShared.refl s).freeStack (some ctx.stack)

/-- The jump keeps the stack in TASK. -/
theorem jump_advance {s₁ : Sys V E} {th : Thread V E} {c' : Call V E} {ctx : Context}
    (hshared : s.SameShared s₁) (hret : th.ret = (s.threads t).ret) (hsame : c.Same c')
    (hbal : ∀ v : Vars, v.task.stack = some ctx.stack → StackBalance c.task (s.threads t).vars.task
      s.stackPool c'.task v.task s₁.stackPool) :
    Advance cfg s t c env (s₁.setThread t (Sys.jump th c' ctx)) := by
  refine .goes s₁ _ c' hshared ?_ hsame ?_ ?_ (hbal _ ?_)
  · unfold Sys.jump; dsimp only; split <;> rfl
  · unfold Sys.jump; dsimp only; split <;> simp [Thread.fail]
  · unfold Sys.jump; dsimp only; split <;> exact hret
  · unfold Sys.jump; dsimp only; split <;> rfl

theorem switchStep_advance (hcall : (s.threads t).call = some c) :
    Advance cfg s t c env (Sys.switchStep cfg s t (s.threads t) c env) := by
  unfold Sys.switchStep
  split
  · exact .fails s _ c _ (.refl s) (.refl c) rfl (.refl _ _ _)
  · rename_i ctx hck
    have hstack : c.task.stack = some ctx.stack := by rw [Task.stack, hck]; rfl
    have hsame (link : Sigset) (error : Bool) : c.Same
        { c with task := { c.task with checkpoint := none }, link := link, error := error } :=
      ⟨rfl, rfl, rfl, rfl, rfl, rfl, rfl⟩
    have hshared := getOrInsert_shared (s := s) (s.threads t).vars.task.checkpoint ctx
    have hbal (v : Vars) (k : Task) (hk : k.checkpoint = none)
        (hv : v.task.stack = some (s.getOrInsert (s.threads t).vars.task.checkpoint ctx).2.stack) :=
      getOrInsert_balance hstack hk hv
    dsimp only
    split
    · split
      · exact .goes s _ c (.refl s) hcall (.refl c) (by simp [Thread.fail]) rfl (.refl _ _ _)
      · split
        · split
          · exact jump_advance hshared rfl (hsame _ _) fun v => hbal v _ rfl
          · exact .fails _ _ _ _ hshared (hsame _ _) rfl (hbal _ _ rfl rfl)
          · exact .fails _ _ _ _ hshared (hsame _ _) rfl (hbal _ _ rfl rfl)
        · split
          · exact .goes _ _ _ hshared rfl (hsame _ _) (by simp [Thread.fail]) rfl (hbal _ _ rfl rfl)
          · split
            · exact .fails _ _ _ _ hshared (hsame _ _) rfl (hbal _ _ rfl rfl)
            · split
              · exact jump_advance hshared rfl (hsame _ _) fun v => hbal v _ rfl
              · exact .fails _ _ _ _ hshared (hsame _ _) rfl (hbal _ _ rfl rfl)
              · exact .fails _ _ _ _ hshared (hsame _ _) rfl (hbal _ _ rfl rfl)
    · refine .fails _ _ _ _ ((Sys.SameShared.refl s).freeStack _) (hsame _ _) rfl fun m h => ?_
      have h1 : Task.stackBag { c.task with checkpoint := none } = 0 := rfl
      rw [h1, zero_add, ← hstack]
      exact freeStack_conserves c.task _ (by rw [← h]; ac_rfl)

/-- **One step of `resume` before the jump** goes on or ends the call. -/
theorem mainStep_advance {pc : MainPc} (hcall : (s.threads t).call = some c)
    (hbase : (s.threads t).base = .main pc) (hpc : pc ≠ .leave)
    (hs : Sys.mainStep cfg s t env = some s') : Advance cfg s t c env s' := by
  simp only [Sys.mainStep, hbase, hcall] at hs
  split at hs <;> cases hs
  all_goals rename_i heq hc; cases hc; cases heq
  · exact setupStep_advance hcall
  · exact .goes s _ c (.refl s) rfl (.refl c) (by simp) rfl (.refl _ _ _)
  · exact stackStep_advance hcall
  · exact switchStep_advance hcall
  · exact absurd rfl hpc

/-- A step of `resume` on the caller's stack: one before the jump, or the
last. -/
theorem mainStep_cases (hs : Sys.mainStep cfg s t env = some s') :
    ∃ c pc, (s.threads t).call = some c ∧ (s.threads t).base = .main pc ∧
      (s.threads t).handlers = [] ∧ (Advance cfg s t c env s' ∧ pc ≠ .leave ∨
        pc = .leave ∧ s' = Sys.leaveStep cfg s t (s.threads t) c env) := by
  have hs' := hs
  simp only [Sys.mainStep] at hs
  split at hs <;> cases hs
  all_goals rename_i c hr hh hb hc
  · exact ⟨c, _, hc, hb, hh, .inl ⟨mainStep_advance hc hb (by simp) hs', by simp⟩⟩
  · exact ⟨c, _, hc, hb, hh, .inl ⟨mainStep_advance hc hb (by simp) hs', by simp⟩⟩
  · exact ⟨c, _, hc, hb, hh, .inl ⟨mainStep_advance hc hb (by simp) hs', by simp⟩⟩
  · exact ⟨c, _, hc, hb, hh, .inl ⟨mainStep_advance hc hb (by simp) hs', by simp⟩⟩
  · exact ⟨c, _, hc, hb, hh, .inr ⟨rfl, rfl⟩⟩

end

end Inger.L2
