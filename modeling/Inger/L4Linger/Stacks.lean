import Inger.L3Slice.Fate
import Inger.L4Linger.Groups

/-!
# Resources follow the state of the `Linger`

As with groups, every execution stack is in exactly one place (`StacksOk`): the
pool, the task of a continuation, or, while a thread is inside `resume`, the
borrowed task or the TASK thread-local. `limit_exact` puts groups, stacks and
slots for TCBs together: continuations hold distinct groups, one that has been
started and has not finished holds exactly one stack, and `launch` panics with
"too many active timed functions" exactly when `Group::limit()` `Linger`s are
continuations.
-/
namespace Inger.L4

open L1.Reusable L1.Signals L2 L3 Tokens

variable {V E : Type}

/-- The stacks a thread inside `resume` has. -/
def callStacks (th : Thread V E) : Multiset Sid :=
  match th.call with
  | some c => c.task.stackBag + th.vars.task.stackBag
  | none => 0

/-- The stacks of a `Linger`. -/
def stackBag (threads : Tid → Thread V E) (l : Linger V E) : Multiset Sid :=
  match l.cell with
  | .continuation c => c.stateful.stackBag
  | .resuming t _ => callStacks (threads t)
  | _ => 0

/-- Stacks held and stacks free are the stacks made. -/
def StacksOk (s : Sys V E) : Prop :=
  held (stackBag s.threads) s.lingers + (s.stackPool.free : Multiset Sid) =
    produced some s.stackPool.calls

section
variable {cfg : Cfg V} {ok tidy : Prop} {s s' : Sys V E} {t : Tid} {k : Lid} {l l' : Linger V E}
  {c : Call V E} {env : Env}

theorem held_congr {f g : Linger V E → Multiset Sid} {ls : List (Linger V E)}
    (h : ∀ l ∈ ls, f l = g l) :
    held f ls = held g ls := by
  rw [held, held, List.map_congr_left h]

/-- No `Linger` that is at rest sees a thread. -/
theorem stackBag_congr {f g : Tid → Thread V E}
    (h : ∀ t γ, l.cell = .resuming t γ → callStacks (f t) = callStacks (g t)) :
    stackBag f l = stackBag g l := by
  obtain ⟨cell, tr⟩ := l
  cases cell with
  | resuming t γ => exact h t γ rfl
  | _ => rfl

/-- A thread changes, but not the stacks it has. -/
theorem StacksOk.setThread {th : Thread V E} (h : StacksOk s)
    (hth : callStacks th = callStacks (s.threads t)) : StacksOk (s.setThread t th) := by
  have hbag : held (stackBag (s.setThread t th).threads) s.lingers = held (stackBag s.threads)
      s.lingers := by
    refine held_congr fun l _ => stackBag_congr fun u _ _ => ?_
    by_cases hu : u = t
    · subst hu; rw [threads_setThread_self]; exact hth
    · rw [threads_setThread_ne th hu]
  exact (congrArg (· + _) hbag).trans h

/-- At most the cell `k` names the thread `t`. -/
def Names (s : Sys V E) (t : Tid) (k : Lid) : Prop :=
  ∀ (j : Lid) (l : Linger V E) γ, s.lingers[j]? = some l → l.cell = .resuming t γ → j = k

theorem names_call (h : Linked s) (hcall : (s.threads t).call = some c) : Names s t c.linger := by
  intro j l γ hj hcell
  have ho := (h t j γ).mpr (by rw [owner_of_cell hj, hcell]; rfl)
  rw [owned_call hcall] at ho
  cases ho
  rfl

theorem names_idle (h : Linked s) (hcall : (s.threads t).call = none) (k : Lid) : Names s t k := by
  intro j l γ hj hcell
  have ho := (h t j γ).mpr (by rw [owner_of_cell hj, hcell]; rfl)
  rw [owned, hcall] at ho
  cases ho

/-- One cell changes, and with it what the thread has that the cell names. -/
theorem StacksOk.change (h : StacksOk s) (l' : Linger V E) (hk : s.lingers[k]? = some l)
    (hnames : Names s t k) (hs' : s'.lingers = s.lingers.set k l')
    (ht : ∀ u, u ≠ t → s'.threads u = s.threads u)
    (hbal : ∀ m : Multiset Sid,
      stackBag s.threads l + m + (s.stackPool.free : Multiset Sid) =
        produced some s.stackPool.calls →
      stackBag s'.threads l' + m + (s'.stackPool.free : Multiset Sid) =
        produced some s'.stackPool.calls) :
    StacksOk s' := by
  have hi : k < s.lingers.length := (List.getElem?_eq_some_iff.mp hk).1
  obtain ⟨m, hm, hm'⟩ : ∃ m, held (stackBag s.threads) s.lingers = stackBag s.threads l + m ∧
      held (stackBag s'.threads) (s.lingers.set k l') = stackBag s'.threads l' + m := by
    refine held_change hk (List.getElem?_set_self hi) fun j hj => ?_
    rw [List.getElem?_set_ne (Ne.symm hj)]
    cases hl₁ : s.lingers[j]? with
    | none => rfl
    | some l₁ =>
      refine congrArg some (stackBag_congr fun u γ hu => ?_)
      have hut : u ≠ t := by
        rintro rfl
        exact hj (hnames j l₁ γ hl₁ hu)
      rw [ht u hut]
  rw [StacksOk, hs', hm']
  exact hbal m (by rw [← hm]; exact h)

/-! ## What is left of a continuation -/

/-- The cell of a failed `resume`. -/
def abandoned (cont : Continuation V E) (tr : List (Event V E)) (launching : Bool) : Linger V E :=
  if launching then ⟨.dropped, tr⟩ else ⟨.continuation cont, tr⟩

theorem lingers_abandon {cont : Continuation V E} {tr : List (Event V E)} {launching renew : Bool} :
    (s.abandon k cont tr launching renew).lingers =
      s.lingers.set k (abandoned cont tr launching) := by
  unfold Sys.abandon abandoned
  split
  · simp only [Sys.setLinger, lingers_dropContinuation]
  · rfl

theorem abandon_conserves {cont : Continuation V E} {tr : List (Event V E)} {launching renew : Bool}
    (threads : Tid → Thread V E) (m : Multiset Sid)
    (h : cont.stateful.stackBag + m + (s.stackPool.free : Multiset Sid) = produced
      some s.stackPool.calls) :
    stackBag threads (abandoned cont tr launching) + m +
        ((s.abandon k cont tr launching renew).stackPool.free : Multiset Sid) =
      produced some (s.abandon k cont tr launching renew).stackPool.calls := by
  unfold Sys.abandon abandoned
  cases launching with
  | true => exact (congrArg (· + _) (zero_add m)).trans (freeStack_conserves cont.stateful m h)
  | false => exact h

theorem StacksOk.begin {cont : Continuation V E} {tr : List (Event V E)} {us : UInt64}
    {launching : Bool} (h : StacksOk s) (hl : Linked s) (hi : (s.threads t).call = none)
    (hk : s.lingers[k]? = some ⟨.continuation cont, tr⟩) (hrest : ∀ v, cont.tls = some v → Rest v)
    (hb : Begin s t k cont tr us launching env s') : StacksOk s' := by
  have hnames := names_idle hl hi k
  have hthreads := fun u (hu : u ≠ t) => hb.threads_ne hu
  cases hb with
  | missing =>
    exact h.change _ hk hnames lingers_abandon hthreads fun m hm => abandon_conserves _ m hm
  | enters tcb tls =>
    refine h.change _ hk hnames rfl hthreads fun m hm => ?_
    have hbag : tcb.task.stackBag = 0 := by rw [(hrest tcb tls).task]; rfl
    have hth : stackBag (Function.update s.threads t
        { s.threads t with
          vars := tcb
          call := some ⟨k, cont.functional, cont.stateful, cont.group, us, launching, false, ∅,
            (s.threads t).vars, tr⟩
          base := .main .setup }) (⟨.resuming t cont.group, tr⟩ : Linger V E) =
            cont.stateful.stackBag := by
      simp only [stackBag, Function.update_self, callStacks, hbag, add_zero]
    exact (congrArg (· + m + _) hth).trans hm
  | fails tcb tls =>
    have hnone : tcb.task.stack = none := by rw [(hrest tcb tls).task]; rfl
    rw [hnone]
    rw [hnone] at hthreads
    refine h.change _ hk hnames lingers_abandon hthreads fun m hm => ?_
    exact abandon_conserves (s := s) _ m hm

theorem stackBag_call {γ : Gid} {tr : List (Event V E)} (hcall : (s.threads t).call = some c) :
    stackBag s.threads (⟨.resuming t γ, tr⟩ : Linger V E) =
      c.task.stackBag + (s.threads t).vars.task.stackBag := by
  simp only [stackBag, callStacks, hcall]

/-- `resume` ends early: TASK's stack goes back to the pool. -/
theorem StacksOk.failResume {s₁ : Sys V E} {th : Thread V E} {c' : Call V E} {ret : Ret E}
    (hn : cfg.notls = false) (h : StacksOk s) (hl : Linked s) (hcall : (s.threads t).call = some c)
    (shared : s.SameShared s₁) (hc : c'.linger = c.linger)
    (hbal : StackBalance c.task (s.threads t).vars.task s.stackPool c'.task th.vars.task
      s₁.stackPool) :
    StacksOk (Sys.failResume cfg s₁ t th c' env ret) := by
  obtain ⟨tr, hk⟩ := cell_of_call hl hcall
  have hthreads (u : Tid) (hu : u ≠ t) :
      (Sys.failResume cfg s₁ t th c' env ret).threads u = s.threads u := by
    rw [threads_failResume_ne hu, shared.threads]
  simp only [Sys.failResume, hn, Bool.false_eq_true, if_false] at hthreads ⊢
  refine h.change (abandoned ⟨c'.functional, c'.task, c'.group, none⟩ c'.trace c'.launching) hk
    (names_call hl hcall) ?_ hthreads fun m hm => ?_
  · refine lingers_abandon.trans ?_
    rw [lingers_freeStack, shared.lingers, hc]
  · rw [stackBag_call hcall] at hm
    refine abandon_conserves _ m ?_
    refine freeStack_conserves th.vars.task (c'.task.stackBag + m) ?_
    rw [← hbal m hm]
    ac_rfl

theorem StacksOk.advance (hn : cfg.notls = false) (h : StacksOk s) (hl : Linked s)
    (hcall : (s.threads t).call = some c) (hadv : Advance cfg s t c env s') : StacksOk s' := by
  have hthreads := fun u (hu : u ≠ t) => hadv.threads_ne hu
  cases hadv with
  | goes s₁ th c' shared call same base ret stack =>
    obtain ⟨tr, hk⟩ := cell_of_call hl hcall
    refine h.change ⟨.resuming t c.group, tr⟩ hk (names_call hl hcall) ?_ hthreads fun m hm => ?_
    · refine shared.lingers.trans ?_
      obtain ⟨hi, he⟩ := List.getElem?_eq_some_iff.mp hk
      rw [← he, List.set_getElem_self]
    · rw [stackBag_call hcall] at hm
      rw [stackBag_call (c := c') (by rw [threads_setThread_self]; exact call),
        threads_setThread_self]
      exact stack m hm
  | fails s₁ th c' ret shared same failed stack =>
    exact h.failResume hn hl hcall shared same.linger stack

theorem stackBag_settled (threads : Tid → Thread V E) (launching : Bool) (r : Except E V)
    (tr : List (Event V E)) : stackBag threads ⟨settledCell launching r, tr⟩ = 0 := by
  cases r with
  | ok v => rfl
  | error e => cases launching <;> rfl

/-- The last step of `resume`: the stack goes to the paused continuation, or to
the pool. -/
theorem StacksOk.left (hn : cfg.notls = false) (h : StacksOk s) (hg : Good ok tidy s)
    (hl : Linked s) (hcall : (s.threads t).call = some c)
    (hbase : (s.threads t).base = .main .leave) (hleft : Left cfg s t c env s') : StacksOk s' := by
  obtain ⟨tr, hk⟩ := cell_of_call hl hcall
  have hcore := hg.threads t
  simp only [Core, hbase, hcall] at hcore
  obtain ⟨-, -, -, -, hlv⟩ := hcore
  have hnone : c.task.stackBag = 0 := by rw [Task.stackBag, Task.stack, hlv.taken]; rfl
  cases hleft with
  | fails => exact h.failResume hn hl hcall (.refl s) rfl (.refl _ _ _)
  | paused e st m b hs y error task =>
    refine h.change _ hk (names_call hl hcall) rfl (fun u hu => threads_setThread_ne _ hu)
      fun m hm => ?_
    rw [stackBag_call hcall, hnone, zero_add, task] at hm
    exact hm
  | settled ctx y r error task =>
    refine h.change ⟨settledCell c.launching r, c.trace⟩ hk (names_call hl hcall) ?_
      (fun u hu => ?_) fun m hm => ?_
    · simp only [Sys.setThread, Sys.setLinger, lingers_dropContinuation, lingers_freeStack]
    · rw [threads_setThread_ne _ hu]
      exact congrFun (threads_freeStack (some ctx.stack)) u
    · rw [stackBag_call hcall, hnone, zero_add] at hm
      rw [stackBag_settled, zero_add]
      have hstack : (s.threads t).vars.task.stack = some ctx.stack := by rw [task]; rfl
      rw [← hstack]
      exact freeStack_conserves (s.threads t).vars.task m hm

theorem StacksOk.of_eq (h : StacksOk s) (ht : s'.threads = s.threads) (hl : s'.lingers = s.lingers)
    (hp : s'.stackPool = s.stackPool) : StacksOk s' := by
  rw [StacksOk, ht, hl, hp]; exact h

/-- A new continuation has no stack. -/
theorem StacksOk.launched (h : StacksOk s) (group : Gid) (p : Pool Gid) :
    StacksOk (s.launched group p) := by
  have hbag : held (stackBag s.threads) (s.launched group p).lingers = held (stackBag s.threads)
      s.lingers := by
    rw [Sys.launched, held_append, held_cons, held_nil]
    exact add_zero _
  exact (congrArg (· + _) hbag).trans h

theorem callStacks_kept {th th' : Thread V E} (h : Thread.Kept th th') :
    callStacks th' = callStacks th := by
  have hstack : th'.vars.task.stackBag = th.vars.task.stackBag := by
    rw [Task.stackBag, Task.stackBag, h.stack]
  unfold callStacks
  cases hc' : th'.call with
  | none =>
    have := h.call
    rw [hc', Option.map_none, eq_comm, Option.map_eq_none_iff] at this
    rw [this]
  | some c' =>
    obtain ⟨c, hc, -, -, htask⟩ := h.exists_call hc'
    simp only [hc, htask, hstack]

theorem stacksOk_step {lab : Label V E} (hn : cfg.notls = false) (hg : Good ok tidy s)
    (hl : Linked s) (h : StacksOk s) (hs : Sys.step cfg s lab = some s') : StacksOk s' := by
  have hcall {t : Tid} (hi : Sys.idle (s.threads t) = true) : (s.threads t).call = none :=
    ((hg.threads t).idle hi).2.2.1
  cases step_change hn hs with
  | returns => exact h.setThread rfl
  | caught => exact h.setThread rfl
  | full t us env p =>
    have h' : StacksOk { s with groups := p } := h.of_eq rfl rfl rfl
    exact h'.setThread rfl
  | sets t env group p => exact (h.launched group p).setThread rfl
  | launches t us env group p _ idle shared budget hp begin =>
    exact (h.launched group p).begin (hl.launched group p) (hcall idle) (by simp [Sys.launched])
      (hg.cell_launched 0 group).slot.2 begin
  | resumes t k us env cont tr _ idle shared cell begin =>
    exact h.begin hl (hcall idle) cell (hg.lingers k _ cell).slot.2 begin
  | advances t env c pc _ call base early handlers adv => exact h.advance hn hl call adv
  | leaves t env c _ call base handlers left =>
    exact h.left hn hg hl call base (leaveStep_left hn hg call base left)
  | acts t a th step =>
    have h' : StacksOk (s.setThread t th) := h.setThread (callStacks_kept (Thread.step_kept step))
    exact h'.of_eq rfl rfl rfl
  | drops _ t k cont tr renew new idle cell label =>
    refine h.change new cell (names_idle hl (hcall idle) k) ?_ (fun u hu => ?_) fun m hm => ?_
    · simp only [Sys.setThread, Sys.setLinger, lingers_dropContinuation]
    · rw [threads_setThread_ne _ hu]
      exact congrFun (threads_dropContinuation cont renew) u
    · have hnew : stackBag (((s.dropContinuation cont renew).setLinger k new).setThread t
          { s.threads t with ret := some (Sys.dropRet cont renew) }).threads new = 0 := by
        rcases label with ⟨_, _, _, rfl⟩ | ⟨_, _, _, rfl⟩ <;> rfl
      rw [hnew, zero_add]
      exact freeStack_conserves cont.stateful m hm
  | forgets t k env l idle cell done =>
    refine h.change ⟨.dropped, l.trace⟩ cell (names_idle hl (hcall idle) k) rfl
      (fun u hu => threads_setThread_ne _ hu) fun m hm => ?_
    have hold : stackBag s.threads l = 0 := by
      rcases done with hd | ⟨v, hd⟩ <;> simp [stackBag, hd]
    rw [hold] at hm
    exact hm
  | stays => exact h
  | exits t p idle =>
    have h' : StacksOk (s.setThread t { s.threads t with signaler := none, base := .exited }) :=
      h.setThread rfl
    exact h'.of_eq rfl rfl rfl

theorem stacksOk_init (cfg : Cfg V) (masks : Tid → Sigset) :
    StacksOk (Sys.initial cfg masks : Sys V E) :=
  prealloc_conserves some cfg.limit .new 0 rfl

theorem stacksOk_reachable (hn : cfg.notls = false) (hr : (process cfg).Reachable s) :
    Good False False s ∧ Linked s ∧ StacksOk s := by
  refine LTS.Inductive.reachable (I := fun s => Good False False s ∧ Linked s ∧ StacksOk s)
    ⟨?_, ?_⟩ s hr
  · rintro s ⟨masks, rfl⟩
    exact ⟨good_init False.elim cfg masks, linked_init cfg masks, stacksOk_init cfg masks⟩
  · rintro s lab s' ⟨hg, hl, h⟩ hs
    exact ⟨good_step hn hg False.elim False.elim hs, linked_step hn hg hl hs,
      stacksOk_step hn hg hl h hs⟩

theorem StacksOk.nodup (h : StacksOk s) :
    (held (stackBag s.threads) s.lingers + (s.stackPool.free : Multiset Sid)).Nodup := by
  rw [h]
  refine produced_nodup fun i _ j _ v hi hj => ?_
  exact (Option.some.inj hi).trans (Option.some.inj hj).symm

end

/-! ## The limit -/

/-- A `Linger` in the continuation state, at rest or borrowed by `resume`. -/
def isLive (l : Linger V E) : Bool :=
  match l.cell with
  | .continuation _ => true
  | .resuming _ _ => true
  | _ => false

/-- How many `Linger`s are continuations. -/
def live (s : Sys V E) : Nat := s.lingers.countP isLive

theorem card_held (ls : List (Linger V E)) : (held groupBag ls).card = ls.countP isLive := by
  induction ls with
  | nil => rfl
  | cons l ls ih =>
    rw [held_cons, Multiset.card_add, ih, List.countP_cons, Nat.add_comm]
    obtain ⟨cell, tr⟩ := l
    cases cell <;> rfl

/-- What is assumed of libgotcha: `Group::new` makes `Group::limit()` distinct
groups and then none. -/
structure Yields (cfg : Cfg V) : Prop where
  distinct : ∀ n, Distinct cfg.newGroup n
  some : ∀ i < cfg.limit, (cfg.newGroup i).isSome = true
  none : ∀ i, cfg.limit ≤ i → cfg.newGroup i = none

section
variable {cfg : Cfg V} {ok tidy : Prop} {s s' : Sys V E} {t : Tid} {k : Lid} {l : Linger V E}
  {c : Call V E} {env : Env}

theorem Yields.card_made (h : Yields cfg) (n : Nat) :
    (produced cfg.newGroup n).card = min n cfg.limit := by
  induction n with
  | zero => simp [produced]
  | succ n ih =>
    rw [produced_succ, Multiset.card_add, ih]
    rcases Nat.lt_or_ge n cfg.limit with hn | hn
    · obtain ⟨g, hg⟩ := Option.isSome_iff_exists.mp (h.some n hn)
      simp only [hg, Option.toList_some, Multiset.coe_singleton, Multiset.card_singleton]
      omega
    · simp only [h.none n hn, Option.toList_none, Multiset.coe_nil, Multiset.card_zero]
      omega

/-- No group is left exactly when `limit` `Linger`s have one. -/
theorem GroupsOk.exhausted_iff (h : GroupsOk cfg s) (hy : Yields cfg) :
    (tryFrom cfg.newGroup s.groups).1 = none ↔ live s = cfg.limit := by
  have hcard := congrArg Multiset.card h.groups
  rw [Multiset.card_add, card_held, Multiset.coe_card, hy.card_made] at hcard
  rw [tryFrom_fails_iff, live]
  constructor
  · rintro ⟨hfree, hnone⟩
    have hcalls : cfg.limit ≤ s.groups.calls := by
      by_contra hlt
      have := hy.some s.groups.calls (by omega)
      rw [hnone] at this
      cases this
    rw [hfree, List.length_nil] at hcard
    omega
  · intro hlive
    refine ⟨List.eq_nil_of_length_eq_zero (by omega), hy.none _ (by omega)⟩

/-- `launch` fails for want of a group. -/
def TooMany (s s' : Sys V E) (t : Tid) : Prop :=
  (s'.threads t).ret = some (.panic .tooMany) ∧ s'.lingers.length = s.lingers.length

theorem tooMany_iff {us : UInt64} (hn : cfg.notls = false) (hy : Yields cfg) (hg : Good ok True s)
    (h : GroupsOk cfg s) (hs : Sys.step cfg s (.launch t us env) = some s') :
    TooMany s s' t ↔ live s = cfg.limit := by
  rw [← h.exhausted_iff hy]
  cases launchStep_change hn hs with
  | returns _ u k idle label => rcases label with ⟨_, _, h⟩ | ⟨_, h⟩ <;> cases h
  | caught _ u tid idle _ pre =>
    rw [((hg.threads u).idle idle).2.2.2.2.2 trivial] at pre
    cases pre
  | full _ _ _ p idle hp =>
    exact ⟨fun _ => by rw [hp], fun _ => ⟨congrArg Thread.ret (threads_setThread_self _), rfl⟩⟩
  | sets _ env group p idle hp =>
    refine ⟨fun h => ?_, fun h => by rw [hp] at h; cases h⟩
    have := h.2
    simp [Sys.setThread, Sys.launched] at this
  | launches _ _ _ group p _ idle shared budget hp begin =>
    refine ⟨fun h => ?_, fun h => by rw [hp] at h; cases h⟩
    have := h.2
    rw [begin_length begin] at this
    simp [Sys.launched] at this
  | drops _ u k cont tr renew new idle cell label =>
    rcases label with ⟨_, h, _⟩ | ⟨_, h, _⟩ <;> cases h

/-! ## One stack -/

theorem card_stackBag {y : Task} (h : y.checkpoint.isSome = true) : y.stackBag.card = 1 := by
  obtain ⟨ctx, hctx⟩ := Option.isSome_iff_exists.mp h
  simp [Task.stackBag, Task.stack, hctx]

theorem stackBag_none {y : Task} (h : y.checkpoint = none) : y.stackBag = 0 := by
  simp [Task.stackBag, Task.stack, h]

/-- or in TASK. -/
theorem card_installed {th : Thread V E} (hcall : th.call = some c) (hc : c.task.checkpoint = none)
    (hv : th.vars.task.checkpoint.isSome = true) : (callStacks th).card = 1 := by
  simp only [callStacks, hcall, Multiset.card_add, card_stackBag hv, stackBag_none hc]
  rfl

theorem Running.card {th : Thread V E} (h : Running th c) (hcall : th.call = some c) :
    (callStacks th).card = 1 := by
  obtain ⟨st, hck⟩ := h.checkpoint
  exact card_installed hcall h.taken (by rw [hck]; rfl)

end

instance (cfg : Cfg V) (s : Sys V E) : (l : Label V E) → Decidable (Tidy cfg s l)
  | .launch _ _ _ => isTrue trivial
  | .resume _ _ _ env => inferInstanceAs (Decidable (EnvFine env))
  | .main t env =>
    match hc : (s.threads t).call with
    | none => isTrue fun c h => by rw [hc] at h; cases h
    | some c => decidable_of_iff (c.launching = false → EnvFine env ∧
          (cfg.overflowChecks = true → (s.threads t).StampFits env.now))
        ⟨fun h c' hc' => by rw [hc] at hc'; cases hc'; exact h, fun h => h c hc⟩
  | .act _ _ => isTrue trivial
  | .drop _ _ _ => isTrue trivial
  | .cancel _ _ _ => isTrue trivial
  | .erase _ _ => isTrue trivial
  | .exit _ => isTrue trivial

end Inger.L4
