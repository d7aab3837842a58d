import Inger.L3Slice.Good

/-!
# Which thread is inside `resume` with which `Linger`

`resume` borrows its `Linger` mutably, so while a thread is inside the call no
other thread can use the value. In the model the cell of a borrowed `Linger` is
`resuming t g`. `Linked` says that cells and calls agree: a thread's call is
about a cell that names it, and a cell that names a thread is that of its call.
So two threads are never inside `resume` with one `Linger`.
-/
namespace Inger.L3

open L1.Reusable L1.Signals L2

variable {V E : Type}

/-- The `Linger` and group of the call a thread is in. -/
def owned (th : Thread V E) : Option (Lid × Gid) := th.call.map fun c => (c.linger, c.group)

/-- The thread and group of a `Linger` inside `resume`. -/
def cellOwner : Cell V E → Option (Tid × Gid)
  | .resuming t g => some (t, g)
  | _ => none

def owner (s : Sys V E) (k : Lid) : Option (Tid × Gid) :=
  s.lingers[k]?.bind fun l => cellOwner l.cell

def Linked (s : Sys V E) : Prop :=
  ∀ t k g, owned (s.threads t) = some (k, g) ↔ owner s k = some (t, g)

/-! ## Updates -/

section
variable {s s' : Sys V E} {t : Tid} {k : Lid} {g : Gid}

theorem owner_setLinger (l : Linger V E) (j : Lid) :
    owner (s.setLinger k l) j =
      if j = k then (if k < s.lingers.length then cellOwner l.cell else none) else owner s j := by
  simp only [owner, Sys.setLinger, List.getElem?_set]
  by_cases hj : j = k
  · subst hj; simp only [if_true]; split <;> rfl
  · rw [if_neg (Ne.symm hj), if_neg hj]

/-- A cell that is not borrowed afterwards. -/
theorem owner_setLinger_none {l : Linger V E} (hl : cellOwner l.cell = none) (j : Lid) :
    owner (s.setLinger k l) j = if j = k then none else owner s j := by
  rw [owner_setLinger, hl]; simp

theorem owned_setThread (th : Thread V E) (u : Tid) :
    owned ((s.setThread t th).threads u) = if u = t then owned th else owned (s.threads u) := by
  simp only [Sys.setThread, Function.update_apply]; split <;> rfl

theorem owner_abandon (c : Continuation V E) (tr : List (Event V E)) (launching renew : Bool)
    (j : Lid) :
    owner (s.abandon k c tr launching renew) j = if j = k then none else owner s j := by
  unfold Sys.abandon
  split <;> rw [owner_setLinger_none (by rfl)]
  cases hst : c.stateful.stack <;> simp only [owner, Sys.dropContinuation, Sys.freeStack, hst]

theorem lingers_freeStack (o : Option Sid) : (s.freeStack o).lingers = s.lingers := by
  cases o <;> rfl

theorem owner_congr (h : s'.lingers = s.lingers) (j : Lid) : owner s' j = owner s j := by
  rw [owner, owner, h]

theorem Linked.congr (h : Linked s) (ho : ∀ u, owned (s'.threads u) = owned (s.threads u))
    (hb : ∀ j, owner s' j = owner s j) : Linked s' := by
  intro u j g
  rw [ho, hb]
  exact h u j g

/-- A thread enters `resume` with a `Linger` nobody is using. -/
theorem Linked.enter (h : Linked s) (hk : owner s k = none) (ht : owned (s.threads t) = none)
    (ho : ∀ u, owned (s'.threads u) = if u = t then some (k, g) else owned (s.threads u))
    (hb : ∀ j, owner s' j = if j = k then some (t, g) else owner s j) : Linked s' := by
  intro u j g'
  rw [ho, hb]
  by_cases hu : u = t <;> by_cases hj : j = k
  · subst hu; subst hj; simp
  · subst hu
    have := h u j g'
    rw [ht] at this
    simp only [if_true, if_neg hj, ← this]
    simp [Ne.symm hj]
  · subst hj
    have := h u j g'
    rw [hk] at this
    simp only [if_true, if_neg hu, this]
    simp [Ne.symm hu]
  · simp only [if_neg hu, if_neg hj]
    exact h u j g'

/-- A thread leaves `resume`. -/
theorem Linked.leave (h : Linked s) (ht : owned (s.threads t) = some (k, g))
    (ho : ∀ u, owned (s'.threads u) = if u = t then none else owned (s.threads u))
    (hb : ∀ j, owner s' j = if j = k then none else owner s j) : Linked s' := by
  intro u j g'
  have hk : owner s k = some (t, g) := (h t k g).mp ht
  rw [ho, hb]
  by_cases hu : u = t <;> by_cases hj : j = k
  · simp [hu, hj]
  · subst hu
    have := h u j g'
    rw [ht] at this
    simp only [if_true, if_neg hj, ← this]
    simp [Ne.symm hj]
  · subst hj
    have := h u j g'
    rw [hk] at this
    simp only [if_true, if_neg hu, this]
    simp [Ne.symm hu]
  · simp only [if_neg hu, if_neg hj]
    exact h u j g'

/-- A step that changes a thread but not the call it is in. -/
theorem Linked.setThread {th : Thread V E} (h : Linked s) (hb : ∀ j, owner s' j = owner s j)
    (ht : s'.threads = s.threads) (ho : owned th = owned (s.threads t)) :
    Linked (s'.setThread t th) := by
  refine h.congr (fun u => ?_) hb
  rw [owned_setThread, ht]
  split
  · rename_i hu; rw [hu, ho]
  · rfl

end

/-! ## Steps -/

section
variable {cfg : Cfg V} {ok tidy : Prop} {s s' : Sys V E} {t : Tid} {k : Lid} {c : Call V E}
  {env : Env}

theorem owned_call {th : Thread V E} (h : th.call = some c) :
    owned th = some (c.linger, c.group) := by
  rw [owned, h]; rfl

theorem owner_of_cell {l : Linger V E} (h : s.lingers[k]? = some l) :
    owner s k = cellOwner l.cell := by
  rw [owner, h]; rfl

/-- The cell of a call is there: it names the thread. -/
theorem Linked.lt_length (h : Linked s) (hcall : (s.threads t).call = some c) :
    c.linger < s.lingers.length := by
  have ho := (h t c.linger c.group).mp (owned_call hcall)
  simp only [owner, Option.bind_eq_some_iff] at ho
  obtain ⟨l, hl, -⟩ := ho
  exact (List.getElem?_eq_some_iff.mp hl).1

theorem Linked.begin {cont : Continuation V E} {tr : List (Event V E)} {us : UInt64}
    {launching : Bool} (h : Linked s) (hcall : (s.threads t).call = none)
    (hk : s.lingers[k]? = some ⟨.continuation cont, tr⟩)
    (hb : Begin s t k cont tr us launching env s') : Linked s' := by
  have hlt : k < s.lingers.length := (List.getElem?_eq_some_iff.mp hk).1
  have hnone : owner s k = none := owner_of_cell hk
  have habandon : ∀ (s' : Sys V E) (cont' : Continuation V E), s'.lingers = s.lingers →
      ∀ j, owner (s'.abandon k cont' tr launching env.renew) j = owner s j := by
    intro s' cont' hl j
    rw [owner_abandon, owner_congr hl]
    split
    · rename_i hj; rw [hj, hnone]
    · rfl
  cases hb with
  | missing tls => exact h.setThread (habandon s cont rfl) (threads_abandon ..) rfl
  | enters tcb tls installs =>
    refine h.enter (k := k) (t := t) (g := cont.group) hnone (by rw [owned, hcall]; rfl)
      (fun u => ?_) fun j => ?_
    · rw [owned_setThread]; rfl
    · refine (owner_setLinger _ j).trans ?_
      rw [if_pos hlt]; rfl
  | fails tcb tls installs =>
    refine h.setThread (habandon _ _ (lingers_freeStack _)) ?_ rfl
    rw [threads_abandon, threads_freeStack]

/-- `resume` ends early. -/
theorem Linked.failResume {th : Thread V E} {ret : Ret E} (h : Linked s)
    (hs' : s'.lingers = s.lingers) (ht : s'.threads = s.threads)
    (hcall : owned (s.threads t) = some (c.linger, c.group)) :
    Linked (Sys.failResume cfg s' t th c env ret) := by
  have hl : (if cfg.notls = true then s' else s'.freeStack th.vars.task.stack).lingers =
      s.lingers := by
    split <;> simp [lingers_freeStack, hs']
  have hth : (if cfg.notls = true then s' else s'.freeStack th.vars.task.stack).threads =
      s.threads := by
    split <;> simp [threads_freeStack, ht]
  unfold Sys.failResume
  refine h.leave hcall (fun u => ?_) fun j => ?_
  · rw [owned_setThread, threads_abandon, hth]; rfl
  · refine (owner_abandon ..).trans ?_
    rw [owner_congr hl]

/-- `resume` returns. -/
theorem Linked.endResume {th : Thread V E} {ret : Ret E} (h : Linked s)
    (ht : s'.threads = s.threads) (hb : ∀ j, owner s' j = if j = c.linger then none else owner s j)
    (hcall : owned (s.threads t) = some (c.linger, c.group)) :
    Linked (Sys.endResume cfg s' t th c ret) := by
  unfold Sys.endResume
  refine h.leave hcall (fun u => ?_) hb
  rw [owned_setThread, ht]; rfl

theorem lingers_dropContinuation (cont : Continuation V E) (renew : Bool) :
    (s.dropContinuation cont renew).lingers = s.lingers := lingers_freeStack _

/-- Overwriting the cell of the thread's own call with one nobody borrows. -/
theorem owner_overwrite {l : Linger V E} (hs' : s'.lingers = s.lingers)
    (hl : cellOwner l.cell = none) (j : Lid) :
    owner (s'.setLinger k l) j = if j = k then none else owner s j := by
  rw [owner_setLinger_none hl, owner_congr hs']

theorem Linked.leaveStep (h : Linked s) (hcall : (s.threads t).call = some c) :
    Linked (Sys.leaveStep cfg s t (s.threads t) c env) := by
  have ho := owned_call hcall
  have hdrop (cont : Continuation V E) (o : Option Sid) :
      ((s.freeStack o).dropContinuation cont env.renew).threads = s.threads ∧
        ((s.freeStack o).dropContinuation cont env.renew).lingers = s.lingers :=
    ⟨(threads_dropContinuation ..).trans (threads_freeStack o),
      (lingers_dropContinuation ..).trans (lingers_freeStack o)⟩
  have habandon (cont : Continuation V E) (o : Option Sid) (tr : List (Event V E)) (ret : Ret E)
      (th : Thread V E) : Linked (Sys.endResume cfg
        ((s.freeStack o).abandon c.linger cont tr c.launching env.renew) t th c ret) :=
    h.endResume ((threads_abandon ..).trans (threads_freeStack o)) (fun j => by
      rw [owner_abandon, owner_congr (lingers_freeStack o)]) ho
  unfold Sys.leaveStep
  split
  · exact h.failResume rfl rfl ho
  · dsimp only
    split
    · exact h.endResume (threads_freeStack _) (owner_overwrite (lingers_freeStack _) rfl) ho
    · split
      · exact h.endResume (hdrop _ _).1 (owner_overwrite (hdrop _ _).2 rfl) ho
      · refine h.endResume (hdrop _ _).1 (owner_overwrite (hdrop _ _).2 ?_) ho
        cases c.launching <;> rfl
      · exact habandon _ _ _ _ _
      · exact habandon _ _ _ _ _

theorem Linked.advance (h : Linked s) (hcall : (s.threads t).call = some c)
    (hadv : Advance cfg s t c env s') : Linked s' := by
  have ho (c' : Call V E) (hsame : c.Same c') :
      owned (s.threads t) = some (c'.linger, c'.group) := by
    rw [owned_call hcall, hsame.linger, hsame.group]
  cases hadv with
  | goes s₁ th c' shared call same =>
    exact h.setThread (owner_congr shared.lingers) shared.threads
      ((owned_call call).trans (ho c' same).symm)
  | fails s₁ th c' ret shared same => exact h.failResume shared.lingers shared.threads (ho c' same)

/-- A new continuation is nobody's. -/
theorem owner_launched (group : Gid) (p : Pool Gid) (j : Lid) :
    owner (s.launched group p) j = owner s j := by
  simp only [owner, Sys.launched]
  rcases Nat.lt_or_ge j s.lingers.length with hj | hj
  · rw [List.getElem?_append_left hj]
  · rw [List.getElem?_append_right hj, List.getElem?_eq_none hj]
    cases j - s.lingers.length <;> simp [cellOwner]

theorem Linked.launched (h : Linked s) (group : Gid) (p : Pool Gid) : Linked (s.launched group p) :=
  h.congr (fun _ => rfl) (owner_launched group p)

/-- A cell that nobody borrows is overwritten by another one. -/
theorem Linked.overwrite {th : Thread V E} {l l' : Linger V E} (h : Linked s)
    (hk : s.lingers[k]? = some l) (hl : cellOwner l.cell = none) (hl' : cellOwner l'.cell = none)
    (hs' : s'.lingers = s.lingers) (ht : s'.threads = s.threads)
    (ho : owned th = owned (s.threads t)) :
    Linked ((s'.setLinger k l').setThread t th) := by
  refine h.setThread (fun j => ?_) ht ho
  rw [owner_overwrite hs' hl']
  split
  · rename_i hj; rw [hj, owner_of_cell hk, hl]
  · rfl

theorem owned_kept {th th' : Thread V E} (h : Thread.Kept th th') : owned th' = owned th := by
  have hmap : ∀ o : Option (Call V E), (o.map fun c => (c.linger, c.group)) =
      (o.map Call.anon).map fun c => (c.linger, c.group) := by
    intro o; cases o <;> rfl
  rw [owned, owned, hmap, h.call, ← hmap]

theorem linked_step {l : Label V E} (hn : cfg.notls = false) (hg : Good ok tidy s) (h : Linked s)
    (hs : Sys.step cfg s l = some s') : Linked s' := by
  have hcall {t : Tid} (hi : Sys.idle (s.threads t) = true) : (s.threads t).call = none :=
    ((hg.threads t).idle hi).2.2.1
  cases step_change hn hs with
  | returns => exact h.setThread (fun _ => rfl) rfl rfl
  | caught => exact h.setThread (fun _ => rfl) rfl rfl
  | full => exact h.setThread (fun _ => rfl) rfl rfl
  | sets t env group p idle => exact h.setThread (owner_launched group p) rfl rfl
  | launches t us env group p _ idle shared _ _ begin =>
    exact (h.launched group p).begin (hcall idle) (by simp [Sys.launched]) begin
  | resumes t k us env c trace _ idle shared cell begin => exact h.begin (hcall idle) cell begin
  | advances t env c pc _ call base early handlers adv => exact h.advance call adv
  | leaves t env c _ call base handlers left => rw [left]; exact h.leaveStep call
  | acts t a th step =>
    have h' : Linked (s.setThread t th) :=
      h.setThread (fun _ => rfl) rfl (owned_kept (Thread.step_kept step))
    exact h'.congr (fun _ => rfl) fun _ => rfl
  | drops _ t k c trace renew new idle cell label =>
    refine h.overwrite cell rfl ?_ (lingers_dropContinuation ..) (threads_dropContinuation ..) rfl
    rcases label with ⟨_, _, _, rfl⟩ | ⟨_, _, _, rfl⟩ <;> rfl
  | forgets t k env l idle cell done =>
    refine h.overwrite cell ?_ rfl rfl rfl rfl
    rcases done with hd | ⟨v, hd⟩ <;> rw [hd] <;> rfl
  | stays => exact h
  | exits t p idle =>
    have h' : Linked (s.setThread t { s.threads t with signaler := none, base := .exited }) :=
      h.setThread (fun _ => rfl) rfl rfl
    exact h'.congr (fun _ => rfl) fun _ => rfl

theorem linked_init (cfg : Cfg V) (masks : Tid → Sigset) :
    Linked (Sys.initial cfg masks : Sys V E) := by
  intro t k g
  simp [owned, owner, Sys.initial, Thread.initial]

/-- **Exclusive use.** In every reachable state the calls and the borrowed
`Linger`s agree. -/
theorem linked_reachable (hn : cfg.notls = false) (hr : (process cfg).Reachable s) :
    Good False False s ∧ Linked s := by
  refine LTS.Inductive.reachable (I := fun s => Good False False s ∧ Linked s) ⟨?_, ?_⟩ s hr
  · rintro s ⟨masks, rfl⟩; exact ⟨good_init False.elim cfg masks, linked_init cfg masks⟩
  · rintro s l s' ⟨hg, h⟩ hs
    exact ⟨good_step hn hg False.elim False.elim hs, linked_step hn hg h hs⟩

end

end Inger.L3
