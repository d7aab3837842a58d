import Inger.L3Slice.Rest

/-!
# Who holds which group

Every group `Group::new` has made is in exactly one place: the `assign_group`
free list, a continuation, or the call of a thread that is inside `resume` with
one (`GroupsOk`). It stays so through every failure.

A group is dirty from the moment a function is paused in it until the function
finishes or `renew` of the group returns true. `clean_groups`: while every
`renew` returns true no dirty group is free, so no `launch` gets one.
`unrenewed_group_is_reused`: the destructor of a continuation only asserts that
`renew` returned true; when it did not, the panic leaves by the same field drops,
and the next `launch` gets the group.
-/
namespace Inger.L4

open L1.Reusable L1.Signals L2 L3 Tokens

variable {V E : Type}

/-- The group of a `Linger`. -/
def groupBag (l : Linger V E) : Multiset Gid :=
  match l.cell with
  | .continuation c => {c.group}
  | .resuming _ g => {g}
  | _ => 0

/-- Groups held and groups free are the groups made. With its group a `Linger`
has a slot of LOCALSTORES. -/
structure GroupsOk (cfg : Cfg V) (s : Sys V E) : Prop where
  groups : held groupBag s.lingers + (s.groups.free : Multiset Gid) =
    produced cfg.newGroup s.groups.calls
  slots : (held groupBag s.lingers).card + s.localstores.free.length = s.localstores.calls

section
variable {cfg : Cfg V} {ok tidy : Prop} {s s' : Sys V E} {t : Tid} {k : Lid} {l l' : Linger V E}
  {c : Call V E} {env : Env}

theorem GroupsOk.of_eq (h : GroupsOk cfg s) (hl : s'.lingers = s.lingers)
    (hg : s'.groups = s.groups) (hp : s'.localstores = s.localstores) : GroupsOk cfg s' :=
  ⟨by rw [hl, hg]; exact h.groups, by rw [hl, hp]; exact h.slots⟩

/-- A cell changes, but not its group. -/
theorem GroupsOk.keeps (h : GroupsOk cfg s) (hk : s.lingers[k]? = some l)
    (hb : groupBag l' = groupBag l) (hl : s'.lingers = s.lingers) (hg : s'.groups = s.groups)
    (hp : s'.localstores = s.localstores) :
    GroupsOk cfg (s'.setLinger k l') := by
  obtain ⟨m, hm, hm'⟩ := held_set (f := groupBag) hk l'
  have hbag : held groupBag (s'.setLinger k l').lingers = held groupBag s.lingers := by
    rw [Sys.setLinger, hl, hm', hb, ← hm]
  exact ⟨by rw [hbag]; exact hg ▸ h.groups, by rw [hbag]; exact hp ▸ h.slots⟩

/-- A cell gives its group and slot back. -/
theorem GroupsOk.frees {g : Gid} (tls : Option Vars) (h : GroupsOk cfg s)
    (hk : s.lingers[k]? = some l) (hb : groupBag l = {g}) (hb' : groupBag l' = 0)
    (hl : s'.lingers = s.lingers) (hg : s'.groups = release s.groups g)
    (hp : s'.localstores = release s.localstores tls) :
    GroupsOk cfg (s'.setLinger k l') := by
  obtain ⟨m, hm, hm'⟩ := held_set (f := groupBag) hk l'
  have hbag : held groupBag (s'.setLinger k l').lingers = m := by
    rw [Sys.setLinger, hl, hm', hb', zero_add]
  rw [hb] at hm
  constructor
  · rw [hbag]
    refine hg ▸ release_conserves cfg.newGroup s.groups m g ?_
    rw [← hm]
    exact h.groups
  · have hslots := h.slots
    rw [hm, Multiset.card_add, Multiset.card_singleton] at hslots
    rw [hbag, show (s'.setLinger k l').localstores = release s.localstores tls from hp]
    simp only [release, List.length_cons]
    omega

theorem localstores_freeStack (o : Option Sid) : (s.freeStack o).localstores = s.localstores := by
  cases o <;> rfl

theorem groups_freeStack (o : Option Sid) : (s.freeStack o).groups = s.groups := by cases o <;> rfl

theorem GroupsOk.abandon {cont : Continuation V E} {tr : List (Event V E)} {launching renew : Bool}
    (h : GroupsOk cfg s) (hk : s.lingers[k]? = some l) (hb : groupBag l = {cont.group}) :
    GroupsOk cfg (s.abandon k cont tr launching renew) := by
  unfold Sys.abandon
  split
  · exact h.frees cont.tls hk hb rfl (lingers_dropContinuation cont renew) rfl rfl
  · exact h.keeps hk hb.symm rfl rfl rfl

theorem GroupsOk.freeStack (h : GroupsOk cfg s) (o : Option Sid) : GroupsOk cfg (s.freeStack o) :=
  h.of_eq (lingers_freeStack o) (groups_freeStack o) (localstores_freeStack o)

theorem GroupsOk.setThread (h : GroupsOk cfg s) (th : Thread V E) :
    GroupsOk cfg (s.setThread t th) :=
  h.of_eq rfl rfl rfl

/-- The group of a call is that of its cell. -/
theorem cell_of_call (hl : Linked s) (hcall : (s.threads t).call = some c) :
    ∃ tr, s.lingers[c.linger]? = some ⟨.resuming t c.group, tr⟩ := by
  have ho := (hl t c.linger c.group).mp (owned_call hcall)
  simp only [owner, Option.bind_eq_some_iff] at ho
  obtain ⟨⟨cell, tr⟩, hk, hcell⟩ := ho
  cases cell <;> cases hcell
  exact ⟨tr, hk⟩

theorem GroupsOk.begin {cont : Continuation V E} {tr : List (Event V E)} {us : UInt64}
    {launching : Bool} (h : GroupsOk cfg s) (hk : s.lingers[k]? = some ⟨.continuation cont, tr⟩)
    (hb : Begin s t k cont tr us launching env s') : GroupsOk cfg s' := by
  cases hb with
  | missing => exact (h.abandon hk rfl).setThread _
  | enters => exact GroupsOk.setThread (GroupsOk.keeps h hk (by rfl) rfl rfl rfl) _
  | fails tcb =>
    have hk' : (s.freeStack tcb.task.stack).lingers[k]? = some ⟨.continuation cont, tr⟩ := by
      rw [lingers_freeStack]; exact hk
    exact GroupsOk.setThread (GroupsOk.abandon (h.freeStack _) hk' (by rfl)) _

theorem GroupsOk.failResume {th : Thread V E} {ret : Ret E} (h : GroupsOk cfg s)
    (hk : s.lingers[c.linger]? = some l) (hb : groupBag l = {c.group}) :
    GroupsOk cfg (Sys.failResume cfg s t th c env ret) := by
  unfold Sys.failResume
  refine GroupsOk.setThread ?_ _
  split
  · exact h.abandon hk hb
  · refine (h.freeStack _).abandon ?_ hb
    rw [lingers_freeStack]
    exact hk

/-- A group is assigned. -/
theorem GroupsOk.launched {group : Gid} {p : Pool Gid} (h : GroupsOk cfg s)
    (hp : tryFrom cfg.newGroup s.groups = (some group, p)) : GroupsOk cfg (s.launched group p) := by
  have hbag : held groupBag (s.launched group p).lingers = {group} + held groupBag s.lingers := by
    simp only [Sys.launched, held_append, held_cons, held_nil, groupBag, add_zero]
    exact add_comm _ _
  constructor
  · have := tryFrom_conserves cfg.newGroup s.groups _ h.groups
    rw [hp] at this
    rw [hbag]
    exact this
  · have := alloc_count (fun _ => some Vars.fresh) s.localstores _ h.slots
    rw [hbag, Multiset.card_add, Multiset.card_singleton]
    exact this

theorem groupBag_settled (launching : Bool) (r : Except E V) (tr : List (Event V E)) :
    groupBag ⟨settledCell launching r, tr⟩ = 0 := by
  cases r with
  | ok v => rfl
  | error e => cases launching <;> rfl

theorem groupsOk_step {lab : Label V E} (hn : cfg.notls = false) (hg : Good ok tidy s)
    (hl : Linked s) (h : GroupsOk cfg s) (hs : Sys.step cfg s lab = some s') : GroupsOk cfg s' := by
  cases step_change hn hs with
  | returns => exact h.setThread _
  | caught => exact h.setThread _
  | full t us env p idle hp =>
    have := tryFrom_conserves cfg.newGroup s.groups _ h.groups
    rw [hp] at this
    have h' : GroupsOk cfg { s with groups := p } := ⟨by simpa using this, h.slots⟩
    exact h'.setThread _
  | sets t env group p idle hp => exact (h.launched hp).setThread _
  | launches t us env group p _ idle shared budget hp begin =>
    exact (h.launched hp).begin (by simp [Sys.launched]) begin
  | resumes t k us env cont tr _ idle shared cell begin => exact h.begin cell begin
  | advances t env c pc _ call base early handlers adv =>
    obtain ⟨tr, hk⟩ := cell_of_call hl call
    cases adv with
    | goes s₁ th c' shared =>
      exact (h.of_eq shared.lingers shared.groups shared.localstores).setThread _
    | fails s₁ th c' ret shared same =>
      have hk' : s₁.lingers[c'.linger]? = some ⟨.resuming t c.group, tr⟩ := by
        rw [shared.lingers, same.linger]; exact hk
      exact (h.of_eq shared.lingers shared.groups shared.localstores).failResume hk'
        (by rw [same.group]; rfl)
  | leaves t env c _ call base handlers left =>
    obtain ⟨tr, hk⟩ := cell_of_call hl call
    cases leaveStep_left hn hg call base left with
    | fails => exact h.failResume hk rfl
    | paused => exact GroupsOk.setThread (GroupsOk.keeps h hk (by rfl) rfl rfl rfl) _
    | settled ctx y r =>
      refine GroupsOk.setThread (h.frees (some { (s.threads t).vars with task := .default }) hk rfl
        (groupBag_settled c.launching r c.trace) ?_ ?_ ?_) _
      · exact (lingers_dropContinuation ..).trans (lingers_freeStack _)
      · exact congrArg (release · c.group) (groups_freeStack _)
      · exact congrArg (release · _) (localstores_freeStack _)
  | acts => exact h.of_eq rfl rfl rfl
  | drops _ t k cont tr renew new idle cell label =>
    refine GroupsOk.setThread (h.frees cont.tls cell rfl ?_ (lingers_dropContinuation cont renew)
      rfl rfl) _
    rcases label with ⟨_, _, _, rfl⟩ | ⟨_, _, _, rfl⟩ <;> rfl
  | forgets t k env x idle cell done =>
    refine GroupsOk.setThread (h.keeps cell ?_ rfl rfl rfl) _
    rcases done with hd | ⟨v, hd⟩ <;> simp [groupBag, hd]
  | stays => exact h
  | exits => exact h.of_eq rfl rfl rfl

theorem groupsOk_init (cfg : Cfg V) (masks : Tid → Sigset) :
    GroupsOk cfg (Sys.initial cfg masks : Sys V E) where
  groups := rfl
  slots := by
    have h := prealloc_conserves (fun _ => some (some Vars.fresh)) cfg.limit .new 0 rfl
    have hcard := congrArg Multiset.card h
    rw [zero_add, card_produced] at hcard
    exact (Nat.zero_add _).trans hcard

/-- **No group is lost or held twice**, whatever fails. -/
theorem groupsOk_reachable (hn : cfg.notls = false) (hr : (process cfg).Reachable s) :
    Good False False s ∧ Linked s ∧ GroupsOk cfg s := by
  refine LTS.Inductive.reachable (I := fun s => Good False False s ∧ Linked s ∧ GroupsOk cfg s)
    ⟨?_, ?_⟩ s hr
  · rintro s ⟨masks, rfl⟩
    exact ⟨good_init False.elim cfg masks, linked_init cfg masks, groupsOk_init cfg masks⟩
  · rintro s lab s' ⟨hg, hl, h⟩ hs
    exact ⟨good_step hn hg False.elim False.elim hs, linked_step hn hg hl hs,
      groupsOk_step hn hg hl h hs⟩

/-! ## Distinct groups -/

theorem GroupsOk.nodup (h : GroupsOk cfg s) (hd : ∀ n, Distinct cfg.newGroup n) :
    (held groupBag s.lingers + (s.groups.free : Multiset Gid)).Nodup := by
  rw [h.groups]; exact produced_nodup (hd _)

/-- Two cells do not hold one group, -/
theorem GroupsOk.unique (h : GroupsOk cfg s) (hd : ∀ n, Distinct cfg.newGroup n)
    {i j : Lid} {g : Gid} (hi : s.lingers[i]? = some l) (hj : s.lingers[j]? = some l')
    (hg : g ∈ groupBag l) (hg' : g ∈ groupBag l') : i = j :=
  held_unique (h.nodup hd) hi hj hg hg'

/-- and a group that is held is not free. -/
theorem GroupsOk.not_free (h : GroupsOk cfg s) (hd : ∀ n, Distinct cfg.newGroup n) {g : Gid}
    (hk : s.lingers[k]? = some l) (hg : g ∈ groupBag l) : g ∉ s.groups.free :=
  held_not_free (h.nodup hd) hk hg

theorem GroupsOk.made (h : GroupsOk cfg s) {g : Gid} (hk : s.lingers[k]? = some l)
    (hg : g ∈ groupBag l) :
    g ∈ produced cfg.newGroup s.groups.calls := by
  obtain ⟨m, hm⟩ := held_split (f := groupBag) hk
  rw [← h.groups, hm]
  exact Multiset.mem_add.mpr (.inl (Multiset.mem_add.mpr (.inl hg)))

end

/-! ## Dirty groups -/

/-- The group of a continuation without saved errno is clean. -/
def CellClean (dirty : Gid → Bool) (l : Linger V E) : Prop :=
  match l.cell with
  | .continuation c => c.stateful.errno = none → dirty c.group = false
  | _ => True

/-- Of a call in progress: its group is clean once the function has finished,
and before its first pause. -/
structure CallClean (dirty : Gid → Bool) (base : Base) (c : Call V E) : Prop where
  finished : finishes c.trace = 1 → dirty c.group = false
  fresh : base.unpaused = true → c.task.errno = none → dirty c.group = false

/-- The saved errno says which groups may be dirty, and those that are free or
not made yet are clean. -/
structure Clean (cfg : Cfg V) (s : Sys V E) : Prop where
  cells : ∀ (k : Lid) (l : Linger V E), s.lingers[k]? = some l → CellClean s.dirty l
  calls : ∀ t c, (s.threads t).call = some c → CallClean s.dirty (s.threads t).base c
  free : ∀ g ∈ s.groups.free, s.dirty g = false
  made : ∀ g, s.dirty g = true → g ∈ produced cfg.newGroup s.groups.calls

/-- Whenever `Group::renew` is called it returns true. It is called when a
continuation with a saved errno is dropped. -/
def Renews (s : Sys V E) : Label V E → Prop
  | .drop _ k env => renewed k env
  | .cancel _ k env => renewed k env
  | _ => True
where
  renewed (k : Lid) (env : Env) : Prop :=
    match s.lingers[k]? with
    | some ⟨.continuation c, _⟩ => c.stateful.errno.isSome = true → env.renew = true
    | _ => True

section
variable {cfg : Cfg V} {ok tidy : Prop} {s s' : Sys V E} {t : Tid} {k : Lid} {l : Linger V E}
  {c : Call V E} {env : Env}

theorem CallClean.mono {dirty dirty' : Gid → Bool} {base : Base} (h : CallClean dirty base c)
    (hd : ∀ g, dirty g = false → dirty' g = false) : CallClean dirty' base c :=
  ⟨fun hf => hd _ (h.finished hf), fun hb he => hd _ (h.fresh hb he)⟩

theorem CellClean.mono {dirty dirty' : Gid → Bool} (h : CellClean dirty l)
    (hd : ∀ g, dirty g = false → dirty' g = false) : CellClean dirty' l := by
  obtain ⟨cell, tr⟩ := l
  cases cell with
  | continuation c => exact fun he => hd _ (h he)
  | _ => trivial

theorem Clean.of_eq (h : Clean cfg s) (ht : s'.threads = s.threads) (hl : s'.lingers = s.lingers)
    (hg : s'.groups = s.groups) (hd : s'.dirty = s.dirty) : Clean cfg s' :=
  ⟨by rw [hl, hd]; exact h.cells, by rw [ht, hd]; exact h.calls, by rw [hg, hd]; exact h.free,
    by rw [hg, hd]; exact h.made⟩

theorem Clean.freeStack (h : Clean cfg s) (o : Option Sid) : Clean cfg (s.freeStack o) := by
  cases o <;> exact h.of_eq rfl rfl rfl rfl

theorem Clean.setThread {th : Thread V E} (h : Clean cfg s)
    (hth : ∀ c, th.call = some c → CallClean s.dirty th.base c) : Clean cfg (s.setThread t th) where
  cells := h.cells
  calls u c hc := by
    by_cases hu : u = t
    · subst hu
      rw [threads_setThread_self] at hc ⊢
      exact hth c hc
    · rw [threads_setThread_ne th hu] at hc ⊢
      exact h.calls u c hc
  free := h.free
  made := h.made

/-- A thread that is in no call afterwards. -/
theorem Clean.idle {th : Thread V E} (h : Clean cfg s) (hc : th.call = none) :
    Clean cfg (s.setThread t th) :=
  h.setThread fun c hc' => by rw [hc] at hc'; cases hc'

theorem Clean.setLinger (h : Clean cfg s) (hl : CellClean s.dirty l) :
    Clean cfg (s.setLinger k l) where
  cells := forall_setLinger (P := fun _ l' => CellClean s.dirty l') h.cells hl
  calls := h.calls
  free := h.free
  made := h.made

/-- The destructor of a continuation: a group that may be dirty is renewed. -/
theorem Clean.dropContinuation {cont : Continuation V E} {renew : Bool} (h : Clean cfg s)
    (hc : cont.stateful.errno = none → s.dirty cont.group = false)
    (hr : cont.stateful.errno.isSome = true → renew = true) :
    Clean cfg (s.dropContinuation cont renew) := by
  have hdirty : (s.dropContinuation cont renew).dirty = if cont.stateful.errno.isSome && renew then
      Function.update s.dirty cont.group false else s.dirty := rfl
  -- Marks are only removed.
  have hless (g : Gid) (hg : s.dirty g = false) :
      (s.dropContinuation cont renew).dirty g = false := by
    rw [hdirty]
    split
    · rw [Function.update_apply]; split <;> [rfl; exact hg]
    · exact hg
  have hgroup : (s.dropContinuation cont renew).dirty cont.group = false := by
    cases he : cont.stateful.errno with
    | none => exact hless _ (hc he)
    | some e => rw [hdirty, he, hr (by rw [he]; rfl)]; exact Function.update_self ..
  refine ⟨?_, ?_, ?_, ?_⟩
  · rw [lingers_dropContinuation]
    exact fun k l hk => (h.cells k l hk).mono hless
  · rw [threads_dropContinuation]
    exact fun t c hcall => (h.calls t c hcall).mono hless
  · intro g hg
    rcases List.mem_cons.mp hg with rfl | hg
    · exact hgroup
    · exact hless g (h.free g hg)
  · intro g hg
    cases hd : s.dirty g with
    | true => exact h.made g hd
    | false => rw [hless g hd] at hg; cases hg

theorem Clean.abandon {cont : Continuation V E} {tr : List (Event V E)} {launching renew : Bool}
    (h : Clean cfg s) (hc : cont.stateful.errno = none → s.dirty cont.group = false)
    (hl : launching = true → cont.stateful.errno = none) :
    Clean cfg (s.abandon k cont tr launching renew) := by
  unfold Sys.abandon
  split
  · rename_i hlaunch
    refine Clean.setLinger (h.dropContinuation hc fun he => ?_) trivial
    rw [hl hlaunch] at he
    cases he
  · exact h.setLinger hc

/-- A group that `launch` is given is clean: it was free, or it is new. -/
theorem Clean.assigned {group : Gid} {p : Pool Gid} (h : Clean cfg s)
    (hd : ∀ n, Distinct cfg.newGroup n) (hp : tryFrom cfg.newGroup s.groups = (some group, p)) :
    s.dirty group = false := by
  unfold tryFrom at hp
  split at hp
  · rename_i g rest hfree
    cases hp
    exact h.free group (by rw [hfree]; exact List.mem_cons_self)
  · simp only [Prod.mk.injEq] at hp
    obtain ⟨hnew, -⟩ := hp
    cases hdirty : s.dirty group with
    | false => rfl
    | true =>
      obtain ⟨i, hi, hgi⟩ := mem_produced.mp (h.made group hdirty)
      have := hd (s.groups.calls + 1) i (by omega) s.groups.calls (by omega) group hgi hnew
      omega

/-- What `try_from` leaves of the pool. -/
theorem Clean.pool {o : Option Gid} {p : Pool Gid} (h : Clean cfg s)
    (hp : tryFrom cfg.newGroup s.groups = (o, p)) :
    (∀ g ∈ p.free, s.dirty g = false) ∧ ∀ g, s.dirty g = true →
      g ∈ produced cfg.newGroup p.calls := by
  unfold tryFrom at hp
  split at hp <;> rename_i hfree <;> cases hp
  · exact ⟨fun g hg => h.free g (by rw [hfree]; exact List.mem_cons_of_mem _ hg), h.made⟩
  · refine ⟨h.free, fun g hg => ?_⟩
    rw [produced_succ]
    exact Multiset.mem_add.mpr (.inl (h.made g hg))

theorem Clean.launched {group : Gid} {p : Pool Gid} (h : Clean cfg s)
    (hd : ∀ n, Distinct cfg.newGroup n) (hp : tryFrom cfg.newGroup s.groups = (some group, p)) :
    Clean cfg (s.launched group p) where
  cells := forall_append (P := fun _ l' => CellClean s.dirty l') h.cells fun _ => h.assigned hd hp
  calls := h.calls
  free := (h.pool hp).1
  made := (h.pool hp).2

/-! ### Steps -/

theorem dirty_freeStack (o : Option Sid) : (s.freeStack o).dirty = s.dirty := by cases o <;> rfl

theorem Traced.unfinished {f : Completion V E} {tr : List (Event V E)} (h : Traced false f tr) :
    finishes tr ≠ 1 := by
  rw [h.finishes]; exact Nat.zero_ne_one

theorem Clean.begin {cont : Continuation V E} {tr : List (Event V E)} {us : UInt64}
    {launching : Bool} (h : Clean cfg s) (hi : (s.threads t).call = none)
    (hcell : CellOk ok tidy k (⟨.continuation cont, tr⟩ : Linger V E))
    (hc : cont.stateful.errno = none → s.dirty cont.group = false)
    (hl : launching = true → cont.stateful.errno = none)
    (hb : Begin s t k cont tr us launching env s') : Clean cfg s' := by
  cases hb with
  | missing => exact (h.abandon hc hl).idle hi
  | enters tcb tls =>
    have htr : finishes tr ≠ 1 := Traced.unfinished (hcell.2.2 tcb tls).2.2
    refine Clean.setThread (Clean.setLinger h trivial) ?_
    rintro _ ⟨⟩
    exact ⟨fun hf => absurd hf htr, fun _ he => hc he⟩
  | fails tcb =>
    refine Clean.idle (Clean.abandon (h.freeStack _) ?_ hl) hi
    rw [dirty_freeStack]
    exact hc

theorem Clean.failResume {th : Thread V E} {ret : Ret E} (h : Clean cfg s)
    (hc : c.task.errno = none → s.dirty c.group = false)
    (hl : c.launching = true → c.task.errno = none) :
    Clean cfg (Sys.failResume cfg s t th c env ret) := by
  unfold Sys.failResume
  refine Clean.idle ?_ rfl
  split
  · exact h.abandon hc hl
  · refine (h.freeStack _).abandon ?_ hl
    rw [dirty_freeStack]
    exact hc

/-- A step of `resume` before the jump. -/
theorem Clean.advance {pc : MainPc} (h : Clean cfg s) (hg : Good ok tidy s)
    (hcall : (s.threads t).call = some c) (hbase : (s.threads t).base = .main pc)
    (hpc : pc ≠ .leave) (hadv : Advance cfg s t c env s') : Clean cfg s' := by
  have hcore := hg.threads t
  simp only [Core, hbase, hcall] at hcore
  have hun : (s.threads t).base.unpaused = true := by
    rw [hbase]; cases pc <;> first | rfl | exact absurd rfl hpc
  have hfresh := (h.calls t c hcall).fresh hun
  have hfin := (h.calls t c hcall).finished
  cases hadv with
  | goes s₁ th c' shared call same =>
    refine (h.of_eq shared.threads shared.lingers shared.groups shared.dirty).setThread ?_
    intro c₁ hc₁
    obtain rfl : c' = c₁ := Option.some.inj (call.symm.trans hc₁)
    rw [shared.dirty]
    refine ⟨fun hf => ?_, fun _ he => ?_⟩
    · rw [same.group]; exact hfin (same.trace ▸ hf)
    · rw [same.group]; exact hfresh (same.errno ▸ he)
  | fails s₁ th c' ret shared same =>
    refine (h.of_eq shared.threads shared.lingers shared.groups shared.dirty).failResume ?_ ?_
    · rw [same.errno, same.group, shared.dirty]; exact hfresh
    · rw [same.launching, same.errno]; exact hcore.2.2.1.launching

/-- The last step of `resume`. -/
theorem Clean.left (h : Clean cfg s) (hg : Good ok tidy s) (hcall : (s.threads t).call = some c)
    (hbase : (s.threads t).base = .main .leave) (hleft : Left cfg s t c env s') : Clean cfg s' := by
  have hcore := hg.threads t
  simp only [Core, hbase, hcall] at hcore
  cases hleft with
  | fails error =>
    have hsome := hcore.2.2.1.later error
    refine h.failResume (fun he => ?_) hcore.2.2.1.launching
    rw [he] at hsome
    cases hsome
  | paused => exact Clean.idle (Clean.setLinger h fun he => absurd he (Option.some_ne_none _)) rfl
  | settled ctx y r error task trace =>
    have hclean : s.dirty c.group = false := (h.calls t c hcall).finished trace.finishes
    refine Clean.idle (Clean.setLinger (Clean.dropContinuation (h.freeStack _) (fun _ => ?_)
      fun he => absurd he Bool.false_ne_true) ?_) rfl
    · rw [dirty_freeStack]; exact hclean
    · cases r with
      | ok v => trivial
      | error e => cases c.launching <;> trivial

/-- Only a pause makes a group dirty. -/
theorem dirtyAfter_cases (th th' : Thread V E) :
    (∃ b c, th.base = .body b ∧ th'.base = .gone ∧ th.call = some c ∧
      s.dirtyAfter th th' = Function.update s.dirty c.group true) ∨
    ((∀ g, s.dirty g = false → s.dirtyAfter th th' g = false) ∧
      ∀ b c, th.base = .body b → th'.base = .main .leave → th.call = some c →
        s.dirtyAfter th th' c.group = false) := by
  have hcases : (∃ b c, th.base = .body b ∧ th'.base = .gone ∧ th.call = some c ∧
        s.dirtyAfter th th' = Function.update s.dirty c.group true) ∨
      (∃ c, th.call = some c ∧ s.dirtyAfter th th' = Function.update s.dirty c.group false) ∨
      (s.dirtyAfter th th' = s.dirty ∧
        ∀ b pc c, th.base = .body b → th'.base = .main pc → th.call ≠ some c) := by
    unfold Sys.dirtyAfter
    split
    · rename_i b c hb hb' hc; exact .inl ⟨b, c, hb, hb', hc, rfl⟩
    · rename_i b pc c hb hb' hc; exact .inr (.inl ⟨c, hc, rfl⟩)
    · rename_i hgone hmain; exact .inr (.inr ⟨rfl, hmain⟩)
  rcases hcases with h | ⟨c, hc, he⟩ | ⟨he, hne⟩
  · exact .inl h
  · refine .inr ⟨fun g hg => ?_, fun b c' _ _ hc' => ?_⟩
    · rw [he, Function.update_apply]; split <;> [rfl; exact hg]
    · obtain rfl : c = c' := Option.some.inj (hc.symm.trans hc')
      rw [he]; exact Function.update_self ..
  · exact .inr ⟨fun g hg => by rw [he]; exact hg,
      fun b c hb hb' hc => absurd hc (hne b .leave c hb hb')⟩

theorem finishes_snoc_ne {tr : List (Event V E)} {e : Event V E} (he : e ≠ .finish) :
    finishes (tr ++ [e]) = finishes tr := by
  rw [finishes_snoc]
  cases e <;> first | rfl | exact absurd rfl he

/-- Two cells and calls of different `Linger`s. -/
theorem GroupsOk.call_group_ne {u : Tid} {c' : Call V E} (hG : GroupsOk cfg s)
    (hd : ∀ n, Distinct cfg.newGroup n) (hl : Linked s) (hc : (s.threads t).call = some c)
    (hc' : (s.threads u).call = some c') (hu : u ≠ t) : c'.group ≠ c.group := by
  intro he
  obtain ⟨tr, hk⟩ := cell_of_call hl hc
  obtain ⟨tr', hk'⟩ := cell_of_call hl hc'
  have hj : c'.linger = c.linger :=
    hG.unique hd hk' hk (Multiset.mem_singleton_self c'.group) (Multiset.mem_singleton.mpr he)
  rw [hj, hk] at hk'
  simp only [Option.some.injEq, Linger.mk.injEq, Cell.resuming.injEq] at hk'
  exact hu hk'.1.1.symm

/-- The function is paused: its group is in the cell of its call and nowhere
else. -/
theorem Clean.pause {th : Thread V E} (h : Clean cfg s) (hd : ∀ n, Distinct cfg.newGroup n)
    (hl : Linked s) (hG : GroupsOk cfg s) (hc : (s.threads t).call = some c)
    (hth : ∀ c', th.call = some c' → finishes c'.trace ≠ 1) (hb : th.base = .gone) :
    Clean cfg { s.setThread t th with dirty := Function.update s.dirty c.group true } := by
  obtain ⟨tr, hk⟩ := cell_of_call hl hc
  have hmem : c.group ∈ groupBag (⟨.resuming t c.group, tr⟩ : Linger V E) :=
    Multiset.mem_singleton_self _
  have hne {g : Gid} (hg : g ≠ c.group) (hclean : s.dirty g = false) :
      Function.update s.dirty c.group true g = false := by
    rw [Function.update_of_ne hg]; exact hclean
  refine ⟨fun j l hj => ?_, fun u c' hc' => ?_, fun g hg => ?_, fun g hg => ?_⟩
  · obtain ⟨cell, tr'⟩ := l
    cases cell with
    | continuation cont =>
      refine fun he => hne (fun hg => ?_) (h.cells j _ hj he)
      have hjk : j = c.linger :=
        hG.unique hd hj hk (Multiset.mem_singleton_self cont.group) (Multiset.mem_singleton.mpr hg)
      replace hj : s.lingers[j]? = _ := hj
      rw [hjk, hk] at hj
      cases hj
    | _ => trivial
  · by_cases hu : u = t
    · subst hu
      simp only [threads_setThread_self] at hc' ⊢
      exact ⟨fun hf => absurd hf (hth c' hc'), fun hb' => by rw [hb] at hb'; cases hb'⟩
    · simp only [threads_setThread_ne th hu] at hc' ⊢
      have hg := hG.call_group_ne hd hl hc hc' hu
      exact ⟨fun hf => hne hg ((h.calls u c' hc').finished hf),
        fun hb' he => hne hg ((h.calls u c' hc').fresh hb' he)⟩
  · refine hne ?_ (h.free g hg)
    rintro rfl
    exact hG.not_free hd hk hmem hg
  · by_cases hgc : g = c.group
    · rw [hgc]; exact hG.made hk hmem
    · exact h.made g (by simpa [Function.update_of_ne hgc] using hg)

/-- A step on a function's stack. -/
theorem Clean.act {a : Act V E} {th : Thread V E} (h : Clean cfg s)
    (hd : ∀ n, Distinct cfg.newGroup n) (hl : Linked s) (hG : GroupsOk cfg s)
    (hcore : Core ok tidy t th) (hs : Thread.step (s.world cfg) (s.threads t) a = some th) :
    Clean cfg { s.setThread t th with dirty := s.dirtyAfter (s.threads t) th } := by
  rcases dirtyAfter_cases (s := s) (s.threads t) th with ⟨b, c, hb, hb', hc, he⟩ | ⟨hless, hfin⟩
  · rw [he]
    refine h.pause hd hl hG hc (fun c' hc' => ?_) hb'
    simp only [Core, hb', hc'] at hcore
    obtain ⟨-, upper, bottom, hgone⟩ := hcore
    exact Traced.unfinished hgone.trace
  · refine ⟨fun j l hj => (h.cells j l hj).mono hless, fun u c' hc' => ?_,
      fun g hg => hless g (h.free g hg), fun g hg => ?_⟩
    · by_cases hu : u = t
      · subst hu
        simp only [threads_setThread_self] at hc' ⊢
        obtain ⟨c, hc, -, hgroup, htask⟩ := (Thread.step_kept hs).exists_call hc'
        have hflow := Thread.step_flow hs
        have hcall := h.calls u c hc
        refine ⟨fun hf => ?_, fun hb he => ?_⟩ <;> rw [hgroup]
        · rcases hflow.trace c c' hc hc' with ⟨⟨b, hb⟩, hb'⟩ | htr | ⟨e, hne, htr⟩
          · exact hfin b c hb hb' hc
          · exact hless _ (hcall.finished (htr ▸ hf))
          · rw [htr, finishes_snoc_ne hne] at hf
            exact hless _ (hcall.finished hf)
        · exact hless _ (hcall.fresh (hflow.unpaused hb) (htask ▸ he))
      · simp only [threads_setThread_ne th hu] at hc' ⊢
        exact (h.calls u c' hc').mono hless
    · cases hdirty : s.dirty g with
      | true => exact h.made g hdirty
      | false =>
        exact absurd (hless g hdirty)
          (by rw [show s.dirtyAfter (s.threads t) th g = true from hg]; decide)

theorem clean_step {lab : Label V E} (hn : cfg.notls = false) (hd : ∀ n, Distinct cfg.newGroup n)
    (hg : Good False tidy s) (hl : Linked s) (hG : GroupsOk cfg s) (h : Clean cfg s)
    (hr : Renews s lab) (hs : Sys.step cfg s lab = some s') : Clean cfg s' := by
  have hcall {t : Tid} (hi : Sys.idle (s.threads t) = true) : (s.threads t).call = none :=
    ((hg.threads t).idle hi).2.2.1
  cases step_change hn hs with
  | returns _ t k idle => exact h.idle (hcall idle)
  | caught _ t _ idle => exact h.idle (hcall idle)
  | full t us env p idle hp =>
    have h' : Clean cfg { s with groups := p } := ⟨h.cells, h.calls, (h.pool hp).1, (h.pool hp).2⟩
    exact h'.idle (hcall idle)
  | sets t env group p idle hp => exact (h.launched hd hp).idle (hcall idle)
  | launches t us env group p _ idle shared budget hp begin =>
    exact (h.launched hd hp).begin (hcall idle) (hg.cell_launched _ group)
      (fun _ => h.assigned hd hp) (fun _ => rfl) begin
  | resumes t k us env cont tr _ idle shared cell begin =>
    exact h.begin (hcall idle) (hg.lingers k _ cell) (h.cells k _ cell)
      (fun hl => Bool.noConfusion hl) begin
  | advances t env c pc _ call base early handlers adv => exact h.advance hg call base early adv
  | leaves t env c _ call base handlers left =>
    exact h.left hg call base (leaveStep_left hn hg call base left)
  | acts t a th step => exact h.act hd hl hG (core_act (hg.threads t) hn rfl False.elim step) step
  | drops _ t k cont tr renew new idle cell label =>
    have hrenew : cont.stateful.errno.isSome = true → renew = true := by
      rcases label with ⟨env, rfl, rfl, -⟩ | ⟨env, rfl, rfl, -⟩ <;>
        simpa only [Renews, Renews.renewed, cell] using hr
    refine Clean.idle (Clean.setLinger (h.dropContinuation (h.cells k _ cell) hrenew) ?_)
      (hcall idle)
    rcases label with ⟨_, _, _, rfl⟩ | ⟨_, _, _, rfl⟩ <;> trivial
  | forgets t k env l idle => exact Clean.idle (h.setLinger trivial) (hcall idle)
  | stays => exact h
  | exits t p idle =>
    have h' : Clean cfg (s.setThread t { s.threads t with signaler := none, base := .exited }) :=
      h.idle (hcall idle)
    exact h'.of_eq rfl rfl rfl rfl

theorem clean_init (cfg : Cfg V) (masks : Tid → Sigset) :
    Clean cfg (Sys.initial cfg masks : Sys V E) where
  cells k l hk := by simp [Sys.initial] at hk
  calls t c hc := by simp [Sys.initial, Thread.initial] at hc
  free g hg := rfl
  made g hg := by simp [Sys.initial] at hg

end

/-- **No dirty group is reused** in runs in which every `renew` returns true,
whatever else fails: a free group is clean, and so is the group any `launch` is
given next. `Group::new` is assumed to make distinct groups. -/
theorem clean_groups (cfg : Cfg V) (hn : cfg.notls = false) (hd : ∀ n, Distinct cfg.newGroup n)
    (s : Sys V E) (hr : ((process cfg).only Renews).Reachable s) :
    (∀ g ∈ s.groups.free, s.dirty g = false) ∧
    ∀ g p, tryFrom cfg.newGroup s.groups = (some g, p) → s.dirty g = false := by
  have hinv : Good False False s ∧ Linked s ∧ GroupsOk cfg s ∧ Clean cfg s := by
    refine LTS.Inductive.reachable
      (I := fun s => Good False False s ∧ Linked s ∧ GroupsOk cfg s ∧ Clean cfg s) ⟨?_, ?_⟩ s hr
    · rintro s ⟨masks, rfl⟩
      exact ⟨good_init False.elim cfg masks, linked_init cfg masks, groupsOk_init cfg masks,
        clean_init cfg masks⟩
    · rintro s lab s' ⟨hg, hl, hG, h⟩ ⟨hs, hrenew⟩
      exact ⟨good_step hn hg False.elim False.elim hs, linked_step hn hg hl hs,
        groupsOk_step hn hg hl hG hs, clean_step hn hd hg hl hG h hrenew hs⟩
  exact ⟨hinv.2.2.2.free, fun g p hp => hinv.2.2.2.assigned hd hp⟩

instance (s : Sys V E) (k : Lid) (env : Env) : Decidable (Renews.renewed s k env) := by
  unfold Renews.renewed; split <;> infer_instance

instance (s : Sys V E) : (l : Label V E) → Decidable (Renews s l)
  | .launch _ _ _ => isTrue trivial
  | .resume _ _ _ _ => isTrue trivial
  | .main _ _ => isTrue trivial
  | .act _ _ => isTrue trivial
  | .drop _ k env => inferInstanceAs (Decidable (Renews.renewed s k env))
  | .cancel _ k env => inferInstanceAs (Decidable (Renews.renewed s k env))
  | .erase _ _ => isTrue trivial
  | .exit _ => isTrue trivial

theorem small_distinct (n : Nat) : Distinct Cfg.small.newGroup n := by
  intro i _ j _ v hi hj
  simp only [Cfg.small, Option.ite_none_right_eq_some, Option.some.injEq] at hi hj
  exact hi.2.trans hj.2.symm

/-- Thread `0` launches a function, whose timer pauses it, and drops the
continuation. -/
def dropPaused (renew : Bool) : List (Label Bool Bool) :=
  launchOn 0 ++
    .act 0 (.deliver .Alarm) :: List.replicate 14 (.act 0 (.run 10000)) ++
    [.main 0 (.fine 0), .drop 0 0 { Env.fine 0 with renew := renew }]

/-- The group is renewed, and free. -/
theorem clean_groups_dropPaused : ∃ s : Sys Bool Bool,
      ((process Cfg.small).only Renews).Reachable s ∧
    s.groups.free = [0] ∧ ∀ g ∈ s.groups.free, s.dirty g = false := by
  obtain ⟨s, hr, hp⟩ := process_only_of_exec Cfg.small Renews (dropPaused true)
    (fun s => decide (s.groups.free = [0])) (by decide +kernel)
  exact ⟨s, hr, by simpa using hp, (clean_groups Cfg.small rfl small_distinct s hr).1⟩

/-- **`renew` returns false**: the drop panics, the dirty group is free, and
the next `launch` gets it. -/
theorem unrenewed_group_is_reused : ∃ s s' : Sys Bool Bool, (process Cfg.small).Reachable s ∧
    0 ∈ s.groups.free ∧ s.dirty 0 = true ∧ (s.threads 0).ret = some (.panic .notRenewed) ∧
    (process Cfg.small).step s (.launch 0 0 (.fine 0)) s' ∧
    s'.lingers.map groupBag = [0, {0}] ∧ s'.dirty 0 = true := by
  obtain ⟨s, s', hr, hs, hp⟩ := process_step_of_exec Cfg.small (dropPaused false)
    (.launch 0 0 (.fine 0)) (fun s s' => decide (0 ∈ s.groups.free) && s.dirty 0 &&
      decide ((s.threads 0).ret = some (.panic .notRenewed)) &&
        decide (s'.lingers.map groupBag = [0, {0}]) &&
      s'.dirty 0) (by decide +kernel)
  simp only [Bool.and_eq_true, decide_eq_true_eq] at hp
  obtain ⟨⟨⟨⟨hfree, hdirty⟩, hret⟩, hbag⟩, hdirty'⟩ := hp
  exact ⟨s, s', hr, hfree, hdirty, hret, hs, hbag, hdirty'⟩

end Inger.L4
