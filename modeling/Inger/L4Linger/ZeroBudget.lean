import Inger.L3Slice.Pause
import Inger.L3Slice.Progress
import Inger.L4Linger.Once

/-!
# A budget of 0

The documentation of `resume` says that it is a no-op when the budget is `0`.
`launch` has a branch for that; `resume` has none. It puts 0 into DEADLINE,
`stamp` makes it the time at which the function starts, and the function runs
until the next tick of the timer finds the deadline reached: it takes steps, and
may finish.

`NoOp s t k` is the documented behaviour of `resume(k, 0)` called on thread `t`
in state `s`, over all that can happen during the call: any clock, any ticks, any
steps of other threads. `zero_budget_noop_iff` says that it holds exactly for the
`Linger`s that are not continuations, on which `resume` does nothing with any
budget. For a continuation the call is driven (`Progress`) with a clock that
reads 1 when the deadline is stamped and 0 at every tick, so that no tick pauses
the function. Then it gets control; or it turns out that it had finished and was
paused on the way out; or a handler left on its stack from an earlier slice was
past the clock and pauses it once more, which leaves fewer handlers on its stack
(`Tracks`).
-/
namespace Inger.L2

variable {V E : Type}

/-- The same state with the same resources; what is in the block of a
continuation does not count. -/
def Cell.Same : Cell V E → Cell V E → Prop
  | .continuation c, .continuation c' => c'.functional = c.functional ∧ c'.stateful = c.stateful ∧
      c'.group = c.group ∧ c'.tls.isSome = c.tls.isSome
  | x, x' => x' = x

theorem Cell.Same.refl (x : Cell V E) : x.Same x := by
  cases x with
  | continuation c => exact ⟨rfl, rfl, rfl, rfl⟩
  | _ => rfl

/-- The handler does not pause the function while the clock reads 0. -/
def HandlerPc.spares : HandlerPc → Prop
  | .clock _ d => d ≠ 0
  | .yielded _ _ => False
  | .swap _ => False
  | _ => True

theorem HandlerPc.Next.spares {d : UInt64} {p q : HandlerPc} (h : p.Next 0 d q) (hp : p.spares)
    (hd : d ≠ 0) :
    q.spares := by
  cases h with
  | deadline e => exact hd
  | late e d reached =>
    have hz : d.toNat = 0 := Nat.le_zero.mp (UInt64.le_iff_toNat_le.mp reached)
    exact hp (UInt64.toNat_inj.mp hz)
  | yielded e d => exact hp
  | _ => trivial

/-- Between where a function can be paused and its own code or its end. -/
def Pos.ahead : Pos → Bool
  | .enable _ => true
  | .call => true
  | .own => true
  | .disable _ => true
  | .check => true
  | .ret => true
  | _ => false

theorem Pos.ahead_of_preemptible {p : Pos} (h : p.preemptible = true) : p.ahead = true := by
  cases p <;> first | rfl | cases h

end Inger.L2

namespace Inger.L4

open L1.Reusable L1.Signals L2 L3

variable {V E : Type}

/-! ## The documented behaviour -/

/-- The states from `s` to the return of the call thread `t` is in. -/
inductive During (cfg : Cfg V) (t : Tid) (s : Sys V E) : Sys V E → Prop
  | start : During cfg t s s
  | step {s' s'' : Sys V E} (l : Label V E) (during : During cfg t s s')
      (inside : (s'.threads t).call.isSome = true) (sound : NoFault s' l)
      (step : s'.step cfg l = some s'') :
      During cfg t s s''

/-- Up to state `s'` the call on thread `t` has done nothing with `Linger` `k`,
and if it has returned, it has returned `Ok`. -/
structure Untouched (s s' : Sys V E) (t : Tid) (k : Lid) : Prop where
  alive : ∀ why, (s'.threads t).base ≠ .stuck why
  still : ∀ x x', status s k = some x → status s' k = some x' → own x'.trace = own x.trace
  returned : (s'.threads t).call = none → (s'.threads t).ret = some .ok ∧
    ∀ l l', s.lingers[k]? = some l → s'.lingers[k]? = some l' → l.cell.Same l'.cell

/-- `resume(k, 0)` is a no-op: the call can return, and whatever happens
during it, nothing is touched. -/
def NoOp (cfg : Cfg V) (s : Sys V E) (t : Tid) (k : Lid) : Prop :=
  ∀ env s₁, EnvFine env → s.step cfg (.resume t k 0 env) = some s₁ →
    (∃ s', During cfg t s₁ s' ∧ (s'.threads t).call = none) ∧
      ∀ s', During cfg t s₁ s' → Untouched s s' t k

/-! ## Handlers left from earlier slices -/

/-- On the stack of a resumed function: handlers that have arrived since, and at
most `n` older ones. -/
structure Spared (n : Nat) (th : Thread V E) (b : Body) : Prop where
  frames : ∃ fresh old, th.handlers = fresh ++ old ∧ (∀ f ∈ fresh, f.pc.spares) ∧ old.length ≤ n
  deadline : th.vars.deadline ≠ 0
  pos : b.pos.ahead = true

/-- The function, paused with fewer than `n` handlers on its stack. -/
def Shorter (n : Nat) (k : Task) : Prop :=
  ∀ st m b hs, k.checkpoint = some ⟨st, m, .paused b hs⟩ → hs.length < n

/-- A slice of task `k`, which had `n` handlers on its stack. -/
def Tracks (k : Task) (n : Nat) (th : Thread V E) (c : Call V E) : Prop :=
  match th.base with
  | .main .leave => Shorter n th.vars.task
  | .main _ => c.task = k ∧ c.us = 0
  | .boot => False
  | .body b => Spared n th b
  | .gone => Shorter n th.vars.task
  | _ => True

section
variable {w : World} {t : Tid} {th th' : Thread V E} {c c' : Call V E} {f : Frame}
  {rest : List Frame} {b : Body} {k : Task} {n : Nat} {no : Signal}

theorem tracks_body (hb : th.base = .body b) (h : Spared n th b) : Tracks k n th c := by
  simp only [Tracks, hb]
  exact h

theorem tracks_stuck {why : Stuck} (hb : th.base = .stuck why) : Tracks k n th c := by
  simp only [Tracks, hb]

theorem Spared.deliver (h : Spared n th b) : Spared n (th.interrupt no) b := by
  obtain ⟨fresh, old, hh, hf, hl⟩ := h.frames
  refine ⟨⟨⟨no, th.mask, .interrupted, .entry⟩ :: fresh, old, ?_, ?_, hl⟩, h.deadline, h.pos⟩
  · rw [Thread.interrupt, hh]
    rfl
  · intro x hx
    rcases List.mem_cons.mp hx with rfl | hx
    · trivial
    · exact hf x hx

/-- A handler on the function's stack, at clock 0: if it swaps, it is one of the
older ones. -/
theorem Spared.handler (h : Spared n th b) (hbody : InBody t th c b) (hsig : w.sig t = th.signaler)
    (hb : th.base = .body b) (hh : th.handlers = f :: rest) (hs : th.handlerStep w 0 f rest = th') :
    Tracks k n th' c := by
  obtain ⟨fresh, old, hfo, hfresh, hlen⟩ := h.frames
  have hmem : f ∈ th.handlers := by rw [hh]; exact List.mem_cons_self
  rw [hh] at hfo
  cases hbody.handled hsig hh hs with
  | moves f' v' ok no mask vars next task =>
    refine tracks_body hb ⟨?_, by rw [vars.deadline]; exact h.deadline, h.pos⟩
    cases fresh with
    | nil =>
      subst hfo
      exact ⟨[], f' :: rest, rfl, List.forall_mem_nil _, hlen⟩
    | cons x fresh =>
      obtain ⟨rfl, rfl⟩ := List.cons_eq_cons.mp hfo
      refine ⟨f' :: fresh, old, rfl, ?_, hlen⟩
      intro x hx
      rcases List.mem_cons.mp hx with rfl | hx
      · exact next.spares (hfresh f List.mem_cons_self) h.deadline
      · exact hfresh x (List.mem_cons_of_mem f hx)
  | returns =>
    refine tracks_body hb ⟨?_, h.deadline, h.pos⟩
    cases fresh with
    | nil =>
      subst hfo
      exact ⟨[], rest, rfl, List.forall_mem_nil _, Nat.le_of_succ_le hlen⟩
    | cons x fresh =>
      obtain ⟨rfl, rfl⟩ := List.cons_eq_cons.mp hfo
      exact ⟨fresh, old, rfl, fun x hx => hfresh x (List.mem_cons_of_mem f hx), hlen⟩
  | swaps e pc =>
    cases fresh with
    | nil =>
      subst hfo
      obtain ⟨st, hck⟩ := hbody.run.checkpoint
      simp only [Thread.swap, hck, (hbody.frames f hmem).target, hb, Tracks]
      intro st' m' b' hs' he
      cases he
      exact hlen
    | cons x fresh =>
      obtain ⟨rfl, rfl⟩ := List.cons_eq_cons.mp hfo
      have hsp := hfresh f List.mem_cons_self
      rw [pc] at hsp
      exact hsp.elim
  | borrowed => exact tracks_stuck rfl

/-- A step of the code on the function's stack. -/
theorem Spared.step {now : UInt64} (h : Spared n th b) (hbody : InBody t th c b)
    (hw : w.notls = false) (hsig : w.sig t = th.signaler) (hh : th.handlers = [])
    (hs : th.bodyStep w now c b = some th') : Tracks k n th' c' := by
  obtain ⟨fn, grp, sg, pos⟩ := b
  have hfn : fn = c.linger := hbody.body.fn
  have hfits := hbody.body.fits
  have hpos := h.pos
  have goes (th₁ : Thread V E) (b' : Body) (q : Pos) (hh₁ : th₁.handlers = [])
      (hd : th₁.vars.deadline ≠ 0)
      (hq : q.ahead = true) : Tracks k n (th₁.goto b' q) c' :=
    tracks_body rfl ⟨⟨[], [], hh₁, List.forall_mem_nil _, Nat.zero_le n⟩, hd, hq⟩
  cases pos with
  | enable e =>
    cases hs
    obtain ⟨b', hb', -, -⟩ | ⟨-, -, hfail⟩ := hbody.enable hw hsig hh rfl
    · obtain ⟨-, hd, hh', hq⟩ := enablePos_same e hb'
      refine tracks_body hb' ⟨⟨[], [], hh'.trans hh, List.forall_mem_nil _, Nat.zero_le n⟩, ?_, ?_⟩
      · rw [hd]
        exact h.deadline
      · obtain ⟨e', hq⟩ | hq | hq := hq <;> rw [hq] <;> rfl
    · rw [hfail]
      exact tracks_stuck rfl
  | call =>
    have hfun : c.functional = .function := hfits
    simp only [Thread.bodyStep, Thread.callPos, hfn, if_true, hfun, Option.some.injEq] at hs
    subst hs
    exact goes _ _ _ hh h.deadline rfl
  | disable pc =>
    cases hs
    cases pc with
    | mask => cases sg <;> exact goes _ _ _ hh h.deadline rfl
    | _ => exact goes _ _ _ hh h.deadline rfl
  | check =>
    simp only [Thread.bodyStep, hbody.run.errno, Option.isSome_none, Bool.and_false,
      Bool.false_eq_true, if_false, Option.some.injEq] at hs
    subst hs
    exact goes _ _ _ hh h.deadline rfl
  | ret =>
    cases hs
    obtain ⟨st, hck⟩ := hbody.run.checkpoint
    simp only [Tracks, Thread.setCall]
    intro st' m' b' hs' he
    rw [hck] at he
    cases he
  | own => cases hs
  | lib back => cases hs
  | _ => cases hpos

theorem Shorter.congr {k' : Task} (h : Shorter n k) (hk : k'.checkpoint = k.checkpoint) :
    Shorter n k' := by
  intro st m b hs he
  exact h st m b hs (hk.symm.trans he)

/-- The steps a thread takes by itself, at clock 0. -/
theorem Tracks.act {cfg : Cfg V} {s : Sys V E} {env : Env} {a : Act V E}
    (h : Tracks k n (s.threads t) c) (hn : cfg.notls = false)
    (hcore : Core False False t (s.threads t)) (hcall : (s.threads t).call = some c)
    (ha : Auto s t 0 env (.act t a)) (hs : (s.threads t).step (s.world cfg) a = some th')
    (hcall' : th'.call = some c') : Tracks k n th' c' := by
  cases Thread.step_acts hs with
  | delivers no alive unblocked =>
    cases hcall.symm.trans hcall'
    unfold Tracks at h ⊢
    have hbase : ((s.threads t).interrupt no).base = (s.threads t).base := rfl
    rw [hbase]
    split at h <;> first | exact h | exact h.deliver
  | handles now f rest ready handlers =>
    cases ha
    rw [Thread.handlerStep_call] at hcall'
    cases hcall.symm.trans hcall'
    generalize hs' : (s.threads t).handlerStep (s.world cfg) 0 f rest = th₁
    -- On the caller's stack handlers change nothing.
    have calm (hbase : (∃ pc, (s.threads t).base = .main pc) ∨ (s.threads t).base = .boot) :
        Tracks k n th₁ c := by
      obtain ⟨hc, hv⟩ := hcore.calm (.inr hbase)
      have hu := hc.handler handlers (own_of_threadSignal rfl hv) hs'
      unfold Tracks at h ⊢
      rw [hu.base, hu.vars.task rfl]
      obtain ⟨pc, hb⟩ | hb := hbase
      · rw [hb] at h ⊢
        cases pc <;> exact h
      · rw [hb] at h
        exact h.elim
    cases hb : (s.threads t).base with
    | caller => simp only [Core, hb, hcall] at hcore
    | main pc => exact calm (.inl ⟨pc, hb⟩)
    | boot => exact calm (.inr hb)
    | body b =>
      obtain ⟨c₀, hc₀, -, hbody⟩ := hcore.body hb
      cases hcall.symm.trans hc₀
      unfold Tracks at h
      rw [hb] at h
      exact h.handler hbody rfl hb handlers hs'
    | gone =>
      obtain ⟨c₀, upper, bottom, hc₀, -, hgone⟩ := hcore.gone hb
      unfold Tracks at h
      rw [hb] at h
      have hhg := hgone.handlers
      rw [handlers] at hhg
      cases upper with
      | nil =>
        cases hhg
        obtain ⟨⟨hb', -⟩ | ⟨hb', -⟩, -, hck⟩ := hgone.leaves hb hs' <;> simp only [Tracks, hb'] <;>
          exact h.congr hck
      | cons x upper =>
        obtain ⟨rfl, rfl⟩ := List.cons_eq_cons.mp hhg
        obtain ⟨hb', -, -⟩ | hb' := hgone.upper hs'
        · obtain htask | ⟨why, hw⟩ := hgone.task_upper hs'
          · simp only [Tracks, hb', hb, htask]
            exact h
          · exact tracks_stuck hw
        · exact tracks_stuck hb'
    | exited => simp [Thread.ready, hb, Base.alive] at ready
    | stuck why => simp [Thread.ready, hb, Base.alive] at ready
  | boots now c₀ ready handlers base call =>
    unfold Tracks at h
    rw [base] at h
    exact h.elim
  | runs now b c₀ th' ready handlers base call step =>
    obtain ⟨c₁, hc₁, -, hbody⟩ := hcore.body base
    cases hcall.symm.trans hc₁
    cases hcall.symm.trans call
    unfold Tracks at h
    rw [base] at h
    exact h.step hbody hn rfl handlers step
  | fn a b c₀ th' ready handlers base call step =>
    cases ha
    unfold Tracks at h
    rw [base] at h
    have hpos := h.pos
    unfold Thread.fnStep at step
    cases hp : b.pos <;> simp only [hp, Option.some.injEq, reduceCtorEq] at step
    rw [hp] at hpos
    cases hpos

end

/-! ## The call on a continuation -/

section
variable {cfg : Cfg V} {s s₁ s' : Sys V E} {t : Tid} {k : Lid} {c : Call V E}

/-- The continuation a slice started from: not started, or the slice is
tracked. -/
def Tracked (k : Task) (th : Thread V E) (c : Call V E) : Prop :=
  k.checkpoint = none ∨ ∃ e st m b hs y, k = ⟨some e, some ⟨st, m, .paused b hs⟩, y⟩ ∧
    Tracks k hs.length th c

/-- Where a step of a driven call leaves the function: not in its `Linger` as
it was. -/
theorem tracked_fate {l : Label V E} {x' : Status V E} {k₀ : Task} (hn : cfg.notls = false)
    (hf : Fate cfg s k l (.running t (s.threads t) c) x') (ha : Auto s t 0 (.fine 1) l)
    (h : Tracked k₀ (s.threads t) c) :
    (∃ th c', x' = .running t th c' ∧ Tracked k₀ th c') ∨
      (∃ cont tr, x' = .idle cont tr ∧
        (cont.tls = none ∨ cont.stateful.checkpoint ≠ k₀.checkpoint)) ∨
      ∃ l, x' = .over l := by
  cases hf with
  | same => exact .inl ⟨_, _, rfl, h⟩
  | prepares t env c c' th pc base early call same us task base' =>
    refine .inl ⟨_, _, rfl, ?_⟩
    obtain hk | ⟨e, st, m, b, hs, y, hk, htracks⟩ := h
    · exact .inl hk
    · refine .inr ⟨e, st, m, b, hs, y, hk, ?_⟩
      have hc : c.task = k₀ ∧ c.us = 0 := by
        unfold Tracks at htracks
        rw [base] at htracks
        cases pc with
        | leave => exact absurd rfl early.2
        | _ => exact htracks
      have htask : c'.task = c.task := by
        refine task.resolve_right ?_
        rintro ⟨herr, -⟩
        rw [hc.1, hk] at herr
        cases herr
      unfold Tracks
      rw [base', htask, us]
      cases pc with
      | switch => exact absurd rfl early.1
      | leave => exact absurd rfl early.2
      | _ => exact hc
  | sticks t env c th pc why base early base' =>
    refine .inl ⟨_, _, rfl, ?_⟩
    obtain hk | ⟨e, st, m, b, hs, y, hk, -⟩ := h
    · exact .inl hk
    · exact .inr ⟨e, st, m, b, hs, y, hk, tracks_stuck base'⟩
  | starts t env c st m y base handlers task =>
    refine .inl ⟨_, _, rfl, ?_⟩
    obtain hk | ⟨e, st, m, b, hs, y, hk, htracks⟩ := h
    · exact .inl hk
    · unfold Tracks at htracks
      rw [base] at htracks
      have he := htracks.1
      rw [task, hk] at he
      cases he
  | resumes t env c e st m b hs y o base call task own paused =>
    refine .inl ⟨_, _, rfl, ?_⟩
    obtain hk | ⟨e', st', m', b', hs', y', hk, htracks⟩ := h
    · exact .inl hk
    · refine .inr ⟨e', st', m', b', hs', y', hk, tracks_body rfl ?_⟩
      unfold Tracks at htracks
      rw [base] at htracks
      obtain ⟨he, hus⟩ := htracks
      rw [task, hk] at he
      cases he
      cases ha
      refine ⟨⟨[], hs, rfl, List.forall_mem_nil _, Nat.le_refl _⟩, ?_,
        Pos.ahead_of_preemptible paused.pre⟩
      simp only [Vars.setErrno, hus]
      decide
  | acts t a c c' th core call linger step call' =>
    refine .inl ⟨_, _, rfl, ?_⟩
    obtain hk | ⟨e, st, m, b, hs, y, hk, htracks⟩ := h
    · exact .inl hk
    · exact .inr ⟨e, st, m, b, hs, y, hk, htracks.act hn core call ha step call'⟩
  | fails t env c cont tls => exact .inr (.inl ⟨_, _, rfl, .inl tls⟩)
  | dropped => exact .inr (.inr ⟨_, rfl⟩)
  | pauses t env c e st m b hs y base task =>
    refine .inr (.inl ⟨_, _, rfl, .inr ?_⟩)
    obtain hk | ⟨e', st', m', b', hs', y', hk, htracks⟩ := h
    · rw [hk]
      intro he
      cases he
    · unfold Tracks at htracks
      rw [base] at htracks
      have hlt := htracks st m b hs (by rw [task])
      rw [hk]
      rintro ⟨⟩
      exact Nat.lt_irrefl _ hlt
  | settles => exact .inr (.inr ⟨_, rfl⟩)

/-- A function in control can take a step. -/
theorem works {th : Thread V E} (h : th.inControl) (hcall : th.call = some c) (w : World) :
    ∃ th', th.step w (.fn (.work 0)) = some th' ∧ th'.call = some (c.log .work) := by
  obtain ⟨hready, hh, b, hb, hpos⟩ := h
  refine ⟨{ th.setCall (c.log .work) with vars := th.vars.setErrno th.group 0 }, ?_, rfl⟩
  simp only [Thread.step, hready, hh, hb, hcall, Thread.fnStep, hpos]

/-- The driven call does something to the continuation. The induction is on the
number of steps left. -/
theorem continuation_touched {cont : Continuation V E} {tr : List (Event V E)}
    (hn : cfg.notls = false) (hk : s.lingers[k]? = some ⟨.continuation cont, tr⟩)
    (htls : cont.tls.isSome = true) (hno : ∀ s', During cfg t s₁ s' → Untouched s s' t k)
    (hd : During cfg t s₁ s') (hr : (process cfg).Reachable s')
    (hcall : (s'.threads t).call = some c) (hc : c.linger = k)
    (htracked : Tracked cont.stateful (s'.threads t) c) : False := by
  induction hm : (s'.threads t).togo c using Nat.strong_induction_on generalizing s' c with
  | _ m ih =>
    subst hm hc
    obtain ⟨hg, hl⟩ := linked_reachable hn hr
    have hx : status s' c.linger = some (.running t (s'.threads t) c) := hl.running hcall
    have hinside : (s'.threads t).call.isSome = true := by rw [hcall]; rfl
    by_cases hown : (s'.threads t).inControl
    · -- The function takes a step.
      obtain ⟨th, hwork, hcall'⟩ := works hown hcall (s'.world cfg)
      obtain ⟨s'', hstep, hx'⟩ : ∃ s'', s'.step cfg (.act t (.fn (.work 0))) = some s'' ∧
          status s'' c.linger = some (.running t th (c.log .work)) := by
        simp only [Sys.step, Sys.actStep, hwork, Option.map_some]
        exact ⟨_, rfl, hl.goes hcall rfl hcall'⟩
      have hstill := (hno _ hd).still _ _ (status_idle hk) hx
      have hstill' := (hno _ (.step (.act t (.fn (.work 0))) hd hinside trivial hstep)).still _ _
        (status_idle hk) hx'
      rw [← hstill] at hstill'
      simp [Status.trace, Call.log, own, Event.own] at hstill'
    · have halive : (s'.threads t).base.alive = true := by
        cases hb : (s'.threads t).base with
        | exited =>
          have hcore := hg.threads t
          simp only [Core, hb, hcall] at hcore
        | stuck why => exact absurd hb ((hno _ hd).alive why)
        | _ => rfl
      obtain ⟨l, s'', hauto, hs, hout⟩ := advance hn hg hcall halive hown 0 (.fine 1)
      have hsound : NoFault s' l := by
        cases hauto with
        | main => exact ⟨rfl, rfl, rfl, rfl, rfl, rfl⟩
        | _ => trivial
      have hd' : During cfg t s₁ s'' := .step l hd hinside hsound hs
      obtain ⟨x', hx', hf⟩ := status_step hn hg hl hs hx
      have hafter := tracked_fate hn hf hauto htracked
      obtain hnone | ⟨why, hw⟩ | ⟨c', hcall', hc', hleft⟩ := hout
      · have hsame := fun l' => ((hno _ hd').returned hnone).2 _ l' hk
        obtain ⟨th, c', rfl, -⟩ | ⟨cont', tr', rfl, hdiff⟩ | ⟨l', rfl⟩ := hafter
        · rw [(running_of_status hx').2] at hnone
          cases hnone
        · obtain ⟨-, hstateful, -, hblock⟩ := hsame _ (lingers_of_idle hx')
          obtain htls' | hck := hdiff
          · rw [htls, htls'] at hblock
            cases hblock
          · exact hck (congrArg Task.checkpoint hstateful)
        · obtain ⟨hl', hne⟩ := lingers_of_over hx'
          have hcell := hsame _ hl'
          cases hcell' : l'.cell with
          | continuation c' => exact hne c' hcell'
          | _ => rw [hcell'] at hcell; cases hcell
      · exact (hno _ hd').alive why hw
      · have hx'' := (linked_reachable hn (hr.step hs)).2.running hcall'
        rw [hc', hx'] at hx''
        cases hx''
        obtain ⟨th, c'', he, htracked'⟩ | ⟨cont', tr', he, -⟩ | ⟨l', he⟩ := hafter <;> cases he
        exact ih _ hleft hd' (hr.step hs) hcall' hc' htracked' rfl

/-- A `Linger` that is not a continuation is returned as it is. -/
theorem resume_returns {us : UInt64} {env : Env}
    (hg : cfg.debugAssertions = true → (s.threads t).group.preemptible = false)
    (hne : ∀ c tr, s.lingers[k]? ≠ some ⟨.continuation c, tr⟩)
    (hs : s.step cfg (.resume t k us env) = some s') :
    s' = s.setThread t { s.threads t with ret := some .ok } := by
  have hg : (cfg.debugAssertions && (s.threads t).group.preemptible) = false := by
    simpa only [Bool.and_eq_false_imp] using hg
  simp only [Sys.step, Sys.resumeStep, hg] at hs
  split at hs
  · cases hs
  · simp only [Bool.false_eq_true, if_false] at hs
    split at hs
    · rename_i c tr hk
      exact absurd hk (hne c tr)
    · cases hs
      rfl
    · cases hs
      rfl
    · cases hs

theorem resume_continuation {us : UInt64} {env : Env} {cont : Continuation V E}
    {tr : List (Event V E)} (hi : Sys.idle (s.threads t) = true)
    (hg : cfg.debugAssertions = true → (s.threads t).group.preemptible = false)
    (hk : s.lingers[k]? = some ⟨.continuation cont, tr⟩) :
    s.step cfg (.resume t k us env) = some (s.beginResume cfg t k cont tr us false env) := by
  have hg : (cfg.debugAssertions && (s.threads t).group.preemptible) = false := by
    simpa only [Bool.and_eq_false_imp] using hg
  simp only [Sys.step, Sys.resumeStep, hi, hg, hk, Bool.not_true, Bool.false_eq_true, if_false]

/-- Nothing follows the return of the call. -/
theorem During.eq_of_returned (hd : During cfg t s s') (hcall : (s.threads t).call = none) :
    s' = s := by
  induction hd with
  | start => rfl
  | step l during inside sound step ih =>
    subst ih
    rw [hcall] at inside
    cases inside

/-- A step inside the call of thread `t`, in which no system call fails. -/
def Inside (t : Tid) (s : Sys V E) (l : Label V E) : Prop :=
  (s.threads t).call.isSome = true ∧ NoFault s l

instance (t : Tid) (s : Sys V E) (l : Label V E) : Decidable (Inside t s l) :=
  inferInstanceAs (Decidable (_ ∧ _))

theorem During.exec {ls : List (Label V E)} (hd : During cfg t s s₁)
    (h : LTS.exec (LTS.checked (Inside t) (Sys.step cfg)) s₁ ls = some s') :
    During cfg t s s' := by
  induction ls generalizing s₁ with
  | nil =>
    cases h
    exact hd
  | cons l ls ih =>
    obtain ⟨s₂, h₂, h⟩ := Option.bind_eq_some_iff.mp h
    obtain ⟨⟨inside, sound⟩, hs⟩ := Option.ite_none_right_eq_some.mp h₂
    exact ih (hd.step l inside sound hs) h

/-- A task that `resume(k, 0)` has taken out of its `Linger`. -/
theorem tracked_entered {g : Gid} {f : Completion V E} {loc : RefCell (Option Gid)}
    (hk : TaskOk k g f loc c.task)
    {th : Thread V E} (hb : th.base = .main .setup) (hus : c.us = 0) : Tracked c.task th c := by
  generalize hk₀ : c.task = k₀ at hk ⊢
  cases hk with
  | fresh => exact .inl rfl
  | paused e st m b hs y =>
    refine .inr ⟨e, st, m, b, hs, y, rfl, ?_⟩
    unfold Tracks
    rw [hb]
    exact ⟨hk₀, hus⟩

theorem envFine_fine : EnvFine (.fine 0) := ⟨rfl, rfl, rfl, rfl, rfl, rfl⟩

/-- Inside a preemptible function `resume` panics, in a build with assertions. -/
theorem NoOp.not_preemptible (h : NoOp cfg s t k) (hidle : Sys.idle (s.threads t) = true)
    (ha : cfg.debugAssertions = true) : (s.threads t).group.preemptible = false := by
  by_contra hp
  rw [Bool.not_eq_false] at hp
  have hs : s.step cfg (.resume t k 0 (.fine 0)) =
      some (s.setThread t ((s.threads t).fail .preemptible)) := by
    simp only [Sys.step, Sys.resumeStep, hidle, ha, hp, Bool.and_self, Bool.not_true,
      Bool.false_eq_true, if_false, if_true]
  refine ((h _ _ envFine_fine hs).2 _ .start).alive .preemptible ?_
  rw [threads_setThread_self]
  rfl

/-- A continuation is touched: it is lost with its missing TCB, or it runs. -/
theorem NoOp.not_continuation (hn : cfg.notls = false) (hr : (process cfg).Reachable s)
    (hidle : Sys.idle (s.threads t) = true) (h : NoOp cfg s t k) (cont : Continuation V E)
    (tr : List (Event V E)) :
    s.lingers[k]? ≠ some ⟨.continuation cont, tr⟩ := by
  intro hk
  have hg := (linked_reachable hn hr).1
  have hs : s.step cfg (.resume t k 0 (.fine 0)) = _ :=
    resume_continuation hidle (h.not_preemptible hidle) hk
  obtain ⟨-, hno⟩ := h _ _ envFine_fine hs
  have hbegin : Begin s t k cont tr 0 false (.fine 0)
      (s.beginResume cfg t k cont tr 0 false (.fine 0)) := beginResume_begin hn
  generalize s.beginResume cfg t k cont tr 0 false (.fine 0) = s₁ at hs hno hbegin
  cases hbegin with
  | missing tls =>
    have hcall : (s.threads t).call = none := ((hg.threads t).idle hidle).2.2.1
    have hret := ((hno _ .start).returned (by rw [threads_setThread_self]; exact hcall)).1
    rw [threads_setThread_self] at hret
    cases hret
  | enters tcb tls installs =>
    obtain ⟨-, htask, -⟩ := (hg.lingers k _ hk).2.2 tcb tls
    have hth := threads_setThread_self (s := s.setLinger k ⟨.resuming t cont.group, tr⟩) (t := t)
      (beginThread k cont tr 0 false tcb (s.threads t))
    have htracked : Tracked cont.stateful (beginThread k cont tr 0 false tcb (s.threads t))
        (beginCall k cont tr 0 false (s.threads t)) :=
      tracked_entered (c := beginCall k cont tr 0 false (s.threads t)) htask rfl rfl
    rw [← hth] at htracked
    exact continuation_touched hn hk (by rw [tls]; rfl) hno .start (hr.step hs)
      (congrArg Thread.call hth) rfl htracked
  | fails tcb tls installs => cases installs

/-- Anything else is not: the call has returned with its first step. -/
theorem noOp_of_not_continuation (hn : cfg.notls = false) (hr : (process cfg).Reachable s)
    (hidle : Sys.idle (s.threads t) = true)
    (hgroup : cfg.debugAssertions = true → (s.threads t).group.preemptible = false)
    (hne : ∀ c tr, s.lingers[k]? ≠ some ⟨.continuation c, tr⟩) : NoOp cfg s t k := by
  rintro env s₁ - hs
  obtain ⟨hg, hlinked⟩ := linked_reachable hn hr
  have hcall : (s.threads t).call = none := ((hg.threads t).idle hidle).2.2.1
  have hs₁ := resume_returns hgroup hne hs
  have hcall₁ : (s₁.threads t).call = none := by rw [hs₁, threads_setThread_self]; exact hcall
  have hstatus : status s₁ k = status s k := by
    refine status_of_other hn hlinked hs (by rw [hs₁]; rfl) fun c hc => ?_
    rw [Label.tid, hcall] at hc
    cases hc
  refine ⟨⟨s₁, .start, hcall₁⟩, fun s' hd => ?_⟩
  obtain rfl := hd.eq_of_returned hcall₁
  subst hs₁
  constructor
  · intro why
    rw [threads_setThread_self, ((hg.threads t).idle hidle).1]
    exact Base.noConfusion
  · intro x x' hx hx'
    rw [hstatus] at hx'
    exact congrArg (own ∘ Status.trace) (Option.some.inj (hx'.symm.trans hx))
  · rintro -
    rw [threads_setThread_self]
    refine ⟨rfl, fun l l' hl hl' => ?_⟩
    cases hl.symm.trans hl'
    exact Cell.Same.refl _

end

/-- **`resume(k, 0)` is a no-op exactly for the `Linger`s that are not
continuations** (and, in a build with assertions, for callers that are not
preemptible functions themselves). -/
theorem zero_budget_noop_iff (cfg : Cfg V) (hn : cfg.notls = false) (s : Sys V E)
    (hr : (process cfg).Reachable s) (t : Tid) (k : Lid) (hidle : Sys.idle (s.threads t) = true) :
    NoOp cfg s t k ↔ (cfg.debugAssertions = true → (s.threads t).group.preemptible = false) ∧
      ∀ c tr, s.lingers[k]? ≠ some ⟨.continuation c, tr⟩ := by
  constructor
  · intro h
    exact ⟨h.not_preemptible hidle, h.not_continuation hn hr hidle⟩
  · rintro ⟨hgroup, hne⟩
    exact noOp_of_not_continuation hn hr hidle hgroup hne

def Cell.completed : Cell V E → Bool
  | .completion _ => true
  | _ => false

def Cell.waiting : Cell V E → Bool
  | .continuation _ => true
  | _ => false

/-- After its function has returned. -/
theorem zero_budget_noop_iff_oneSlice : ∃ s : Sys Bool Bool, (process Cfg.small).Reachable s ∧
    ((s.lingers[0]?).any fun l => Cell.completed l.cell) = true ∧ NoOp Cfg.small s 0 0 := by
  obtain ⟨s, hr, hp⟩ := process_of_exec Cfg.small (oneSlice ++ [.main 0 (.fine 0)])
    (fun s => ((s.lingers[0]?).any fun l => Cell.completed l.cell) && Sys.idle (s.threads 0) &&
      !(s.threads 0).group.preemptible) (by decide +kernel)
  simp only [Bool.and_eq_true, Bool.not_eq_true'] at hp
  obtain ⟨⟨hcell, hidle⟩, hgroup⟩ := hp
  refine ⟨s, hr, hcell, (zero_budget_noop_iff Cfg.small rfl s hr 0 0 hidle).mpr
    ⟨fun _ => hgroup, fun c tr hk => ?_⟩⟩
  rw [hk] at hcell
  cases hcell

/-- The rest of a `resume` during which the function returns `true` and no
signal arrives. -/
def returnsInTime : List (Label Bool Bool) :=
  List.replicate 4 (.main 0 (.fine 7)) ++ List.replicate 10 (.act 0 (.run 7)) ++
    .act 0 (.fn (.finish (.ok true))) :: List.replicate 6 (.act 0 (.run 7)) ++ [.main 0 (.fine 7)]

/-- The continuation of state `s` is completed by a run from `s₁`. -/
def completedIn (s s₁ : Sys Bool Bool) : Bool :=
  ((s.lingers[0]?).any fun l => Cell.waiting l.cell) && Sys.idle (s.threads 0) &&
    !(s.threads 0).group.preemptible &&
    (LTS.exec (LTS.checked (Inside 0) (Sys.step Cfg.small)) s₁ returnsInTime).any fun s' =>
      (s'.threads 0).call.isNone && (s'.lingers[0]?).any fun l => Cell.completed l.cell

/-- `launch(f, 0)`, then `resume(&mut f, 0)`: `f` runs and completes. -/
theorem zero_budget_completes : ∃ s : Sys Bool Bool, (process Cfg.small).Reachable s ∧
    Sys.idle (s.threads 0) = true ∧ (s.threads 0).group.preemptible = false ∧
    ((s.lingers[0]?).any fun l => Cell.waiting l.cell) = true ∧ ¬NoOp Cfg.small s 0 0 := by
  obtain ⟨s, s₁, hr, hs, hp⟩ := process_step_of_exec Cfg.small [.launch 0 0 (.fine 7)]
    (.resume 0 0 0 (.fine 7)) completedIn (by decide +kernel)
  simp only [completedIn, Bool.and_eq_true, Bool.not_eq_true'] at hp
  obtain ⟨⟨⟨hcell, hidle⟩, hgroup⟩, hrun⟩ := hp
  refine ⟨s, hr, hidle, hgroup, hcell, fun hno => ?_⟩
  obtain ⟨s', hexec, hend⟩ := (Option.any_eq_true _ _).mp hrun
  rw [Bool.and_eq_true, Option.isNone_iff_eq_none] at hend
  have hafter := ((hno _ s₁ (by decide) hs).2 s' (During.start.exec hexec)).returned hend.1
  obtain ⟨l, hl, hwaiting⟩ := (Option.any_eq_true _ _).mp hcell
  obtain ⟨l', hl', hcompleted⟩ := (Option.any_eq_true _ _).mp hend.2
  have hsame := hafter.2 l l' hl hl'
  obtain ⟨x, tr⟩ := l
  obtain ⟨x', tr'⟩ := l'
  cases x <;> cases hwaiting
  cases x' <;> cases hcompleted
  cases hsame

end Inger.L4
