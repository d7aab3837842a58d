import Inger.Core.History
import Inger.L2Machine.Budget
import Inger.L3Slice.Fate

/-!
# `pause` yields exactly once

`pause` asks to be preempted in three steps: it clears DEADLINE, blocks the
thread's signal and sets DEFERRED. The hook that runs when it returns finds the
flag, sends the signal to itself and unblocks it, and the handler finds a
deadline that has passed in any case; that DEADLINE is 0 is how it tells a yield
from a timeout. Ticks of the timer may arrive anywhere in between and set the
same flag.

`Asking` follows the request through these steps, with whatever handlers are on
the stack. Up to the end of the hook the signal is blocked, so that the handlers
are those of other threads' signals (`Calm`) and change nothing; then it is
pending, and nothing but its handler can run (`Striking`). Everywhere else
(`Plain`) the deadline is not 0, in DEADLINE and in the handlers that have read
it, also in those that are left on a paused function's stack. That needs that
`stamp` does not leave 0: it does when the sum overflows to it, and when budget
and clock are both 0 (`Dated`).

`Told` is what this means for a function's history: a return of `resume` with
`yielded` comes right after a call of `pause`, and after a call of `pause` nothing
comes but such a return.
-/
namespace Inger.L2

variable {V E : Type} {s : Sys V E} {t : Tid} {P : UInt64 → UInt64 → Prop}

/-- Where the step stamps the deadline, the clock and the budget meet `P`. -/
def Stamping (P : UInt64 → UInt64 → Prop) (s : Sys V E) : Label V E → Prop
  | .main t env =>
    match (s.threads t).base, (s.threads t).call with
    | .main .switch, some c => c.task.errno.isSome = true → P env.now c.us
    | _, _ => True
  | .act t (.run now) =>
    match (s.threads t).handlers, (s.threads t).base with
    | [], .body ⟨_, _, _, .stamp⟩ => P now (s.threads t).vars.deadline
    | _, _ => True
  | _ => True

instance [∀ now us, Decidable (P now us)] : (l : Label V E) → Decidable (Stamping P s l)
  | .main t env => decideMain env (s.threads t).base (s.threads t).call
  | .act t (.run now) =>
    decideRun now (s.threads t).vars.deadline (s.threads t).handlers (s.threads t).base
  | .act _ (.deliver _) => isTrue trivial
  | .act _ (.fn _) => isTrue trivial
  | .launch _ _ _ => isTrue trivial
  | .resume _ _ _ _ => isTrue trivial
  | .drop _ _ _ => isTrue trivial
  | .cancel _ _ _ => isTrue trivial
  | .erase _ _ => isTrue trivial
  | .exit _ => isTrue trivial
where
  decideMain (env : Env) : (b : Base) → (c : Option (Call V E)) → Decidable (match b, c with
      | .main .switch, some c => c.task.errno.isSome = true → P env.now c.us
      | _, _ => True)
    | .main .switch, some c =>
      inferInstanceAs (Decidable (c.task.errno.isSome = true → P env.now c.us))
    | .main .switch, none | .main .setup, _ | .main .signal, _ | .main .stack, _
    | .main .leave, _ => isTrue trivial
    | .caller, _ | .boot, _ | .body _, _ | .gone, _ | .exited, _ | .stuck _, _ => isTrue trivial
  decideRun (now deadline : UInt64) : (hs : List Frame) → (b : Base) → Decidable (match hs, b with
      | [], .body ⟨_, _, _, .stamp⟩ => P now deadline
      | _, _ => True)
    | [], .body ⟨_, _, _, .stamp⟩ => inferInstanceAs (Decidable (P now deadline))
    | [], .body ⟨_, _, _, .enable _⟩ | [], .body ⟨_, _, _, .call⟩ | [], .body ⟨_, _, _, .own⟩
    | [], .body ⟨_, _, _, .lib _⟩ | [], .body ⟨_, _, _, .pause _⟩ | [],
        .body ⟨_, _, _, .deferMask _⟩
    | [], .body ⟨_, _, _, .deferFlag _⟩ | [], .body ⟨_, _, _, .disable _⟩ | [],
        .body ⟨_, _, _, .check⟩
    | [], .body ⟨_, _, _, .ret⟩ => isTrue trivial
    | [], .caller | [], .boot | [], .main _ | [], .gone | [], .exited | [], .stuck _ | _ :: _, _ =>
      isTrue trivial

theorem Stamping.switch {c : Call V E} {env : Env} (h : Stamping P s (.main t env))
    (hb : (s.threads t).base = .main .switch) (hc : (s.threads t).call = some c)
    (he : c.task.errno.isSome = true) : P env.now c.us := by
  simp only [Stamping, hb, hc] at h
  exact h he

theorem Stamping.schedule {b : Body} {now : UInt64} (h : Stamping P s (.act t (.run now)))
    (hh : (s.threads t).handlers = []) (hb : (s.threads t).base = .body b) (hp : b.pos = .stamp) :
    P now (s.threads t).vars.deadline := by
  obtain ⟨fn, group, signal, pos⟩ := b
  subst hp
  simp only [Stamping, hh, hb] at h
  exact h

/-- `stamp` does not overflow, and the budget does not end at the epoch. -/
def Dated (now us : UInt64) : Prop := stampChecked now us ≠ none ∧ (now ≠ 0 ∨ us ≠ 0)

instance (now us : UInt64) : Decidable (Dated now us) := inferInstanceAs (Decidable (_ ∧ _))

theorem Dated.stamp_ne_zero {now us : UInt64} (h : Dated now us) : stamp now us ≠ 0 := by
  obtain ⟨hfit, hne⟩ := h
  have hfit := mt stampChecked_eq_none_iff.mpr hfit
  intro hz
  by_cases hm : us.toNat * 1000 < 2 ^ 64
  · have hsum : now.toNat + 1000 * us.toNat < 2 ^ 64 := by omega
    have hz' := stamp_exact hsum
    rw [hz, UInt64.toNat_zero] at hz'
    obtain hn | hu := hne
    · exact hn (UInt64.toNat_inj.mp (by rw [UInt64.toNat_zero]; omega))
    · exact hu (UInt64.toNat_inj.mp (by rw [UInt64.toNat_zero]; omega))
  · rw [stamp_fallback (by omega)] at hz
    rw [hz, UInt64.toNat_zero] at hm
    omega

/-! ## Positions -/

/-- The deadline the handler has read is not 0. -/
def HandlerPc.nonzero : HandlerPc → Prop
  | .clock _ d => d ≠ 0
  | .yielded _ d => d ≠ 0
  | _ => True

/-- On the way to the swap, with the deadline `d` once it is read. -/
def HandlerPc.strikes (d : UInt64) : HandlerPc → Bool
  | .entry => true
  | .relevant _ => true
  | .test _ r => r
  | .deadline _ => true
  | .clock _ d' => d' = d
  | .yielded _ d' => d' = d
  | .swap _ => true
  | _ => false

/-- Inside `pause`. -/
def Pos.pausing : Pos → Bool
  | .pause _ => true
  | .deferMask _ => true
  | .deferFlag _ => true
  | _ => false

/-- At the end of the hook: what follows is the function's own code. -/
def Pos.afterCall : Pos → Bool
  | .enable ⟨.tail, none, _, _, _, _⟩ => true
  | _ => false

theorem HandlerPc.Next.nonzero {now d : UInt64} {p q : HandlerPc} (h : p.Next now d q)
    (hp : p.nonzero) (hd : ∀ e, p = .deadline e → d ≠ 0) : q.nonzero := by
  cases h with
  | deadline e => exact hd e rfl
  | late e d reached => exact hp
  | _ => trivial

theorem HandlerPc.nonzero.writes {k : Task} {p : HandlerPc} (hp : p.nonzero)
    (hk : k.yielded = false) :
    (p.writes k).yielded = false := by
  cases p with
  | yielded e d => exact decide_eq_false hp
  | _ => exact hk

theorem Pos.not_pausing_of_preemptible {p : Pos} (h : p.preemptible = true) :
    p.pausing = false := by
  cases p <;> first | rfl | cases h

end Inger.L2

namespace Inger.L3

open L1.Reusable L1.Signals L2

variable {V E : Type}

/-! ## Histories -/

/-- The last that happened is a call of `pause`. -/
def Asked (tr : List (Event V E)) : Prop := ∃ a, tr = a ++ [.pause]

theorem not_asked_nil : ¬Asked ([] : List (Event V E)) := by
  rintro ⟨a, ha⟩
  cases a <;> cases ha

theorem asked_snoc {tr : List (Event V E)} {e : Event V E} : Asked (tr ++ [e]) ↔ e = .pause := by
  constructor
  · rintro ⟨a, ha⟩
    exact List.singleton_inj.mp (List.append_inj' ha rfl).2
  · rintro rfl
    exact ⟨tr, rfl⟩

/-- What event `e` may follow the history `a`. -/
structure Tells (a : List (Event V E)) (e : Event V E) : Prop where
  yields : e = .back true → Asked a
  answers : Asked a → e = .back true ∨ e = .cancel

/-- Every `pause` is followed by a return with `yielded`, unless its `Linger` is
cancelled first, and no other event is. -/
def Told (tr : List (Event V E)) : Prop := Each Tells tr

theorem Told.snoc {tr : List (Event V E)} {e : Event V E} (h : Told tr) (hq : ¬Asked tr)
    (he : e ≠ .back true) : Told (tr ++ [e]) :=
  each_snoc.mpr ⟨h, fun hb => absurd hb he, fun ha => absurd ha hq⟩

/-! ## Places on the function's stack -/

/-- No request is under way. -/
structure Plain (th : Thread V E) (b : Body) : Prop where
  yielded : th.vars.task.yielded = false
  frames : ∀ f ∈ th.handlers, f.pc.nonzero
  deadline : b.pos ≠ .stamp → th.vars.deadline ≠ 0
  pos : b.pos.pausing = false

/-- The handler `f` of the thread's signal `o` is running on the function's stack
and will find the deadline `d`; `down` arrived with it, `up` since. -/
structure Struck (d : UInt64) (o : Signal) (th : Thread V E) (up : List Frame) (f : Frame)
    (down : List Frame) : Prop where
  handlers : th.handlers = up ++ f :: down
  no : f.no = o
  mask : o ∈ th.mask
  pc : f.pc.strikes d = true
  deadline : th.vars.deadline = d
  yielded : ∀ e, f.pc = .swap e → th.vars.task.yielded = decide (d = 0)
  upper : ∀ x ∈ up, x.Ok false true false ∧ x.no ≠ o ∧ o ∈ x.mask
  lower : ∀ x ∈ down, x.pc = .entry

/-- With DEADLINE cleared, the signal is pending and not blocked, or its handler
is running. -/
inductive Striking (o : Signal) (th : Thread V E) : Prop
  | pending (deadline : th.vars.deadline = 0) (pending : o ∈ th.pending) (mask : o ∉ th.mask)
      (frames : ∀ x ∈ th.handlers, x.pc = .entry)
  | struck (up : List Frame) (f : Frame) (down : List Frame) (struck : Struck 0 o th up f down)

/-- DEADLINE is cleared and the signal blocked: what else holds, from `pause`'s
last step to the end of the hook. -/
inductive Requested (o : Signal) (v : Vars) (p : Sigset) : Pos → Prop
  | flag (g : Group) (deadline : v.deadline = 0) : Requested o v p (.deferFlag g)
  | inside (g : Group) (deadline : v.deadline = 0) (deferred : v.deferred = true) :
      Requested o v p (.lib g)
  | hook (e : Enable) (deadline : v.deadline = 0) (deferred : v.deferred = true)
      (group : e.group = none)
      (unblock : e.unblock = none)
      (pc : e.pc = .errno ∨ e.pc = .location ∨ e.pc = .group ∨ e.pc = .swap) :
      Requested o v p (.enable e)
  | get (e : Enable) (deadline : v.deadline = 0) (group : e.group = none)
      (unblock : e.unblock = none)
      (pc : e.pc = .get) : Requested o v p (.enable e)
  | kill (e : Enable) (deadline : v.deadline = 0) (group : e.group = none)
      (unblock : e.unblock = some o)
      (pc : e.pc = .kill) : Requested o v p (.enable e)
  | unblock (e : Enable) (deadline : v.deadline = 0) (group : e.group = none)
      (unblock : e.unblock = some o)
      (pc : e.pc = .unblock) (pending : o ∈ p) : Requested o v p (.enable e)

/-- `pause` has been called and has not yielded yet. -/
inductive Asking (o : Signal) (th : Thread V E) : Pos → Prop
  | enters (g : Group) : Asking o th (.pause g)
  | clears (g : Group) (deadline : th.vars.deadline = 0) : Asking o th (.deferMask g)
  | blocked (p : Pos) (calm : Calm th) (requested : Requested o th.vars th.pending p) :
    Asking o th p
  | returns (e : Enable) (group : e.group = none) (pc : e.pc = .tail)
      (striking : Striking o th) : Asking o th (.enable e)

/-- What the handler that swaps, or the end of `schedule`, leaves to `resume`. -/
structure Leaves (k : Task) (tr : List (Event V E)) : Prop where
  told : k.yielded = true ↔ Asked tr
  frames : ∀ st m b hs, k.checkpoint = some ⟨st, m, .paused b hs⟩ → ∀ f ∈ hs, f.pc.nonzero
  after : ∀ st m b hs, k.checkpoint = some ⟨st, m, .paused b hs⟩ → k.yielded = true →
    b.pos.afterCall = true

/-- A task between slices and up to the next jump. -/
structure Quiet (k : Task) (tr : List (Event V E)) : Prop where
  quiet : ¬Asked tr
  frames : ∀ st m b hs, k.checkpoint = some ⟨st, m, .paused b hs⟩ → ∀ f ∈ hs, f.pc.nonzero

/-- Only other threads' signals have interrupted the handler that has swapped. -/
def Unmolested (th : Thread V E) : Prop :=
  ∀ o, th.signaler = some o → o ∈ th.mask ∧ ∀ f ∈ th.handlers, f.target = .interrupted →
    f.Ok false true false ∧ f.no ≠ o ∧ o ∈ f.mask

/-- What holds of a thread in a call, by where it is. -/
def Live (th : Thread V E) (c : Call V E) : Prop :=
  match th.base with
  | .main .leave => Leaves th.vars.task c.trace ∧ (Asked c.trace → th.vars.task.errno.isSome = true)
  | .main _ => Quiet c.task c.trace
  | .boot => ¬Asked c.trace ∧ th.vars.task.yielded = false
  | .body b => ¬Asked c.trace ∧ Plain th b ∨
      Asked c.trace ∧ ∃ o, th.signaler = some o ∧ Asking o th b.pos
  | .gone => Leaves th.vars.task c.trace ∧ (Asked c.trace → Unmolested th)
  | .stuck _ => ¬Asked c.trace
  | _ => True

/-- What a handler on the function's stack leaves when it swaps. -/
structure Swapped (th th' : Thread V E) (b : Body) (f : Frame) (rest : List Frame)
    (y : Bool) : Prop where
  base : th'.base = .gone
  yielded : th'.vars.task.yielded = y
  mask : th'.mask = th.mask
  checkpoint : ∃ st m, th.vars.task.checkpoint = some ⟨st, m, .callsite⟩ ∧
    th'.vars.task.checkpoint = some ⟨st, f.mask, .paused b rest⟩
  nonzero : ∀ x ∈ rest, x.pc.nonzero
  handlers : ∃ bottom, th'.handlers = [bottom] ∧ bottom.target = .callsite

section
variable {w : World} {now d : UInt64} {t : Tid} {th th' : Thread V E} {c c' : Call V E}
  {f : Frame} {rest : List Frame} {b : Body} {o no : Signal} {v v' : Vars} {p : Sigset} {pos : Pos}

/-! ## Signals arrive -/

theorem Requested.erase (h : Requested o v p pos) (hne : o ≠ no) :
    Requested o v (p.erase no) pos := by
  cases h with
  | flag g deadline => exact .flag g deadline
  | inside g deadline deferred => exact .inside g deadline deferred
  | hook e deadline deferred group unblock pc => exact .hook e deadline deferred group unblock pc
  | get e deadline group unblock pc => exact .get e deadline group unblock pc
  | kill e deadline group unblock pc => exact .kill e deadline group unblock pc
  | unblock e deadline group unblock pc pending =>
    exact .unblock e deadline group unblock pc (Finset.mem_erase.mpr ⟨hne, pending⟩)

theorem Struck.deliver {up down : List Frame} (h : Struck d o th up f down) (hno : no ∉ th.mask) :
    Struck d o (th.interrupt no) (⟨no, th.mask, .interrupted, .entry⟩ :: up) f down where
  handlers := by rw [Thread.interrupt, h.handlers]; rfl
  no := h.no
  mask := Finset.mem_insert_of_mem h.mask
  pc := h.pc
  deadline := h.deadline
  yielded := h.yielded
  upper := by
    intro x hx
    rcases List.mem_cons.mp hx with rfl | hx
    · exact ⟨⟨rfl, trivial⟩, fun (he : no = o) => hno (he ▸ h.mask), h.mask⟩
    · exact h.upper x hx
  lower := h.lower

theorem Striking.deliver (h : Striking o th) (hno : no ∉ th.mask) :
    Striking o (th.interrupt no) := by
  cases h with
  | pending deadline pending mask frames =>
    by_cases he : no = o
    · subst he
      refine .struck [] ⟨no, th.mask, .interrupted, .entry⟩ th.handlers ?_
      exact ⟨rfl, rfl, Finset.mem_insert_self _ _, rfl, deadline, (fun e he => by cases he),
        List.forall_mem_nil _, frames⟩
    · refine .pending deadline (Finset.mem_erase.mpr ⟨Ne.symm he, pending⟩) ?_ ?_
      · intro hm
        exact (Finset.mem_insert.mp hm).elim (fun h => he h.symm) mask
      · intro x hx
        rcases List.mem_cons.mp hx with rfl | hx
        · rfl
        · exact frames x hx
  | struck up f down struck => exact .struck _ f down (struck.deliver hno)

theorem Asking.deliver (h : Asking o th pos) (ho : th.signaler = some o) (hno : no ∉ th.mask) :
    Asking o (th.interrupt no) pos := by
  cases h with
  | enters g => exact .enters g
  | clears g deadline => exact .clears g deadline
  | blocked _ calm requested =>
    have hne : o ≠ no := fun he => hno (he ▸ calm.mask o ho)
    exact .blocked _ (calm.deliver hno).calm (requested.erase hne)
  | returns e group pc striking => exact .returns e group pc (striking.deliver hno)

theorem Plain.deliver (h : Plain th b) : Plain (th.interrupt no) b where
  yielded := h.yielded
  frames := by
    intro x hx
    rcases List.mem_cons.mp hx with rfl | hx
    · trivial
    · exact h.frames x hx
  deadline := h.deadline
  pos := h.pos

theorem Unmolested.deliver (h : Unmolested th) (hno : no ∉ th.mask) :
    Unmolested (th.interrupt no) := by
  intro o ho
  obtain ⟨hm, hf⟩ := h o ho
  refine ⟨Finset.mem_insert_of_mem hm, ?_⟩
  intro x hx ht
  rcases List.mem_cons.mp hx with rfl | hx
  · exact ⟨⟨rfl, trivial⟩, fun (he : no = o) => hno (he ▸ hm), hm⟩
  · exact hf x hx ht

theorem Live.deliver (h : Live th c) (hno : no ∉ th.mask) : Live (th.interrupt no) c := by
  unfold Live at h ⊢
  have hbase : (th.interrupt no).base = th.base := rfl
  rw [hbase]
  split at h
  · exact h
  · exact h
  · exact h
  · obtain ⟨hq, hp⟩ | ⟨ha, o, ho, hp⟩ := h
    · exact .inl ⟨hq, hp.deliver⟩
    · exact .inr ⟨ha, o, ho, hp.deliver ho hno⟩
  · exact ⟨h.1, fun ha => (h.2 ha).deliver hno⟩
  · exact h
  · trivial

/-! ## A handler takes a step -/

theorem InBody.swapped (h : InBody t th c b) (hb : th.base = .body b) (hf : f.target = .interrupted)
    (hrest : ∀ x ∈ rest, x.pc.nonzero) (q : HandlerPc) :
    Swapped th (th.swap f rest q) b f rest th.vars.task.yielded := by
  obtain ⟨st, hck⟩ := h.run.checkpoint
  simp only [Thread.swap, hck, hf, hb]
  exact ⟨rfl, rfl, rfl, ⟨st, _, hck, rfl⟩, hrest, _, rfl, rfl⟩

theorem Plain.handler (hp : Plain th b) (h : InBody t th c b) (hsig : w.sig t = th.signaler)
    (hb : th.base = .body b) (hh : th.handlers = f :: rest)
    (hs : th.handlerStep w now f rest = th') :
    th'.base = .body b ∧ Plain th' b ∨ Swapped th th' b f rest false ∨
      ∃ why, th'.base = .stuck why := by
  have hmem : f ∈ th.handlers := by rw [hh]; exact List.mem_cons_self
  have hnz := hp.frames f hmem
  have hrest : ∀ x ∈ rest, x.pc.nonzero := fun x hx =>
    hp.frames x (by rw [hh]; exact List.mem_cons_of_mem f hx)
  -- A handler reads DEADLINE in the function's group only.
  have hread (e : Int) (hpc : f.pc = .deadline e) : th.vars.deadline ≠ 0 := by
    have hok := (h.frames f hmem).pc
    rw [hpc] at hok
    refine hp.deadline fun hpos => ?_
    rw [hpos] at hok
    cases hok.1
  cases h.handled hsig hh hs with
  | moves f' v' ok no mask vars next task =>
    refine .inl ⟨hb, ?_, ?_, ?_, hp.pos⟩
    · rw [task]
      exact hnz.writes hp.yielded
    · intro x hx
      rcases List.mem_cons.mp hx with rfl | hx
      · exact next.nonzero hnz hread
      · exact hrest x hx
    · rw [vars.deadline]
      exact hp.deadline
  | returns => exact .inl ⟨hb, hp.yielded, hrest, hp.deadline, hp.pos⟩
  | swaps e pc =>
    refine .inr (.inl ?_)
    have hsw : Swapped th (th.swap f rest (.errno e)) b f rest th.vars.task.yielded :=
      h.swapped hb (h.frames f hmem).target hrest _
    rwa [hp.yielded] at hsw
  | borrowed => exact .inr (.inr ⟨.borrowed, rfl⟩)

/-- A handler of another signal on top of the one that is about to pause the
function. -/
theorem Struck.above {x : Frame} {up down : List Frame} (hk : Struck d o th (x :: up) f down)
    (ho : th.signaler = some o) (hrel : ∀ o, threadSignal w.sig th.vars = some o →
      th.signaler = some o) :
    ∃ up', Struck d o (th.handlerStep w now x (up ++ f :: down)) up' f down ∧
      (th.handlerStep w now x (up ++ f :: down)).base = th.base ∧
      (th.handlerStep w now x (up ++ f :: down)).vars.task = th.vars.task := by
  obtain ⟨hx, hne, hm⟩ := hk.upper x List.mem_cons_self
  have hup : ∀ y ∈ up, y.Ok false true false ∧ y.no ≠ o ∧ o ∈ y.mask :=
    fun y hy => hk.upper y (List.mem_cons_of_mem x hy)
  have hcalm : x.Ok th.group.preemptible true false := hx.calm
  have hq : true = true → threadSignal w.sig th.vars ≠ some x.no := by
    intro _ he
    exact hne (Option.some.inj ((hrel _ he).symm.trans ho))
  generalize hs : th.handlerStep w now x (up ++ f :: down) = th'
  cases Thread.handlerStep_cases hcalm rfl hq (by simp) hs with
  | moves f' v' ok no mask vars =>
    refine ⟨f' :: up, ⟨rfl, hk.no, hk.mask, hk.pc, vars.deadline.trans hk.deadline, ?_, ?_,
      hk.lower⟩,
      rfl, vars.task rfl⟩
    · intro e he
      rw [vars.task rfl]
      exact hk.yielded e he
    · intro y hy
      rcases List.mem_cons.mp hy with rfl | hy
      · exact ⟨ok.calm, no ▸ hne, mask hm⟩
      · exact hup y hy
  | returns => exact ⟨up, ⟨rfl, hk.no, hm, hk.pc, hk.deadline, hk.yielded, hup, hk.lower⟩, rfl, rfl⟩
  | swaps e pc pre past => cases past
  | borrowed pre past => cases past

/-- The handler of the thread's signal, with nothing on top, goes on to the
swap. -/
theorem Struck.handler {down : List Frame} (hk : Struck d o th [] f down) (h : InBody t th c b)
    (hsig : w.sig t = th.signaler) (ho : th.signaler = some o) (hb : th.base = .body b)
    (hpre : b.pos.preemptible = true) (hd : d ≤ now) :
    (∃ f', Struck d o (th.handlerStep w now f down) [] f' down ∧ f'.mask = f.mask ∧
        (th.handlerStep w now f down).base = th.base ∧
        (th.handlerStep w now f down).vars.task.checkpoint = th.vars.task.checkpoint) ∨
      Swapped th (th.handlerStep w now f down) b f down (decide (d = 0)) := by
  have hh : th.handlers = f :: down := hk.handlers
  have hg : th.group.preemptible = true := by
    rw [h.group (Pos.entering_of_preemptible hpre), hpre]; rfl
  have hown : threadSignal w.sig th.vars = some o := by
    rw [threadSignal_own hsig (by rw [h.signal, Pos.past_of_preemptible hpre]; rfl), ho]
  have hborrows : down.any (·.pc.borrows) = false := by
    rw [List.any_eq_false]
    intro x hx
    rw [hk.lower x hx]
    exact Bool.false_ne_true
  have move (q : HandlerPc) (v : Vars) (hq : q.strikes d = true) (hv : v.deadline = d)
      (hy : ∀ e, q = .swap e → v.task.yielded = decide (d = 0)) :
      Struck d o { th with handlers := { f with pc := q } :: down, vars := v } []
        { f with pc := q } down :=
    ⟨rfl, hk.no, hk.mask, hq, hv, hy, List.forall_mem_nil _, hk.lower⟩
  have hpc' := hk.pc
  unfold Thread.handlerStep
  cases hpc : f.pc with
  | entry => exact .inl ⟨_, move _ _ rfl hk.deadline (by simp), rfl, rfl, rfl⟩
  | relevant e =>
    refine .inl ⟨_, move _ _ ?_ hk.deadline (by simp), rfl, rfl, rfl⟩
    simp [HandlerPc.strikes, hown, hk.no]
  | test e r =>
    rw [hpc] at hpc'
    obtain rfl : r = true := hpc'
    simp only [hg, Bool.and_self, if_true]
    exact .inl ⟨_, move _ _ rfl hk.deadline (by simp), rfl, trivial, trivial⟩
  | deadline e =>
    exact .inl ⟨_, move _ _ (decide_eq_true hk.deadline) hk.deadline (by simp), rfl, rfl, rfl⟩
  | clock e d' =>
    rw [hpc] at hpc'
    obtain rfl : d' = d := of_decide_eq_true hpc'
    simp only [hd, if_true]
    exact .inl ⟨_, move _ _ (decide_eq_true rfl) hk.deadline (by simp), rfl, trivial, trivial⟩
  | yielded e d' =>
    rw [hpc] at hpc'
    obtain rfl : d' = d := of_decide_eq_true hpc'
    simp only [hborrows, Bool.false_eq_true, if_false]
    exact .inl ⟨_, move _ _ rfl hk.deadline fun _ _ => rfl, rfl, trivial, trivial⟩
  | swap e =>
    refine .inr ?_
    have hmem : f ∈ th.handlers := by rw [hh]; exact List.mem_cons_self
    have hsw : Swapped th (th.swap f down (.errno e)) b f down th.vars.task.yielded := by
      refine h.swapped hb (h.frames f hmem).target ?_ _
      intro x hx
      rw [hk.lower x hx]
      trivial
    rwa [hk.yielded e hpc] at hsw
  | _ => rw [hpc] at hpc'; cases hpc'

theorem Requested.kept (h : Requested o v p pos) (hv : v.Kept true v') : Requested o v' p pos := by
  have hd (h : v.deadline = 0) : v'.deadline = 0 := hv.deadline.trans h
  have hf (h : v.deferred = true) : v'.deferred = true := (hv.deferred rfl).trans h
  cases h with
  | flag g deadline => exact .flag g (hd deadline)
  | inside g deadline deferred => exact .inside g (hd deadline) (hf deferred)
  | hook e deadline deferred group unblock pc =>
    exact .hook e (hd deadline) (hf deferred) group unblock pc
  | get e deadline group unblock pc => exact .get e (hd deadline) group unblock pc
  | kill e deadline group unblock pc => exact .kill e (hd deadline) group unblock pc
  | unblock e deadline group unblock pc pending =>
    exact .unblock e (hd deadline) group unblock pc pending

/-- A thread with a pending signal that is not blocked is not ready. -/
theorem Striking.struck_of_ready (h : Striking o th) (hr : th.ready = true) :
    ∃ up f down, Struck 0 o th up f down := by
  cases h with
  | pending deadline pending mask frames =>
    simp only [Thread.ready, Bool.and_eq_true, decide_eq_true_eq] at hr
    exact absurd (hr.2 pending) mask
  | struck up f down struck => exact ⟨up, f, down, struck⟩

theorem Asking.handler (ha : Asking o th b.pos) (h : InBody t th c b) (hsig : w.sig t = th.signaler)
    (ho : th.signaler = some o) (hb : th.base = .body b) (hready : th.ready = true)
    (hh : th.handlers = f :: rest) (hs : th.handlerStep w now f rest = th') :
    th'.base = .body b ∧ Asking o th' b.pos ∨ Swapped th th' b f rest true ∧
      b.pos.afterCall = true := by
  subst hs
  have hmem : f ∈ th.handlers := by rw [hh]; exact List.mem_cons_self
  have hrel : b.pos.past = false → ∀ o, threadSignal w.sig th.vars = some o →
      th.signaler = some o := by
    intro hpast
    exact own_of_threadSignal hsig (.inr (by rw [h.signal, hpast]; rfl))
  -- Outside the function's group a handler does not get to the deadline.
  have shared (hpre : b.pos.preemptible = false) (hpast : b.pos.past = false) :
      (th.handlerStep w now f rest).base = .body b ∧
        (th.handlerStep w now f rest).vars.deadline = th.vars.deadline := by
    generalize hs : th.handlerStep w now f rest = th'
    cases h.handled hsig hh hs with
    | moves f' v' ok no mask vars => exact ⟨hb, vars.deadline⟩
    | returns => exact ⟨hb, rfl⟩
    | swaps e pc pre => cases hpre.symm.trans pre
    | borrowed pre => cases hpre.symm.trans pre
  generalize hp : b.pos = pos at ha shared hrel
  cases ha with
  | enters g => exact .inl ⟨(shared rfl rfl).1, .enters g⟩
  | clears g deadline =>
    obtain ⟨hbase, hd⟩ := shared rfl rfl
    exact .inl ⟨hbase, .clears g (hd.trans deadline)⟩
  | blocked _ calm requested =>
    have hpast : pos.past = false := by cases requested <;> rfl
    have hu : Undisturbed th (th.handlerStep w now f rest) := calm.handler hh (hrel hpast) rfl
    refine .inl ⟨hu.base.trans hb, .blocked _ hu.calm ?_⟩
    rw [Thread.handlerStep_pending]
    exact requested.kept hu.vars
  | returns e group pc striking =>
    have hpre : b.pos.preemptible = true := by rw [hp]; simp [Pos.preemptible, group]
    obtain ⟨up, g, down, hk⟩ := striking.struck_of_ready hready
    have hhk := hk.handlers
    cases up with
    | cons x up =>
      rw [hh] at hhk
      obtain ⟨rfl, rfl⟩ := List.cons_eq_cons.mp hhk
      obtain ⟨up', hk', hbase, -⟩ := hk.above ho (hrel rfl)
      exact .inl ⟨hbase.trans hb, .returns e group pc (.struck up' g down hk')⟩
    | nil =>
      rw [hh] at hhk
      obtain ⟨rfl, rfl⟩ := List.cons_eq_cons.mp hhk
      have hle : (0 : UInt64) ≤ now := by
        rw [UInt64.le_iff_toNat_le, UInt64.toNat_zero]
        exact Nat.zero_le _
      obtain ⟨f', hk', -, hbase, -⟩ | hsw := hk.handler h hsig ho hb hpre hle
      · exact .inl ⟨hbase.trans hb, .returns e group pc (.struck [] f' _ hk')⟩
      · refine .inr ⟨hsw, ?_⟩
        obtain ⟨pc₀, g₀, erryes, errno, unblock, cell⟩ := e
        obtain rfl : g₀ = none := group
        obtain rfl : pc₀ = .tail := pc
        rfl

/-- A handler that interrupted one that has swapped does not touch TASK. -/
theorem Gone.task_upper {upper : List Frame} {bottom : Frame} (h : Gone t th c (f :: upper) bottom)
    (hs : th.handlerStep w now f (upper ++ [bottom]) = th') :
    th'.vars.task = th.vars.task ∨ ∃ why, th'.base = .stuck why := by
  cases h.handled hs with
  | moves f' v' ok no mask vars next task =>
    refine .inl (task.trans ?_)
    have hok := ok.pc
    cases hpc : f.pc with
    | yielded e d =>
      -- It would have to go on to the swap.
      rw [hpc] at next
      generalize f'.pc = q at next hok
      cases next
      cases hok.2.2
    | _ => rfl
  | returns => exact .inl rfl
  | swaps e pc pre past sw => cases sw
  | borrowed => exact .inr ⟨.borrowed, rfl⟩

/-- A handler of another signal on top of the one that has swapped. -/
theorem Unmolested.above {upper : List Frame} {bottom : Frame} (hu : Unmolested th)
    (h : Gone t th c (f :: upper) bottom) (hsig : w.sig t = th.signaler)
    (hs : th.handlerStep w now f (upper ++ [bottom]) = th') :
    Unmolested th' ∧ th'.base = th.base ∧ th'.vars.task = th.vars.task := by
  have hh : th.handlers = f :: (upper ++ [bottom]) := h.handlers
  have hmem : f ∈ th.handlers := by rw [hh]; exact List.mem_cons_self
  have hrest : ∀ x ∈ upper ++ [bottom], x ∈ th.handlers := fun x hx => by
    rw [hh]; exact List.mem_cons_of_mem f hx
  have hf := h.frames f List.mem_cons_self
  obtain ⟨o, ho⟩ := Option.isSome_iff_exists.mp h.own
  obtain ⟨hm, hall⟩ := hu o ho
  obtain ⟨hx, hne, hfm⟩ := hall f hmem hf.target
  have hcalm : f.Ok th.group.preemptible true false := hx.calm
  have hv : th.vars.signal = none ∨ th.vars.signal = some t := by
    rw [h.signal]
    cases bottom.pc.past
    · exact .inr rfl
    · exact .inl rfl
  have hq : true = true → threadSignal w.sig th.vars ≠ some f.no := by
    intro _ he
    exact hne (Option.some.inj ((own_of_threadSignal hsig hv _ he).symm.trans ho))
  cases Thread.handlerStep_cases hcalm rfl hq (by simp) hs with
  | moves f' v' ok no mask vars =>
    refine ⟨fun o' ho' => ⟨(hu o' ho').1, ?_⟩, rfl, vars.task rfl⟩
    cases ho.symm.trans ho'
    intro x hx ht
    rcases List.mem_cons.mp hx with rfl | hx
    · exact ⟨ok.calm, no ▸ hne, mask hfm⟩
    · exact hall x (hrest x hx) ht
  | returns =>
    refine ⟨fun o' ho' => ?_, rfl, rfl⟩
    cases ho.symm.trans ho'
    exact ⟨hfm, fun x hx ht => hall x (hrest x hx) ht⟩
  | swaps e pc pre past => cases past
  | borrowed pre past => cases past

/-- The handler that has swapped goes on to the call site. -/
theorem Gone.leaves {bottom : Frame} (h : Gone t th c [] bottom) (hb : th.base = .gone)
    (hs : th.handlerStep w now bottom [] = th') :
    ((th'.base = .gone ∧ th'.mask = th.mask ∧ ∃ f, th'.handlers = [f] ∧ f.target = .callsite) ∨
        th'.base = .main .leave ∧ th'.vars.task.errno.isSome = true) ∧
      th'.vars.task.yielded = th.vars.task.yielded ∧
      th'.vars.task.checkpoint = th.vars.task.checkpoint := by
  subst hs
  have hl := h.leaving
  unfold Thread.handlerStep
  cases hpc : bottom.pc with
  | errno e => exact ⟨.inl ⟨hb, rfl, _, rfl, h.target⟩, rfl, rfl⟩
  | block => exact ⟨.inl ⟨hb, rfl, _, rfl, h.target⟩, rfl, rfl⟩
  | disable pc => cases pc <;> exact ⟨.inl ⟨hb, rfl, _, rfl, h.target⟩, rfl, rfl⟩
  | ret =>
    have herr : th.vars.task.errno.isSome = true := h.errno (by rw [hpc]; simp)
    simp only [Thread.sigreturn, h.target]
    exact ⟨.inr ⟨trivial, herr⟩, trivial, trivial⟩
  | _ => rw [hpc] at hl; cases hl

/-! ## The code on the function's stack -/

/-- `enable_preemption` touches neither TASK nor DEADLINE. -/
theorem enableStep_same (e : Enable) :
    (th.enableStep w e).1.vars.task = th.vars.task ∧
      (th.enableStep w e).1.vars.deadline = th.vars.deadline ∧
      (th.enableStep w e).1.handlers = th.handlers := by
  unfold Thread.enableStep
  cases e.pc with
  | swap => exact ⟨rfl, rfl, rfl⟩
  | errno =>
    cases th.vars.errnoLocation.borrowed with
    | true => exact ⟨rfl, rfl, rfl⟩
    | false =>
      simp only [Bool.false_eq_true, if_false]
      split <;> exact ⟨rfl, rfl, rfl⟩
  | _ => dsimp only; split <;> exact ⟨rfl, rfl, rfl⟩

theorem enablePos_same {b' : Body} (e : Enable) (hb : (th.enablePos w b e).base = .body b') :
    (th.enablePos w b e).vars.task = th.vars.task ∧
      (th.enablePos w b e).vars.deadline = th.vars.deadline ∧
      (th.enablePos w b e).handlers = th.handlers ∧
      ((∃ e', b'.pos = .enable e') ∨ b'.pos = .call ∨ b'.pos = .own) := by
  obtain ⟨htask, hd, hh⟩ : (th.enableStep w e).1.vars.task = th.vars.task ∧
      (th.enableStep w e).1.vars.deadline = th.vars.deadline ∧
      (th.enableStep w e).1.handlers = th.handlers := enableStep_same e
  revert hb
  unfold Thread.enablePos
  split <;> rename_i heq <;> rw [heq] at htask hd hh <;> dsimp only at htask hd hh
  · rintro ⟨⟩
    exact ⟨htask, hd, hh, .inl ⟨_, rfl⟩⟩
  · split
    · split
      · rintro ⟨⟩
      · rintro ⟨⟩
        exact ⟨htask, hd, hh, .inr (.inl rfl)⟩
    · rintro ⟨⟩
      exact ⟨htask, hd, hh, .inr (.inr rfl)⟩
  · split
    · rintro ⟨⟩
    · rintro ⟨⟩
      exact ⟨htask, hd, hh, .inr (.inr rfl)⟩
  · rintro ⟨⟩

theorem enablePos_plain {b' : Body} (e : Enable) (hb : (th.enablePos w b e).base = .body b')
    (hp : Plain th b) (hpos : b.pos ≠ .stamp) : Plain (th.enablePos w b e) b' := by
  obtain ⟨htask, hd, hh, hq⟩ := enablePos_same e hb
  refine ⟨by rw [htask]; exact hp.yielded, by rw [hh]; exact hp.frames, fun _ => ?_, ?_⟩
  · rw [hd]
    exact hp.deadline hpos
  · obtain ⟨e', hq⟩ | hq | hq := hq <;> rw [hq] <;> rfl

/-- The thread is on the function's stack with no request under way. -/
theorem Live.plain (hb : th.base = .body b) (hq : ¬Asked c.trace) (hp : Plain th b) :
    Live th c := by
  simp only [Live, hb]
  exact .inl ⟨hq, hp⟩

theorem Live.asking (hb : th.base = .body b) (ho : th.signaler = some o) (ha : Asked c.trace)
    (hp : Asking o th b.pos) : Live th c := by
  simp only [Live, hb]
  exact .inr ⟨ha, o, ho, hp⟩

theorem Live.stuck (hb : ∃ why, th.base = .stuck why) (hq : ¬Asked c.trace) : Live th c := by
  obtain ⟨why, hb⟩ := hb
  simp only [Live, hb]
  exact hq

theorem Plain.step (hp : Plain th b) (h : InBody t th c b) (hw : w.notls = false)
    (hsig : w.sig t = th.signaler) (hcall : th.call = some c) (hh : th.handlers = [])
    (hstamp : b.pos = .stamp → stamp now th.vars.deadline ≠ 0) (ht : Told c.trace)
    (hq : ¬Asked c.trace) (hs : th.bodyStep w now c b = some th') (hcall' : th'.call = some c') :
    Told c'.trace ∧ Live th' c' := by
  obtain ⟨fn, grp, sg, pos⟩ := b
  have hfits := h.body.fits
  have hfn : fn = c.linger := h.body.fn
  -- The steps that only move on.
  have goes {th₁ : Thread V E} {b' : Body} (hc : th₁.call = some c') (hc₁ : th₁.call = some c)
      (hb : th₁.base = .body b') (hp' : Plain th₁ b') : Told c'.trace ∧ Live th₁ c' := by
    cases hc₁.symm.trans hc
    exact ⟨ht, .plain hb hq hp'⟩
  cases pos with
  | stamp =>
    simp only [Thread.bodyStep] at hs
    split at hs <;> cases hs
    · cases hcall.symm.trans hcall'
      exact ⟨ht, .stuck ⟨.overflow, rfl⟩ hq⟩
    · exact goes hcall' hcall rfl ⟨hp.yielded, by simp [Thread.goto, hh], fun _ => hstamp rfl, rfl⟩
  | enable e =>
    simp only [Thread.bodyStep, Option.some.injEq] at hs
    subst hs
    obtain ⟨b', hb', hc', -⟩ | ⟨-, -, hfail⟩ := h.enable hw hsig hh rfl
    · exact goes hcall' (hc'.trans hcall) hb' (enablePos_plain e hb' hp (by simp))
    · rw [hfail] at hcall' ⊢
      cases hcall.symm.trans hcall'
      exact ⟨ht, .stuck ⟨.errnoBorrowed, rfl⟩ hq⟩
  | call =>
    have hfun : c.functional = .function := hfits
    simp only [Thread.bodyStep, Thread.callPos, hfn, if_true, hfun, Option.some.injEq] at hs
    subst hs
    cases hcall'
    exact ⟨ht.snoc hq (by simp), .plain rfl (by simp [Call.log, asked_snoc])
      ⟨hp.yielded, hp.frames, fun _ => hp.deadline (by simp), rfl⟩⟩
  | own => cases hs
  | lib back => cases hs
  | pause back => cases hp.pos
  | deferMask back => cases hp.pos
  | deferFlag back => cases hp.pos
  | disable pc =>
    simp only [Thread.bodyStep, Option.some.injEq] at hs
    subst hs
    have hd : th.vars.deadline ≠ 0 := hp.deadline (by simp)
    cases pc with
    | mask =>
      cases sg <;>
        exact goes hcall' hcall rfl ⟨hp.yielded, hp.frames, fun _ => hd, rfl⟩
    | _ => exact goes hcall' hcall rfl ⟨hp.yielded, hp.frames, fun _ => hd, rfl⟩
  | check =>
    simp only [Thread.bodyStep, h.run.errno, Option.isSome_none, Bool.and_false, Bool.false_eq_true,
      if_false, Option.some.injEq] at hs
    subst hs
    exact goes hcall' hcall rfl ⟨hp.yielded, hp.frames, fun _ => hp.deadline (by simp), rfl⟩
  | ret =>
    simp only [Thread.bodyStep, Option.some.injEq] at hs
    subst hs
    cases hcall'
    obtain ⟨st, hck⟩ := h.run.checkpoint
    refine ⟨ht.snoc hq (by simp), ?_⟩
    simp only [Live, Thread.setCall, Call.log]
    refine ⟨⟨?_, ?_, ?_⟩, fun ha => absurd (asked_snoc.mp ha) (by simp)⟩
    · simp [hp.yielded, asked_snoc]
    · intro st m b hs he
      rw [hck] at he
      cases he
    · intro st m b hs he
      rw [hck] at he
      cases he

/-- A step of the request. -/
theorem Asking.step (ha : Asking o th b.pos) (h : InBody t th c b) (hw : w.notls = false)
    (hsig : w.sig t = th.signaler) (ho : th.signaler = some o) (hh : th.handlers = [])
    (hready : th.ready = true) (hs : th.bodyStep w now c b = some th') :
    th'.call = th.call ∧ th'.signaler = th.signaler ∧ ∃ b', th'.base = .body b' ∧
      Asking o th' b'.pos := by
  obtain ⟨fn, grp, sg, pos⟩ := b
  have hgroup := h.group
  have hsignal := h.signal
  have hloc := h.body.located
  have hown (hv : th.vars.signal = some t) : threadSignal w.sig th.vars = some o :=
    (threadSignal_own hsig hv).trans ho
  cases ha with
  | enters g =>
    simp only [Thread.bodyStep, Option.some.injEq] at hs
    subst hs
    exact ⟨rfl, rfl, _, rfl, .clears g rfl⟩
  | clears g deadline =>
    have hpre : th.group.preemptible = false := by rw [hgroup rfl]; rfl
    simp only [Thread.bodyStep, hpre, Bool.and_false, Bool.false_eq_true, if_false, hown hsignal,
      Option.some.injEq] at hs
    subst hs
    refine ⟨rfl, rfl, _, rfl, .blocked _ ⟨?_, ?_, ?_⟩ (.flag g deadline)⟩
    · intro o' ho'
      cases ho.symm.trans ho'
      exact Finset.mem_insert_self _ _
    · simp [Thread.goto, hh]
    · simp [Thread.goto, hh]
  | blocked _ calm requested =>
    have hcalm (v : Vars) (p : Sigset) (x : Base) :
        Calm { th with vars := v, pending := p, base := x } :=
      ⟨calm.mask, calm.frames, calm.foreign⟩
    cases requested with
    | flag g deadline =>
      simp only [Thread.bodyStep, Option.some.injEq] at hs
      subst hs
      exact ⟨rfl, rfl, _, rfl, .blocked _ (hcalm _ _ _) (.inside g deadline rfl)⟩
    | inside g deadline deferred => cases hs
    | hook e deadline deferred group unblock pc =>
      simp only [Thread.bodyStep, Option.some.injEq] at hs
      subst hs
      obtain ⟨pc₀, g₀, erryes, errno, un, cell⟩ := e
      obtain rfl : g₀ = none := group
      have hset := hloc rfl
      obtain rfl | rfl | rfl | rfl :
          pc₀ = .errno ∨ pc₀ = .location ∨ pc₀ = .group ∨ pc₀ = .swap := pc
      · simp only [Thread.enablePos, Thread.enableStep, Option.none_or, hset, Pos.borrowing]
        exact ⟨rfl, rfl, _, rfl, .blocked _ (hcalm _ _ _)
          (.hook _ deadline deferred rfl unblock (.inr (.inl rfl)))⟩
      · simp only [Thread.enablePos, Thread.enableStep, hw, Bool.false_eq_true, false_and, if_false]
        exact ⟨rfl, rfl, _, rfl, .blocked _ (hcalm _ _ _)
          (.hook _ deadline deferred rfl unblock (.inr (.inr (.inl rfl))))⟩
      · exact ⟨rfl, rfl, _, rfl, .blocked _ (hcalm _ _ _)
          (.hook _ deadline deferred rfl unblock (.inr (.inr (.inr rfl))))⟩
      · simp only [Thread.enablePos, Thread.enableStep, deferred, if_true]
        exact ⟨rfl, rfl, _, rfl, .blocked _ (hcalm _ _ _) (.get _ deadline rfl unblock rfl)⟩
    | get e deadline group unblock pc =>
      simp only [Thread.bodyStep, Option.some.injEq] at hs
      subst hs
      obtain ⟨pc₀, g₀, erryes, errno, un, cell⟩ := e
      obtain rfl : g₀ = none := group
      obtain rfl : un = none := unblock
      obtain rfl : pc₀ = .get := pc
      simp only [Thread.enablePos, Thread.enableStep, hown hsignal]
      exact ⟨rfl, rfl, _, rfl, .blocked _ (hcalm _ _ _) (.kill _ deadline rfl rfl rfl)⟩
    | kill e deadline group unblock pc =>
      simp only [Thread.bodyStep, Option.some.injEq] at hs
      subst hs
      obtain ⟨pc₀, g₀, erryes, errno, un, cell⟩ := e
      obtain rfl : g₀ = none := group
      obtain rfl : un = some o := unblock
      obtain rfl : pc₀ = .kill := pc
      exact ⟨rfl, rfl, _, rfl, .blocked _ (hcalm _ _ _)
        (.unblock _ deadline rfl rfl rfl (Finset.mem_insert_self _ _))⟩
    | unblock e deadline group unblock pc pending =>
      simp only [Thread.bodyStep, Option.some.injEq] at hs
      subst hs
      obtain ⟨pc₀, g₀, erryes, errno, un, cell⟩ := e
      obtain rfl : g₀ = none := group
      obtain rfl : un = some o := unblock
      obtain rfl : pc₀ = .unblock := pc
      refine ⟨rfl, rfl, _, rfl, .returns _ rfl rfl (.pending deadline pending ?_ ?_)⟩
      · exact Finset.notMem_erase _ _
      · simp [Thread.enablePos, Thread.enableStep, Thread.goto, hh]
  | returns e group pc striking =>
    obtain ⟨up, g, down, hk⟩ := striking.struck_of_ready hready
    have hhk := hk.handlers
    rw [hh] at hhk
    cases up <;> cases hhk

/-! ## The function -/

theorem Plain.fn {a : FnAct V E} (hp : Plain th b) (h : InBody t th c b) (hb : th.base = .body b)
    (hcall : th.call = some c) (ht : Told c.trace) (hq : ¬Asked c.trace)
    (hs : th.fnStep c b a = some th') (hcall' : th'.call = some c') :
    Told c'.trace ∧ Live th' c' := by
  obtain ⟨fn, grp, sg, pos⟩ := b
  obtain ⟨o, ho⟩ := Option.isSome_iff_exists.mp h.run.own
  unfold Thread.fnStep at hs
  split at hs <;> cases hs
  case h_1 e hpos =>
    cases hcall'
    refine ⟨ht.snoc hq (by simp), .plain hb (by simp [Call.log, asked_snoc]) ?_⟩
    exact ⟨hp.yielded, hp.frames, hp.deadline, hp.pos⟩
  case h_2 hpos =>
    cases hcall'
    refine ⟨ht.snoc hq (by simp), .plain rfl (by simp [Call.log, asked_snoc]) ?_⟩
    exact ⟨hp.yielded, hp.frames, fun _ => hp.deadline (by rw [hpos]; simp), rfl⟩
  case h_3 hpos =>
    cases hcall'
    exact ⟨ht.snoc hq (by simp), .asking rfl ho (asked_snoc.mpr rfl) (.enters _)⟩
  case h_4 r hpos =>
    cases hcall'
    refine ⟨ht.snoc hq (by simp), .plain rfl (by simp [Call.log, asked_snoc]) ?_⟩
    exact ⟨hp.yielded, hp.frames, fun _ => hp.deadline (by rw [hpos]; simp), rfl⟩
  case h_5 back e hpos =>
    cases hcall.symm.trans hcall'
    exact ⟨ht, .plain hb hq ⟨hp.yielded, hp.frames, hp.deadline, hp.pos⟩⟩
  case h_6 back hpos =>
    cases hcall.symm.trans hcall'
    exact ⟨ht, .plain rfl hq ⟨hp.yielded, hp.frames, fun _ => hp.deadline (by rw [hpos]; simp),
      rfl⟩⟩

/-- In `pause` the function can only return from it. -/
theorem Asking.fn {a : FnAct V E} (ha : Asking o th b.pos) (hb : th.base = .body b)
    (hs : th.fnStep c b a = some th') :
    th'.call = th.call ∧ th'.signaler = th.signaler ∧ ∃ b', th'.base = .body b' ∧
      Asking o th' b'.pos := by
  obtain ⟨fn, grp, sg, pos⟩ := b
  cases ha with
  | blocked _ calm requested =>
    cases requested with
    | inside g deadline deferred =>
      cases a with
      | work e =>
        simp only [Thread.fnStep, Option.some.injEq] at hs
        subst hs
        exact ⟨rfl, rfl, _, hb, .blocked _ ⟨calm.mask, calm.frames, calm.foreign⟩
          (.inside g deadline deferred)⟩
      | exit =>
        simp only [Thread.fnStep, Option.some.injEq] at hs
        subst hs
        exact ⟨rfl, rfl, _, rfl, .blocked _ ⟨calm.mask, calm.frames, calm.foreign⟩
          (.hook _ deadline deferred rfl rfl (.inl rfl))⟩
      | _ => cases hs
    | _ => cases hs
  | _ => cases hs

/-! ## Any step of one thread -/

/-- Handlers of other signals change nothing on the caller's stack. -/
theorem Live.undisturbed (h : Live th c) (hu : Undisturbed th th')
    (hbase : (∃ pc, th.base = .main pc) ∨ th.base = .boot) : Live th' c := by
  unfold Live at h ⊢
  rw [hu.base, hu.vars.task rfl]
  obtain ⟨pc, hb⟩ | hb := hbase
  · rw [hb] at h ⊢
    cases pc <;> exact h
  · rw [hb] at h ⊢
    exact h

theorem Live.gone (hb : th.base = .gone) (hl : Leaves th.vars.task c.trace)
    (hu : Asked c.trace → Unmolested th) : Live th c := by
  simp only [Live, hb]
  exact ⟨hl, hu⟩

/-- The thread after the swap. -/
theorem Swapped.live {y : Bool} (h : Swapped th th' b f rest y) (hs : th'.signaler = th.signaler)
    (hy : y = true ↔ Asked c.trace) (hafter : y = true → b.pos.afterCall = true)
    (hmask : y = true → ∀ o, th.signaler = some o → o ∈ th.mask) : Live th' c := by
  obtain ⟨st, m, -, hck⟩ := h.checkpoint
  obtain ⟨bottom, hh, htarget⟩ := h.handlers
  refine .gone h.base ⟨by rw [h.yielded]; exact hy, ?_, ?_⟩ fun ha o ho => ⟨?_, ?_⟩
  · intro st' m' b' hs₁ he
    rw [hck] at he
    cases he
    exact h.nonzero
  · intro st' m' b' hs₁ he hyes
    rw [hck] at he
    cases he
    exact hafter (h.yielded.symm.trans hyes)
  · rw [h.mask]
    exact hmask (hy.mpr ha) o (hs.symm.trans ho)
  · intro f hf ht
    rw [hh, List.mem_singleton] at hf
    subst hf
    rw [htarget] at ht
    cases ht

theorem Asking.mask (ha : Asking o th pos) (hpos : pos.afterCall = true)
    (hready : th.ready = true) :
    o ∈ th.mask := by
  cases ha with
  | blocked _ calm requested =>
    cases requested with
    | hook e deadline deferred group unblock pc =>
      obtain ⟨pc₀, g₀, erryes, errno, un, cell⟩ := e
      obtain rfl | rfl | rfl | rfl :
          pc₀ = .errno ∨ pc₀ = .location ∨ pc₀ = .group ∨ pc₀ = .swap := pc <;>
        cases hpos
    | get e deadline group unblock pc =>
      obtain ⟨pc₀, g₀, erryes, errno, un, cell⟩ := e
      obtain rfl : pc₀ = .get := pc
      cases hpos
    | kill e deadline group unblock pc =>
      obtain ⟨pc₀, g₀, erryes, errno, un, cell⟩ := e
      obtain rfl : pc₀ = .kill := pc
      cases hpos
    | unblock e deadline group unblock pc pending =>
      obtain ⟨pc₀, g₀, erryes, errno, un, cell⟩ := e
      obtain rfl : pc₀ = .unblock := pc
      cases hpos
    | _ => cases hpos
  | returns e group pc striking =>
    obtain ⟨up, f, down, hk⟩ := striking.struck_of_ready hready
    exact hk.mask
  | _ => cases hpos

/-- A step of the innermost handler. -/
theorem Live.handler (hl : Live th c) (h : Core False False t th) (hsig : w.sig t = th.signaler)
    (hcall : th.call = some c) (hready : th.ready = true) (hh : th.handlers = f :: rest)
    (hs : th.handlerStep w now f rest = th') : Live th' c := by
  have hkept : Thread.Kept th th' := hs ▸ Thread.handlerStep_kept f rest
  have calm (hbase : (∃ pc, th.base = .main pc) ∨ th.base = .boot) : Live th' c := by
    obtain ⟨hc, hv⟩ := h.calm (.inr hbase)
    exact hl.undisturbed (hc.handler hh (own_of_threadSignal hsig hv) hs) hbase
  cases hb : th.base with
  | caller => simp only [Core, hb, hcall] at h
  | main pc => exact calm (.inl ⟨pc, hb⟩)
  | boot => exact calm (.inr hb)
  | body b =>
    obtain ⟨c₀, hc₀, -, hbody⟩ := h.body hb
    cases hcall.symm.trans hc₀
    unfold Live at hl
    rw [hb] at hl
    obtain ⟨hq, hp⟩ | ⟨ha, o, ho, hp⟩ := hl
    · obtain ⟨hb', hp'⟩ | hsw | hstuck := hp.handler hbody hsig hb hh hs
      · exact .plain hb' hq hp'
      · exact hsw.live hkept.signaler (by simp [hq]) (fun hy => absurd hy Bool.false_ne_true)
          fun hy => absurd hy Bool.false_ne_true
      · exact .stuck hstuck hq
    · obtain ⟨hb', hp'⟩ | ⟨hsw, hafter⟩ := hp.handler hbody hsig ho hb hready hh hs
      · exact .asking hb' (hkept.signaler.trans ho) ha hp'
      · refine hsw.live hkept.signaler (by simp [ha]) (fun _ => hafter) fun _ o' ho' => ?_
        cases ho.symm.trans ho'
        exact hp.mask hafter hready
  | gone =>
    obtain ⟨c₀, upper, bottom, hc₀, -, hgone⟩ := h.gone hb
    cases hcall.symm.trans hc₀
    unfold Live at hl
    rw [hb] at hl
    have hhg := hgone.handlers
    rw [hh] at hhg
    cases upper with
    | nil =>
      cases hhg
      obtain ⟨hbase, hy, hck⟩ := hgone.leaves hb hs
      have hleaves : Leaves th'.vars.task c.trace :=
        ⟨by rw [hy]; exact hl.1.told, by rw [hck]; exact hl.1.frames,
          by rw [hck, hy]; exact hl.1.after⟩
      obtain ⟨hb', hm, f', hh', ht⟩ | ⟨hb', herr⟩ := hbase
      · refine .gone hb' hleaves fun ha o ho => ⟨?_, ?_⟩
        · rw [hm]
          exact (hl.2 ha o (hkept.signaler.symm.trans ho)).1
        · intro x hx hx'
          rw [hh', List.mem_singleton] at hx
          subst hx
          rw [ht] at hx'
          cases hx'
      · simp only [Live, hb']
        exact ⟨hleaves, fun _ => herr⟩
    | cons x upper =>
      obtain ⟨rfl, rfl⟩ := List.cons_eq_cons.mp hhg
      by_cases ha : Asked c.trace
      · obtain ⟨hu, hb', htask⟩ := (hl.2 ha).above hgone hsig hs
        exact .gone (hb'.trans hb) (by rw [htask]; exact hl.1) fun _ => hu
      · obtain ⟨hb', -, -⟩ | hb' := hgone.upper hs
        · have htask : th'.vars.task = th.vars.task := by
            refine (hgone.task_upper hs).resolve_right ?_
            rintro ⟨why, hw⟩
            rw [hb', hb] at hw
            cases hw
          exact .gone (hb'.trans hb) (by rw [htask]; exact hl.1) fun ha' => absurd ha' ha
        · exact .stuck ⟨_, hb'⟩ ha
  | exited => simp only [Core, hb, hcall] at h
  | stuck why => simp [Thread.ready, hb, Base.alive] at hready

/-- What a step on the function's stack or in a handler makes of the call. -/
theorem Live.act {a : Act V E} (hl : Live th c) (h : Core False False t th) (hw : w.notls = false)
    (hsig : w.sig t = th.signaler) (hcall : th.call = some c) (ht : Told c.trace)
    (hs : th.step w a = some th') (hstamp : ∀ now b, a = .run now → th.handlers = [] →
      th.base = .body b → b.pos = .stamp →
      stamp now th.vars.deadline ≠ 0)
    (hcall' : th'.call = some c') :
    Told c'.trace ∧ Live th' c' ∧ (Asked c.trace → c' = c) := by
  cases Thread.step_acts hs with
  | delivers no alive unblocked =>
    cases hcall.symm.trans hcall'
    exact ⟨ht, hl.deliver unblocked, fun _ => rfl⟩
  | handles now f rest ready handlers =>
    rw [Thread.handlerStep_call] at hcall'
    cases hcall.symm.trans hcall'
    exact ⟨ht, hl.handler h hsig hcall ready handlers rfl, fun _ => rfl⟩
  | boots now c₀ ready handlers base call =>
    unfold Live at hl
    rw [base] at hl
    simp only [Core, base, hcall] at h
    simp only [Thread.bootStep, h.2.2.bootstrap] at hcall' ⊢
    cases hcall.symm.trans hcall'
    exact ⟨ht, .plain rfl hl.1 ⟨hl.2, by simp [handlers], fun hne => absurd rfl hne, rfl⟩,
      fun _ => rfl⟩
  | runs now b c₀ th' ready handlers base call step =>
    obtain ⟨c₁, hc₁, -, hbody⟩ := h.body base
    cases hcall.symm.trans hc₁
    cases hcall.symm.trans call
    unfold Live at hl
    rw [base] at hl
    obtain ⟨hq, hp⟩ | ⟨ha, o, ho, hp⟩ := hl
    · obtain ⟨ht', hl'⟩ :=
        hp.step hbody hw hsig hcall handlers (hstamp now b rfl handlers base) ht hq step hcall'
      exact ⟨ht', hl', fun ha => absurd ha hq⟩
    · obtain ⟨hc', hs', b', hb', hp'⟩ := hp.step hbody hw hsig ho handlers ready step
      cases (hc'.trans hcall).symm.trans hcall'
      exact ⟨ht, .asking hb' (hs'.trans ho) ha hp', fun _ => rfl⟩
  | fn a b c₀ th' ready handlers base call step =>
    obtain ⟨c₁, hc₁, -, hbody⟩ := h.body base
    cases hcall.symm.trans hc₁
    cases hcall.symm.trans call
    unfold Live at hl
    rw [base] at hl
    obtain ⟨hq, hp⟩ | ⟨ha, o, ho, hp⟩ := hl
    · obtain ⟨ht', hl'⟩ := hp.fn hbody base hcall ht hq step hcall'
      exact ⟨ht', hl', fun ha => absurd ha hq⟩
    · obtain ⟨hc', hs', b', hb', hp'⟩ := hp.fn base step
      cases (hc'.trans hcall).symm.trans hcall'
      exact ⟨ht, .asking hb' (hs'.trans ho) ha hp', fun _ => rfl⟩

end

end Inger.L3
