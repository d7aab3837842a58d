import Inger.L3Slice.Masked

/-!
# Preemption is never lost

A tick that finds the function in a library call is put off: `preempt` blocks
the signal in the mask it returns to and sets DEFERRED, and the hook that runs
when the call has returned takes DEFERRED, sends the signal again and unblocks
it. Ticks come between any two of these steps. `preemption_kept`: whenever the
function's own code runs, its thread's signal is unblocked, SIGNAL names the
thread and DEFERRED is clear, so the next tick counts; and a library call that
exits with the signal blocked leaves DEFERRED set, so that the hook unblocks the
signal, and not without having sent it.

Each position on the function's stack has a `Mode`, which says how the mask and
DEFERRED are related there when no handler is running. A handler can only start
where the signal is unblocked; `Tracks` says how far it has changed the one and
the other. Runs are those in which each thread gets its own timer's signal only.
-/
namespace Inger.L2

open L1.Signals

/-- How the thread's signal and DEFERRED are related. -/
inductive Mode where
  /-- blocked, DEFERRED clear -/
  | blocked
  /-- unblocked, DEFERRED clear -/
  | unblocked
  /-- blocked iff DEFERRED is set -/
  | tracked
  /-- blocked and sent again, DEFERRED clear -/
  | raised
  /-- blocked -/
  | masked
  /-- the function has returned -/
  | done
  deriving DecidableEq

def Enable.mode (e : Enable) : Mode :=
  match e.group, e.pc, e.unblock with
  | some _, .tail, _ => .unblocked
  | some _, _, _ => .blocked
  | none, .get, _ => .blocked
  | none, .kill, _ => .blocked
  | none, .unblock, none => .unblocked
  | none, .unblock, some _ => .raised
  | none, .tail, _ => .unblocked
  | none, _, _ => .tracked

def Pos.mode : Pos → Mode
  | .stamp => .blocked
  | .enable e => e.mode
  | .call => .unblocked
  | .own => .unblocked
  | .lib _ => .tracked
  | .pause _ => .tracked
  | .deferMask _ => .tracked
  | .deferFlag _ => .masked
  | .disable .group => .unblocked
  | _ => .done

def Mode.Holds (o : Signal) (mask pending : Sigset) (deferred : Bool) : Mode → Prop
  | .blocked => o ∈ mask ∧ deferred = false
  | .unblocked => o ∉ mask ∧ deferred = false
  | .tracked => o ∈ mask ↔ deferred = true
  | .raised => o ∈ mask ∧ o ∈ pending ∧ deferred = false
  | .masked => o ∈ mask
  | .done => True

/-- What `enable_preemption` has for the thread's signal: with a group, the
signal; without, nothing until it has taken DEFERRED. -/
def Enable.Asks (o : Signal) (e : Enable) : Prop :=
  match e.group, e.pc with
  | some _, .swap => e.unblock = some o
  | some _, .get => e.unblock = some o
  | some _, .kill => e.unblock = some o
  | some _, .unblock => e.unblock = some o
  | none, .errno => e.unblock = none
  | none, .location => e.unblock = none
  | none, .group => e.unblock = none
  | none, .swap => e.unblock = none
  | none, .get => e.unblock = none
  | none, .kill => e.unblock = some o
  | none, .unblock => e.unblock = none ∨ e.unblock = some o
  | _, _ => True

def Pos.Asks (o : Signal) : Pos → Prop
  | .enable e => e.Asks o
  | _ => True

/-- Where ticks are acted on or put off. -/
def Mode.opened : Mode → Bool
  | .unblocked => true
  | .tracked => true
  | _ => false

/-- Steps left in `enable_preemption`, at most. -/
def EnablePc.left : EnablePc → Nat
  | .errno => 8
  | .location => 7
  | .group => 6
  | .first => 5
  | .swap => 5
  | .get => 4
  | .kill => 3
  | .unblock => 2
  | .tail => 1

theorem Pos.preemptible_of_unblocked {p : Pos} (h : p.mode = .unblocked) :
    p.preemptible = true := by
  cases p with
  | enable e =>
    obtain ⟨pc, group, erryes, errno, unblock, cell⟩ := e
    cases group with
    | none => rfl
    | some g => cases pc <;> first | rfl | cases h
  | disable pc => cases pc <;> first | rfl | cases h
  | _ => first | rfl | cases h

theorem Pos.not_done_of_preemptible {p : Pos} (h : p.preemptible = true) : p.mode ≠ .done := by
  cases p with
  | enable e =>
    obtain ⟨pc, group, erryes, errno, unblock, cell⟩ := e
    cases group <;> cases pc <;> cases unblock <;> simp [Pos.mode, Enable.mode]
  | disable pc => cases pc <;> first | (cases h; done) | simp [Pos.mode]
  | _ => first | (cases h; done) | simp [Pos.mode]

theorem Pos.entering_mode {p : Pos} (h : p.entering = true) : p.mode = .blocked := by
  cases p with
  | enable e =>
    obtain ⟨pc, group, erryes, errno, unblock, cell⟩ := e
    cases group with
    | none => cases h
    | some g => cases pc <;> first | rfl | cases h
  | stamp => rfl
  | _ => cases h

theorem Pos.past_of_opened {p : Pos} (h : p.mode.opened = true) : p.past = false := by
  cases p with
  | disable pc => cases pc <;> first | rfl | cases h
  | _ => first | rfl | cases h

/-- At an open position the stack does not depend on which thread's it is. -/
theorem Pos.Asks.any {o : Signal} {p : Pos} (h : p.Asks o) (hm : p.mode.opened = true)
    (o' : Signal) :
    p.Asks o' := by
  cases p with
  | enable e =>
    obtain ⟨pc, group, erryes, errno, unblock, cell⟩ := e
    cases group <;> cases pc <;> cases unblock <;>
      first | exact h | exact .inl rfl | trivial
  | _ => trivial

end Inger.L2

namespace Inger.L3

open L1.Reusable L1.Signals L2

variable {V E : Type}

/-! ## A handler of the own signal -/

/-- How far the handler has blocked the signal in its `uc` and set DEFERRED;
`pre`: the function's own group is current, so it will do neither. -/
def Tracks (o : Signal) (pre : Bool) (deferred : Bool) (f : Frame) : Prop :=
  match f.pc with
  | .test _ r => r = true ∧ o ∉ f.mask ∧ deferred = false
  | .deferFlag _ => o ∈ f.mask
  | .restore _ => if pre then o ∉ f.mask ∧ deferred = false else (o ∈ f.mask ↔ deferred = true)
  | .ret => if pre then o ∉ f.mask ∧ deferred = false else (o ∈ f.mask ↔ deferred = true)
  | .ignore _ => False
  | _ => o ∉ f.mask ∧ deferred = false

/-- Where a handler of the own signal can be running. -/
def Interrupted (o : Signal) (deferred : Bool) (p : Pos) (f : Frame) : Prop :=
  p.mode = .done ∨ (p.mode.opened = true ∧ Tracks o p.preemptible deferred f)

/-- A thread on a function's stack: the signal and DEFERRED are as the position
says, or a handler of the signal is running. -/
structure Deferral (o : Signal) (th : Thread V E) (p : Pos) : Prop where
  asks : p.Asks o
  state : (th.handlers = [] ∧ p.mode.Holds o th.mask th.pending th.vars.deferred) ∨
    ∃ f, th.handlers = [f] ∧ f.no = o ∧ o ∈ th.mask ∧ Interrupted o th.vars.deferred p f

/-- A paused function: no handler is left on its stack, and it was paused where
ticks count. -/
structure Resumable (b : Body) (hs : List Frame) : Prop where
  handlers : hs = []
  opened : b.pos.mode.opened = true
  asks : ∀ o, b.pos.Asks o

structure Tracked (th : Thread V E) : Prop where
  body : ∀ o b, th.signaler = some o → th.base = .body b → Deferral o th b.pos
  task : th.base.paused = true → PausedAs Resumable th.vars.task

section
variable {w : World} {now : UInt64} {t : Tid} {th th' : Thread V E} {c : Call V E}
  {b : Body} {o : Signal} {m pend : Sigset} {d : Bool} {ok tidy : Prop}

/-- An unblocked signal at an open position. -/
theorem Mode.holds_of_opened {μ : Mode} (h : μ.opened = true) (hm : o ∉ m) (hd : d = false) :
    μ.Holds o m pend d := by
  cases μ with
  | unblocked => exact ⟨hm, hd⟩
  | tracked => simp [Mode.Holds, hm, hd]
  | _ => cases h

/-- An unblocked signal is at an open position, or the function has returned. -/
theorem Mode.opened_of_holds {μ : Mode} (h : μ.Holds o m pend d) (hm : o ∉ m) :
    μ = .done ∨ (μ.opened = true ∧ d = false) := by
  cases μ with
  | blocked => exact absurd h.1 hm
  | unblocked => exact .inr ⟨rfl, h.2⟩
  | tracked => exact .inr ⟨rfl, by simpa [Mode.Holds, hm] using h⟩
  | raised => exact absurd h.1 hm
  | masked => exact absurd h hm
  | done => exact .inl rfl

/-- The handler returns. -/
theorem Interrupted.returns {p : Pos} {f : Frame} (h : Interrupted o d p f) (hpc : f.pc = .ret) :
    p.mode.Holds o f.mask pend d := by
  rcases h with hm | ⟨hm, ht⟩
  · rw [hm]; trivial
  · simp only [Tracks, hpc] at ht
    cases hμ : p.mode with
    | unblocked => rw [Pos.preemptible_of_unblocked hμ] at ht; exact ht
    | tracked =>
      split at ht
      · simp [Mode.Holds, ht]
      · exact ht
    | _ => rw [hμ] at hm; cases hm

theorem Tracked.deliver {no : Signal} (h : Tracked th) (hown : th.signaler = some no)
    (hno : no ∉ th.mask) :
    Tracked (th.interrupt no) where
  task := h.task
  body o b ho hb := by
    obtain rfl : no = o := Option.some.inj (hown.symm.trans ho)
    have hd := h.body no b ho hb
    refine ⟨hd.asks, .inr ?_⟩
    rcases hd.state with ⟨hh, hm⟩ | ⟨f, -, -, hin, -⟩
    · refine ⟨⟨no, th.mask, .interrupted, .entry⟩, by simp only [Thread.interrupt, hh], rfl,
        Finset.mem_insert_self _ _, ?_⟩
      rcases Mode.opened_of_holds hm hno with hm | ⟨hm, hdf⟩
      · exact .inl hm
      · exact .inr ⟨hm, hno, hdf⟩
    · exact absurd hin hno

/-- Off the function's stack. -/
theorem tracked_off (hb : ∀ b, th.base ≠ .body b)
    (ht : th.base.paused = true → PausedAs Resumable th.vars.task) : Tracked th :=
  ⟨fun _ b _ hb' => absurd hb' (hb b), ht⟩

theorem tracked_fail (th : Thread V E) (why : Stuck) : Tracked (th.fail why) :=
  tracked_off (by simp [Thread.fail]) fun hp => Bool.noConfusion hp

/-- A handler step off the function's stack. -/
theorem Tracked.handler_off {f : Frame} {rest : List Frame} (h : Tracked th)
    (hcore : Core ok tidy t th) (ha : th.base.alive = true) (hh : th.handlers = f :: rest)
    (hb : ∀ b, th.base ≠ .body b) (hs : th.handlerStep w now f rest = th') : Tracked th' := by
  have hout := Thread.handlerStep_handles w now th f rest
  rw [hs] at hout
  cases hout with
  | moves f' _ hh' hno hm hc hsame =>
    obtain ⟨-, hbase, hck⟩ := hsame
    exact tracked_off (by rw [hbase]; exact hb) fun hp => (h.task (hbase ▸ hp)).of_checkpoint hck
  | returns htgt => exact tracked_off hb h.task
  | lands htgt =>
    have hgone : th.base = .gone :=
      hcore.gone_of_callsite ha (by rw [hh]; exact List.mem_cons_self) htgt
    exact tracked_off (by simp) fun _ => h.task (by rw [hgone]; rfl)
  | swaps e st m b hpc hbody => exact absurd hbody (hb b)
  | fails why => exact tracked_fail th why

/-- A step of the handler on the function's stack. -/
theorem Tracked.handler {f : Frame} {rest : List Frame} (h : Tracked th) (hcore : Core ok tidy t th)
    (hsig : w.sig t = th.signaler) (ha : th.base.alive = true) (hh : th.handlers = f :: rest)
    (hs : th.handlerStep w now f rest = th') : Tracked th' := by
  by_cases hbody : ∃ b, th.base = .body b
  swap
  · exact h.handler_off hcore ha hh (fun b hb => hbody ⟨b, hb⟩) hs
  obtain ⟨b, hb⟩ := hbody
  obtain ⟨c, -, -, hin⟩ := hcore.body hb
  obtain ⟨o, ho⟩ := Option.isSome_iff_exists.mp hin.run.own
  have hd := h.body o b ho hb
  obtain ⟨rfl, rfl, hmem, hi⟩ : rest = [] ∧ f.no = o ∧ o ∈ th.mask ∧
      Interrupted o th.vars.deferred b.pos f := by
    rcases hd.state with ⟨hnil, -⟩ | ⟨f', hf', hno, hmem, hi⟩
    · rw [hnil] at hh; cases hh
    · rw [hf'] at hh
      cases hh
      exact ⟨rfl, hno, hmem, hi⟩
  have hok := hin.frames f (by rw [hh]; exact List.mem_cons_self)
  have hent : b.pos.entering = false := by
    by_contra he
    have hm := Pos.entering_mode (Bool.eq_true_of_not_eq_false he)
    rcases hi with hd | ⟨ho, -⟩
    · rw [hm] at hd; cases hd
    · rw [hm] at ho; cases ho
  have hgroup : th.group.preemptible = b.pos.preemptible := by
    rw [hin.group hent]; cases b.pos.preemptible <;> rfl
  have hpcok := hok.pc
  have hthr (hm : b.pos.mode.opened = true) : threadSignal w.sig th.vars = some f.no := by
    have hv : th.vars.signal = some t := by rw [hin.signal, Pos.past_of_opened hm]; rfl
    rw [threadSignal_own hsig hv, ho]
  -- The handler moves on; what it has blocked and set is still on track.
  have move (f' : Frame) (v : Vars) (hno : f'.no = f.no)
      (ht : b.pos.mode.opened = true → Tracks f.no b.pos.preemptible th.vars.deferred f →
        Tracks f.no b.pos.preemptible v.deferred f') :
      Tracked { th with handlers := [f'], vars := v } := by
    refine ⟨fun o' b' ho' hb' => ?_, fun hp => ?_⟩
    · obtain rfl : f.no = o' := Option.some.inj (ho.symm.trans ho')
      obtain rfl : b = b' := Base.body.inj (hb.symm.trans hb')
      refine ⟨hd.asks, .inr ⟨f', rfl, hno, hmem, ?_⟩⟩
      rcases hi with hm | ⟨hm, htr⟩
      · exact .inl hm
      · exact .inr ⟨hm, ht hm htr⟩
    · rw [show th.base = _ from hb] at hp; cases hp
  subst hs
  unfold Thread.handlerStep
  cases hpc : f.pc <;> rw [hpc] at hpcok <;> simp only [Tracks, hpc] at move <;> dsimp only
  case entry => exact move _ _ rfl fun _ ht => ht
  case relevant e => exact move _ _ rfl fun hm ht => ⟨by simp [hthr hm], ht⟩
  case test e r =>
    rw [hgroup]
    cases r with
    | false => exact move _ _ rfl fun _ ht => Bool.noConfusion ht.1
    | true => cases b.pos.preemptible <;> exact move _ _ rfl fun _ ht => ht.2
  case deadline e => exact move _ _ rfl fun _ ht => ht
  case clock e d =>
    split
    · exact move _ _ rfl fun _ ht => ht
    · exact move _ _ rfl fun _ ht => by simp only [hpcok.1, if_true]; exact ht
  case yielded e d => exact move _ _ rfl fun _ ht => ht
  case swap e =>
    unfold Thread.swap
    split
    · rename_i st m' b' _ _ hb'
      obtain rfl : b = b' := Base.body.inj (hb.symm.trans hb')
      refine tracked_off (by simp) fun _ => ?_
      intro st' m₁ b₁ hs₁ hck
      simp only [Option.some.injEq, Context.mk.injEq, Code.paused.injEq] at hck
      obtain ⟨-, -, rfl, rfl⟩ := hck
      have hm : b.pos.mode.opened = true := by
        rcases hi with hm | ⟨hm, -⟩
        · exact absurd hm (Pos.not_done_of_preemptible hpcok.1)
        · exact hm
      exact ⟨rfl, hm, hd.asks.any hm⟩
    · exact tracked_fail th _
  case errno e => exact hpcok.elim
  case block => exact hpcok.elim
  case disable pc => exact hpcok.elim
  case deferMask e =>
    simp only [hgroup, hpcok.1, Bool.and_false, Bool.false_eq_true, if_false]
    exact move _ _ rfl fun _ _ => Finset.mem_insert_self _ _
  case deferFlag e =>
    exact move _ _ rfl fun _ ht => by
      simp only [hpcok.1, Bool.false_eq_true, if_false]; simpa using ht
  case ignore e => exact move _ _ rfl fun _ ht => ht.elim
  case restore e => exact move _ _ rfl fun _ ht => ht
  case ret =>
    simp only [Thread.sigreturn, hok.target]
    refine ⟨fun o' b' ho' hb' => ?_, fun hp => ?_⟩
    · obtain rfl : f.no = o' := Option.some.inj (ho.symm.trans ho')
      obtain rfl : b = b' := Base.body.inj (hb.symm.trans hb')
      exact ⟨hd.asks, .inl ⟨rfl, hi.returns hpc⟩⟩
    · rw [show th.base = _ from hb] at hp; cases hp

/-- Without handlers, on the function's stack. -/
theorem tracked_body (hh : th.handlers = []) (hb : th.base = .body b) (ho : th.signaler = some o)
    (ha : b.pos.Asks o) (hm : b.pos.mode.Holds o th.mask th.pending th.vars.deferred) :
    Tracked th where
  body o' b' ho' hb' := by
    obtain rfl : o = o' := Option.some.inj (ho.symm.trans ho')
    obtain rfl : b = b' := Base.body.inj (hb.symm.trans hb')
    exact ⟨ha, .inl ⟨hh, hm⟩⟩
  task hp := by rw [hb] at hp; cases hp

theorem Tracked.boot (hcore : Core ok tidy t th) (hb : th.base = .boot) (hc : th.call = some c)
    (hh : th.handlers = []) : Tracked th.bootStep := by
  simp only [Core, hb, hc] at hcore
  obtain ⟨hcalm, -, hboot⟩ := hcore
  obtain ⟨o, ho⟩ := Option.isSome_iff_exists.mp hboot.run.own
  simp only [Thread.bootStep, hboot.bootstrap]
  exact tracked_body hh rfl ho trivial ⟨hcalm.mask o ho, hboot.deferred⟩

/-- Without handlers the position says what the signal and DEFERRED are. -/
theorem Tracked.holds (h : Tracked th) (hh : th.handlers = []) (ho : th.signaler = some o)
    (hb : th.base = .body b) :
    b.pos.Asks o ∧ b.pos.mode.Holds o th.mask th.pending th.vars.deferred := by
  have hd := h.body o b ho hb
  refine ⟨hd.asks, ?_⟩
  rcases hd.state with ⟨-, hm⟩ | ⟨f, hf, -⟩
  · exact hm
  · rw [hh] at hf; cases hf

/-- A step of `enable_preemption`, in `schedule` or in the hook. -/
theorem Tracked.enable {e : Enable} (h : Tracked th) (hb : th.base = .body b)
    (hin : InBody t th c b) (hpos : b.pos = .enable e) (hw : w.notls = false)
    (hsig : w.sig t = th.signaler) (hh : th.handlers = []) : Tracked (th.enablePos w b e) := by
  have hvars : th.vars.signal = some t := by rw [hin.signal, hpos]; rfl
  obtain ⟨o, ho⟩ := Option.isSome_iff_exists.mp hin.run.own
  have hthread : threadSignal w.sig th.vars = some o := (threadSignal_own hsig hvars).trans ho
  obtain ⟨hask, hm⟩ := h.holds hh ho hb
  rw [hpos] at hask hm
  have hfits := hin.body.fits
  rw [hpos] at hfits
  have hloc := hin.body.located
  rw [hpos] at hloc
  obtain ⟨pc, group, erryes, errno, unblock, cell⟩ := e
  unfold Thread.enablePos Thread.enableStep
  cases group with
  | none =>
    cases pc with
    | errno =>
      simp only [Option.none_or, hloc rfl, Pos.borrowing]
      exact tracked_body hh rfl ho hask hm
    | location =>
      simp only [hw, Bool.false_eq_true, false_and, if_false]
      exact tracked_body hh rfl ho hask hm
    | group => exact tracked_body hh rfl ho hask hm
    | first => exact absurd rfl hfits.2
    | swap =>
      obtain rfl : unblock = none := hask
      cases hd : th.vars.deferred with
      | false =>
        have hm' : o ∉ th.mask := fun hin' => Bool.noConfusion (hd.symm.trans (hm.mp hin'))
        exact tracked_body hh rfl ho (.inl rfl) ⟨hm', rfl⟩
      | true => exact tracked_body hh rfl ho rfl ⟨hm.mpr hd, rfl⟩
    | get =>
      obtain rfl : unblock = none := hask
      simp only [hthread]
      exact tracked_body hh rfl ho rfl hm
    | kill =>
      obtain rfl : unblock = some o := hask
      exact tracked_body hh rfl ho (.inr rfl) ⟨hm.1, Finset.mem_insert_self _ _, hm.2⟩
    | unblock =>
      rcases hask with hask | hask <;> obtain rfl := hask
      · exact tracked_body hh rfl ho trivial hm
      · exact tracked_body hh rfl ho trivial ⟨Finset.notMem_erase _ _, hm.2.2⟩
    | tail =>
      dsimp only
      split <;> rename_i heq <;> split at heq <;> cases heq <;>
        exact tracked_body hh rfl ho trivial hm
  | some g =>
    cases pc with
    | errno =>
      cases th.vars.errnoLocation.borrowed with
      | false => exact tracked_body hh rfl ho trivial hm
      | true => exact tracked_fail th _
    | location =>
      simp only [hw, Bool.false_eq_true, false_and, if_false]
      exact tracked_body hh rfl ho trivial hm
    | group => exact tracked_body hh rfl ho trivial hm
    | first =>
      simp only [hthread]
      exact tracked_body hh rfl ho rfl hm
    | swap =>
      obtain rfl : unblock = some o := hask
      cases hd : th.vars.deferred <;> exact tracked_body hh rfl ho rfl ⟨hm.1, rfl⟩
    | get =>
      obtain rfl : unblock = some o := hask
      simp only [hthread]
      exact tracked_body hh rfl ho rfl hm
    | kill =>
      obtain rfl : unblock = some o := hask
      exact tracked_body hh rfl ho rfl hm
    | unblock =>
      obtain rfl : unblock = some o := hask
      exact tracked_body hh rfl ho trivial ⟨Finset.notMem_erase _ _, hm.2⟩
    | tail =>
      simp only [reduceCtorEq, false_and, if_false]
      split
      · exact tracked_fail th _
      · exact tracked_body hh rfl ho trivial hm

/-- A step of `schedule`, `pause` or the hook. -/
theorem Tracked.bodyStep (h : Tracked th) (hcore : Core ok tidy t th) (hb : th.base = .body b)
    (hc : th.call = some c) (hw : w.notls = false) (hsig : w.sig t = th.signaler)
    (hh : th.handlers = []) (hs : th.bodyStep w now c b = some th') : Tracked th' := by
  obtain ⟨c', hc', -, hin⟩ := hcore.body hb
  obtain rfl : c = c' := Option.some.inj (hc.symm.trans hc')
  obtain ⟨o, ho⟩ := Option.isSome_iff_exists.mp hin.run.own
  obtain ⟨-, hm⟩ := h.holds hh ho hb
  have hsignal := hin.signal
  unfold Thread.bodyStep at hs
  cases hpos : b.pos <;> simp only [hpos, Option.some.injEq, reduceCtorEq] at hs <;>
    rw [hpos] at hm hsignal
  case stamp =>
    split at hs <;> cases hs
    · exact tracked_fail th _
    · exact tracked_body hh rfl ho trivial hm
  case enable e => subst hs; exact h.enable hb hin hpos hw hsig hh
  case call =>
    subst hs
    unfold Thread.callPos
    split
    · split
      · exact tracked_body hh rfl ho trivial hm
      · exact tracked_fail th _
      · exact tracked_body hh rfl ho trivial hm
    · exact tracked_fail th _
  case pause back => subst hs; exact tracked_body hh rfl ho trivial hm
  case deferMask back =>
    have hthread : threadSignal w.sig th.vars = some o := (threadSignal_own hsig hsignal).trans ho
    simp only [hthread] at hs
    split at hs <;> cases hs
    · exact tracked_fail th _
    · exact tracked_body hh rfl ho trivial (Finset.mem_insert_self _ _)
  case deferFlag back =>
    subst hs
    exact tracked_body hh rfl ho trivial ⟨fun _ => rfl, fun _ => hm⟩
  case disable pc =>
    subst hs
    have hkept : Thread.Kept th (th.disableStep b.signal pc) := Thread.disableStep_kept b.signal pc
    have hh' : (th.disableStep b.signal pc).handlers = [] := by
      cases pc with
      | mask => simp only [Thread.disableStep]; split <;> exact hh
      | _ => exact hh
    cases pc <;> exact tracked_body hh' rfl (hkept.signaler.trans ho) trivial trivial
  case check =>
    split at hs <;> cases hs
    · exact tracked_fail th _
    · exact tracked_body hh rfl ho trivial trivial
  case ret =>
    subst hs
    exact tracked_off (by simp) fun _ => hin.run.pausedAs

/-- A step of the function itself. -/
theorem Tracked.fn {a : FnAct V E} (h : Tracked th) (hcore : Core ok tidy t th)
    (hb : th.base = .body b) (hh : th.handlers = []) (hs : th.fnStep c b a = some th') :
    Tracked th' := by
  obtain ⟨c', hc', -, hin⟩ := hcore.body hb
  obtain ⟨o, ho⟩ := Option.isSome_iff_exists.mp hin.run.own
  obtain ⟨hask, hm⟩ := h.holds hh ho hb
  unfold Thread.fnStep at hs
  split at hs <;> cases hs <;> rename_i hpos
  · exact tracked_body hh hb ho hask hm
  all_goals rw [hpos] at hm
  · exact tracked_body hh rfl ho trivial (Mode.holds_of_opened rfl hm.1 hm.2)
  · exact tracked_body hh rfl ho trivial (Mode.holds_of_opened rfl hm.1 hm.2)
  · exact tracked_body hh rfl ho trivial hm
  · rw [← hpos] at hm; exact tracked_body hh hb ho hask hm
  · exact tracked_body hh rfl ho rfl hm

/-- **One step of a thread** to which only its own signal is delivered. -/
theorem Tracked.act {a : Act V E} (h : Tracked th) (hcore : Core ok tidy t th)
    (hw : w.notls = false) (hsig : w.sig t = th.signaler)
    (hown : ∀ no, a = .deliver no → th.signaler = some no) (hs : th.step w a = some th') :
    Tracked th' := by
  cases Thread.step_acts hs with
  | delivers no _ hno => exact h.deliver (hown no rfl) hno
  | handles now f rest hr hh => exact h.handler hcore hsig (Thread.alive_of_ready hr) hh rfl
  | boots now c _ hh hb hc => exact Tracked.boot hcore hb hc hh
  | runs now b c th' _ hh hb hc hs => exact h.bodyStep hcore hb hc hw hsig hh hs
  | fn a b c th' _ hh hb _ hs => exact h.fn hcore hb hh hs

end

/-! ## Every run -/

/-- A thread gets no signal but that of its own timer. -/
def OwnSignal (s : Sys V E) : Label V E → Prop
  | .act t (.deliver no) => (s.threads t).signaler = some no
  | _ => True

instance (s : Sys V E) : (l : Label V E) → Decidable (OwnSignal s l)
  | .act t (.deliver no) => inferInstanceAs (Decidable ((s.threads t).signaler = some no))
  | .act _ (.run _) => isTrue trivial
  | .act _ (.fn _) => isTrue trivial
  | .launch _ _ _ => isTrue trivial
  | .resume _ _ _ _ => isTrue trivial
  | .main _ _ => isTrue trivial
  | .drop _ _ _ => isTrue trivial
  | .cancel _ _ _ => isTrue trivial
  | .erase _ _ => isTrue trivial
  | .exit _ => isTrue trivial

theorem carries_tracked {cfg : Cfg V} (hn : cfg.notls = false) : Carries (E := E) cfg Resumable
    (fun th => ∀ o b, th.signaler = some o → th.base = .body b → Deferral o th b.pos)
      OwnSignal where
  quiet th _ hb o b _ hb' := by rw [hb'] at hb; cases hb
  jumps s t env c st m b hs th' _ _ _ _ _ hP hj o b' ho hb' := by
    rw [hj.base] at hb'
    cases hb'
    refine ⟨hP.asks o, .inl ⟨by rw [hj.handlers]; exact hP.handlers, ?_⟩⟩
    exact Mode.holds_of_opened hP.opened (hj.mask o ho) hj.deferred
  acts s t a th' hC hcore hG htask hs := by
    have hown : ∀ no, a = .deliver no → (s.threads t).signaler = some no := by
      rintro no rfl
      exact hC
    have h : Tracked th' := Tracked.act ⟨hG, htask⟩ hcore hn rfl hown hs
    exact ⟨h.body, h.task⟩

/-- Preemption is not lost: the function's own code can be preempted; a library
call that exits with the signal blocked leaves DEFERRED set; and while the hook
has the signal blocked, each of its steps leads closer to the one that unblocks
it, with the signal sent. -/
structure NotLost (cfg : Cfg V) (s : Sys V E) : Prop where
  own : ∀ t b, (s.threads t).base = .body b → b.pos = .own → (s.threads t).handlers = [] →
    (s.threads t).group ≠ .SHARED ∧ (s.threads t).vars.signal = some t ∧
      (s.threads t).vars.deferred = false ∧ ∃ o, (s.threads t).signaler = some o ∧
        o ∉ (s.threads t).mask
  exits : ∀ t b back o, (s.threads t).base = .body b → b.pos = .lib back →
    (s.threads t).handlers = [] → (s.threads t).signaler = some o → o ∈ (s.threads t).mask →
      (s.threads t).vars.deferred = true
  hook : ∀ t b e o a th', (s.threads t).base = .body b → b.pos = .enable e → e.group = none →
    (s.threads t).handlers = [] → (s.threads t).signaler = some o → o ∈ (s.threads t).mask →
    OwnSignal s (.act t a) → (s.threads t).step (s.world cfg) a = some th' →
    ∃ e', th'.base = .body { b with pos := .enable e' } ∧ e'.group = none ∧ e'.pc.left < e.pc.left ∧
      th'.handlers = [] ∧ (o ∈ th'.mask ∨ e'.pc = .tail ∧ o ∈ th'.pending)

/-- A step of the hook with the signal blocked. -/
theorem Tracked.hook {w : World} {t : Tid} {th : Thread V E} {c : Call V E} {b : Body}
    {o : Signal} {e : Enable} (h : Tracked th) (hb : th.base = .body b) (hin : InBody t th c b)
    (hpos : b.pos = .enable e) (hgroup : e.group = none) (hh : th.handlers = [])
    (ho : th.signaler = some o) (hw : w.notls = false) (hsig : w.sig t = th.signaler)
    (hmem : o ∈ th.mask) :
    ∃ e', (th.enablePos w b e).base = .body { b with pos := .enable e' } ∧ e'.group = none ∧
      e'.pc.left < e.pc.left ∧ (th.enablePos w b e).handlers = [] ∧
      (o ∈ (th.enablePos w b e).mask ∨ e'.pc = .tail ∧ o ∈ (th.enablePos w b e).pending) := by
  have hvars : th.vars.signal = some t := by rw [hin.signal, hpos]; rfl
  have hthread : threadSignal w.sig th.vars = some o := (threadSignal_own hsig hvars).trans ho
  obtain ⟨hask, hm⟩ := h.holds hh ho hb
  have hfits := hin.body.fits
  have hloc := hin.body.located
  rw [hpos] at hask hm hfits hloc
  obtain ⟨pc, group, erryes, errno, unblock, cell⟩ := e
  obtain rfl : group = none := hgroup
  unfold Thread.enablePos Thread.enableStep
  cases pc with
  | errno =>
    simp only [Option.none_or, hloc rfl, Pos.borrowing]
    exact ⟨_, rfl, rfl, by simp [EnablePc.left], hh, .inl hmem⟩
  | location =>
    simp only [hw, Bool.false_eq_true, false_and, if_false]
    exact ⟨_, rfl, rfl, by simp [EnablePc.left], hh, .inl hmem⟩
  | group => exact ⟨_, rfl, rfl, by simp [EnablePc.left], hh, .inl hmem⟩
  | first => exact absurd rfl hfits.2
  | swap => exact ⟨_, rfl, rfl, by dsimp only; split <;> simp [EnablePc.left], hh, .inl hmem⟩
  | get =>
    simp only [hthread]
    exact ⟨_, rfl, rfl, by simp [EnablePc.left], hh, .inl hmem⟩
  | kill =>
    obtain rfl : unblock = some o := hask
    exact ⟨_, rfl, rfl, by simp [EnablePc.left], hh, .inl hmem⟩
  | unblock =>
    rcases hask with hask | hask <;> obtain rfl := hask
    · exact absurd hmem hm.1
    · exact ⟨_, rfl, rfl, by simp [EnablePc.left], hh, .inr ⟨rfl, hm.2.1⟩⟩
  | tail => exact absurd hmem hm.1

/-- **Preemption is never lost**, in every run in which threads get their own
signals, at any moment, and whatever system calls fail. -/
theorem preemption_kept (cfg : Cfg V) (hn : cfg.notls = false) (s : Sys V E)
    (hr : ((process cfg).only OwnSignal).Reachable s) : NotLost cfg s := by
  obtain ⟨hg, h⟩ := carried_reachable hn (carries_tracked hn) hr
  have htr (t : Tid) : Tracked (s.threads t) := ⟨h.threads t, h.tasks t⟩
  refine ⟨fun t b hb hpos hh => ?_, fun t b back o hb hpos hh ho hmem => ?_, ?_⟩
  · obtain ⟨c, -, -, hin⟩ := (hg.threads t).body hb
    obtain ⟨o, ho⟩ := Option.isSome_iff_exists.mp hin.run.own
    obtain ⟨-, hm⟩ := (htr t).holds hh ho hb
    have hgroup := hin.group (by rw [hpos]; rfl)
    have hsignal := hin.signal
    rw [hpos] at hm hgroup hsignal
    exact ⟨by rw [hgroup]; simp [Pos.preemptible], hsignal, hm.2, o, ho, hm.1⟩
  · obtain ⟨-, hm⟩ := (htr t).holds hh ho hb
    rw [hpos] at hm
    exact hm.mp hmem
  · intro t b e o a th' hb hpos hgroup hh ho hmem hC hs
    obtain ⟨c, hc, -, hin⟩ := (hg.threads t).body hb
    cases a with
    | deliver no =>
      -- The own signal is blocked, and no other arrives.
      simp only [Thread.step, Option.ite_none_right_eq_some] at hs
      obtain rfl : o = no := Option.some.inj (ho.symm.trans hC)
      exact absurd hmem hs.1.2
    | run now =>
      simp only [Thread.step, Option.ite_none_right_eq_some, Thread.runStep, hh, hb, hc,
        Thread.bodyStep, hpos, Option.some.injEq] at hs
      obtain ⟨-, rfl⟩ := hs
      exact (htr t).hook hb hin hpos hgroup hh ho hn rfl hmem
    | fn a =>
      simp only [Thread.step, hh, hb, hc] at hs
      split at hs
      · rename_i heq _
        cases heq
        simp [Thread.fnStep, hpos] at hs
      · cases hs

/-- Thread `0` launches a function, which calls into a library; the timer ticks
there, and the handler has returned. -/
def tickInCall : List (Label Bool Bool) :=
  launchOn 0 ++
    [.act 0 (.fn .call), .act 0 (.deliver .Alarm)] ++ List.replicate 7 (.act 0 (.run 10000))

/-- In a library call. -/
def inCall (b : Base) : Bool :=
  match b with
  | .body ⟨_, _, _, .lib _⟩ => true
  | _ => false

theorem preemption_kept_tickInCall : ∃ s : Sys Bool Bool,
    ((process Cfg.small).only OwnSignal).Reachable s ∧ .Alarm ∈ (s.threads 0).mask ∧
      (s.threads 0).vars.deferred = true := by
  obtain ⟨s, hr, hp⟩ := process_only_of_exec Cfg.small OwnSignal tickInCall
    (fun s => inCall (s.threads 0).base &&
      (s.threads 0).handlers.isEmpty && decide ((s.threads 0).signaler = some .Alarm) &&
      decide (.Alarm ∈ (s.threads 0).mask)) (by decide +kernel)
  simp only [Bool.and_eq_true, decide_eq_true_eq, List.isEmpty_iff] at hp
  obtain ⟨⟨⟨hb, hh⟩, ho⟩, hm⟩ := hp
  unfold inCall at hb
  split at hb
  · rename_i hbase
    exact ⟨s, hr, hm, (preemption_kept Cfg.small rfl s hr).exits 0 _ _ _ hbase rfl hh ho hm⟩
  · cases hb

/-- Thread `0` gets a tick of thread `1`'s timer, whose handler is interrupted by
a tick of its own; the function, paused with the first handler on its stack, is
resumed on thread `1`, and the handler returns. -/
def foreignTick : List (Label Bool Bool) :=
  launchOn 1 ++ preempted 1 .Alarm 10000 ++ launchOn 0 ++
    .act 0 (.deliver .Alarm) :: List.replicate 3 (.act 0 (.run 0)) ++
    preempted 0 .VirtualAlarm 10000 ++
    .resume 1 1 5 (.fine 0) :: List.replicate 4 (.main 1 (.fine 0)) ++
    List.replicate 3 (.act 1 (.run 0))

/-- At the function's own code. -/
def inOwn (b : Base) : Bool :=
  match b with
  | .body ⟨_, _, _, .own⟩ => true
  | _ => false

/-- That the signals are the threads' own is needed: a handler that ignores
another thread's tick blocks that thread's signal in the mask it returns to, and
on that thread it is the function's own. -/
theorem foreign_tick_loses_preemption : ∃ s : Sys Bool Bool,
    (process Cfg.small).Reachable s ∧ ¬ NotLost Cfg.small s := by
  obtain ⟨s, hr, hp⟩ := process_of_exec Cfg.small foreignTick
    (fun s => inOwn (s.threads 1).base && (s.threads 1).handlers.isEmpty &&
      decide ((s.threads 1).signaler = some .Alarm) && decide (.Alarm ∈ (s.threads 1).mask))
    (by decide +kernel)
  simp only [Bool.and_eq_true, decide_eq_true_eq, List.isEmpty_iff] at hp
  obtain ⟨⟨⟨hb, hh⟩, ho⟩, hm⟩ := hp
  unfold inOwn at hb
  split at hb
  · rename_i hbase
    refine ⟨s, hr, fun h => ?_⟩
    obtain ⟨-, -, -, o, ho', hm'⟩ := h.own 1 _ hbase rfl hh
    obtain rfl : .Alarm = o := Option.some.inj (ho.symm.trans ho')
    exact hm' hm
  · cases hb

end Inger.L3
