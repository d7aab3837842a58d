import Inger.L3Slice.Carry
import Inger.L3Slice.Jump

/-!
# Which thread's signal is blocked while SIGNAL changes

`schedule` keeps on the function's stack the signal that its first
`enable_preemption` read, and passes it to `disable_preemption` at the end,
maybe many slices and threads later. `signal_protected`: as long as a paused
function is resumed only where that signal is the thread's own (`AtHome`), the
own signal of a thread is blocked whenever the thread writes SIGNAL. After a
migration it need not be (`migrated_finish_unmasked`).

The invariant looks through the handlers on the stack. At most one of them is
for the thread's own signal, and while it is there every mask above it has that
signal (`Covered`); a mask the code below the handlers relies on comes back
when they have all returned (`floor`). A handler acts on its signal only if the
signal is the thread's own, and swaps the function away only after its first
`enable_preemption` has unblocked that signal, so a paused function knows it
(`Home`), and the handlers left on its stack are of other signals.
-/
namespace Inger.L2

open L1.Signals

variable {V E : Type}

/-- The handler has found its signal to be the thread's own. -/
def HandlerPc.concerned : HandlerPc → Bool
  | .test _ r => r
  | .deadline _ => true
  | .clock _ _ => true
  | .yielded _ _ => true
  | .swap _ => true
  | .errno _ => true
  | .block => true
  | .disable _ => true
  | .deferMask _ => true
  | .deferFlag _ => true
  | _ => false

/-- `schedule` has not yet unblocked the thread's signal. -/
def Pos.locked : Pos → Bool
  | .stamp => true
  | .enable e => e.group.isSome && e.pc != .tail
  | _ => false

/-- The signal the function's stack has for its thread: `schedule`'s `signal`,
or `enable_preemption`'s `unblock`, which becomes that. -/
def Body.home (b : Body) : Option Signal :=
  match b.pos with
  | .enable e => if e.group.isSome then e.unblock else b.signal
  | _ => b.signal

namespace Thread

variable {w : World} {now : UInt64} {th th' : Thread V E} {f : Frame}
  {rest : List Frame}

/-- The outcomes of a step of any handler. -/
inductive Handles (w : World) (th : Thread V E) (f : Frame) (rest : List Frame) :
    Thread V E → Prop
  | moves (f' : Frame) (th' : Thread V E) (handlers : th'.handlers = f' :: rest) (no : f'.no = f.no)
      (mask : f.mask ⊆ f'.mask)
      (concerned : f'.pc.concerned = true → f.pc.concerned = true ∨
        threadSignal w.sig th.vars = some f.no)
      (same : th'.mask = th.mask ∧ th'.base = th.base ∧
        th'.vars.task.checkpoint = th.vars.task.checkpoint) :
      Handles w th f rest th'
  | returns (target : f.target = .interrupted) :
      Handles w th f rest { th with mask := f.mask, handlers := rest }
  | lands (target : f.target = .callsite) :
      Handles w th f rest { th with mask := f.mask, handlers := [], base := .main .leave }
  | swaps (e : Int) (st : Sid) (m : Sigset) (b : Body) (pc : f.pc = .swap e)
      (base : th.base = .body b) :
      Handles w th f rest { th with
        vars := { th.vars with
          task := { th.vars.task with checkpoint := some ⟨st, f.mask, .paused b rest⟩ } }
        base := .gone
        handlers := [⟨f.no, m, .callsite, .errno e⟩] }
  | fails (why : Stuck) : Handles w th f rest (th.fail why)

theorem handlerStep_handles (w : World) (now : UInt64) (th : Thread V E) (f : Frame)
    (rest : List Frame) : Handles w th f rest (th.handlerStep w now f rest) := by
  -- A move that reads and writes thread-locals only, or also blocks the signal in `uc`.
  have move (pc : HandlerPc) (v : Vars) (hv : v.task.checkpoint = th.vars.task.checkpoint)
      (hc : pc.concerned = true → f.pc.concerned = true ∨ threadSignal w.sig th.vars = some f.no) :
      Handles w th f rest { th with handlers := { f with pc := pc } :: rest, vars := v } :=
    .moves _ _ rfl rfl subset_rfl hc ⟨rfl, rfl, hv⟩
  have block (pc : HandlerPc) (hc : pc.concerned = true → f.pc.concerned = true) :
      Handles w th f rest
        { th with handlers := { f with mask := insert f.no f.mask, pc := pc } :: rest } :=
    .moves _ _ rfl rfl (Finset.subset_insert _ _) (fun h => .inl (hc h)) ⟨rfl, rfl, rfl⟩
  unfold handlerStep
  cases hpc : f.pc <;> rw [hpc] at move block <;> dsimp only
  case entry => exact move _ _ rfl (by simp [HandlerPc.concerned])
  case relevant e => exact move _ _ rfl (by simp [HandlerPc.concerned])
  case test e r =>
    cases r with
    | false => exact move _ _ rfl (by simp [HandlerPc.concerned])
    | true => cases th.group.preemptible <;> exact move _ _ rfl fun _ => .inl rfl
  case deadline e => exact move _ _ rfl fun _ => .inl rfl
  case clock e d => split <;> exact move _ _ rfl fun _ => .inl rfl
  case yielded e d =>
    split
    · exact .fails _
    · exact move _ _ rfl fun _ => .inl rfl
  case swap e =>
    unfold swap
    split
    · rename_i st m b _ _ hb
      exact .swaps e st m b hpc hb
    · exact .fails _
  case errno e => exact move _ _ rfl fun _ => .inl rfl
  case block => exact block _ fun _ => rfl
  case disable pc =>
    have hc (q : HandlerPc) : q.concerned = true →
        (HandlerPc.disable pc).concerned = true ∨ threadSignal w.sig th.vars = some f.no :=
          fun _ => .inl rfl
    cases pc <;> exact .moves _ _ rfl rfl subset_rfl (by rw [hpc]; exact hc _) ⟨rfl, rfl, rfl⟩
  case deferMask e =>
    split
    · exact .fails _
    · exact block _ fun _ => rfl
  case deferFlag e => exact move _ _ rfl fun _ => .inl rfl
  case ignore e => exact block _ (by simp [HandlerPc.concerned])
  case restore e => exact move _ _ rfl (by simp [HandlerPc.concerned])
  case ret =>
    unfold sigreturn
    split
    · rename_i ht; exact .returns ht
    · rename_i ht; exact .lands ht

end Thread

end Inger.L2

namespace Inger.L3

open L1.Reusable L1.Signals L2

variable {V E : Type}

/-! ## The masks of a stack of handlers -/

/-- At most one of the handlers is for `o`, and while it is there `o` is in the
mask of the running code and in every mask saved above it. -/
def Covered (o : Signal) : List Frame → Sigset → Prop
  | [], _ => True
  | f :: rest, m =>
    ((∃ g ∈ f :: rest, g.no = o) → o ∈ m) ∧ (f.no = o → ∀ g ∈ rest, g.no ≠ o) ∧
      Covered o rest f.mask

/-- The mask of the code below the handlers, once they have returned. -/
def floor : List Frame → Sigset → Sigset
  | [], m => m
  | f :: rest, _ => floor rest f.mask

section
variable {o no : Signal} {m m' : Sigset} {f f' : Frame} {hs rest : List Frame}

theorem Covered.mask (h : Covered o hs m) (ho : ∃ g ∈ hs, g.no = o) : o ∈ m := by
  cases hs with
  | nil => simp at ho
  | cons f rest => exact h.1 ho

theorem Covered.mono (hm : m ⊆ m') (h : Covered o hs m) : Covered o hs m' := by
  cases hs with
  | nil => trivial
  | cons f rest => exact ⟨fun hg => hm (h.1 hg), h.2⟩

theorem Covered.of_foreign (h : ∀ g ∈ hs, g.no ≠ o) (m : Sigset) : Covered o hs m := by
  induction hs generalizing m with
  | nil => trivial
  | cons f rest ih =>
    refine ⟨?_, fun hf => absurd hf (h f List.mem_cons_self),
      ih (fun g hg => h g (List.mem_cons_of_mem f hg)) f.mask⟩
    rintro ⟨g, hg, rfl⟩
    exact absurd rfl (h g hg)

/-- A signal that is not blocked arrives. -/
theorem Covered.deliver (h : Covered o hs m) (hno : no ∉ m) :
    Covered o (⟨no, m, .interrupted, .entry⟩ :: hs) (insert no m) := by
  refine ⟨?_, ?_, h⟩
  · rintro ⟨g, hg, rfl⟩
    rcases List.mem_cons.mp hg with rfl | hg
    · exact Finset.mem_insert_self _ _
    · exact Finset.mem_insert_of_mem (h.mask ⟨g, hg, rfl⟩)
  · rintro rfl g hg heq
    exact hno (h.mask ⟨g, hg, heq⟩)

/-- The innermost handler moves on, and may block more in its `uc`. -/
theorem Covered.moves (h : Covered o (f :: rest) m) (hno : f'.no = f.no) (hm : f.mask ⊆ f'.mask) :
    Covered o (f' :: rest) m := by
  refine ⟨?_, by rw [hno]; exact h.2.1, h.2.2.mono hm⟩
  rintro ⟨g, hg, hgo⟩
  rcases List.mem_cons.mp hg with rfl | hg
  · exact h.1 ⟨f, List.mem_cons_self, hno ▸ hgo⟩
  · exact h.1 ⟨g, List.mem_cons_of_mem f hg, hgo⟩

theorem floor_mono (hm : m ⊆ m') (hs : List Frame) : floor hs m ⊆ floor hs m' := by
  cases hs with
  | nil => exact hm
  | cons f rest => exact subset_rfl

end

/-! ## A thread and its own signal -/

/-- What a function's stack has for its thread's signal is that signal. -/
def Knows (o : Signal) (b : Body) : Prop :=
  match b.pos with
  | .stamp => True
  | .enable e =>
    match e.group with
    | some _ => e.pc.asked = true → e.unblock = some o
    | none => b.signal = some o
  | _ => b.signal = some o

/-- A paused function has a signal for its thread, and the handlers on its
stack are of other signals and do nothing. -/
structure Home (o : Signal) (b : Body) (hs : List Frame) : Prop where
  home : b.home = some o
  unlocked : b.pos.locked = false
  early : b.pos ≠ .disable .signal
  foreign : ∀ g ∈ hs, g.no ≠ o ∧ g.pc.concerned = false

def Housed (b : Body) (hs : List Frame) : Prop := ∃ o, Home o b hs

/-- A thread on a function's stack: the signal stays blocked until the first
`enable_preemption` unblocks it, and is blocked again before SIGNAL changes. -/
structure Scheduled (o : Signal) (th : Thread V E) (b : Body) : Prop where
  knows : Knows o b
  locked : b.pos.locked = true → o ∈ th.mask ∧ ∀ f ∈ th.handlers, f.no ≠ o ∧ o ∈ f.mask
  masked : b.pos = .disable .signal → o ∈ floor th.handlers th.mask

/-- A thread with signal `o`. -/
structure Owns (o : Signal) (th : Thread V E) : Prop where
  covered : Covered o th.handlers th.mask
  concerned : ∀ f ∈ th.handlers, f.pc.concerned = true → f.no = o
  body : ∀ b, th.base = .body b → Scheduled o th b

structure Guarded (th : Thread V E) : Prop where
  owns : ∀ o, th.signaler = some o → Owns o th
  task : th.base.paused = true → PausedAs Housed th.vars.task

theorem Knows.home {o : Signal} {b : Body} (h : Knows o b) (hl : b.pos.locked = false) :
    b.home = some o := by
  unfold Knows at h
  unfold Body.home
  cases hpos : b.pos with
  | stamp => rw [hpos] at hl; cases hl
  | enable e =>
    rw [hpos] at h hl
    cases hg : e.group with
    | none => simp only [hg] at h; simpa [hg] using h
    | some g =>
      have hpc : e.pc = .tail := by simpa [Pos.locked, hg] using hl
      simp only [hg, hpc] at h
      simpa [hg] using h rfl
  | _ => rw [hpos] at h; exact h

theorem Knows.of_home {o : Signal} {b : Body} (h : b.home = some o) : Knows o b := by
  unfold Body.home at h
  unfold Knows
  cases hpos : b.pos with
  | stamp => trivial
  | enable e =>
    rw [hpos] at h
    cases hg : e.group with
    | none => simpa [hg] using h
    | some g =>
      simp only [hg]
      intro _
      simpa [hg] using h
  | _ => rw [hpos] at h; exact h

/-! ## One step of a thread -/

section
variable {w : World} {now : UInt64} {t : Tid} {th th' : Thread V E} {c : Call V E}
  {b : Body} {o : Signal} {ok tidy : Prop}

/-- Without handlers and off the function's stack nothing is asked. -/
theorem guarded_nil (hh : th.handlers = []) (hb : ∀ b, th.base ≠ .body b)
    (ht : th.base.paused = true → PausedAs Housed th.vars.task) : Guarded th where
  owns o _ := ⟨by rw [hh]; trivial, by rw [hh]; simp, fun b h => absurd h (hb b)⟩
  task := ht

/-- Without handlers, on the function's stack. -/
theorem guarded_body (hh : th.handlers = []) (hb : th.base = .body b)
    (hown : ∀ o, th.signaler = some o → Knows o b ∧
      (b.pos.locked = true → o ∈ th.mask) ∧ (b.pos = .disable .signal → o ∈ th.mask)) :
    Guarded th where
  task hp := by rw [hb] at hp; cases hp
  owns o ho := by
    obtain ⟨hk, hl, hm⟩ := hown o ho
    refine ⟨by rw [hh]; trivial, by rw [hh]; simp, fun b' hb' => ?_⟩
    rw [hb] at hb'
    cases hb'
    exact ⟨hk, fun hp => ⟨hl hp, by rw [hh]; simp⟩, by rw [hh]; exact hm⟩

theorem Guarded.fail (h : Guarded th) (why : Stuck) : Guarded (th.fail why) where
  task hp := Bool.noConfusion hp
  owns o ho := ⟨(h.owns o ho).covered, (h.owns o ho).concerned, by simp [Thread.fail]⟩

theorem Guarded.deliver {no : Signal} (h : Guarded th) (hno : no ∉ th.mask) :
    Guarded (th.interrupt no) where
  task := h.task
  owns o ho := by
    have hw := h.owns o ho
    refine ⟨hw.covered.deliver hno, ?_, fun b hb => ?_⟩
    · intro f hf hc
      rcases List.mem_cons.mp hf with rfl | hf
      · cases hc
      · exact hw.concerned f hf hc
    · have hb := hw.body b hb
      refine ⟨hb.knows, fun hl => ?_, hb.masked⟩
      obtain ⟨hm, hf⟩ := hb.locked hl
      refine ⟨Finset.mem_insert_of_mem hm, fun f hf' => ?_⟩
      rcases List.mem_cons.mp hf' with rfl | hf'
      · exact ⟨fun (heq : no = o) => hno (heq ▸ hm), hm⟩
      · exact hf f hf'

/-- Where a thread can be: on its own stack, on a function's, or in the handler
that has swapped the function away. -/
theorem Core.place (h : Core ok tidy t th) (ha : th.base.alive = true) :
    (Calm th ∧ (th.vars.signal = none ∨ th.vars.signal = some t)) ∨
    (∃ c b, InBody t th c b) ∨ (∃ c upper bottom, th.base = .gone ∧ Gone t th c upper bottom) := by
  cases hb : th.base with
  | caller => exact .inl (h.calm (.inl hb))
  | main pc => exact .inl (h.calm (.inr (.inl ⟨pc, hb⟩)))
  | boot => exact .inl (h.calm (.inr (.inr hb)))
  | body b =>
    obtain ⟨c, -, -, hin⟩ := h.body hb
    exact .inr (.inl ⟨c, b, hin⟩)
  | gone =>
    obtain ⟨c, upper, bottom, -, -, hg⟩ := h.gone hb
    exact .inr (.inr ⟨c, upper, bottom, rfl, hg⟩)
  | exited => rw [hb] at ha; cases ha
  | stuck why => rw [hb] at ha; cases ha

/-- A handler that returns to the call site has swapped the function away. -/
theorem Core.gone_of_callsite (h : Core ok tidy t th) (ha : th.base.alive = true) {f : Frame}
    (hf : f ∈ th.handlers) (ht : f.target = .callsite) : th.base = .gone := by
  rcases h.place ha with ⟨hcalm, -⟩ | ⟨c, b, hin⟩ | ⟨_, _, _, hb, -⟩
  · rw [(hcalm.frames f hf).target] at ht; cases ht
  · rw [(hin.frames f hf).target] at ht; cases ht
  · exact hb

/-- A handler in `disable_preemption` has swapped a function away, so the
thread has a signal. -/
theorem Core.own_of_disable (h : Core ok tidy t th) (ha : th.base.alive = true) {f : Frame}
    {pc : DisablePc} (hf : f ∈ th.handlers) (hpc : f.pc = .disable pc) :
    th.signaler.isSome = true := by
  rcases h.place ha with ⟨hcalm, -⟩ | ⟨c, b, hin⟩ | ⟨_, _, _, -, hg⟩
  · have := (hcalm.frames f hf).pc
    rw [hpc] at this
    exact this.elim
  · exact hin.run.own
  · exact hg.own

/-- SIGNAL of a thread is unset or names it. -/
theorem Core.vars_signal (h : Core ok tidy t th) (ha : th.base.alive = true) :
    th.vars.signal = none ∨ th.vars.signal = some t := by
  rcases h.place ha with ⟨-, hv⟩ | ⟨c, b, hin⟩ | ⟨_, _, _, -, hg⟩
  · exact hv
  · rw [hin.signal]; split <;> simp
  · rw [hg.signal]; split <;> simp

theorem Guarded.handler {f : Frame} {rest : List Frame} (h : Guarded th) (hcore : Core ok tidy t th)
    (hsig : w.sig t = th.signaler) (ha : th.base.alive = true) (hh : th.handlers = f :: rest)
    (hs : th.handlerStep w now f rest = th') : Guarded th' := by
  have hkept : Thread.Kept th th' := hs ▸ Thread.handlerStep_kept f rest
  have hout := Thread.handlerStep_handles w now th f rest
  rw [hs] at hout
  have hf : f ∈ th.handlers := by rw [hh]; exact List.mem_cons_self
  have hrest : ∀ g ∈ rest, g ∈ th.handlers := by
    intro g hg; rw [hh]; exact List.mem_cons_of_mem f hg
  cases hout with
  | moves f' _ hh' hno hm hc hsame =>
    obtain ⟨hmask, hbase, hck⟩ := hsame
    refine ⟨fun o ho => ?_, fun hb => (h.task (hbase ▸ hb)).of_checkpoint hck⟩
    rw [hkept.signaler] at ho
    have hw := h.owns o ho
    have hcov := hw.covered
    rw [hh] at hcov
    refine ⟨by rw [hh', hmask]; exact hcov.moves hno hm, ?_, fun b hb => ?_⟩
    · intro g hg hgc
      rw [hh'] at hg
      rcases List.mem_cons.mp hg with rfl | hg
      · rw [hno]
        rcases hc hgc with hfc | hown
        · exact hw.concerned f hf hfc
        · have := own_of_threadSignal hsig (hcore.vars_signal ha) f.no hown
          rw [ho] at this
          exact (Option.some.inj this).symm
      · exact hw.concerned g (hrest g hg) hgc
    · have hb := hw.body b (hbase ▸ hb)
      refine ⟨hb.knows, fun hl => ?_, fun hp => ?_⟩
      · obtain ⟨hin, hfr⟩ := hb.locked hl
        refine ⟨by rw [hmask]; exact hin, fun g hg => ?_⟩
        rw [hh'] at hg
        rcases List.mem_cons.mp hg with rfl | hg
        · exact ⟨by rw [hno]; exact (hfr f hf).1, hm (hfr f hf).2⟩
        · exact hfr g (hrest g hg)
      · have := hb.masked hp
        rw [hh] at this
        rw [hh', hmask]
        exact floor_mono hm rest this
  | returns htgt =>
    refine ⟨fun o ho => ?_, h.task⟩
    have hw := h.owns o ho
    have hcov := hw.covered
    rw [hh] at hcov
    refine ⟨hcov.2.2, fun g hg => hw.concerned g (hrest g hg), fun b hb => ?_⟩
    have hb := hw.body b hb
    refine ⟨hb.knows, fun hl => ?_, fun hp => ?_⟩
    · obtain ⟨-, hfr⟩ := hb.locked hl
      exact ⟨(hfr f hf).2, fun g hg => hfr g (hrest g hg)⟩
    · have := hb.masked hp
      rwa [hh] at this
  | lands htgt =>
    have hb : th.base = .gone := hcore.gone_of_callsite ha hf htgt
    exact guarded_nil rfl (by simp) fun _ => h.task (by rw [hb]; rfl)
  | swaps e st m b hpc hb =>
    obtain ⟨c, -, -, hin⟩ := hcore.body hb
    obtain ⟨o, ho⟩ := Option.isSome_iff_exists.mp hin.run.own
    have hw := h.owns o ho
    have hcov := hw.covered
    rw [hh] at hcov
    have hno : f.no = o := hw.concerned f hf (by rw [hpc]; rfl)
    have hsch := hw.body b hb
    -- The handler is for the own signal, so `schedule` has unblocked that.
    have hunl : b.pos.locked = false := by
      cases hl : b.pos.locked with
      | false => rfl
      | true => exact absurd hno ((hsch.locked hl).2 f hf).1
    have hpre : b.pos.preemptible = true := by
      have := (hin.frames f hf).pc
      rw [hpc] at this
      exact this.1
    refine ⟨fun o' ho' => ?_, fun _ => ?_⟩
    · obtain rfl : o = o' := Option.some.inj (ho.symm.trans ho')
      refine ⟨⟨fun _ => hcov.1 ⟨f, List.mem_cons_self, hno⟩, fun _ => by simp, trivial⟩,
        ?_, by simp⟩
      intro g hg _
      rw [List.mem_singleton.mp hg]
      exact hno
    · intro st' m' b' hs' hck
      simp only [Option.some.injEq, Context.mk.injEq, Code.paused.injEq] at hck
      obtain ⟨-, -, rfl, rfl⟩ := hck
      refine ⟨o, hsch.knows.home hunl, hunl, ?_, fun g hg => ?_⟩
      · rintro hp; rw [hp] at hpre; cases hpre
      · have hgo := hcov.2.1 hno g hg
        refine ⟨hgo, ?_⟩
        cases hgc : g.pc.concerned with
        | false => rfl
        | true => exact absurd (hw.concerned g (hrest g hg) hgc) hgo
  | fails why => exact h.fail why

theorem Guarded.boot (h : Guarded th) (hcore : Core ok tidy t th) (hb : th.base = .boot)
    (hh : th.handlers = []) : Guarded th.bootStep := by
  unfold Thread.bootStep
  split
  · exact h.fail _
  · refine guarded_body hh rfl fun o ho => ⟨trivial, fun _ => ?_, by simp⟩
    exact (hcore.calm (.inr (.inr hb))).1.mask o ho

/-- A step of `enable_preemption`, in `schedule` or in the hook. -/
theorem Guarded.enable {e : Enable} (h : Guarded th) (hb : th.base = .body b)
    (hin : InBody t th c b) (hpos : b.pos = .enable e) (hsig : w.sig t = th.signaler)
    (hh : th.handlers = []) :
    Guarded (th.enablePos w b e) := by
  have hvars : th.vars.signal = some t := by rw [hin.signal, hpos]; rfl
  have hthread : threadSignal w.sig th.vars = th.signaler := threadSignal_own hsig hvars
  obtain ⟨o, ho⟩ := Option.isSome_iff_exists.mp hin.run.own
  have hsch := (h.owns o ho).body b hb
  have hk := hsch.knows
  have hlock : Pos.locked (.enable e) = true → o ∈ th.mask := fun hl => (hsch.locked (hpos ▸ hl)).1
  simp only [Knows, hpos] at hk
  -- Where the step leads, `o` is known, and blocked unless it has just been unblocked.
  have next (th' : Thread V E) (b' : Body) (hs : th'.signaler = th.signaler)
      (hh' : th'.handlers = []) (hb' : th'.base = .body b') (hk' : Knows o b')
      (hl' : b'.pos.locked = true → o ∈ th'.mask) (hd : b'.pos ≠ .disable .signal) :
      Guarded th' := by
    refine guarded_body hh' hb' fun o' ho' => ?_
    obtain rfl : o = o' := Option.some.inj (ho.symm.trans (hs.symm.trans ho'))
    exact ⟨hk', hl', fun hp => absurd hp hd⟩
  obtain ⟨pc, group, erryes, errno, unblock, cell⟩ := e
  cases group with
  | none =>
    have hall (th' : Thread V E) (pos : Pos) (hs : th'.signaler = th.signaler)
        (hh' : th'.handlers = [])
        (hp : (∃ e', pos = .enable e' ∧ e'.group = none) ∨ pos = .own) :
        Guarded (th'.goto b pos) := by
      refine next _ _ hs hh' rfl ?_ ?_ ?_ <;> rcases hp with ⟨e', rfl, he'⟩ | rfl
      · simp only [Knows, he']; exact hk
      · exact hk
      · simp [Pos.locked, he']
      · simp [Pos.locked]
      · simp
      · simp
    unfold Thread.enablePos Thread.enableStep
    cases pc with
    | errno =>
      cases hloc : th.vars.errnoLocation.borrowed with
      | true => simp only [if_true]; exact h.fail _
      | false =>
        cases hval : th.vars.errnoLocation.value with
        | none => simp only [Bool.false_eq_true, if_false, Option.or_none]; exact h.fail _
        | some g =>
          simp only [Bool.false_eq_true, if_false, Option.none_or]
          exact hall _ _ rfl hh (.inl ⟨_, rfl, rfl⟩)
    | location =>
      by_cases hw : w.notls = true ∧ cell ≠ th.vars.signal
      · simp only [hw, ne_eq, not_false_eq_true, and_self, if_true]; exact h.fail _
      · simp only [hw, if_false]; exact hall _ _ rfl hh (.inl ⟨_, rfl, rfl⟩)
    | group => exact hall _ _ rfl hh (.inl ⟨_, rfl, rfl⟩)
    | first =>
      have := hin.body.fits
      rw [hpos] at this
      exact absurd rfl this.2
    | swap => exact hall _ _ rfl hh (.inl ⟨_, rfl, rfl⟩)
    | get => simp only [hthread, ho]; exact hall _ _ rfl hh (.inl ⟨_, rfl, rfl⟩)
    | kill => cases unblock <;> exact hall _ _ rfl hh (.inl ⟨_, rfl, rfl⟩)
    | unblock => cases unblock <;> exact hall _ _ rfl hh (.inl ⟨_, rfl, rfl⟩)
    | tail => dsimp only; split <;> rename_i heq <;> split at heq <;> cases heq <;>
        exact hall _ _ rfl hh (.inr rfl)
  | some g =>
    simp only at hk
    have hfst : pc ≠ .tail → o ∈ th.mask := fun hp => hlock (by simpa [Pos.locked] using hp)
    unfold Thread.enablePos Thread.enableStep
    cases pc with
    | errno =>
      cases hloc : th.vars.errnoLocation.borrowed with
      | true => simp only [if_true]; exact h.fail _
      | false =>
        simp only [Bool.false_eq_true, if_false, Option.some_or]
        exact next _ _ rfl hh rfl (by simp [Knows, EnablePc.asked])
          (fun _ => hfst (by simp)) (by simp)
    | location =>
      by_cases hw : w.notls = true ∧ cell ≠ th.vars.signal
      · simp only [hw, ne_eq, not_false_eq_true, and_self, if_true]; exact h.fail _
      · simp only [hw, if_false]
        exact next _ _ rfl hh rfl (by simp [Knows, EnablePc.asked])
          (fun _ => hfst (by simp)) (by simp)
    | group =>
      exact next _ _ rfl hh rfl (by simp [Knows, EnablePc.asked])
        (fun _ => hfst (by simp)) (by simp)
    | first =>
      simp only [hthread, ho]
      exact next _ _ rfl hh rfl (by simp [Knows]) (fun _ => hfst (by simp)) (by simp)
    | swap =>
      exact next _ _ rfl hh rfl (by simp only [Knows]; exact fun _ => hk rfl)
        (fun _ => hfst (by simp)) (by simp)
    | get =>
      obtain rfl : unblock = some o := hk rfl
      simp only [hthread, ho]
      exact next _ _ rfl hh rfl (by simp [Knows]) (fun _ => hfst (by simp)) (by simp)
    | kill =>
      obtain rfl : unblock = some o := hk rfl
      exact next _ _ rfl hh rfl (by simp [Knows]) (fun _ => hfst (by simp)) (by simp)
    | unblock =>
      obtain rfl : unblock = some o := hk rfl
      exact next _ _ rfl hh rfl (by simp [Knows]) (by simp [Pos.locked]) (by simp)
    | tail =>
      obtain rfl : unblock = some o := hk rfl
      simp only [reduceCtorEq, false_and, and_false, if_false]
      exact next _ _ rfl hh rfl (by simp [Knows]) (by simp [Pos.locked]) (by simp)

/-- A step of `schedule`, `pause` or the hook. -/
theorem Guarded.body (h : Guarded th) (hcore : Core ok tidy t th) (hb : th.base = .body b)
    (hc : th.call = some c) (hsig : w.sig t = th.signaler) (hh : th.handlers = [])
    (hs : th.bodyStep w now c b = some th') : Guarded th' := by
  obtain ⟨c', hc', -, hin⟩ := hcore.body hb
  obtain rfl : c = c' := Option.some.inj (hc.symm.trans hc')
  obtain ⟨o, ho⟩ := Option.isSome_iff_exists.mp hin.run.own
  have hsch := (h.owns o ho).body b hb
  have hk := hsch.knows
  -- After the first `enable_preemption`, `schedule` has the signal in `signal`.
  have next (th₁ : Thread V E) (pos : Pos) (hs : th₁.signaler = th.signaler)
      (hh' : th₁.handlers = []) (hsignal : b.signal = some o)
      (hp : pos.locked = false) (he : ∀ e, pos ≠ .enable e)
      (hd : pos = .disable .signal → o ∈ th₁.mask) : Guarded (th₁.goto b pos) := by
    refine guarded_body hh' rfl fun o' ho' => ?_
    obtain rfl : o = o' := Option.some.inj (ho.symm.trans (hs.symm.trans ho'))
    refine ⟨?_, fun hl => (by rw [show pos.locked = true from hl] at hp; cases hp), hd⟩
    cases pos with
    | stamp => trivial
    | enable e => exact absurd rfl (he e)
    | _ => exact hsignal
  unfold Thread.bodyStep at hs
  cases hpos : b.pos <;> simp only [hpos, Option.some.injEq, reduceCtorEq] at hs <;>
    simp only [Knows, hpos] at hk
  case stamp =>
    split at hs <;> cases hs
    · exact h.fail _
    refine guarded_body hh rfl fun o' ho' => ?_
    obtain rfl : o = o' := Option.some.inj (ho.symm.trans ho')
    exact ⟨by simp [Knows, EnablePc.asked], fun _ => (hsch.locked (by rw [hpos]; rfl)).1, by simp⟩
  case enable e => subst hs; exact h.enable hb hin hpos hsig hh
  case call =>
    subst hs
    unfold Thread.callPos
    split
    · split
      · exact next _ _ rfl hh hk rfl (by simp) (by simp)
      · exact h.fail _
      · exact next _ _ rfl hh hk rfl (by simp) (by simp)
    · exact h.fail _
  case pause back => subst hs; exact next _ _ rfl hh hk rfl (by simp) (by simp)
  case deferMask back =>
    split at hs
    · cases hs; exact h.fail _
    · split at hs <;> cases hs
      · exact next _ _ rfl hh hk rfl (by simp) (by simp)
      · exact h.fail _
  case deferFlag back => subst hs; exact next _ _ rfl hh hk rfl (by simp) (by simp)
  case disable pc =>
    subst hs
    have hm : o ∈ (th.disableStep (some o) .mask).mask := by simp [Thread.disableStep]
    rw [hk]
    cases pc <;> refine next _ _ rfl hh hk rfl (by simp [DisablePc.next]) ?_
    · simp [DisablePc.next]
    · exact fun _ => hm
    · simp [DisablePc.next]
    · simp [DisablePc.next]
  case check =>
    split at hs <;> cases hs
    · exact h.fail _
    · exact next _ _ rfl hh hk rfl (by simp) (by simp)
  case ret =>
    subst hs
    exact guarded_nil hh (by simp) fun _ => hin.run.pausedAs

/-- A step of the function itself. -/
theorem Guarded.fn {a : FnAct V E} (h : Guarded th) (hcore : Core ok tidy t th)
    (hb : th.base = .body b) (hh : th.handlers = []) (hs : th.fnStep c b a = some th') :
    Guarded th' := by
  obtain ⟨c', hc', -, hin⟩ := hcore.body hb
  obtain ⟨o, ho⟩ := Option.isSome_iff_exists.mp hin.run.own
  have hk := ((h.owns o ho).body b hb).knows
  have next (b' : Body) (hs : th'.signaler = th.signaler) (hh' : th'.handlers = [])
      (hb' : th'.base = .body b') (hk' : Knows o b') (hl : b'.pos.locked = false)
      (hd : b'.pos ≠ .disable .signal) : Guarded th' := by
    refine guarded_body hh' hb' fun o' ho' => ?_
    obtain rfl : o = o' := Option.some.inj (ho.symm.trans (hs.symm.trans ho'))
    exact ⟨hk', fun hl' => (by rw [hl'] at hl; cases hl), fun hp => absurd hp hd⟩
  unfold Thread.fnStep at hs
  split at hs <;> cases hs <;> rename_i hpos <;> simp only [Knows, hpos] at hk
  · exact next b rfl hh hb (by simp only [Knows, hpos]; exact hk) (by rw [hpos]; rfl)
      (by rw [hpos]; simp)
  · exact next _ rfl hh rfl hk rfl (by simp)
  · exact next _ rfl hh rfl hk rfl (by simp)
  · exact next _ rfl hh rfl hk rfl (by simp)
  · exact next b rfl hh hb (by simp only [Knows, hpos]; exact hk) (by rw [hpos]; rfl)
      (by rw [hpos]; simp)
  · exact next _ rfl hh rfl hk rfl (by simp [Enable.hook])

/-- **One step of a thread** keeps its own signal under guard. -/
theorem Guarded.act {a : Act V E} (h : Guarded th) (hcore : Core ok tidy t th)
    (hsig : w.sig t = th.signaler) (hs : th.step w a = some th') : Guarded th' := by
  cases Thread.step_acts hs with
  | delivers no _ hno => exact h.deliver hno
  | handles now f rest hr hh => exact h.handler hcore hsig (Thread.alive_of_ready hr) hh rfl
  | boots now c _ hh hb => exact h.boot hcore hb hh
  | runs now b c th' _ hh hb hc hs => exact h.body hcore hb hc hsig hh hs
  | fn a b c th' _ hh hb _ hs => exact h.fn hcore hb hh hs

end

/-! ## Writes of SIGNAL -/

/-- The next step of the thread overwrites SIGNAL: it is in `thread_setup`, or
in `disable_preemption` as called by `schedule` or by `preempt`.
mirrors src/preemption.rs:92,118-125 -/
def writesSignal (th : Thread V E) : Bool :=
  th.base.alive &&
    match th.handlers, th.base with
    | f :: _, _ => f.pc = .disable .signal
    | [], .main .signal => true
    | [], .body b => b.pos = .disable .signal
    | [], _ => false

/-- A paused function continues on a thread whose own signal is the one that
the function's stack has for it. -/
def AtHome (s : Sys V E) : Label V E → Prop
  | .main t _ =>
    match (s.threads t).base, (s.threads t).call with
    | .main .switch, some c =>
      match c.task.checkpoint with
      | some ⟨_, _, .paused b _⟩ => b.home = (s.threads t).signaler
      | _ => True
    | _, _ => True
  | _ => True

instance (s : Sys V E) (l : Label V E) : Decidable (AtHome s l) := by
  unfold AtHome
  split
  · split
    · split <;> infer_instance
    · infer_instance
  · infer_instance

/-- Whenever a thread is about to write SIGNAL its own signal is blocked; so it
is in every step of a call that changes SIGNAL; and what `schedule` passes to
`disable_preemption` is that signal. -/
structure Protected (cfg : Cfg V) (s : Sys V E) : Prop where
  writes : ∀ t, writesSignal (s.threads t) = true →
    ∃ o, (s.threads t).signaler = some o ∧ o ∈ (s.threads t).mask
  changes : ∀ t l s', Sys.step cfg s l = some s' → (s.threads t).call.isSome = true →
    (s'.threads t).call.isSome = true → (s'.threads t).vars.signal ≠ (s.threads t).vars.signal →
    ∃ o, (s.threads t).signaler = some o ∧ o ∈ (s.threads t).mask
  finishing : ∀ t b pc, (s.threads t).base = .body b → b.pos = .disable pc →
    ∃ o, b.signal = some o ∧ (s.threads t).signaler = some o

theorem carries_guarded (cfg : Cfg V) :
    Carries (E := E) cfg Housed (fun th => ∀ o, th.signaler = some o → Owns o th) AtHome where
  quiet th hh hb o _ :=
    ⟨by rw [hh]; trivial, by rw [hh]; simp, fun b hb' => by rw [hb'] at hb; cases hb⟩
  jumps s t env c st m b hs th' hC hbase hcall hck _ hP hj o ho := by
    -- At home: the handlers left on the stack are still of other signals.
    simp only [AtHome, hbase, hcall, hck] at hC
    obtain ⟨o', hP⟩ := hP
    obtain rfl : o' = o := by
      rw [hj.signaler, ← hC, hP.home] at ho
      exact Option.some.inj ho
    refine ⟨.of_foreign (fun g hg => (hP.foreign g (hj.handlers ▸ hg)).1) _, fun g hg hgc => ?_,
      fun b' hb' => ?_⟩
    · rw [(hP.foreign g (hj.handlers ▸ hg)).2] at hgc; cases hgc
    · rw [hj.base] at hb'
      cases hb'
      exact ⟨.of_home hP.home, fun hl => Bool.noConfusion (hP.unlocked.symm.trans hl),
        fun hp => absurd hp hP.early⟩
  acts s t a th' _ hcore hG htask hs :=
    have h : Guarded th' := Guarded.act ⟨hG, htask⟩ hcore rfl hs
    ⟨h.owns, h.task⟩

section
variable {w : World} {now : UInt64} {th th' : Thread V E} {c : Call V E} {b : Body}
  {cfg : Cfg V} {s s' : Sys V E} {t : Tid} {env : Env} {ok tidy : Prop}

theorem handlerStep_signal {f : Frame} {rest : List Frame} (hf : f.pc ≠ .disable .signal) :
    (th.handlerStep w now f rest).vars.signal = th.vars.signal := by
  unfold Thread.handlerStep
  cases hpc : f.pc with
  | test e r => cases r <;> cases th.group.preemptible <;> rfl
  | clock e d => dsimp only; split <;> rfl
  | yielded e d => dsimp only; split <;> rfl
  | swap e => simp only [Thread.swap]; split <;> rfl
  | disable pc =>
    cases pc with
    | signal => exact absurd hpc hf
    | _ => rfl
  | deferMask e => dsimp only; split <;> rfl
  | ret => simp only [Thread.sigreturn]; split <;> rfl
  | _ => rfl

theorem enablePos_signal (e : Enable) : (th.enablePos w b e).vars.signal = th.vars.signal := by
  have h : (th.enableStep w e).1.vars.signal = th.vars.signal := by
    unfold Thread.enableStep
    cases e.pc with
    | errno =>
      dsimp only
      split
      · rfl
      · split <;> rfl
    | swap => rfl
    | _ => dsimp only; split <;> rfl
  unfold Thread.enablePos
  split <;> rename_i heq <;> rw [heq] at h
  · exact h
  · split
    · split <;> exact h
    · exact h
  · split <;> exact h
  · exact h

theorem bodyStep_signal (hb : b.pos ≠ .disable .signal) (hs : th.bodyStep w now c b = some th') :
    th'.vars.signal = th.vars.signal := by
  unfold Thread.bodyStep at hs
  cases hpos : b.pos <;> simp only [hpos, Option.some.injEq, reduceCtorEq] at hs
  case stamp => split at hs <;> cases hs <;> rfl
  case enable e => subst hs; exact enablePos_signal e
  case call =>
    subst hs
    unfold Thread.callPos
    split
    · split <;> rfl
    · rfl
  case pause back => subst hs; rfl
  case deferMask back =>
    split at hs
    · cases hs; rfl
    · split at hs <;> cases hs <;> rfl
  case deferFlag back => subst hs; rfl
  case disable pc =>
    subst hs
    cases pc with
    | signal => exact absurd hpos hb
    | mask => simp only [Thread.disableStep, Thread.goto]; split <;> rfl
    | _ => rfl
  case check => split at hs <;> cases hs <;> rfl
  case ret => subst hs; rfl

/-- On a function's stack and in handlers, SIGNAL changes nowhere else. -/
theorem writesSignal_of_act {a : Act V E} (hs : th.step w a = some th')
    (hne : th'.vars.signal ≠ th.vars.signal) : writesSignal th = true := by
  cases Thread.step_acts hs with
  | delivers no => exact absurd rfl hne
  | handles now f rest hr hh =>
    simp only [writesSignal, hh, Thread.alive_of_ready hr, Bool.true_and, decide_eq_true_eq]
    exact of_not_not fun hf => hne (handlerStep_signal hf)
  | boots now c =>
    refine absurd ?_ hne
    unfold Thread.bootStep
    split <;> rfl
  | runs now b c th' _ hh hb _ hs =>
    simp only [writesSignal, hh, hb, Base.alive, Bool.true_and, decide_eq_true_eq]
    exact of_not_not fun hb => hne (bodyStep_signal hb hs)
  | fn a b c th' _ _ _ _ hs =>
    unfold Thread.fnStep at hs
    split at hs <;> cases hs <;> exact absurd rfl hne

/-- On the caller's stack, SIGNAL changes nowhere else in a call. -/
theorem writesSignal_of_main (hg : Good ok tidy s) (hs : Sys.mainStep cfg s t env = some s')
    (hc : (s'.threads t).call.isSome = true)
    (hne : (s'.threads t).vars.signal ≠ (s.threads t).vars.signal) :
    writesSignal (s.threads t) = true := by
  have hfail {s₁ : Sys V E} {th₁ : Thread V E} {c₁ : Call V E} {r : Ret E}
      (hc : ((Sys.failResume cfg s₁ t th₁ c₁ env r).threads t).call.isSome = true) : False := by
    simp [Sys.failResume] at hc
  simp only [Sys.mainStep] at hs
  split at hs <;> cases hs
  all_goals rename_i c hr hh hb hcall
  · refine absurd ?_ hne
    unfold Sys.setupStep at hc ⊢
    split
    · simp
    · rename_i hsig
      simp only [hsig] at hc
      split <;> rename_i heq <;> simp only [heq] at hc
      · exact (hfail hc).elim
      · split <;> simp [Thread.fail]
  · simp only [writesSignal, hh, hb, Base.alive, Bool.and_self]
  · refine absurd ?_ hne
    unfold Sys.stackStep at hc ⊢
    split
    · simp
    · rename_i herr
      simp only [herr] at hc
      cases henv : env.makecontext <;>
        simp only [henv, Bool.false_eq_true, if_false, if_true] at hc ⊢
      · exact (hfail hc).elim
      · split <;> simp [Thread.fail, Thread.setCall]
  · refine absurd ?_ hne
    generalize hs' : Sys.switchStep cfg s t (s.threads t) c env = s' at hc
    cases hs' ▸ switchStep_switched hg hcall hb hh with
    | starts => simp
    | resumes => simp [Vars.setErrno]
    | fails => exact (hfail hc).elim
  · have hleft : ((Sys.leaveStep cfg s t (s.threads t) c env).threads t).call = none := by
      unfold Sys.leaveStep
      dsimp only
      split
      · simp [Sys.failResume]
      · split
        · simp [Sys.endResume]
        · split <;> simp [Sys.endResume]
    rw [hleft] at hc
    cases hc

/-- **SIGNAL changes nowhere else** while a call lasts. -/
theorem writesSignal_of_step {l : Label V E} (hn : cfg.notls = false) (hg : Good ok tidy s)
    (hs : Sys.step cfg s l = some s') (hc : (s.threads t).call.isSome = true)
    (hc' : (s'.threads t).call.isSome = true)
    (hne : (s'.threads t).vars.signal ≠ (s.threads t).vars.signal) :
    writesSignal (s.threads t) = true := by
  have hidle (u : Tid) (hu : t = u) (hi : Sys.idle (s.threads u) = true) : False := by
    subst hu
    rw [((hg.threads t).idle hi).2.2.1] at hc
    cases hc
  by_cases ht : t = l.tid
  · cases step_change hn hs with
    | returns _ u k idle label =>
      rcases label with ⟨_, _, rfl⟩ | ⟨_, rfl⟩ <;> exact (hidle u ht idle).elim
    | caught _ u tid idle => exact (hidle u (ht.trans tid) idle).elim
    | full u us env p idle => exact (hidle u ht idle).elim
    | sets u env group p idle => exact (hidle u ht idle).elim
    | launches u us env group p _ idle => exact (hidle u ht idle).elim
    | resumes u k us env c trace _ idle => exact (hidle u ht idle).elim
    | advances => cases ht; exact writesSignal_of_main hg hs hc' hne
    | leaves => cases ht; exact writesSignal_of_main hg hs hc' hne
    | acts u a th step =>
      cases ht
      exact writesSignal_of_act step (by simpa [Label.tid] using hne)
    | drops _ u k c trace renew new idle cell label =>
      rcases label with ⟨_, rfl, _⟩ | ⟨_, rfl, _⟩ <;> exact (hidle u ht idle).elim
    | forgets u k env l idle => exact (hidle u ht idle).elim
    | stays => exact absurd rfl hne
    | exits u p idle => exact (hidle u ht idle).elim
  · rw [step_threads_ne hn hs ht] at hne
    exact absurd rfl hne

end

/-- **In every run in which paused functions are resumed at home**, with any
signals arriving and any system call failing, SIGNAL changes only with the
thread's own signal blocked. -/
theorem signal_protected (cfg : Cfg V) (hn : cfg.notls = false) (s : Sys V E)
    (hr : ((process cfg).only AtHome).Reachable s) : Protected cfg s := by
  obtain ⟨hg, h⟩ := carried_reachable hn (carries_guarded cfg) hr
  have hwrites (t : Tid) (hw : writesSignal (s.threads t) = true) :
      ∃ o, (s.threads t).signaler = some o ∧ o ∈ (s.threads t).mask := by
    have hcore := hg.threads t
    simp only [writesSignal, Bool.and_eq_true] at hw
    obtain ⟨ha, hw⟩ := hw
    split at hw
    · rename_i f rest hh
      have hf : f.pc = .disable .signal := by simpa using hw
      have hmem : f ∈ (s.threads t).handlers := by rw [hh]; exact List.mem_cons_self
      obtain ⟨o, ho⟩ := Option.isSome_iff_exists.mp (hcore.own_of_disable ha hmem hf)
      have hown := h.threads t o ho
      exact ⟨o, ho, hown.covered.mask ⟨f, hmem, hown.concerned f hmem (by rw [hf]; rfl)⟩⟩
    · rename_i hb
      cases hc : (s.threads t).call <;> simp only [Core, hb, hc] at hcore
      obtain ⟨o, ho⟩ := Option.isSome_iff_exists.mp hcore.2.2.2.1
      exact ⟨o, ho, hcore.1.mask o ho⟩
    · rename_i b hh hb
      obtain ⟨c, -, -, hin⟩ := hcore.body hb
      obtain ⟨o, ho⟩ := Option.isSome_iff_exists.mp hin.run.own
      have hm := ((h.threads t o ho).body b hb).masked (by simpa using hw)
      rw [hh] at hm
      exact ⟨o, ho, hm⟩
    · cases hw
  refine ⟨hwrites, fun t l s' hs hc hc' hne => hwrites t (writesSignal_of_step hn hg hs hc hc' hne),
    ?_⟩
  intro t b pc hb hpos
  obtain ⟨c, -, -, hin⟩ := (hg.threads t).body hb
  obtain ⟨o, ho⟩ := Option.isSome_iff_exists.mp hin.run.own
  have hk := ((h.threads t o ho).body b hb).knows
  simp only [Knows, hpos] at hk
  exact ⟨o, hk, ho⟩

/-- Thread `0` launches a function, whose timer pauses it; thread `t` resumes
it, the function returns, and `disable_preemption` is about to write SIGNAL. -/
def finishOn (t : Tid) : List (Label Bool Bool) :=
  launchOn 0 ++ preempted 0 .Alarm 10000 ++
    .resume t 0 5 (.fine 0) :: List.replicate 4 (.main t (.fine 0)) ++
    .act t (.fn (.finish (.ok true))) :: List.replicate 2 (.act t (.run 0))

theorem signal_protected_finishOn : ∃ s : Sys Bool Bool,
      ((process Cfg.small).only AtHome).Reachable s ∧
    writesSignal (s.threads 0) = true ∧ Protected Cfg.small s := by
  obtain ⟨s, hr, hp⟩ := process_only_of_exec Cfg.small AtHome (finishOn 0)
    (fun s => writesSignal (s.threads 0)) (by decide +kernel)
  exact ⟨s, hr, hp, signal_protected Cfg.small rfl s hr⟩

/-- **After a migration**: the function was launched on thread `0` and finishes
on thread `1`, which blocks thread `0`'s signal and has its own unblocked. -/
theorem migrated_finish_unmasked : ∃ s : Sys Bool Bool, (process Cfg.small).Reachable s ∧
    writesSignal (s.threads 1) = true ∧ (s.threads 1).signaler = some .VirtualAlarm ∧
    (s.threads 1).mask = {.Alarm} ∧ ¬Protected Cfg.small s := by
  obtain ⟨s, hr, hp⟩ := process_of_exec Cfg.small (finishOn 1)
    (fun s => writesSignal (s.threads 1) && decide ((s.threads 1).signaler = some .VirtualAlarm) &&
      decide ((s.threads 1).mask = {.Alarm})) (by decide +kernel)
  simp only [Bool.and_eq_true, decide_eq_true_eq] at hp
  obtain ⟨⟨hw, hsig⟩, hm⟩ := hp
  refine ⟨s, hr, hw, hsig, hm, fun h => ?_⟩
  obtain ⟨o, ho, hin⟩ := h.writes 1 hw
  rw [hsig] at ho
  cases ho
  rw [hm] at hin
  exact absurd hin (by decide)

end Inger.L3
