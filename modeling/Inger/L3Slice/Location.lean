import Inger.L3Slice.Rest

/-!
# The borrow of ERRNO_LOCATION

`errno_group` keeps ERRNO_LOCATION borrowed while it calls `__errno_location`.
In `schedule` preemption is still off, but the hook runs with it on, so a function
can be paused there; its TCB then has the flag set. A function that is resumed
ends the borrow. One that is dropped or cancelled does not: its TCB goes back to
LOCALSTORES as it is, and the `errno_group` of the next function that gets it
panics.

`Released` are the runs in which no such function is dropped. In them a TCB whose
function has not started has the flag clear (`Unheld`), so that the `borrow_mut`
of `errno_group` never fails; this completes what `Rest` says of the other
thread-locals (`slice_returns_to_rest`). `recycled_borrowed` is a run outside
them.
-/
namespace Inger.L2

variable {V E : Type}

/-- The function is paused inside `errno_group`. -/
def Continuation.borrowing (c : Continuation V E) : Bool :=
  match c.stateful.checkpoint with
  | some ⟨_, _, .paused b _⟩ => b.pos.borrowing
  | _ => false

/-- The function of the `Linger` is paused inside `errno_group`. -/
def Sys.borrowing (s : Sys V E) (k : Lid) : Bool :=
  match s.lingers[k]? with
  | some ⟨.continuation c, _⟩ => c.borrowing
  | _ => false

namespace Thread

variable {w : World} {now : UInt64} {th th' : Thread V E}

/-- What a step of a handler makes of the place of the code below it. -/
structure Place (th : Thread V E) (f : Frame) (th' : Thread V E) : Prop where
  location : th'.vars.errnoLocation = th.vars.errnoLocation
  errno : th'.vars.task.errno = none → th.vars.task.errno = none
  base : th'.base = th.base ∨ th'.base = .gone ∨ (∃ why ≠ .errnoBorrowed, th'.base = .stuck why) ∨
    (th'.base = .main .leave ∧ f.pc = .ret ∧ f.target = .callsite)

theorem handlerStep_place (f : Frame) (rest : List Frame) :
    Place th f (th.handlerStep w now f rest) := by
  have same {th' : Thread V E} (hl : th'.vars.errnoLocation = th.vars.errnoLocation)
      (he : th'.vars.task.errno = none → th.vars.task.errno = none) (hb : th'.base = th.base) :
      Place th f th' := ⟨hl, he, .inl hb⟩
  have fails (why : Stuck) (h : why ≠ .errnoBorrowed) : Place th f (th.fail why) :=
    ⟨rfl, id, .inr (.inr (.inl ⟨why, h, rfl⟩))⟩
  unfold handlerStep
  cases hpc : f.pc with
  | test e r => cases r <;> cases th.group.preemptible <;> exact same rfl id rfl
  | clock e d => dsimp only; split <;> exact same rfl id rfl
  | yielded e d =>
    dsimp only
    split
    · exact fails .borrowed (by simp)
    · exact same rfl id rfl
  | swap e =>
    simp only [swap]
    split
    · exact ⟨rfl, id, .inr (.inl rfl)⟩
    · exact fails .wild (by simp)
  | errno e => exact same rfl (fun h => by cases h) rfl
  | deferMask e =>
    dsimp only
    split
    · exact fails .deferring (by simp)
    · exact same rfl id rfl
  | disable pc => cases pc <;> exact same rfl id rfl
  | ret =>
    simp only [sigreturn]
    split
    · exact same rfl id rfl
    · rename_i ht
      exact ⟨rfl, id, .inr (.inr (.inr ⟨rfl, hpc, ht⟩))⟩
  | _ => exact same rfl id rfl

/-- Only the first step of `errno_group` comes before the borrow. -/
theorem enableStep_next {e e' : Enable} (h : (th.enableStep w e).2 = .next e') :
    e'.pc ≠ .errno := by
  unfold enableStep at h
  cases hpc : e.pc <;> simp only [hpc] at h
  case errno =>
    split at h
    · cases h
    · split at h <;> cases h; simp
  case swap => cases h; dsimp only; split <;> simp
  all_goals split at h <;> cases h <;> simp

theorem enablePos_located {b b' : Body} {e : Enable} (h : (th.enablePos w b e).base = .body b') :
    b'.pos.located = true := by
  unfold enablePos at h
  split at h
  · rename_i e' heq
    cases h
    have := enableStep_next (congrArg Prod.snd heq)
    simp [Pos.located, this]
  · split at h
    · split at h
      · cases h
      · cases h; rfl
    · cases h; rfl
  · split at h <;> cases h
    rfl
  · cases h

/-- Until the first `enable_preemption` has set it, ERRNO_LOCATION is kept. -/
theorem bodyStep_location {c : Call V E} {b b' : Body} (hs : th.bodyStep w now c b = some th')
    (hb' : th'.base = .body b') :
    b'.pos.located = true ∨
      b.pos.located = false ∧ th'.vars.errnoLocation = th.vars.errnoLocation := by
  unfold bodyStep at hs
  cases hpos : b.pos <;> simp only [hpos, Option.some.injEq, reduceCtorEq] at hs
  case stamp => split at hs <;> cases hs <;> cases hb'; exact .inr ⟨rfl, rfl⟩
  case enable e => subst hs; exact .inl (enablePos_located hb')
  case call =>
    subst hs
    unfold callPos at hb'
    split at hb'
    · split at hb' <;> cases hb' <;> exact .inl rfl
    · cases hb'
  case deferMask back =>
    split at hs
    · cases hs; cases hb'
    · split at hs <;> cases hs <;> cases hb'
      exact .inl rfl
  case disable pc => subst hs; cases hb'; cases pc <;> exact .inl rfl
  case check => split at hs <;> cases hs <;> cases hb'; exact .inl rfl
  case ret => subst hs; cases hb'
  all_goals subst hs; cases hb'; exact .inl rfl

end Thread
end Inger.L2

namespace Inger.L3

open L1.Reusable L1.Signals L2

variable {V E : Type}

/-- No function is dropped while it is paused inside `errno_group`. -/
def Released (s : Sys V E) : Label V E → Prop
  | .drop _ k _ => s.borrowing k = false
  | .cancel _ k _ => s.borrowing k = false
  | _ => True

instance (s : Sys V E) : (l : Label V E) → Decidable (Released s l)
  | .drop _ k _ => inferInstanceAs (Decidable (s.borrowing k = false))
  | .cancel _ k _ => inferInstanceAs (Decidable (s.borrowing k = false))
  | .launch _ _ _ => isTrue trivial
  | .resume _ _ _ _ => isTrue trivial
  | .main _ _ => isTrue trivial
  | .act _ _ => isTrue trivial
  | .erase _ _ => isTrue trivial
  | .exit _ => isTrue trivial

/-! ## One thread -/

/-- Until a function has set ERRNO_LOCATION, and once it has finished, the cell
is not borrowed; and `errno_group` has not found it so. -/
def Unborrowed (th : Thread V E) : Prop :=
  match th.base, th.call with
  | .main .leave, _ => th.vars.task.errno = none → th.vars.errnoLocation.borrowed = false
  | .main _, some c => c.task.errno = none → th.vars.errnoLocation.borrowed = false
  | .boot, _ => th.vars.errnoLocation.borrowed = false
  | .body b, _ => b.pos.located = false → th.vars.errnoLocation.borrowed = false
  | .stuck why, _ => why ≠ .errnoBorrowed
  | _, _ => True

section
variable {w : World} {now : UInt64} {ok tidy : Prop} {t : Tid} {th th' : Thread V E} {c : Call V E}
  {b : Body}

theorem Unborrowed.congr (h : Unborrowed th) (hl : th'.vars.errnoLocation = th.vars.errnoLocation)
    (he : th'.vars.task.errno = none → th.vars.task.errno = none) (hb : th'.base = th.base)
    (hc : th'.call = th.call) : Unborrowed th' := by
  unfold Unborrowed at h ⊢
  rw [hb, hc, hl]
  split at h
  · exact fun hn => h (he hn)
  all_goals exact h

theorem unborrowed_fail (th : Thread V E) {why : Stuck} (h : why ≠ .errnoBorrowed) :
    Unborrowed (th.fail why) := h

theorem unborrowed_located (hb : th.base = .body b) (hl : b.pos.located = true) :
    Unborrowed th := by
  simp [Unborrowed, hb, hl]

/-- A handler returns to the call site only from a function it has paused. -/
theorem Unborrowed.handler {f : Frame} {rest : List Frame} (h : Unborrowed th)
    (hcore : Core ok tidy t th) (ha : th.base.alive = true) (hh : th.handlers = f :: rest) :
    Unborrowed (th.handlerStep w now f rest) := by
  have hp : Thread.Place th f (th.handlerStep w now f rest) := Thread.handlerStep_place f rest
  have hcall : (th.handlerStep w now f rest).call = th.call := Thread.handlerStep_call
  rcases hp.base with hb | hb | ⟨why, hw, hb⟩ | ⟨hb, hpc, ht⟩
  · exact h.congr hp.location hp.errno hb hcall
  · simp [Unborrowed, hb]
  · simp only [Unborrowed, hb]; exact hw
  · simp only [Unborrowed, hb]
    intro he
    have hf : f ∈ th.handlers := by simp [hh]
    have own (hi : f.target = .interrupted) : False := by rw [ht] at hi; cases hi
    have calm (hbase : th.base = .caller ∨ (∃ pc, th.base = .main pc) ∨ th.base = .boot) : False :=
      own ((hcore.calm hbase).1.frames f hf).target
    exfalso
    cases hbase : th.base with
    | caller => exact calm (.inl hbase)
    | main pc => exact calm (.inr (.inl ⟨pc, hbase⟩))
    | boot => exact calm (.inr (.inr hbase))
    | body b =>
      obtain ⟨c, -, -, hin⟩ := hcore.body hbase
      exact own (hin.frames f hf).target
    | gone =>
      obtain ⟨c, upper, bottom, -, -, hg⟩ := hcore.gone hbase
      rw [hg.handlers] at hh
      cases upper with
      | nil =>
        obtain ⟨rfl, -⟩ : bottom = f ∧ [] = rest := by simpa using hh
        have hsome := hg.errno (by rw [hpc]; simp)
        rw [hp.errno he] at hsome
        cases hsome
      | cons f' upper =>
        obtain ⟨rfl, -⟩ : f' = f ∧ upper ++ [bottom] = rest := by simpa using hh
        exact own (hg.frames f' List.mem_cons_self).target
    | exited => rw [hbase] at ha; cases ha
    | stuck why => rw [hbase] at ha; cases ha

theorem Unborrowed.body (h : Unborrowed th) (hin : InBody t th c b) (hw : w.notls = false)
    (hsig : w.sig t = th.signaler) (hb : th.base = .body b) (hh : th.handlers = [])
    (hs : th.bodyStep w now c b = some th') : Unborrowed th' := by
  have hflag : b.pos.located = false → th.vars.errnoLocation.borrowed = false := by
    simpa [Unborrowed, hb] using h
  unfold Thread.bodyStep at hs
  cases hpos : b.pos <;> simp only [hpos, Option.some.injEq, reduceCtorEq] at hs
  case stamp =>
    split at hs <;> cases hs
    · exact unborrowed_fail th (by simp)
    · exact fun _ => hflag (by rw [hpos]; rfl)
  case enable e =>
    subst hs
    rcases hin.enable hw hsig hh hpos with ⟨b', hb', -, -⟩ | ⟨hl, hbor, -⟩
    · exact unborrowed_located hb' (Thread.enablePos_located hb')
    · rw [hflag hl] at hbor; cases hbor
  case call =>
    subst hs
    unfold Thread.callPos
    split
    · split
      · exact unborrowed_located rfl rfl
      · exact unborrowed_fail th (by simp)
      · exact unborrowed_located rfl rfl
    · exact unborrowed_fail th (by simp)
  case pause back => subst hs; exact unborrowed_located rfl rfl
  case deferMask back =>
    split at hs
    · cases hs; exact unborrowed_fail th (by simp)
    · split at hs <;> cases hs
      · exact unborrowed_located rfl rfl
      · exact unborrowed_fail th (by simp)
  case deferFlag back => subst hs; exact unborrowed_located rfl rfl
  case disable pc => subst hs; cases pc <;> exact unborrowed_located rfl rfl
  case check =>
    split at hs <;> cases hs
    · exact unborrowed_fail th (by simp)
    · exact unborrowed_located rfl rfl
  case ret =>
    subst hs
    intro _
    have hloc := hin.body.located (by rw [hpos]; rfl)
    rw [hpos] at hloc
    simp [Thread.setCall, hloc, Pos.borrowing]

theorem unborrowed_fn {a : FnAct V E} (hs : th.fnStep c b a = some th') (hb : th.base = .body b) :
    Unborrowed th' := by
  unfold Thread.fnStep at hs
  split at hs <;> cases hs
  case h_1 hpos => exact unborrowed_located hb (by rw [hpos]; rfl)
  case h_5 hpos => exact unborrowed_located hb (by rw [hpos]; rfl)
  all_goals exact unborrowed_located rfl rfl

theorem Unborrowed.act {a : Act V E} (h : Unborrowed th) (hcore : Core ok tidy t th)
    (hw : w.notls = false) (hsig : w.sig t = th.signaler) (hs : th.step w a = some th') :
    Unborrowed th' := by
  cases Thread.step_acts hs with
  | delivers no => exact h.congr rfl id rfl rfl
  | handles now f rest hr hh => exact h.handler hcore (Thread.alive_of_ready hr) hh
  | boots now c _ hh hb hc =>
    unfold Thread.bootStep
    split
    · exact unborrowed_fail th (by simp)
    · have hflag : th.vars.errnoLocation.borrowed = false := by simpa [Unborrowed, hb] using h
      exact fun _ => hflag
  | runs now b c th' _ hh hb hc hs =>
    simp only [Core, hb, hc] at hcore
    exact h.body hcore.2 hw hsig hb hh hs
  | fn a b c th' _ hh hb hc hs => exact unborrowed_fn hs hb

end

/-! ## The process -/

/-- A continuation whose function has not started. -/
def CellUnborrowed (l : Linger V E) : Prop :=
  match l.cell with
  | .continuation c =>
    c.stateful.errno = none → ∀ v, c.tls = some v → v.errnoLocation.borrowed = false
  | _ => True

/-- No TCB that a function may start with has ERRNO_LOCATION borrowed. -/
structure Unheld (s : Sys V E) : Prop where
  threads : ∀ t, Unborrowed (s.threads t)
  lingers : ∀ (k : Lid) (l : Linger V E), s.lingers[k]? = some l → CellUnborrowed l
  free : ∀ v, some v ∈ s.localstores.free → v.errnoLocation.borrowed = false

section
variable {cfg : Cfg V} {ok tidy : Prop} {s s' : Sys V E} {t : Tid} {k : Lid} {c : Call V E}
  {env : Env}

theorem Unheld.of_eq (h : Unheld s) (ht : s'.threads = s.threads) (hl : s'.lingers = s.lingers)
    (hf : s'.localstores = s.localstores) : Unheld s' :=
  ⟨by rw [ht]; exact h.threads, by rw [hl]; exact h.lingers, by rw [hf]; exact h.free⟩

theorem Unheld.setThread {th : Thread V E} (h : Unheld s) (hth : Unborrowed th) :
    Unheld (s.setThread t th) where
  threads u := by
    simp only [Sys.setThread, Function.update_apply]
    split
    · exact hth
    · exact h.threads u
  lingers := h.lingers
  free := h.free

theorem Unheld.setLinger {l : Linger V E} (h : Unheld s) (hl : CellUnborrowed l) :
    Unheld (s.setLinger k l) :=
  ⟨h.threads, forall_setLinger (P := fun _ l => CellUnborrowed l) h.lingers hl, h.free⟩

theorem Unheld.freeStack (h : Unheld s) (st : Option Sid) : Unheld (s.freeStack st) := by
  cases st <;> exact h.of_eq rfl rfl rfl

theorem Unheld.dropContinuation {cont : Continuation V E} (h : Unheld s)
    (hc : ∀ v, cont.tls = some v → v.errnoLocation.borrowed = false) (renew : Bool) :
    Unheld (s.dropContinuation cont renew) where
  threads := by rw [threads_dropContinuation]; exact h.threads
  lingers := by
    have : (s.dropContinuation cont renew).lingers = s.lingers := lingers_freeStack _
    rw [this]; exact h.lingers
  free v hv := by
    rcases List.mem_cons.mp hv with hv | hv
    · exact hc v hv.symm
    · exact h.free v hv

/-- What a failed `resume` leaves has no TCB. -/
theorem Unheld.abandon {cont : Continuation V E} {trace : List (Event V E)} (h : Unheld s)
    (hc : cont.tls = none) (launching renew : Bool) :
    Unheld (s.abandon k cont trace launching renew) := by
  have hnone (v : Vars) (hv : cont.tls = some v) : v.errnoLocation.borrowed = false := by
    rw [hc] at hv; cases hv
  unfold Sys.abandon
  split
  · exact (h.dropContinuation hnone renew).setLinger trivial
  · exact h.setLinger fun _ => hnone

theorem Unheld.failResume {th : Thread V E} {ret : Ret E} (hn : cfg.notls = false) (h : Unheld s) :
    Unheld (Sys.failResume cfg s t th c env ret) := by
  simp only [Sys.failResume, hn, Bool.false_eq_true, if_false]
  exact ((h.freeStack _).abandon rfl _ _).setThread trivial

theorem Unheld.begin {cont : Continuation V E} {trace : List (Event V E)} {us : UInt64}
    {launching : Bool} (h : Unheld s) (hi : Sys.idle (s.threads t) = true)
    (hc : CellUnborrowed (⟨.continuation cont, trace⟩ : Linger V E))
    (hb : Begin s t k cont trace us launching env s') : Unheld s' := by
  have hbase : (s.threads t).base = .caller := by
    simp only [Sys.idle, Bool.and_eq_true, decide_eq_true_eq] at hi
    exact hi.1.2
  have hret (r : Option (Ret E)) : Unborrowed { s.threads t with ret := r } := by
    simp [Unborrowed, hbase]
  cases hb with
  | missing tls => exact (h.abandon tls _ _).setThread (hret _)
  | enters tcb tls installs =>
    exact (h.setLinger (l := ⟨.resuming t cont.group, trace⟩) trivial).setThread fun he =>
      hc he tcb tls
  | fails tcb tls installs => exact ((h.freeStack _).abandon rfl _ _).setThread (hret _)

theorem Unheld.switchStep {th : Thread V E} (hn : cfg.notls = false) (h : Unheld s)
    (hflag : c.task.errno = none → th.vars.errnoLocation.borrowed = false)
    (hsw : Switching t th c) :
    Unheld (Sys.switchStep cfg s t th c env) := by
  have hck : th.vars.task.checkpoint = none := by rw [hsw.task]; rfl
  unfold Sys.switchStep
  rcases hsw.target with ⟨st, m, y, htask, -⟩ | ⟨e, st, m, b, hs, y, htask, -, hp⟩
  · simp only [htask]
    split
    · simp only [hck, Option.isSome_none, Bool.and_false, Bool.false_eq_true, if_false,
        Sys.getOrInsert]
      split
      · exact h.setThread (hflag (by rw [htask]))
      · exact h.failResume hn
      · exact h.failResume hn
    · exact (h.freeStack _).failResume hn
  · simp only [htask]
    split
    · simp only [hck, Option.isSome_none, Bool.and_false, Bool.false_eq_true, if_false,
        Sys.getOrInsert]
      split
      · exact h.setThread (unborrowed_fail _ (by simp))
      · split
        · exact h.failResume hn
        · split
          · exact h.setThread (unborrowed_located rfl (Pos.located_of_preemptible hp.pre))
          · exact h.failResume hn
          · exact h.failResume hn
    · exact (h.freeStack _).failResume hn

theorem Unheld.mainStep (hn : cfg.notls = false) (hg : Good ok tidy s) (h : Unheld s)
    (hs : Sys.mainStep cfg s t env = some s') : Unheld s' := by
  have hcore := hg.threads t
  have hth := h.threads t
  simp only [Sys.mainStep] at hs
  split at hs <;> cases hs
  all_goals
    rename_i c _ _ hb hcall
    simp only [Core, hb, hcall] at hcore
    simp only [Unborrowed, hb, hcall] at hth
  · unfold Sys.setupStep
    split
    · exact h.setThread (by simpa [Unborrowed, hcall] using hth)
    · split
      · exact Unheld.failResume hn (h.of_eq rfl rfl rfl)
      · split
        · exact Unheld.setThread (h.of_eq rfl rfl rfl) (by simpa [Unborrowed, hcall] using hth)
        · exact Unheld.setThread (h.of_eq rfl rfl rfl) (unborrowed_fail _ (by simp))
  · exact h.setThread (by simpa [Unborrowed, hcall] using hth)
  · unfold Sys.stackStep
    split
    · exact h.setThread (by simpa [Unborrowed, hcall] using hth)
    · dsimp only
      split
      · have h' : Unheld { s with stackPool := (alloc id s.stackPool).2 } := h.of_eq rfl rfl rfl
        split
        · exact (h'.freeStack _).setThread (unborrowed_fail _ (by simp))
        · exact (h'.freeStack _).setThread fun he => hth he
      · exact Unheld.failResume hn (h.of_eq rfl rfl rfl)
  · exact h.switchStep hn hth hcore.2.2.2.2
  · generalize hleft : Sys.leaveStep cfg s t (s.threads t) c env = s₁
    cases leaveStep_left hn hg hcall hb hleft.symm with
    | fails => exact h.failResume hn
    | paused =>
      refine (h.setLinger ?_).setThread trivial
      intro he
      cases he
    | settled ctx y r _ task =>
      refine (((h.freeStack _).dropContinuation ?_ _).setLinger ?_).setThread trivial
      · rintro v ⟨⟩
        exact hth (by rw [task])
      · unfold settledCell; split
        · trivial
        · split <;> trivial

theorem Unheld.launched (h : Unheld s) (group : Gid) (p : Pool Gid) :
    Unheld (s.launched group p) := by
  refine ⟨h.threads, forall_append (P := fun _ l => CellUnborrowed l) h.lingers fun _ v hv => ?_,
    fun v hv => h.free v (alloc_free _ _ _ hv)⟩
  rcases alloc_fst (fun _ => some Vars.fresh) s.localstores with hx | hx
  · exact h.free v (hv ▸ hx)
  · cases hx.symm.trans hv
    rfl

/-- A paused function's TCB has the flag set only inside `errno_group`. -/
theorem CellOk.unborrowed {cont : Continuation V E} {trace : List (Event V E)} {v : Vars}
    (hc : CellOk ok tidy k ⟨.continuation cont, trace⟩)
    (hf : CellUnborrowed (⟨.continuation cont, trace⟩ : Linger V E)) (hr : cont.borrowing = false)
    (hv : cont.tls = some v) : v.errnoLocation.borrowed = false := by
  obtain ⟨-, htask, -⟩ := hc.2.2 v hv
  cases he : cont.stateful.errno with
  | none => exact hf he v hv
  | some e =>
    generalize hst : cont.stateful = task at htask
    cases htask with
    | fresh => rw [hst] at he; cases he
    | paused e st m b hs y hp =>
      rw [Continuation.borrowing, hst] at hr
      rw [hp.body.located (Pos.located_of_preemptible hp.pre)]
      exact hr

/-- **Every step** that drops no function inside `errno_group`. -/
theorem unheld_step {l : Label V E} (hn : cfg.notls = false) (hg : Good ok tidy s) (h : Unheld s)
    (hr : Released s l) (hs : Sys.step cfg s l = some s') : Unheld s' := by
  have hidle {t : Tid} (hi : Sys.idle (s.threads t) = true) (r : Option (Ret E)) :
      Unborrowed { s.threads t with ret := r } := by
    simp only [Sys.idle, Bool.and_eq_true, decide_eq_true_eq] at hi
    simp [Unborrowed, hi.1.2]
  cases step_change hn hs with
  | returns _ t k idle => exact h.setThread (hidle idle _)
  | caught _ t => exact h.setThread (unborrowed_fail _ (by simp))
  | full t us env p idle => exact Unheld.setThread (h.of_eq rfl rfl rfl) (hidle idle _)
  | sets t env group p idle => exact (h.launched group p).setThread (hidle idle _)
  | launches t us env group p _ idle _ _ _ begin =>
    have h' := h.launched group p
    exact h'.begin idle (h'.lingers _ _ List.getElem?_concat_length) begin
  | resumes t k us env c trace _ idle _ cell begin => exact h.begin idle (h.lingers k _ cell) begin
  | advances => exact h.mainStep hn hg hs
  | leaves => exact h.mainStep hn hg hs
  | acts t a th step =>
    have h' : Unheld (s.setThread t th) :=
      h.setThread ((h.threads t).act (hg.threads t) hn rfl step)
    exact h'.of_eq rfl rfl rfl
  | drops _ t k c trace renew new idle cell label =>
    have hb : c.borrowing = false := by
      have : s.borrowing k = false := by rcases label with ⟨_, rfl, _⟩ | ⟨_, rfl, _⟩ <;> exact hr
      simpa only [Sys.borrowing, cell] using this
    have hdrop := h.dropContinuation
      (fun v hv => (hg.lingers k _ cell).unborrowed (h.lingers k _ cell) hb hv) renew
    refine (hdrop.setLinger ?_).setThread (hidle idle _)
    rcases label with ⟨_, _, _, rfl⟩ | ⟨_, _, _, rfl⟩ <;> trivial
  | forgets t k env l idle cell =>
    exact (h.setLinger (l := ⟨.dropped, l.trace⟩) trivial).setThread (hidle idle _)
  | stays => exact h
  | exits t p idle =>
    have h' : Unheld (s.setThread t { s.threads t with signaler := none, base := .exited }) :=
      h.setThread trivial
    exact h'.of_eq rfl rfl rfl

theorem unheld_init (cfg : Cfg V) (masks : Tid → Sigset) :
    Unheld (Sys.initial cfg masks : Sys V E) where
  threads _ := trivial
  lingers k l hl := by simp [Sys.initial] at hl
  free v hv := by
    rcases mem_prealloc hv with hv | ⟨i, hv⟩
    · cases hv
    · cases hv
      rfl

theorem unheld_reachable (hn : cfg.notls = false) (hr : ((process cfg).only Released).Reachable s) :
    Good False False s ∧ Linked s ∧ Unheld s := by
  refine LTS.Inductive.reachable (I := fun s => Good False False s ∧ Linked s ∧ Unheld s)
    ⟨?_, ?_⟩ s hr
  · rintro s ⟨masks, rfl⟩
    exact ⟨good_init False.elim cfg masks, linked_init cfg masks, unheld_init cfg masks⟩
  · rintro s l s' ⟨hg, hl, h⟩ ⟨hs, hrel⟩
    exact ⟨good_step hn hg False.elim False.elim hs, linked_step hn hg hl hs,
      unheld_step hn hg h hrel hs⟩

end

/-! ## Clean rest -/

/-- Equal to a fresh block, but for DEADLINE, the value of ERRNO_LOCATION and the
C library's errno cells. -/
def AsFresh (v : Vars) : Prop :=
  v = { Vars.fresh with
    deadline := v.deadline, errnoLocation := ⟨v.errnoLocation.value, false⟩, errno := v.errno }

theorem Rest.asFresh {v : Vars} (h : Rest v) (hb : v.errnoLocation.borrowed = false) :
    AsFresh v := by
  obtain ⟨boot, task, deadline, signal, deferred, ⟨value, borrowed⟩, errno⟩ := v
  obtain ⟨rfl, rfl, rfl, rfl⟩ := h
  obtain rfl : borrowed = false := hb
  rfl

/-- A call of `resume` that returns at once: its `Linger` is not a continuation. -/
theorem returned_resumeStep {cfg : Cfg V} {s s' : Sys V E} {t : Tid} {k : Lid} {us : UInt64}
    {env : Env} (hn : cfg.notls = false) (hs : Sys.resumeStep cfg s t k us env = some s')
    (hr : Returned s' t) :
    Sys.idle (s.threads t) = true ∧ s' = s.setThread t { s.threads t with ret := some .ok } ∧
      (cfg.debugAssertions = true → (s.threads t).group.preemptible = false) := by
  simp only [Sys.resumeStep] at hs
  split at hs
  · cases hs
  · rename_i hi
    have hi : Sys.idle (s.threads t) = true := by simpa using hi
    split at hs
    · cases hs
      have := hr.base
      simp [Thread.fail] at this
    · rename_i hp
      have hp : cfg.debugAssertions = true → (s.threads t).group.preemptible = false := by
        simpa using hp
      split at hs <;> cases hs
      · -- Entering `resume` is not a return.
        rename_i c trace _
        exfalso
        generalize he : Sys.beginResume cfg s t k c trace us false env = s₁ at hr
        cases he ▸ beginResume_begin hn with
        | missing => have := hr.ret; simp at this
        | enters => have := hr.base; simp at this
        | fails => have := hr.ret; simp at this
      · exact ⟨hi, rfl, hp⟩
      · exact ⟨hi, rfl, hp⟩

/-- **Clean rest.** In every run without the `notls` feature that drops no
function inside `errno_group`, with signals arriving anywhere and any system call
failing: when `resume` returns `Ok` or re-raises, the thread's own signal is
blocked and the TCB just uninstalled is at rest; the group is `SHARED`, except
that in a release build a call on a `Linger` that is not a continuation leaves it
as it was. Every TCB on the free list, and that of every function that has not
started, is therefore as fresh, and what it may still differ in is written before
it is read: DEADLINE before the jump, ERRNO_LOCATION before the hook reads it, and
`errno_group` never finds it borrowed. -/
theorem slice_returns_to_rest (cfg : Cfg V) (hn : cfg.notls = false) (s : Sys V E)
    (hr : ((process cfg).only Released).Reachable s) :
    (∀ t l s', (process cfg).step s l s' →
      ((∃ k us env, l = .resume t k us env) ∨ ∃ env, l = .main t env) → Returned s' t →
      (((∃ k us env, l = .resume t k us env) →
          cfg.debugAssertions = true ∨ (s.threads t).group = .SHARED) →
        (s'.threads t).group = .SHARED) ∧
      (∀ o, (s'.threads t).signaler = some o → o ∈ (s'.threads t).mask) ∧
      ∀ c, (s.threads t).call = some c →
        (s'.threads t).signaler.isSome = true ∧ ∃ v, Uninstalled s s' c v ∧ Rest v) ∧
    (∀ v, some v ∈ s.localstores.free → AsFresh v) ∧
    (∀ (k : Lid) (c : Continuation V E) tr v, s.lingers[k]? = some ⟨.continuation c, tr⟩ →
      c.tls = some v → Rest v ∧ (c.stateful.errno = none → AsFresh v)) ∧
    (∀ t c, (s.threads t).base = .main .switch → (s.threads t).call = some c →
      (s.threads t).vars.deadline = c.us) ∧
    (∀ t b e, (s.threads t).base = .body b → b.pos = .enable e →
      (e.group = none → (s.threads t).vars.errnoLocation.value = some b.group) ∧
      (e.pc = .errno → (s.threads t).vars.errnoLocation.borrowed = false)) ∧
    ∀ t, (s.threads t).base ≠ .stuck .errnoBorrowed := by
  obtain ⟨hg, hl, hu⟩ := unheld_reachable hn hr
  refine ⟨?_, ?_, ?_, ?_, ?_, ?_⟩
  · rintro t l s' hs (⟨k, us, env, rfl⟩ | ⟨env, rfl⟩) hret
    · obtain ⟨hi, rfl, hp⟩ := returned_resumeStep hn hs hret
      obtain ⟨-, -, hnone, hcalm, -⟩ := (hg.threads t).idle hi
      simp only [threads_setThread_self]
      refine ⟨fun hcond => ?_, hcalm.mask, by simp [hnone]⟩
      rcases hcond ⟨k, us, env, rfl⟩ with hd | hd
      · cases hgr : (s.threads t).group with
        | SHARED => rfl
        | of g => rw [hgr] at hp; cases hp hd
      · exact hd
    · obtain ⟨c, hcall, hbase, he, herr⟩ := returned_mainStep hs hret
      obtain ⟨h1, h2, h3, h4⟩ := leaveStep_rests hn hg hl hcall hbase herr he
      refine ⟨fun _ => h1, h3, fun c' hc' => ?_⟩
      cases hcall.symm.trans hc'
      exact ⟨h2, h4⟩
  · exact fun v hv => ((hg.free _ hv).2 v rfl).asFresh (hu.free v hv)
  · intro k c tr v hk hv
    have hrest := (hg.lingers k _ hk).slot.2 v hv
    exact ⟨hrest, fun he => hrest.asFresh (hu.lingers k _ hk he v hv)⟩
  · intro t c hb hc
    have := hg.threads t
    simp only [Core, hb, hc] at this
    exact this.2.2.2.2.deadline
  · intro t b e hb hpos
    obtain ⟨c, -, -, h⟩ := (hg.threads t).body hb
    have hloc (hl : b.pos.located = true) := h.body.located hl
    refine ⟨fun he => ?_, fun he => ?_⟩
    · rw [hloc (by simp [hpos, Pos.located, he]), h.body.group]
    · cases hp : b.pos.located with
      | true => rw [hloc hp, hpos]; simp [Pos.borrowing, he]
      | false =>
        have := hu.threads t
        simp only [Unborrowed, hb] at this
        exact this hp
  · intro t hb
    have := hu.threads t
    simp only [Unborrowed, hb] at this
    exact this rfl

theorem slice_returns_to_rest_oneSlice :
    ∃ (s s' : Sys Bool Bool) (c : Call Bool Bool), ((process Cfg.small).only Released).Reachable s ∧
      (s.threads 0).call = some c ∧ Returned s' 0 ∧ (s'.threads 0).group = .SHARED ∧
      ∃ v, Uninstalled s s' c v ∧ Rest v := by
  obtain ⟨s, hr, hp⟩ := process_only_of_exec Cfg.small Released oneSlice
    (fun s => (s.threads 0).call.isSome &&
      (Sys.step Cfg.small s (.main 0 (.fine 0))).any fun s' : Sys Bool Bool =>
      decide ((s'.threads 0).base = Base.caller) && decide ((s'.threads 0).ret = some Ret.ok))
    (by decide)
  simp only [Bool.and_eq_true, Option.any_eq_true, decide_eq_true_eq] at hp
  obtain ⟨hcall, s', hs, hbase, hret⟩ := hp
  obtain ⟨c, hc⟩ := Option.isSome_iff_exists.mp hcall
  have hret : Returned s' 0 := ⟨hbase, .inl hret⟩
  obtain ⟨hg, -, hv⟩ := (slice_returns_to_rest Cfg.small rfl s hr).1 0 _ s' hs (.inr ⟨_, rfl⟩) hret
  exact ⟨s, s', c, hr, hc, hret, hg (by simp), (hv c hc).2⟩

/-- Thread `0` launches a function, which makes a library call and is paused in
the hook, inside `errno_group`. -/
def pausedInHook : List (Label Bool Bool) :=
  launchOn 0 ++ [.act 0 (.fn .call), .act 0 (.fn .exit), .act 0 (.run 0)] ++
    preempted 0 .Alarm 10000

/-- Thread `0` launches a function, which gets as far as `errno_group`. -/
def launchedToErrno : List (Label Bool Bool) :=
  .launch 0 5 (.fine 0) :: List.replicate 4 (.main 0 (.fine 0)) ++
    List.replicate 3 (.act 0 (.run 0))

/-- The first function ends; `sigsetcontext` fails when a second one, paused, is
resumed. -/
def failsToSwitch : List (Label Bool Bool) :=
  oneSlice ++ .main 0 (.fine 0) :: launchOn 0 ++ preempted 0 .Alarm 10000 ++
    .resume 0 1 5 (.fine 0) :: List.replicate 3 (.main 0 (.fine 0)) ++
    [.main 0 { Env.fine 0 with sigsetcontext := .fails }]

/-- Two ways not to return to rest. With no system call failing, a function is
cancelled inside `errno_group`; its TCB goes back to the free list with
ERRNO_LOCATION borrowed, and the next function that gets it panics before it has
run. In a release build, after a failed `sigsetcontext`, a `resume` of a function
that has completed returns `Ok` with another group than `SHARED`. -/
theorem recycled_borrowed :
    (∃ s : Sys Bool Bool, ((process Cfg.small).only (Fine Cfg.small)).Reachable s ∧
      ∃ v, some v ∈ s.localstores.free ∧ Rest v ∧ ¬AsFresh v) ∧
    (∃ s : Sys Bool Bool, ((process Cfg.small).only (Fine Cfg.small)).Reachable s ∧
      (s.threads 0).base = .stuck .errnoBorrowed) ∧
    ∃ s s' : Sys Bool Bool, (process Cfg.small).Reachable s ∧
      (process Cfg.small).step s (.resume 0 0 5 (.fine 0)) s' ∧ Returned s' 0 ∧
      (s'.threads 0).group ≠ .SHARED := by
  refine ⟨?_, ?_, ?_⟩
  · obtain ⟨s, hr, hp⟩ := process_only_of_exec Cfg.small (Fine Cfg.small)
      (pausedInHook ++ [.cancel 0 0 (.fine 0)])
        (fun s => s.localstores.free.any fun x => x.any (·.errnoLocation.borrowed)) (by decide)
    simp only [List.any_eq_true, Option.any_eq_true] at hp
    obtain ⟨_, hmem, v, rfl, hb⟩ := hp
    refine ⟨s, hr, v, hmem, ((good_fine rfl hr).free _ hmem).2 v rfl, fun h => ?_⟩
    rw [h] at hb
    cases hb
  · obtain ⟨s, hr, hp⟩ := process_only_of_exec Cfg.small (Fine Cfg.small)
      (pausedInHook ++ .cancel 0 0 (.fine 0) :: launchedToErrno)
      (fun s => decide ((s.threads 0).base = .stuck .errnoBorrowed)) (by decide)
    exact ⟨s, hr, by simpa using hp⟩
  · obtain ⟨s, s', hr, hs, hp⟩ := process_step_of_exec Cfg.small failsToSwitch
      (.resume 0 0 5 (.fine 0)) (fun _ s' => decide ((s'.threads 0).base = .caller) &&
        decide ((s'.threads 0).ret = some .ok) &&
        decide ((s'.threads 0).group = .of 0)) (by decide)
    simp only [Bool.and_eq_true, decide_eq_true_eq] at hp
    exact ⟨s, s', hr, hs, ⟨hp.1.1, .inl hp.1.2⟩, by rw [hp.2]; simp⟩

end Inger.L3
