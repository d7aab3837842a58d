import Inger.L3Slice.Pause
import Inger.L3Slice.Progress

/-!
# What the caller of `resume` sees of `pause`

`Pause` follows a request through the steps of one thread. Here it is followed
through whole runs, from slice to slice and thread to thread (`Heard`), and
`Progress` shows that the thread does get back to its caller
(`returns_of_asked`).

`pause_yields_once` puts this together. Each call of `pause` is answered by one
return of `resume` with `yielded`, before the function takes another step of its
own, and no other return has the flag. A return without it may follow before that
step: the next slice can be over before the function has control again.
-/
namespace Inger.L3

open L1.Reusable L1.Signals L2

variable {V E : Type}

/-! ## One function -/

/-- A paused function in its `Linger`: how its last slice ended, and where it
continues. -/
structure Parked (k : Task) (tr : List (Event V E)) : Prop where
  quiet : Quiet k tr
  yielded : ∀ a y, tr = a ++ [.back y] → k.yielded = y
  after : ∀ a, tr = a ++ [.back true] →
    ∃ st m b hs, k.checkpoint = some ⟨st, m, .paused b hs⟩ ∧ b.pos.afterCall = true

def Heard : Status V E → Prop
  | .idle c tr => Told tr ∧ (c.tls.isSome = true → Parked c.stateful tr)
  | .running _ th c => Told c.trace ∧ Live th c
  | .over l => Told l.trace

theorem heard_fate {cfg : Cfg V} {s : Sys V E} {l : Label V E} {k : Lid} {x x' : Status V E}
    (hn : cfg.notls = false) (hC : Stamping Dated s l) (hf : Fate cfg s k l x x') (h : Heard x) :
    Heard x' := by
  have quiet {t : Tid} {c : Call V E} {pc : MainPc} (hb : (s.threads t).base = .main pc)
      (hpc : pc ≠ .leave)
      (hl : Live (s.threads t) c) : Quiet c.task c.trace := by
    unfold Live at hl
    rw [hb] at hl
    cases pc with
    | leave => exact absurd rfl hpc
    | _ => exact hl
  cases hf with
  | same => exact h
  | begins t us env c trace tcb idle tls =>
    exact ⟨h.1, (h.2 (by rw [tls]; rfl)).quiet⟩
  | forfeits => exact ⟨h.1, nofun⟩
  | prepares t env c c' th pc base early call same us task base' =>
    have hq := quiet base early.2 h.2
    have htrace : c'.trace = c.trace := same.trace
    have hq' : Quiet c'.task c'.trace := by
      refine ⟨by rw [htrace]; exact hq.quiet, ?_⟩
      obtain htask | ⟨-, st, m, hck⟩ := task
      · rw [htask]
        exact hq.frames
      · intro st' m' b hs he
        rw [hck] at he
        cases he
    refine ⟨by rw [htrace]; exact h.1, ?_⟩
    unfold Live
    rw [base']
    cases pc with
    | switch => exact absurd rfl early.1
    | leave => exact absurd rfl early.2
    | _ => exact hq'
  | sticks t env c th pc why base early base' =>
    exact ⟨h.1, .stuck ⟨why, base'⟩ (quiet base early h.2).quiet⟩
  | starts t env c st m y base => exact ⟨h.1, (quiet base (by simp) h.2).quiet, rfl⟩
  | resumes t env c e st m b hs y o base call task own paused =>
    have hq := quiet base (by simp) h.2
    have hd : stamp env.now c.us ≠ 0 := (hC.switch base call (by rw [task]; rfl)).stamp_ne_zero
    refine ⟨h.1, .plain rfl hq.quiet
      ⟨rfl, ?_, fun _ => hd, Pos.not_pausing_of_preemptible paused.pre⟩⟩
    exact hq.frames st m b hs (by rw [task])
  | acts t a c c' th core call linger step call' =>
    obtain ⟨ht, hl, -⟩ := h.2.act core hn rfl call h.1 step
      (fun now b ha hh hb hp => (ha ▸ hC).schedule hh hb hp |>.stamp_ne_zero) call'
    exact ⟨ht, hl⟩
  | fails t env c cont tls =>
    exact ⟨h.1, fun ht => absurd ht (by rw [tls]; exact Bool.false_ne_true)⟩
  | dropped => exact h.1
  | pauses t env c e st m b hs y base task =>
    have hl := h.2
    unfold Live at hl
    rw [base] at hl
    simp only [task] at hl
    replace hl := hl.1
    refine ⟨each_snoc.mpr ⟨h.1, ?_, ?_⟩, fun _ => ⟨⟨?_, hl.frames⟩, ?_, ?_⟩⟩
    · rintro ⟨⟩
      exact hl.told.mp rfl
    · intro ha
      exact .inl (congrArg Event.back (hl.told.mpr ha))
    · rw [asked_snoc]
      exact nofun
    · intro a y' he
      cases List.singleton_inj.mp (List.append_inj' he rfl).2
      rfl
    · intro a he
      cases List.singleton_inj.mp (List.append_inj' he rfl).2
      exact ⟨st, m, b, hs, rfl, hl.after st m b hs rfl rfl⟩
  | settles => exact h.1
  | drops => exact h.1
  | cancels => exact each_snoc.mpr ⟨h.1, nofun, fun _ => .inr rfl⟩
  | forgets => exact h

theorem heard_born {s : Sys V E} {k : Lid} {x : Status V E} (h : Born s k x) : Heard x := by
  have parked (c : Continuation V E) (hc : c.stateful = .default) :
      Parked c.stateful ([] : List (Event V E)) := by
    rw [hc]
    refine ⟨⟨not_asked_nil, ?_⟩, ?_, ?_⟩
    · intro st m b hs he
      cases he
    · intro a y he
      cases a <;> cases he
    · intro a he
      cases a <;> cases he
  cases h with
  | idle c functional task => exact ⟨each_nil _, fun _ => parked c task⟩
  | running t us c tcb functional task => exact ⟨each_nil _, (parked c task).quiet⟩
  | dropped => exact each_nil _

theorem heard_reachable {cfg : Cfg V} {s : Sys V E} {k : Lid} {x : Status V E}
    (hn : cfg.notls = false) (hr : ((process cfg).only (Stamping Dated)).Reachable s)
    (hx : status s k = some x) : Heard x :=
  status_reachable (I := fun _ => Heard) hn (fun _ _ _ => heard_born)
    (fun _ _ _ _ _ hC _ _ hf h => heard_fate hn hC hf h) hr hx

/-! ## The call returns -/

section
variable {cfg : Cfg V} {s : Sys V E} {t : Tid} {c : Call V E}

/-- While a request is under way, the thread is on the function's stack or on its
way back to `resume`, and the function is not in control. -/
theorem Live.asked (hl : Live (s.threads t) c) (ha : Asked c.trace)
    (h : Core False False t (s.threads t)) (hcall : (s.threads t).call = some c) :
    ((∃ b o, (s.threads t).base = .body b ∧ Asking o (s.threads t) b.pos) ∨
      (s.threads t).base = .gone ∨
      (s.threads t).base = .main .leave) := by
  unfold Live at hl
  cases hb : (s.threads t).base with
  | caller => simp only [Core, hb, hcall] at h
  | main pc =>
    rw [hb] at hl
    cases pc with
    | leave => exact .inr (.inr rfl)
    | _ => exact absurd ha hl.quiet
  | boot =>
    rw [hb] at hl
    exact absurd ha hl.1
  | body b =>
    rw [hb] at hl
    obtain ⟨hq, -⟩ | ⟨-, o, -, hp⟩ := hl
    · exact absurd ha hq
    · exact .inl ⟨b, o, rfl, hp⟩
  | gone => exact .inr (.inl rfl)
  | exited => simp only [Core, hb, hcall] at h
  | stuck why =>
    rw [hb] at hl
    exact absurd ha hl

theorem Asking.ne_own {th : Thread V E} {o : Signal} {pos : Pos} (h : Asking o th pos) :
    pos ≠ .own ∧ pos ≠ .stamp := by
  cases h with
  | blocked _ calm requested => cases requested <;> exact ⟨nofun, nofun⟩
  | _ => exact ⟨nofun, nofun⟩

/-- The last step of `resume`, when the function has called `pause`. -/
theorem leave_asked (hn : cfg.notls = false) (hg : Good False False s) (hl : Linked s)
    (hcall : (s.threads t).call = some c) (hlive : Live (s.threads t) c) (ha : Asked c.trace)
    (herr : c.error = false) (hb : (s.threads t).base = .main .leave)
    (hready : (s.threads t).ready = true) (hh : (s.threads t).handlers = []) (env : Env) :
    ∃ s' cont, s.step cfg (.main t env) = some s' ∧ (s'.threads t).base = .caller ∧
      (s'.threads t).ret = some .ok ∧
        status s' c.linger = some (.idle cont (c.trace ++ [.back true])) ∧
      cont.tls.isSome = true ∧ cont.stateful.yielded = true := by
  have hs : s.step cfg (.main t env) = some (Sys.leaveStep cfg s t (s.threads t) c env) := by
    simp only [Sys.step, Sys.mainStep, hready, hh, hb, hcall]
  unfold Live at hlive
  rw [hb] at hlive
  obtain ⟨hleaves, herrno⟩ := hlive
  have hleft : Left cfg s t c env (Sys.leaveStep cfg s t (s.threads t) c env) :=
    leaveStep_left hn hg hcall hb rfl
  generalize Sys.leaveStep cfg s t (s.threads t) c env = s' at hs hleft
  cases hleft with
  | fails error => exact absurd (herr.symm.trans error) (by simp)
  | paused e st m b frames y error task trace =>
    obtain rfl : y = true := by
      have hy := hleaves.told.mpr ha
      rwa [task] at hy
    refine ⟨_, ⟨c.functional, ⟨some e, some ⟨st, m, .paused b frames⟩, true⟩, c.group,
      some { (s.threads t).vars with task := .default }⟩, hs, by rw [threads_setThread_self],
      by rw [threads_setThread_self], status_idle ?_, rfl, rfl⟩
    exact List.getElem?_set_self (hl.lt_length hcall)
  | settled ctx y r error task trace =>
    have hne := herrno ha
    rw [task] at hne
    cases hne

/-- Once `pause` has been called, the thread gets back to the caller of `resume`
by itself. The induction is on the number of steps it has left. -/
theorem returns_of_asked (hn : cfg.notls = false)
    (hr : ((process cfg).only (Stamping Dated)).Reachable s) (hcall : (s.threads t).call = some c)
    (ha : Asked c.trace) (herr : c.error = false) :
    ∃ ls s' cont, ((process cfg).only (Stamping Dated)).Run s ls s' ∧ (∀ l ∈ ls, l.tid = t) ∧
      (s'.threads t).base = .caller ∧ (s'.threads t).ret = some .ok ∧
      status s' c.linger = some (.idle cont (c.trace ++ [.back true])) ∧
      cont.tls.isSome = true ∧ cont.stateful.yielded = true := by
  induction hm : (s.threads t).togo c using Nat.strong_induction_on generalizing s with
  | _ m ih =>
    subst hm
    obtain ⟨hg, hl⟩ := linked_reachable hn hr.of_only
    obtain ⟨ht, hlive⟩ : Heard (.running t (s.threads t) c) :=
      heard_reachable hn hr (hl.running hcall)
    have hwhere := hlive.asked ha (hg.threads t) hcall
    have halive : (s.threads t).base.alive = true := by
      obtain ⟨b, o, hb, -⟩ | hb | hb := hwhere <;> rw [hb] <;> rfl
    -- Neither the function nor `stamp` has its turn.
    have hbody {b : Body} (hb : (s.threads t).base = .body b) : b.pos ≠ .own ∧ b.pos ≠ .stamp := by
      obtain ⟨b', o, hb', hp⟩ | hb' | hb' := hwhere <;> cases hb.symm.trans hb'
      exact hp.ne_own
    have hown : ¬(s.threads t).inControl := fun ⟨_, _, b, hb, hpos⟩ => (hbody hb).1 hpos
    obtain ⟨a, th', hauto, hs⟩ | ⟨hready, hh, pc, hb⟩ :=
      next_act cfg (hg.threads t) hcall halive hown 0 (.fine 0)
    · obtain ⟨c', hcall'⟩ : ∃ c', th'.call = some c' := by
        have hkept := (Thread.step_kept hs).call
        rw [hcall, Option.map_some, Option.map_eq_some_iff] at hkept
        obtain ⟨c', hc', -⟩ := hkept
        exact ⟨c', hc'⟩
      obtain ⟨-, hlive', hsame⟩ := hlive.act (hg.threads t) hn rfl hcall ht hs
        (fun now b _ _ hb hp => absurd hp (hbody hb).2) hcall'
      cases hsame ha
      have hleft : th'.togo c < (s.threads t).togo c := by
        refine (left_act (hg.threads t) hcall hauto hs hcall').resolve_left ?_
        rintro ⟨why, hw⟩
        unfold Live at hlive'
        rw [hw] at hlive'
        exact hlive' ha
      have hstep : ((process cfg).only (Stamping Dated)).step s (.act t a)
          { s.setThread t th' with dirty := s.dirtyAfter (s.threads t) th' } := by
        refine ⟨by simp [process, LTS.ofFn, Sys.step, Sys.actStep, hs], ?_⟩
        cases a with
        | run now =>
          unfold Stamping
          dsimp only
          split
          · rename_i hb
            exact absurd rfl (hbody hb).2
          · trivial
        | _ => trivial
      obtain ⟨ls, s', cont, hrun, htid, hend⟩ := ih _ hleft (hr.step hstep)
        (by simp [hcall']) (by simp)
      refine ⟨.act t a :: ls, s', cont, .cons hstep hrun, ?_, hend⟩
      intro l hl
      rcases List.mem_cons.mp hl with rfl | hl
      · rfl
      · exact htid l hl
    · obtain rfl : pc = .leave := by
        obtain ⟨b, o, hb', -⟩ | hb' | hb' := hwhere <;> cases hb.symm.trans hb'
        rfl
      obtain ⟨s', cont, hs, hend⟩ := leave_asked hn hg hl hcall hlive ha herr hb hready hh (.fine 0)
      refine ⟨[.main t (.fine 0)], s', cont, .cons ⟨hs, ?_⟩ (.nil _), ?_, hend⟩
      · simp only [Stamping, hb]
      · intro l hl
        rw [List.mem_singleton] at hl
        subst hl
        rfl

end

/-! ## The promise -/

theorem Heard.told : ∀ {x : Status V E}, Heard x → Told x.trace
  | .idle _ _, h => h.1
  | .running _ _ _, h => h.1
  | .over _, h => h

/-- What holds of function `k` and its calls of `pause`. -/
structure PauseYields (cfg : Cfg V) (s : Sys V E) (k : Lid) : Prop where
  /-- after a call of `pause` the next that happens is a return of `resume` with
  `yielded` (or `cancel`, if that call failed), and no other return has the flag -/
  told : ∀ x, status s k = some x → Told x.trace
  /-- after a return of `resume` the `Linger` is a continuation with the flag … -/
  flag : ∀ cont a y, status s k = some (.idle cont (a ++ [.back y])) → cont.tls.isSome = true →
    cont.stateful.yielded = y
  /-- … that continues behind the call, if the function has yielded -/
  continues : ∀ cont a, status s k = some (.idle cont (a ++ [.back true])) →
    cont.tls.isSome = true → ∃ st m b hs, cont.stateful.checkpoint = some ⟨st, m, .paused b hs⟩ ∧
      b.pos.afterCall = true
  /-- a slice in which `pause` has been called last gets to its end by itself,
  unless a system call failed at its beginning: `resume` returns `Ok`, and the
  `Linger` is a continuation with the flag -/
  returns : ∀ t c, (s.threads t).call = some c → c.linger = k → Asked c.trace → c.error = false →
    ∃ ls s' cont, ((process cfg).only (Stamping Dated)).Run s ls s' ∧ (∀ l ∈ ls, l.tid = t) ∧
      (s'.threads t).base = .caller ∧ (s'.threads t).ret = some .ok ∧
      status s' k = some (.idle cont (c.trace ++ [.back true])) ∧
      cont.tls.isSome = true ∧ cont.stateful.yielded = true

/-- **`pause` yields exactly once.** In every run in which `stamp` does not
overflow and never stamps a budget of 0 at clock 0. -/
theorem pause_yields_once (cfg : Cfg V) (hn : cfg.notls = false) (s : Sys V E)
    (hr : ((process cfg).only (Stamping Dated)).Reachable s) (k : Lid) : PauseYields cfg s k where
  told _ hx := (heard_reachable hn hr hx).told
  flag cont a y hx htls := by
    obtain ⟨-, hparked⟩ : Heard (.idle cont (a ++ [.back y])) := heard_reachable hn hr hx
    exact (hparked htls).yielded a y rfl
  continues cont a hx htls := by
    obtain ⟨-, hparked⟩ : Heard (.idle cont (a ++ [.back true])) := heard_reachable hn hr hx
    exact (hparked htls).after a rfl
  returns t c hcall hk ha herr := by
    subst hk
    exact returns_of_asked hn hr hcall ha herr

/-- Thread `0` launches a function, which calls `pause`; the timer ticks before
DEADLINE is cleared. The caller resumes it with a budget of 0, and it is paused
in the hook. -/
def pausesThenTimesOut : List (Label Bool Bool) :=
  launchOn 0 ++
    [.act 0 (.fn .pause), .act 0 (.deliver .Alarm)] ++ List.replicate 10 (.act 0 (.run 0)) ++
    .act 0 (.fn .exit) :: List.replicate 7 (.act 0 (.run 0)) ++ preempted 0 .Alarm 0 ++
    .resume 0 0 0 (.fine 0) :: List.replicate 4 (.main 0 (.fine 7)) ++ preempted 0 .Alarm 7

/-- Paused, with the history `tr` and a continuation that meets `p`. -/
def pausedAfter (tr : List (Event Bool Bool)) (p : Continuation Bool Bool → Bool)
    (s : Sys Bool Bool) : Bool :=
  match status s 0 with
  | some (.idle cont tr') => decide (tr' = tr) && p cont
  | _ => false

theorem of_pausedAfter {tr : List (Event Bool Bool)} {p : Continuation Bool Bool → Bool}
    {s : Sys Bool Bool} (h : pausedAfter tr p s = true) :
    ∃ cont, status s 0 = some (.idle cont tr) ∧ p cont = true := by
  unfold pausedAfter at h
  split at h
  · rename_i cont tr' hx
    simp only [Bool.and_eq_true, decide_eq_true_eq] at h
    exact ⟨cont, h.1 ▸ hx, h.2⟩
  · cases h

theorem pause_yields_once_pausesThenTimesOut :
    ∃ (s : Sys Bool Bool) (cont : Continuation Bool Bool),
    ((process Cfg.small).only (Stamping Dated)).Reachable s ∧
      status s 0 = some (.idle cont [.enter, .pause, .back true, .back false]) ∧
      cont.stateful.yielded = false ∧
        Told ([.enter, .pause, .back true, .back false] : List (Event Bool Bool)) := by
  obtain ⟨s, hr, hp⟩ := process_only_of_exec Cfg.small (Stamping Dated) pausesThenTimesOut
    (pausedAfter [.enter, .pause, .back true, .back false] fun cont => cont.tls.isSome)
      (by decide +kernel)
  obtain ⟨cont, hx, htls⟩ := of_pausedAfter hp
  have h := pause_yields_once Cfg.small rfl s hr 0
  exact ⟨s, cont, hr, hx, h.flag cont [.enter, .pause, .back true] false hx htls, h.told _ hx⟩

/-- A function that does not call `pause`, resumed with a budget of 0 at clock
0. -/
def timesOutAtEpoch : List (Label Bool Bool) :=
  launchOn 0 ++
    preempted 0 .Alarm 5000 ++ .resume 0 0 0 (.fine 0) :: List.replicate 4 (.main 0 (.fine 0)) ++
    preempted 0 .Alarm 0

/-- Without overflow in `stamp`: `resume` can return twice between a call of
`pause` and the function's next own step, and a slice without a call of `pause`
can end with `yielded`. -/
theorem pause_returns_twice :
    (∃ s : Sys Bool Bool,
      ((process Cfg.small).only (Stamping fun now us => stampChecked now us ≠ none)).Reachable s ∧
        ∃ c, (s.threads 0).call = some c ∧
          c.trace = [.enter, .pause, .back true, .back false, .work]) ∧
      ∃ s : Sys Bool Bool,
        ((process Cfg.small).only (Stamping fun now us => stampChecked now us ≠ none)).Reachable s ∧
          ∃ cont, status s 0 = some (.idle cont [.enter, .back false, .back true]) ∧
            cont.stateful.yielded = true := by
  constructor
  · obtain ⟨s, hr, hp⟩ := process_only_of_exec Cfg.small
      (Stamping fun now us => stampChecked now us ≠ none)
      (pausesThenTimesOut ++ .resume 0 0 9 (.fine 0) :: List.replicate 4 (.main 0 (.fine 9)) ++
        [.act 0 (.run 9), .act 0 (.fn (.work 0))])
      (fun s => (s.threads 0).call.any fun c : Call Bool Bool =>
        decide (c.trace = [.enter, .pause, .back true, .back false, .work])) (by decide +kernel)
    obtain ⟨c, hc, htr⟩ := (Option.any_eq_true _ _).mp hp
    exact ⟨s, hr, c, hc, by simpa using htr⟩
  · obtain ⟨s, hr, hp⟩ := process_only_of_exec Cfg.small
      (Stamping fun now us => stampChecked now us ≠ none)
      timesOutAtEpoch (pausedAfter [.enter, .back false, .back true]
        fun cont => cont.stateful.yielded)
      (by decide +kernel)
    obtain ⟨cont, hx, hy⟩ := of_pausedAfter hp
    exact ⟨s, hr, cont, hx, hy⟩

end Inger.L3
