import Inger.L3Slice.Deferred
import Inger.L3Slice.Location

/-!
# No assertion fails

Where no system call fails, `Core` leaves a thread two ways to get stuck: a
handler finds TASK borrowed by a handler below it, or `errno_group` finds
ERRNO_LOCATION borrowed. The second takes a function that was dropped inside
`errno_group` (see `Location`), the first a signal other than the thread's own:
while the handler of the own signal runs, that is blocked, so that there is one
handler at most (`Single`), also on the stack of a paused function. In runs
without either (`Orderly`) no thread gets stuck (`never_stuck`). It holds in every
build without `notls`, with and without the assertions.
-/
namespace Inger.L2

variable {V E : Type}

namespace Thread

variable {w : World} {now : UInt64} {th th' : Thread V E}

/-- A handler that has interrupted no other finds TASK free. -/
theorem handlerStep_free (f : Frame) (hb : th.base ≠ .stuck .borrowed) :
    (th.handlerStep w now f []).base ≠ .stuck .borrowed := by
  unfold handlerStep
  cases f.pc with
  | test e r => cases r <;> cases th.group.preemptible <;> exact hb
  | clock e d => dsimp only; split <;> exact hb
  | yielded e d => exact hb
  | swap e => simp only [swap]; split <;> simp [fail]
  | deferMask e =>
    dsimp only
    split
    · simp [fail]
    · exact hb
  | disable pc => cases pc <;> exact hb
  | ret =>
    simp only [sigreturn]
    split
    · exact hb
    · simp
  | _ => exact hb

/-- What the code on a function's stack does not do: it leaves the handlers alone,
it does not touch the borrow of TASK, and it leaves the stack only by the return of
`schedule`. -/
structure Plain (b : Body) (th th' : Thread V E) : Prop where
  handlers : th'.handlers = th.handlers
  free : th'.base ≠ .stuck .borrowed
  leaves : th'.base.paused = true → b.pos = .ret ∧ th'.vars = th.vars

theorem Plain.goto {b b' : Body} {pos : Pos} (hh : th'.handlers = th.handlers) :
    Plain b th (th'.goto b' pos) :=
  ⟨hh, by simp [Thread.goto], nofun⟩

theorem Plain.fail {b : Body} {why : Stuck} (hh : th'.handlers = th.handlers)
    (hw : why ≠ .borrowed) :
    Plain b th (th'.fail why) :=
  ⟨hh, by simpa [Thread.fail] using hw, nofun⟩

theorem enableStep_handlers (e : Enable) : (th.enableStep w e).1.handlers = th.handlers := by
  unfold enableStep
  cases e.pc with
  | errno =>
    dsimp only
    split
    · rfl
    · split <;> rfl
  | swap => rfl
  | _ => dsimp only; split <;> rfl

theorem enableStep_fails {e : Enable} {why : Stuck} (h : (th.enableStep w e).2 = .fails why) :
    why ≠ .borrowed := by
  unfold enableStep at h
  cases hpc : e.pc <;> simp only [hpc] at h
  case errno =>
    split at h
    · cases h; simp
    · split at h <;> cases h; simp
  case location => split at h <;> cases h; simp
  case swap => cases h
  all_goals split at h <;> cases h

theorem enablePos_plain (b : Body) (e : Enable) : Plain b th (th.enablePos w b e) := by
  have h : (th.enableStep w e).1.handlers = th.handlers := enableStep_handlers e
  unfold enablePos
  split <;> rename_i heq <;> rw [heq] at h
  · exact .goto h
  · split
    · split
      · exact .fail h (by simp)
      · exact .goto h
    · exact .goto h
  · split
    · exact .fail h (by simp)
    · exact .goto h
  · exact .fail h (enableStep_fails (congrArg Prod.snd heq))

theorem bodyStep_plain {c : Call V E} {b : Body} (hs : th.bodyStep w now c b = some th') :
    Plain b th th' := by
  unfold bodyStep at hs
  cases hpos : b.pos <;> simp only [hpos, Option.some.injEq, reduceCtorEq] at hs
  case stamp =>
    split at hs <;> cases hs
    · exact .fail rfl (by simp)
    · exact .goto rfl
  case enable e => subst hs; exact enablePos_plain b e
  case call =>
    subst hs
    unfold callPos
    split
    · split
      · exact .goto rfl
      · exact .fail rfl (by simp)
      · exact .goto rfl
    · exact .fail rfl (by simp)
  case pause back => subst hs; exact .goto rfl
  case deferMask back =>
    split at hs
    · cases hs; exact .fail rfl (by simp)
    · split at hs <;> cases hs
      · exact .goto rfl
      · exact .fail rfl (by simp)
  case deferFlag back => subst hs; exact .goto rfl
  case disable pc =>
    subst hs
    refine .goto ?_
    cases pc with
    | mask => cases b.signal <;> rfl
    | _ => rfl
  case check =>
    split at hs <;> cases hs
    · exact .fail rfl (by simp)
    · exact .goto rfl
  case ret => subst hs; exact ⟨rfl, by simp, fun _ => ⟨hpos, rfl⟩⟩

theorem fnStep_plain {c : Call V E} {b : Body} {a : FnAct V E} (hb : th.base = .body b)
    (hs : th.fnStep c b a = some th') : Plain b th th' := by
  unfold fnStep at hs
  split at hs <;> cases hs
  case h_1 => exact ⟨rfl, by simp [setCall, hb], fun h => by simp [setCall, hb, Base.paused] at h⟩
  case h_5 => exact ⟨rfl, by simp [hb], fun h => by simp [hb, Base.paused] at h⟩
  all_goals exact .goto rfl

end Thread
end Inger.L2

namespace Inger.L3

open L1.Reusable L1.Signals L2

variable {V E : Type}

/-- One handler at most, and while it runs the thread's own signal is blocked. -/
structure Single (th : Thread V E) : Prop where
  handlers : th.handlers = [] ∨ ∃ f, th.handlers = [f]
  mask : th.handlers ≠ [] → ∀ o, th.signaler = some o → o ∈ th.mask

/-- Nothing fails, no function is dropped inside `errno_group`, and a thread gets
its own signal only. -/
structure Orderly (cfg : Cfg V) (s : Sys V E) (l : Label V E) : Prop where
  fine : Fine cfg s l
  released : Released s l
  own : OwnSignal s l

instance (cfg : Cfg V) (s : Sys V E) (l : Label V E) : Decidable (Orderly cfg s l) :=
  decidable_of_iff (Fine cfg s l ∧ Released s l ∧ OwnSignal s l)
    ⟨fun ⟨a, b, c⟩ => ⟨a, b, c⟩, fun ⟨a, b, c⟩ => ⟨a, b, c⟩⟩

section
variable {cfg : Cfg V} {w : World} {t : Tid} {th th' : Thread V E}

theorem single_nil (hh : th.handlers = []) : Single th := ⟨.inl hh, fun h => absurd hh h⟩

/-- A second handler of the own signal cannot start. -/
theorem Single.deliver {no : Signal} (h : Single th) (ho : th.signaler = some no)
    (hno : no ∉ th.mask) :
    Single (th.interrupt no) := by
  have hnil : th.handlers = [] := by
    by_contra hne
    exact hno (h.mask hne no ho)
  refine ⟨.inr ⟨⟨no, th.mask, .interrupted, .entry⟩, by rw [Thread.interrupt, hnil]⟩,
    fun _ o ho' => ?_⟩
  obtain rfl : no = o := Option.some.inj (ho.symm.trans ho')
  exact Finset.mem_insert_self _ _

theorem Single.nil_rest {f : Frame} {rest : List Frame} (h : Single th)
    (hh : th.handlers = f :: rest) :
    rest = [] := by
  rcases h.handlers with hn | ⟨g, hg⟩
  · rw [hn] at hh; cases hh
  · rw [hg] at hh; cases hh; rfl

/-- A step on a thread with one handler at most leaves it so, and a function that
it pauses has no handler on its stack. -/
theorem Single.act {a : Act V E} (h : Single th) (hcore : Core False False t th)
    (htask : th.base.paused = true → PausedAs (fun _ hs => hs = []) th.vars.task)
    (hown : ∀ no, a = .deliver no → th.signaler = some no) (hs : th.step w a = some th') :
    Single th' ∧ (th'.base.paused = true → PausedAs (fun _ hs => hs = []) th'.vars.task) := by
  cases Thread.step_acts hs with
  | delivers no ha hno => exact ⟨h.deliver (hown no rfl) hno, htask⟩
  | handles now f rest hr hh =>
    obtain rfl := h.nil_rest hh
    have hsig : (th.handlerStep w now f []).signaler = th.signaler :=
      (Thread.handlerStep_kept f []).signaler
    have hm := h.mask (by rw [hh]; simp)
    have hout := Thread.handlerStep_handles w now th f []
    generalize th.handlerStep w now f [] = th' at hsig hout
    cases hout with
    | moves f' _ hh' hno hmask hc hsame =>
      refine ⟨⟨.inr ⟨f', hh'⟩, fun _ o ho => ?_⟩, fun hb => ?_⟩
      · rw [hsame.1]; exact hm o (hsig ▸ ho)
      · exact (htask (hsame.2.1 ▸ hb)).of_checkpoint hsame.2.2
    | returns => exact ⟨single_nil rfl, htask⟩
    | lands target =>
      have hb := hcore.gone_of_callsite (Thread.alive_of_ready hr) (by rw [hh]; simp) target
      exact ⟨single_nil rfl, fun _ => htask (by rw [hb]; rfl)⟩
    | swaps e st m b pc base =>
      refine ⟨⟨.inr ⟨_, rfl⟩, fun _ => hm⟩, ?_⟩
      intro _ st' m' b' hs' hck
      cases hck
      rfl
    | fails why => exact ⟨⟨.inr ⟨f, hh⟩, fun _ => hm⟩, nofun⟩
  | boots now c hr hh hb hc =>
    unfold Thread.bootStep
    split <;> exact ⟨single_nil hh, nofun⟩
  | runs now b c th' hr hh hb hc hs =>
    have hp := Thread.bodyStep_plain hs
    refine ⟨single_nil (hp.handlers.trans hh), fun hb' => ?_⟩
    obtain ⟨-, hv⟩ := hp.leaves hb'
    obtain ⟨c, -, -, hin⟩ := hcore.body hb
    rw [hv]
    exact hin.run.pausedAs
  | fn a b c th' hr hh hb hc hs =>
    have hp := Thread.fnStep_plain hb hs
    refine ⟨single_nil (hp.handlers.trans hh), fun hb' => ?_⟩
    obtain ⟨-, hv⟩ := hp.leaves hb'
    obtain ⟨c, -, -, hin⟩ := hcore.body hb
    rw [hv]
    exact hin.run.pausedAs

theorem carries_single (cfg : Cfg V) :
    Carries (E := E) cfg (fun _ hs => hs = []) Single (Orderly cfg) where
  quiet th hh _ := single_nil hh
  jumps s t env c st m b hs th' _ _ _ _ _ hP hj := single_nil (hj.handlers.trans hP)
  acts s t a th' hC hcore hG htask hs := by
    refine hG.act hcore htask ?_ hs
    rintro no rfl
    exact hC.own

theorem Single.free {a : Act V E} (h : Single th) (hb : th.base ≠ .stuck .borrowed)
    (hs : th.step w a = some th') : th'.base ≠ .stuck .borrowed := by
  cases Thread.step_acts hs with
  | delivers no => exact hb
  | handles now f rest hr hh =>
    obtain rfl := h.nil_rest hh
    exact Thread.handlerStep_free f hb
  | boots now c =>
    unfold Thread.bootStep
    split <;> simp [Thread.fail]
  | runs now b c th' hr hh hb hc hs => exact (Thread.bodyStep_plain hs).free
  | fn a b c th' hr hh hb hc hs => exact (Thread.fnStep_plain hb hs).free

end

section
variable {cfg : Cfg V} {ok tidy : Prop} {s s' : Sys V E} {t : Tid} {k : Lid} {env : Env}

/-- TASK is borrowed in handlers only. -/
theorem mainStep_free (hn : cfg.notls = false) (hg : Good ok tidy s)
    (hs : Sys.mainStep cfg s t env = some s') : (s'.threads t).base ≠ .stuck .borrowed := by
  have fails {s₁ : Sys V E} {th : Thread V E} {c : Call V E} {ret : Ret E} :
      ((Sys.failResume cfg s₁ t th c env ret).threads t).base ≠ .stuck .borrowed := by
    unfold Sys.failResume
    rw [threads_setThread_self]
    simp
  obtain ⟨c, pc, hcall, hbase, -, ⟨-, -, hp⟩ | ⟨-, hsw⟩ | ⟨rfl, hleft⟩⟩ := mainStep_sorted hg hs
  · cases hp with
    | goes s₁ th c' _ _ _ _ _ base => rw [threads_setThread_self, base]; simp
    | stuck s₁ th _ base => rw [threads_setThread_self, base]; simp
    | fails => exact fails
  · cases hsw with
    | starts => rw [threads_setThread_self]; simp
    | resumes => rw [threads_setThread_self]; simp
    | fails => exact fails
  · cases leaveStep_left hn hg hcall hbase hleft with
    | fails => exact fails
    | paused => rw [threads_setThread_self]; simp
    | settled => rw [threads_setThread_self]; simp

theorem begin_free {c : Continuation V E} {trace : List (Event V E)} {us : UInt64}
    {launching : Bool} (h : Begin s t k c trace us launching env s')
    (hi : Sys.idle (s.threads t) = true) :
    (s'.threads t).base ≠ .stuck .borrowed := by
  simp only [Sys.idle, Bool.and_eq_true, decide_eq_true_eq] at hi
  cases h <;> rw [threads_setThread_self] <;> simp [hi.1.2]

theorem free_step {l : Label V E} (hn : cfg.notls = false) (hg : Good ok tidy s)
    (hone : ∀ t, Single (s.threads t)) (hs : Sys.step cfg s l = some s')
    (h : ∀ t, (s.threads t).base ≠ .stuck .borrowed) (t : Tid) :
    (s'.threads t).base ≠ .stuck .borrowed := by
  by_cases ht : t = l.tid
  · subst ht
    have hidle {r : Option (Ret E)} :
        ({ s.threads l.tid with ret := r } : Thread V E).base ≠ .stuck .borrowed :=
      h l.tid
    cases step_change hn hs with
    | returns _ u j idle label =>
      rcases label with ⟨_, _, rfl⟩ | ⟨_, rfl⟩ <;> exact (threads_setThread_self _) ▸ hidle
    | caught _ u tid => subst tid; rw [threads_setThread_self]; simp [Thread.fail]
    | full u us env p idle => exact (threads_setThread_self _) ▸ hidle
    | sets u env group p idle => exact (threads_setThread_self _) ▸ hidle
    | launches u us env group p _ idle shared _ _ begin => exact begin_free begin idle
    | resumes u j us env c trace _ idle shared cell begin => exact begin_free begin idle
    | advances => exact mainStep_free hn hg hs
    | leaves => exact mainStep_free hn hg hs
    | acts u a th step =>
      dsimp only [Label.tid]
      rw [threads_acted]
      exact (hone u).free (h u) step
    | drops _ u j c trace renew new idle cell label =>
      rcases label with ⟨_, rfl, _⟩ | ⟨_, rfl, _⟩ <;> exact (threads_setThread_self _) ▸ hidle
    | forgets u j env l idle => exact (threads_setThread_self _) ▸ hidle
    | stays => exact h _
    | exits u p idle => simp [Label.tid, Sys.setThread]
  · rw [step_threads_ne hn hs ht]
    exact h t

theorem orderly_reachable (hn : cfg.notls = false)
    (hr : ((process cfg).only (Orderly cfg)).Reachable s) :
    Good True True s ∧ Unheld s ∧ ∀ t, (s.threads t).base ≠ .stuck .borrowed := by
  refine (LTS.Inductive.reachable (I := fun s => ((process cfg).only (Orderly cfg)).Reachable s ∧
    Good True True s ∧ Unheld s ∧ ∀ t, (s.threads t).base ≠ .stuck .borrowed) ⟨?_, ?_⟩ s hr).2
  · rintro s ⟨masks, rfl⟩
    exact ⟨⟨_, [], ⟨masks, rfl⟩, .nil _⟩, good_init id cfg masks, unheld_init cfg masks,
      fun t => by simp [Sys.initial, Thread.initial]⟩
  · rintro s l s' ⟨hr, hg, hu, hb⟩ ⟨hs, hq⟩
    have hone := (carried_reachable hn (carries_single cfg) hr).2.threads
    exact ⟨hr.step ⟨hs, hq⟩, good_step hn hg (fun _ => hq.fine) (fun _ => hq.fine.tidy) hs,
      unheld_step hn hg hu hq.released hs, free_step hn hg hone hs hb⟩

end

end Inger.L3
