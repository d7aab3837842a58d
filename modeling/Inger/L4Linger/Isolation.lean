import Inger.L3Slice.Fate
import Inger.L4Linger.Once

/-!
# A paused function is left alone

A step of the process is about at most one timed function (`touched`): the one a
call names, or the one whose call the thread is in. Every other function is where
it was, with its thread if it has one (`status_untouched`).

Nobody is in a call on a paused function, so what is saved of it (closure, task
with the checkpoint and errno, group, thread-control block) changes in no step
but a `resume`, drop or `cancel` of it (`paused_step`), whatever the other threads
and functions do and whatever fails. `Memory` adds what is on its stack.
-/
namespace Inger.L2

variable {V E : Type}

/-- The `Linger` a call of the API is given. -/
def Label.subject : Label V E → Option Lid
  | .resume _ k _ _ => some k
  | .drop _ k _ => some k
  | .cancel _ k _ => some k
  | _ => none

end Inger.L2

namespace Inger.L4

open L1.Reusable L1.Signals L2 L3

variable {V E : Type}

/-- The function a step is about. -/
def touched (s : Sys V E) : Label V E → Option Lid
  | .launch _ _ _ => some s.lingers.length
  | .resume _ k _ _ => some k
  | .main t _ => (s.threads t).call.map Call.linger
  | .act t _ => (s.threads t).call.map Call.linger
  | .drop _ k _ => some k
  | .cancel _ k _ => some k
  | .erase _ _ => none
  | .exit _ => none

section
variable {cfg : Cfg V} {s s' : Sys V E} {k : Lid} {l : Label V E}

/-- **The other functions are where they were.** -/
theorem status_untouched (hn : cfg.notls = false) (hg : Good False False s) (hl : Linked s)
    (hs : Sys.step cfg s l = some s') (hk : k < s.lingers.length) (hne : touched s l ≠ some k) :
    status s' k = status s k := by
  -- A thread outside `resume` that does not write the cell.
  have other (hi : Sys.idle (s.threads l.tid) = true) (hcell : s'.lingers[k]? = s.lingers[k]?) :
      status s' k = status s k := by
    refine status_of_other hn hl hs hcell fun c hc => ?_
    rw [((hg.threads _).idle hi).2.2.1] at hc
    cases hc
  have main {t : Tid} {env : Env} {c : Call V E} (hlab : l = .main t env)
      (hcall : (s.threads t).call = some c) : status s' k = status s k := by
    subst hlab
    have hck : c.linger ≠ k := by
      intro h
      exact hne (by rw [touched, hcall, Option.map_some, h])
    refine status_of_other hn hl hs (lingers_mainStep_ne hn hg hcall hck hs) fun c' hc' => ?_
    rw [show (s.threads t).call = _ from hc'] at hcall
    cases hcall
    exact hck
  cases step_change hn hs with
  | returns _ t j idle label =>
    refine other ?_ rfl
    rcases label with ⟨_, _, rfl⟩ | ⟨_, rfl⟩ <;> exact idle
  | caught _ t tid idle => exact other (tid ▸ idle) rfl
  | full t us env p idle => exact other idle rfl
  | sets t env group p idle => exact other idle (List.getElem?_append_left hk)
  | launches t us env group p _ idle shared _ _ begin =>
    exact other idle ((begin_lingers_ne begin (Nat.ne_of_gt hk)).trans
      (List.getElem?_append_left hk))
  | resumes t j us env c trace _ idle shared cell begin =>
    exact other idle (begin_lingers_ne begin fun h => hne (congrArg some h))
  | advances t env c pc _ call => exact main rfl call
  | leaves t env c _ call => exact main rfl call
  | acts t a th step =>
    refine status_of_other hn hl hs rfl fun c hc hck => ?_
    exact hne (by rw [touched, show (s.threads t).call = _ from hc, Option.map_some, hck])
  | drops _ t j c trace renew new idle cell label =>
    have hj : j ≠ k := by
      rcases label with ⟨_, rfl, _⟩ | ⟨_, rfl, _⟩ <;> exact fun h => hne (congrArg some h)
    refine other ?_ ((List.getElem?_set_ne hj).trans ?_)
    · rcases label with ⟨_, rfl, _⟩ | ⟨_, rfl, _⟩ <;> exact idle
    · rw [lingers_dropContinuation]
  | forgets t j env x idle =>
    exact other idle (List.getElem?_set_ne fun h => hne (congrArg some h))
  | stays => rfl
  | exits t p idle => exact other idle rfl

/-- Nobody is in a call on a function that waits, so only a call that is given
its `Linger` is about it. -/
theorem touched_idle {c : Continuation V E} {tr : List (Event V E)} (hl : Linked s)
    (hk : status s k = some (.idle c tr)) (ht : touched s l = some k) : l.subject = some k := by
  have hcall {t : Tid} (h : (s.threads t).call.map Call.linger = some k) : l.subject = some k := by
    rw [Option.map_eq_some_iff] at h
    obtain ⟨c', hc', rfl⟩ := h
    rw [hl.running hc'] at hk
    cases hk
  cases l with
  | launch t us env => exact absurd (Option.some.inj ht) (Nat.ne_of_gt (lt_of_status hk))
  | resume t j us env => exact ht
  | main t env => exact hcall ht
  | act t a => exact hcall ht
  | drop t j env => exact ht
  | cancel t j env => exact ht
  | erase t j => cases ht
  | exit t => cases ht

/-- A step that is not a call on it leaves a paused function as it is. -/
theorem paused_step {c : Continuation V E} {tr : List (Event V E)} (hn : cfg.notls = false)
    (hg : Good False False s) (hl : Linked s) (hs : Sys.step cfg s l = some s')
    (hk : status s k = some (.idle c tr)) (hsub : l.subject ≠ some k) :
    status s' k = some (.idle c tr) := by
  have hne : touched s l ≠ some k := fun ht => hsub (touched_idle hl hk ht)
  exact (status_untouched hn hg hl hs (lt_of_status hk) hne).trans hk

end

end Inger.L4
