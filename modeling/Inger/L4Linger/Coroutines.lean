import Inger.Core.Coroutine
import Inger.L4Linger.Isolation
import Inger.L4Linger.Stacks

/-!
# The library implements a bounded set of coroutines

`Coroutine.machine` is what a program that uses libinger counts on: timed
functions wait, run on a thread and end; `launch` is refused exactly at the
limit; a function acts only while a thread runs it, and goes on with the history
it had when it was suspended. `abs` forgets the rest of a process (signals,
handlers, masks, contexts, thread-control blocks, pools, clocks).

`implements_coroutines`: while nothing fails, every step of a process is a step
of that machine on `abs`, or changes nothing there. What a step does is read off
`Change`, and `status_untouched` says that the other functions are where they
were.
-/
namespace Inger.L4

open L1.Reusable L1.Signals L2 L3 Coroutine

variable {V E : Type}

/-! ## The functions of a process as coroutines -/

/-- It is entered once, then works, calls and pauses until it is done. -/
def Follows (h : List (Event V E)) : Event V E → Prop
  | .enter => entered h = 0
  | .back _ => False
  | .finish => False
  | .cancel => False
  | _ => entered h = 1 ∧ results h = []

theorem Follows.entered {h : List (Event V E)} {e : Event V E} (hf : Follows h e)
    (he : e ≠ .enter) : entered h = 1 := by
  cases e with
  | enter => exact absurd rfl he
  | back y => exact hf.elim
  | finish => exact hf.elim
  | cancel => exact hf.elim
  | _ => exact hf.1

/-- The ends are `some v`, a return, and `none`, a panic; a `launch` that
re-raises a panic returns no `Linger`. -/
def protocol : Protocol (Event V E) (Option V) where
  may := Follows
  outcome h := (results h).head?.map Except.toOption
  fatal r := r.isNone

def endPhase : Cell V E → Phase Tid (Option V)
  | .completion v => .ended (some v)
  | .poison => .ended none
  | _ => .gone

def view : Status V E → Routine Tid (Event V E) (Option V)
  | .idle _ tr => ⟨.waiting, own tr⟩
  | .running t _ c => ⟨.running t c.launching, own c.trace⟩
  | .over l => ⟨endPhase l.cell, own l.trace⟩

/-- The functions of a process. -/
def abs (s : Sys V E) : List (Routine Tid (Event V E) (Option V)) :=
  (List.range s.lingers.length).map fun k => ((status s k).map view).getD ⟨.gone, []⟩

/-- The steps of a process that may be seen as an operation on the functions. -/
inductive Shows : Label V E → Op Tid (Event V E) (Option V) → Prop
  | spawn (t : Tid) (env : Env) : Shows (.launch t 0 env) (.spawn t)
  | start (t : Tid) (us : UInt64) (env : Env) (budget : us ≠ 0) :
    Shows (.launch t us env) (.start t)
  | refuse (t : Tid) (us : UInt64) (env : Env) : Shows (.launch t us env) (.refuse t)
  | enter (t : Tid) (k : Lid) (us : UInt64) (env : Env) : Shows (.resume t k us env) (.enter t k)
  | act (t : Tid) (a : Act V E) (k : Lid) (e : Event V E) : Shows (.act t a) (.act t k e)
  | suspend (t : Tid) (env : Env) (k : Lid) : Shows (.main t env) (.suspend t k)
  | settle (t : Tid) (env : Env) (k : Lid) (r : Option V) : Shows (.main t env) (.settle t k r)
  | discard (t : Tid) (k : Lid) (env : Env) : Shows (.drop t k env) (.discard t k)
  | cancel (t : Tid) (k : Lid) (env : Env) (r : Option V) : Shows (.cancel t k env) (.cancel t k r)

/-! ## Histories -/

theorem own_snoc (tr : List (Event V E)) (e : Event V E) :
    own (tr ++ [e]) = own tr ++ if e.own then [e] else [] := by
  rw [own, List.filter_append]
  cases h : e.own <;> simp [own, h]

theorem own_snoc_not {tr : List (Event V E)} {e : Event V E} (h : e.own = false) :
    own (tr ++ [e]) = own tr := by
  rw [own_snoc, h]
  exact List.append_nil _

theorem entered_own (tr : List (Event V E)) : entered (own tr) = entered tr := by
  induction tr using List.reverseRecOn with
  | nil => rfl
  | append_singleton tr e ih =>
    rw [own_snoc, entered_snoc]
    cases e <;> simp only [Event.own, if_true, Bool.false_eq_true, if_false, List.append_nil,
      entered_snoc, ih, Nat.add_zero]

theorem results_own (tr : List (Event V E)) : results (own tr) = results tr := by
  induction tr using List.reverseRecOn with
  | nil => rfl
  | append_singleton tr e ih =>
    rw [own_snoc, results_snoc]
    cases e <;> simp only [Event.own, if_true, Bool.false_eq_true, if_false, List.append_nil,
      results_snoc, ih]

section
variable {cfg : Cfg V} {s s' : Sys V E} {t : Tid} {k : Lid} {c c' : Call V E} {x : Status V E}

/-! ## Reading off `abs` -/

theorem abs_get (hl : Linked s) (k : Lid) : (abs s)[k]? = (status s k).map view := by
  rw [abs, List.getElem?_map]
  cases hk : status s k with
  | none =>
    rw [List.getElem?_eq_none (by rw [List.length_range]; exact length_le_of_status hl hk)]
    rfl
  | some x =>
    have hlt : k < (List.range s.lingers.length).length := by
      rw [List.length_range]; exact lt_of_status hk
    rw [List.getElem?_eq_getElem hlt, List.getElem_range, Option.map_some, hk]
    rfl

theorem abs_length : (abs s).length = s.lingers.length := by simp [abs]

/-- The functions are where they were. -/
theorem abs_congr (hl : Linked s) (hl' : Linked s') (hlen : s'.lingers.length = s.lingers.length)
    (h : ∀ k < s.lingers.length, (status s' k).map view = (status s k).map view) :
    abs s' = abs s := by
  refine List.ext_getElem (by rw [abs_length, abs_length, hlen]) fun k hk' hk => ?_
  rw [← Option.some.injEq, ← List.getElem?_eq_getElem, ← List.getElem?_eq_getElem, abs_get hl',
    abs_get hl]
  exact h k (by rwa [abs_length] at hk)

/-- One function is somewhere else. -/
theorem abs_set (hl : Linked s) (hl' : Linked s') (hlen : s'.lingers.length = s.lingers.length)
    (hlt : k < s.lingers.length) (hk : status s' k = some x)
    (hother : ∀ j < s.lingers.length, j ≠ k → status s' j = status s j) :
    abs s' = (abs s).set k (view x) := by
  refine List.ext_getElem (by rw [List.length_set, abs_length, abs_length, hlen]) fun j hj' hj => ?_
  rw [← Option.some.injEq, ← List.getElem?_eq_getElem, ← List.getElem?_eq_getElem, abs_get hl']
  rw [List.length_set, abs_length] at hj
  by_cases hjk : j = k
  · subst hjk
    rw [hk, List.getElem?_set_self (by rw [abs_length]; exact hlt)]
    rfl
  · rw [hother j hj hjk, List.getElem?_set_ne (Ne.symm hjk), abs_get hl]

/-- There is one more. -/
theorem abs_append (hl : Linked s) (hl' : Linked s')
    (hlen : s'.lingers.length = s.lingers.length + 1) (hk : status s' s.lingers.length = some x)
    (hother : ∀ j < s.lingers.length, status s' j = status s j) : abs s' = abs s ++ [view x] := by
  refine List.ext_getElem? fun j => ?_
  rcases Nat.lt_trichotomy j s.lingers.length with hj | rfl | hj
  · rw [abs_get hl', hother j hj, List.getElem?_append_left (by rw [abs_length]; exact hj),
      abs_get hl]
  · rw [abs_get hl', hk, ← abs_length, List.getElem?_concat_length]
    rfl
  · rw [List.getElem?_eq_none, List.getElem?_eq_none]
    · rw [List.length_append, abs_length]; exact hj
    · rw [abs_length, hlen]; exact hj

theorem free_abs (hl : Linked s) (hc : (s.threads t).call = none) : Free t (abs s) := by
  intro k b h hk
  rw [abs_get hl, Option.map_eq_some_iff] at hk
  obtain ⟨x, hx, hv⟩ := hk
  cases x with
  | idle c tr => cases hv
  | running u th c =>
    cases hv
    rw [(running_of_status hx).2] at hc
    cases hc
  | _ =>
    rename_i l
    obtain ⟨cell, tr⟩ := l
    cases cell <;> cases hv

theorem live_abs (hl : Linked s) : Coroutine.live (abs s) = live s := by
  have hmap : (abs s).map (·.phase.live) = s.lingers.map isLive := by
    refine List.ext_getElem? fun k => ?_
    rw [List.getElem?_map, List.getElem?_map, abs_get hl]
    cases hk : s.lingers[k]? with
    | none => rw [status, hk]; rfl
    | some l =>
      obtain ⟨cell, tr⟩ := l
      cases cell with
      | resuming t g =>
        obtain ⟨x, hx⟩ : ∃ x, status s k = some x := by
          rw [← Option.isSome_iff_exists, Option.isSome_iff_ne_none]
          exact fun h => absurd (List.getElem?_eq_some_iff.mp hk).1
            (Nat.not_lt.mpr (length_le_of_status hl h))
        rw [status, hk] at hx ⊢
        simp only [Option.map_eq_some_iff] at hx
        obtain ⟨c, hc, -⟩ := hx
        simp only [hc, Option.map_some]
        rfl
      | _ => rw [status, hk]; rfl
  have hcount := congrArg (List.countP id) hmap
  rwa [List.countP_map, List.countP_map] at hcount

/-! ## Steps -/

/-- A step of the function's own is what may follow. -/
theorem event_follows {a : Act V E} {e : Event V E} {th : Thread V E} {ok tidy : Prop}
    (hcore : Core ok tidy t th) (hc : th.call = some c) (he : th.event a = some e) :
    Follows (own c.trace) e := by
  -- The closure's state and the history agree.
  have hbody {b : Body} (hb : th.base = .body b) : InBody t th c b := by
    simp only [Core, hb, hc] at hcore
    exact hcore.2
  cases a with
  | deliver no => cases he
  | run now =>
    simp only [Thread.event] at he
    split at he
    · rename_i b c₀ _ hb hc₀
      obtain rfl : c₀ = c := Option.some.inj (hc₀.symm.trans hc)
      split at he <;> cases he
      rename_i hcalled
      change entered (own c₀.trace) = 0
      rw [entered_own, (hbody hb).run.trace.entered, hcalled.2.2]
    · cases he
  | fn a =>
    simp only [Thread.event] at he
    split at he
    · rename_i b _ hb
      split at he
      · rename_i hpos
        have hfits := (hbody hb).body.fits
        rw [hpos] at hfits
        have hrun : entered (own c.trace) = 1 ∧ results (own c.trace) = [] := by
          rw [entered_own, results_own, (hbody hb).run.trace.entered, (hbody hb).run.trace.results,
            show c.functional = _ from hfits]
          exact ⟨rfl, rfl⟩
        cases a <;> cases he <;> exact hrun
      · cases he
    · cases he

/-- What a step adds to a function's own history. -/
theorem act_own {a : Act V E} {w : World} {th th' : Thread V E} (hs : th.step w a = some th')
    (hc : th.call = some c) (hc' : th'.call = some c') :
    own c'.trace = own c.trace ++ (th.event a).toList := by
  rcases Thread.step_event hs hc hc' with htr | ⟨he, htr⟩
  · rw [htr]
    cases he : th.event a with
    | none => simp
    | some e =>
      rw [Option.toList_some, own_snoc, Thread.event_own he]
      rfl
  · rw [htr, own_snoc_not rfl, he]
    simp

end

/-- A step while nothing has failed, with what is known of its states. -/
structure FineStep (cfg : Cfg V) (s : Sys V E) (lab : Label V E) (s' : Sys V E) : Prop where
  build : cfg.notls = false
  step : Sys.step cfg s lab = some s'
  fine : Fine cfg s lab
  good : Good True True s
  good' : Good True True s'
  weak : Good False False s
  linked : Linked s
  linked' : Linked s'
  groups : GroupsOk cfg s

/-- It is seen as an operation on the functions, or not seen. -/
def Seen (cfg : Cfg V) (s : Sys V E) (lab : Label V E) (s' : Sys V E) : Prop :=
  abs s' = abs s ∨ ∃ op, Shows lab op ∧ Step protocol cfg.limit (abs s) op (abs s')

namespace FineStep

variable {cfg : Cfg V} {s s' : Sys V E} {lab : Label V E} {t : Tid} {k : Lid} {x : Status V E}
  {c : Call V E} {env : Env}

theorem idle (h : FineStep cfg s lab s') (hi : Sys.idle (s.threads t) = true) :
    (s.threads t).call = none :=
  ((h.good.threads t).idle hi).2.2.1

/-- A thread outside `resume` writes no `Linger`. -/
theorem outside (h : FineStep cfg s lab s') (hi : Sys.idle (s.threads lab.tid) = true)
    (hls : s'.lingers = s.lingers) : abs s' = abs s := by
  refine abs_congr h.linked h.linked' (by rw [hls]) fun k _ => ?_
  rw [status_of_other h.build h.linked h.step (by rw [hls])
    fun c hc => by rw [h.idle hi] at hc; cases hc]

/-- The function the step is about, if any, looks the same. -/
theorem unseen (h : FineStep cfg s lab s') (hlen : s'.lingers.length = s.lingers.length)
    (hk : ∀ k, touched s lab = some k → (status s' k).map view = (status s k).map view) :
    abs s' = abs s := by
  refine abs_congr h.linked h.linked' hlen fun k hlt => ?_
  by_cases ht : touched s lab = some k
  · exact hk k ht
  · rw [status_untouched h.build h.weak h.linked h.step hlt ht]

/-- The function the step is about is somewhere else. -/
theorem moves (h : FineStep cfg s lab s') (ht : touched s lab = some k)
    (hlen : s'.lingers.length = s.lingers.length) (hk : k < s.lingers.length)
    (hx : status s' k = some x) : abs s' = (abs s).set k (view x) :=
  abs_set h.linked h.linked' hlen hk hx fun _ hj hjk =>
    status_untouched h.build h.weak h.linked h.step hj fun hne =>
      hjk (Option.some.inj (hne.symm.trans ht))

/-- There is a new function. -/
theorem adds (h : FineStep cfg s lab s') (ht : touched s lab = some s.lingers.length)
    (hlen : s'.lingers.length = s.lingers.length + 1) (hx : status s' s.lingers.length = some x) :
    abs s' = abs s ++ [view x] :=
  abs_append h.linked h.linked' hlen hx fun _ hj =>
    status_untouched h.build h.weak h.linked h.step hj fun hne =>
      Nat.ne_of_gt hj (Option.some.inj (ht.symm.trans hne))

theorem room (h : FineStep cfg s lab s') (hy : Yields cfg) (hle : live s ≤ cfg.limit) {group : Gid}
    {p : Pool Gid} (hp : tryFrom cfg.newGroup s.groups = (some group, p)) :
    Coroutine.live (abs s) < cfg.limit := by
  rw [live_abs h.linked]
  refine Nat.lt_of_le_of_ne hle fun hlive => ?_
  rw [← h.groups.exhausted_iff hy, hp] at hlive
  cases hlive

/-- The function a thread is in a call on. -/
theorem running (h : FineStep cfg s lab s') (hc : (s.threads t).call = some c) :
    (abs s)[c.linger]? = some ⟨.running t c.launching, own c.trace⟩ := by
  rw [abs_get h.linked, h.linked.running hc]
  rfl

theorem waiting (h : FineStep cfg s lab s') {cont : Continuation V E} {tr : List (Event V E)}
    (hk : s.lingers[k]? = some ⟨.continuation cont, tr⟩) :
    (abs s)[k]? = some ⟨.waiting, own tr⟩ := by
  rw [abs_get h.linked, status_idle hk]
  rfl

/-! ## By kind of step -/

/-- The first step of `resume` installs the block. -/
theorem begins (h : FineStep cfg s lab s') {s₁ : Sys V E} {cont : Continuation V E} {us : UInt64}
    {tr : List (Event V E)} {launching : Bool} (hk : k < s₁.lingers.length)
    (htls : cont.tls.isSome = true) (hf : EnvFine env)
    (hb : Begin s₁ t k cont tr us launching env s') :
    ∃ th c, status s' k = some (.running t th c) ∧ c.launching = launching ∧ c.trace = tr := by
  cases hb with
  | missing tls => rw [tls] at htls; cases htls
  | enters tcb tls installs => exact ⟨_, _, status_entered hk rfl, rfl, rfl⟩
  | fails tcb tls installs => rw [hf.install] at installs; cases installs

/-- A step of `resume` before the jump. -/
theorem advances (h : FineStep cfg s (.main t env) s') (hc : (s.threads t).call = some c)
    (hadv : Advance cfg s t c env s') : abs s' = abs s := by
  cases hadv with
  | goes s₁ th c' shared call same =>
    refine h.unseen (congrArg List.length shared.lingers) fun k hk => ?_
    obtain rfl : c.linger = k := by simpa [touched, hc] using hk
    rw [h.linked.goes hc shared.lingers call, h.linked.running hc, Option.map_some, Option.map_some,
      view, view, same.launching, same.trace]
  | fails s₁ th c' ret shared same failed =>
    -- It would have returned an error.
    have hret := h.good'.rets t
    simp only [Sys.failResume, threads_setThread_self] at hret
    rw [not_early hret] at failed
    cases failed

/-- The last step of `resume`: the function is suspended, or it has ended. -/
theorem leaves (h : FineStep cfg s (.main t env) s') (hc : (s.threads t).call = some c)
    (hbase : (s.threads t).base = .main .leave) (hleft : Left cfg s t c env s') :
    Seen cfg s (.main t env) s' := by
  have ht : touched s (.main t env) = some c.linger := by rw [touched, hc]; rfl
  have hlt := h.linked.lt_length hc
  have hcore := h.good.threads t
  simp only [Core, hbase, hc] at hcore
  have hlen := mainStep_length h.build h.weak h.step
  cases hleft with
  | fails error => rw [hcore.2.2.1.error trivial] at error; cases error
  | paused e st m b hs y error task trace =>
    refine .inr ⟨.suspend t c.linger, .suspend t env c.linger, ?_⟩
    rw [h.moves ht hlen hlt (status_idle (List.getElem?_set_self hlt)), view, own_snoc_not rfl]
    exact .suspend t c.linger c.launching _ (h.running hc)
  | settled ctx y r error task trace =>
    refine .inr ⟨.settle t c.linger r.toOption, .settle t env c.linger _, ?_⟩
    have hset (l : Linger V E) : (((s.freeStack (some ctx.stack)).dropContinuation ⟨.empty,
        ⟨none, none, c.task.yielded⟩, c.group, some { (s.threads t).vars with task := .default }⟩
          env.renew).lingers.set c.linger l)[c.linger]? = some l := by
      rw [lingers_dropContinuation, lingers_freeStack]
      exact List.getElem?_set_self hlt
    have hover : (∃ v, settledCell c.launching r = .completion v) ∨
        settledCell c.launching r = .poison ∨
        settledCell c.launching r = .dropped := by
      cases r with
      | ok v => exact .inl ⟨v, rfl⟩
      | error e => cases c.launching <;> simp [settledCell]
    have hphase : endPhase (settledCell c.launching r) = protocol.settled (A := Event V E)
      c.launching r.toOption := by
      cases r <;> cases c.launching <;> rfl
    rw [h.moves ht hlen hlt (status_over (hset _) hover), view, hphase]
    refine .settle t c.linger c.launching _ _ (h.running hc) ?_
    simp [protocol, results_own, trace.results, Completion.result]

/-- A step on a function's stack, or of a handler. -/
theorem acts {a : Act V E} {th : Thread V E} (h : FineStep cfg s (.act t a) s')
    (hs' : s' = { s.setThread t th with dirty := s.dirtyAfter (s.threads t) th })
    (hst : (s.threads t).step (s.world cfg) a = some th) : Seen cfg s (.act t a) s' := by
  subst hs'
  cases hc : (s.threads t).call with
  | none =>
    refine .inl (h.unseen rfl fun k hk => ?_)
    rw [touched, hc] at hk
    cases hk
  | some c =>
    obtain ⟨c', hc', hlau⟩ : ∃ c', th.call = some c' ∧ c'.launching = c.launching := by
      have := (Thread.step_kept hst).call
      rw [hc, Option.map_some, Option.map_eq_some_iff] at this
      obtain ⟨c', hc', hsame⟩ := this
      exact ⟨c', hc', (congrArg Call.launching hsame :)⟩
    have hx : status ({ s with dirty := s.dirtyAfter (s.threads t) th }.setThread t th) c.linger =
        some (.running t th c') := h.linked.goes hc rfl hc'
    have ht : touched s (.act t a) = some c.linger := by rw [touched, hc]; rfl
    have htr := act_own hst hc hc'
    cases he : (s.threads t).event a with
    | none =>
      rw [he, Option.toList_none, List.append_nil] at htr
      refine .inl (h.unseen rfl fun k hk => ?_)
      obtain rfl : c.linger = k := Option.some.inj (ht.symm.trans hk)
      rw [h.linked.running hc]
      refine (congrArg (Option.map view) hx).trans ?_
      rw [Option.map_some, Option.map_some, view, view, hlau, htr]
    | some e =>
      rw [he, Option.toList_some] at htr
      refine .inr ⟨.act t c.linger e, .act t a c.linger e, ?_⟩
      rw [h.moves ht rfl (h.linked.lt_length hc) hx, view, hlau, htr]
      exact .act t c.linger c.launching _ e (h.running hc) (event_follows (h.weak.threads t) hc he)

/-- **A step of the process is one of the functions, or none.** -/
theorem seen (h : FineStep cfg s lab s') (hy : Yields cfg) (hle : live s ≤ cfg.limit) :
    Seen cfg s lab s' := by
  cases step_change h.build h.step with
  | returns _ t j idle label =>
    refine .inl (h.outside ?_ rfl)
    rcases label with ⟨_, _, rfl⟩ | ⟨_, rfl⟩ <;> exact idle
  | caught _ t tid idle _ pre => rw [not_preemptible h.good idle] at pre; cases pre
  | full t us env p idle hp =>
    refine .inr ⟨.refuse t, .refuse t us env, ?_⟩
    rw [h.outside idle rfl]
    refine .refuse t ?_
    rw [live_abs h.linked, ← h.groups.exhausted_iff hy, hp]
  | sets t env group p idle hp =>
    refine .inr ⟨.spawn t, .spawn t env, ?_⟩
    rw [h.adds rfl List.length_append (status_idle List.getElem?_concat_length)]
    exact .spawn t (h.room hy hle hp)
  | launches t us env group p _ idle shared budget hp begin =>
    refine .inr ⟨.start t, .start t us env budget, ?_⟩
    have hlen : (s.launched group p).lingers.length = s.lingers.length + 1 := List.length_append
    obtain ⟨th, c, hx, hlau, htr⟩ := h.begins (by rw [hlen]; exact Nat.lt_succ_self _)
      ((h.good.cell_launched 0 group).1 trivial) h.fine begin
    rw [h.adds rfl ((begin_length begin).trans hlen) hx, view, hlau, htr]
    exact .start t (h.room hy hle hp) (free_abs h.linked (h.idle idle))
  | resumes t k us env cont tr _ idle shared cell begin =>
    refine .inr ⟨.enter t k, .enter t k us env, ?_⟩
    have hk := (List.getElem?_eq_some_iff.mp cell).1
    obtain ⟨th, c, hx, hlau, htr⟩ := h.begins hk ((h.good.lingers k _ cell).1 trivial) h.fine begin
    rw [h.moves rfl (begin_length begin) hk hx, view, hlau, htr]
    exact .enter t k _ (h.waiting cell) (free_abs h.linked (h.idle idle))
  | advances t env c pc _ call base early handlers adv => exact .inl (h.advances call adv)
  | leaves t env c _ call base handlers left =>
    exact h.leaves call base (leaveStep_left h.build h.good call base left)
  | acts t a th step => exact h.acts rfl step
  | drops _ t k cont tr renew new idle cell label =>
    have hk := (List.getElem?_eq_some_iff.mp cell).1
    have hset : ((s.dropContinuation cont renew).lingers.set k new)[k]? = some new := by
      rw [lingers_dropContinuation]
      exact List.getElem?_set_self hk
    have hlen : ((s.dropContinuation cont renew).lingers.set k new).length = s.lingers.length := by
      rw [lingers_dropContinuation, List.length_set]
    rcases label with ⟨env, rfl, -, rfl⟩ | ⟨env, rfl, -, rfl⟩
    · refine .inr ⟨.discard t k, .discard t k env, ?_⟩
      rw [h.moves rfl hlen hk (status_over hset (.inr (.inr rfl)))]
      exact .discard t k _ _ (h.waiting cell) (.inl rfl)
    · refine .inr ⟨.cancel t k (some cfg.unit), .cancel t k env _, ?_⟩
      rw [h.moves rfl hlen hk (status_over hset (.inl ⟨_, rfl⟩)), view, own_snoc_not rfl]
      exact .cancel t k _ _ (h.waiting cell)
  | forgets t k env l idle cell done =>
    refine .inr ⟨.discard t k, .discard t k env, ?_⟩
    have hk := (List.getElem?_eq_some_iff.mp cell).1
    have hset : (s.lingers.set k ⟨.dropped, l.trace⟩)[k]? = some ⟨.dropped, l.trace⟩ :=
      List.getElem?_set_self hk
    have hover : status s k = some (.over l) :=
      status_over cell (by rcases done with hd | hd <;> [exact .inr (.inl hd); exact .inl hd])
    rw [h.moves rfl List.length_set hk (status_over hset (.inr (.inr rfl)))]
    refine .discard t k (endPhase l.cell) _ (by rw [abs_get h.linked, hover]; rfl) (.inr ?_)
    rcases done with hd | ⟨v, hd⟩ <;> rw [hd] <;> exact ⟨_, rfl⟩
  | stays => exact .inl rfl
  | exits t p idle => exact .inl (h.outside idle rfl)

end FineStep

section
variable {cfg : Cfg V} {s : Sys V E}

end

/-- A function works on thread `0`, is paused there, and is done on thread `1`. -/
def movesOn : List (Label Bool Bool) :=
  launchOn 0 ++
    .act 0 (.fn (.work 7)) :: preempted 0 .Alarm 10000 ++
    .resume 1 0 5 (.fine 0) :: List.replicate 4 (.main 1 (.fine 0)) ++
    .act 1 (.fn (.finish (.ok true))) :: List.replicate 6 (.act 1 (.run 0))

end Inger.L4
