import Inger.L5Future.Polls

/-!
# The channel of a `PreemptiveFuture`

`poll` sends one closure into a `sync_channel(1)` and gives the timed function
one slice. Sender and receiver are on one kernel thread, so a send into a full
channel never ends.

The send assumes that every slice receives once. A slice that times out before
`recv` does not, and neither does one that starts behind it: after a timeout
there, and also after a `pause` that the user's function or the closure made
itself. `send_empty_iff`: at a send the channel is empty exactly if the last
slice did not end before `recv` and the one before it did not end behind `recv`
other than in the loop's own `pause`. The future asks to be polled again after a
timeout, so both happen (`third_poll_blocks`).
-/
namespace Inger.L5.Polls

variable {I V : Type}

/-- The channel is left full: the last slice ended before `recv`, or it started
behind `recv`, where the one before it had ended. -/
def leftFull : List Slice → Bool
  | .early :: _ => true
  | _ :: .behind :: _ => true
  | _ => false

theorem leftFull_cons {x : Slice} {xs : List Slice} (hx : x ≠ .early) :
    leftFull (x :: xs) = decide (xs.head? = some .behind) := by
  cases xs with
  | nil => cases x <;> first | rfl | exact absurd rfl hx
  | cons y xs => cases x <;> cases y <;> first | rfl | exact absurd rfl hx

/-- The function, unfinished and not running, stands behind `recv` exactly after
a slice that ended there, and the channel is as `leftFull` says. -/
structure Suspended (f : PreemptiveFuture I V) (pc : Pc I V) : Prop where
  behind : pc ≠ .recv ↔ f.slices.head? = some .behind
  channel : f.channel.isSome = leftFull f.slices

/-- The function runs behind `recv`: the closure just sent is still in the
channel exactly if the slice started there. -/
def Received (f : PreemptiveFuture I V) : Prop :=
  f.channel.isSome = decide (f.slices.head? = some .behind)

/-- The function runs: before `recv`, where the slice started, with the closure
in the channel; or behind it. -/
structure Runs (f : PreemptiveFuture I V) (pc : Pc I V) : Prop where
  ahead : pc = .recv → f.channel.isSome = true ∧ f.slices.head? ≠ some .behind
  received : pc ≠ .recv → Received f

/-- What is in the channel, by where the executor's thread is. -/
def Occupied (f : PreemptiveFuture I V) : Prop :=
  match f.ctl with
  | .idle => ∀ pc, f.fn = some pc → Suspended f pc
  | .send _ pc => Suspended f pc
  | .resume pc => Runs f pc
  | .run pc _ => Runs f pc
  | .pausing _ _ => Received f
  | .back (.continuation pc _) => Suspended f pc
  | .back (.completion _) => True

/-- The slice ends by a timeout. -/
theorem Runs.timeout {f : PreemptiveFuture I V} {pc : Pc I V} (h : Runs f pc) (l : Linger I V) :
    Suspended { f with ctl := .back l, slices := pc.timeout :: f.slices } pc := by
  by_cases hpc : pc = .recv
  · subst hpc
    exact ⟨by simp [Pc.timeout], (h.ahead rfl).1⟩
  · have hx : pc.timeout = .behind := by cases pc <;> first | rfl | exact absurd rfl hpc
    rw [hx]
    exact ⟨by simp [hpc], (h.received hpc).trans (leftFull_cons (by simp)).symm⟩

/-- The slice ends in a `pause`. -/
theorem Received.yield {f : PreemptiveFuture I V} (h : Received f) (back : Pc I V)
    (l : Linger I V) :
    Suspended { f with ctl := .back l, slices := back.yield :: f.slices } back := by
  have hx : back.yield ≠ .early := by cases back <;> simp [Pc.yield]
  refine ⟨?_, h.trans (leftFull_cons hx).symm⟩
  cases back <;> simp [Pc.yield]

theorem occupied_step {us : UInt64} {f f' : PreemptiveFuture I V} {l : Label I V} (h : Occupied f)
    (hs : f.step us l = some f') (hbusy : f.Busy) : Occupied f' := by
  unfold Occupied at h
  have received {pc : Pc I V} {d : UInt64} (hc : f.ctl = .run pc d) (hpc : pc ≠ .recv) :
      Received f := by
    rw [hc] at h
    exact h.received hpc
  -- Behind `recv` only the place changes.
  have move {g : PreemptiveFuture I V} {pc pc' : Pc I V} {d : UInt64} (hc : f.ctl = .run pc d)
      (hpc : pc ≠ .recv) (hpc' : pc' ≠ .recv) (hch : g.channel = f.channel)
      (hsl : g.slices = f.slices) :
      Runs g pc' := by
    refine ⟨fun he => absurd he hpc', fun _ => ?_⟩
    rw [Received, hch, hsl]
    exact received hc hpc
  -- `self.fun` stays `None`.
  have leave {g : PreemptiveFuture I V} (r : Poll V) (hfn : g.fn = none) :
      Occupied (g.leave r) := by
    intro pc hpc
    rw [show g.fn = _ from hpc] at hfn
    cases hfn
  cases step_cases hs with
  | poll i hc hf =>
    rw [hc] at h
    exact ⟨(h _ hf).behind, (h _ hf).channel⟩
  | gone i hc hf => exact leave .pending hf
  | send hc hch =>
    rw [hc] at h
    refine ⟨fun hpc => ⟨rfl, fun hl => h.behind.mpr hl hpc⟩, fun hpc => ?_⟩
    simp [Received, PreemptiveFuture.log, h.behind.mp hpc]
  | stamp now hc =>
    rw [hc] at h
    exact ⟨h.ahead, h.received⟩
  | recv hc hch =>
    rw [hc] at h
    refine ⟨fun hpc => absurd hpc (by simp), fun _ => ?_⟩
    simp [Received, PreemptiveFuture.goto, (h.ahead rfl).2]
  | prep hc => exact move hc (by simp) (by simp) rfl rfl
  | call hc => exact move hc (by simp) (by simp) rfl rfl
  | pending hc => exact move hc (by simp) (by simp) rfl rfl
  | ready v hc => exact move hc (by simp) (by simp) rfl rfl
  | @pause pc back d hc hb => exact received hc (by rintro rfl; cases hb)
  | finish hc => trivial
  | @timeout now pc d hc =>
    rw [hc] at h
    unfold PreemptiveFuture.preempt
    split
    · exact h.timeout _
    · simpa only [Occupied, hc] using h
  | @yield now back d hc =>
    rw [hc] at h
    unfold PreemptiveFuture.preempt
    split
    · exact Received.yield h back _
    · simpa only [Occupied, hc] using h
  | result hc => exact leave _ (hbusy (by simp [hc]))
  | suspend hc =>
    rw [hc] at h
    intro pc hpc
    cases hpc
    exact ⟨h.behind, h.channel⟩
  | fail hc => exact leave _ (hbusy (by obtain hc | ⟨d, hc⟩ := hc <;> simp [hc]))
  | panic hc => exact leave _ (hbusy (by obtain hc | ⟨d, hc⟩ := hc <;> simp [hc]))

theorem occupied_reachable {us : UInt64} {f : PreemptiveFuture I V}
    (hr : (machine I V us).Reachable f) :
    Occupied f := by
  refine (LTS.Inductive.reachable (I := fun f => Occupied f ∧ f.Busy) ⟨?_, ?_⟩ f hr).1
  · rintro f rfl
    refine ⟨fun pc hpc => ?_, fun hi => absurd rfl hi⟩
    cases hpc
    exact ⟨by simp [PreemptiveFuture.poll_fns], rfl⟩
  · intro f l f' h hs
    exact ⟨occupied_step h.1 hs h.2, busy_step h.2 hs⟩

/-- **The channel is empty at a send** exactly if the slice before it has not
ended before `recv`, nor the one before that behind it other than in the loop's
`pause`. -/
theorem send_empty_iff (us : UInt64) (f : PreemptiveFuture I V)
    (hr : (machine I V us).Reachable f) (i : I) (pc : Pc I V) (hc : f.ctl = .send i pc) :
    f.channel = none ↔ leftFull f.slices = false := by
  have h := occupied_reachable hr
  simp only [Occupied, hc] at h
  rw [← h.channel, Option.isSome_eq_false_iff, Option.isNone_iff_eq_none]

theorem machine_of_exec (us : UInt64) (ls : List (Label I V)) (p : PreemptiveFuture I V → Bool)
    (h : (LTS.exec (PreemptiveFuture.step us) .poll_fns ls).map p = some true) :
    ∃ f, (machine I V us).Reachable f ∧ p f = true :=
  LTS.reach_of_exec rfl h

/-- A poll up to where the user's function runs. -/
def intoBody : List (Label Bool Bool) := [.poll true, .send, .stamp 0, .recv, .prep, .call]

/-- The slice is over, and `poll` returns. -/
def sliceEnds : List (Label Bool Bool) := [.preempt 5000, .ret]

theorem send_empty_iff_fullSlice : ∃ f : PreemptiveFuture Bool Bool,
      (machine Bool Bool 5).Reachable f ∧
    f.ctl = .send true .recv ∧ f.slices = [.paused] ∧ f.channel = none := by
  obtain ⟨f, hr, hp⟩ := machine_of_exec 5 (intoBody ++ [.returned none, .pause] ++ sliceEnds ++
    [.poll true]) (fun f => decide (f.ctl = .send true .recv ∧ f.slices = [.paused])) (by decide)
  obtain ⟨hc, hf⟩ := of_decide_eq_true hp
  exact ⟨f, hr, hc, hf, (send_empty_iff 5 f hr true .recv hc).mpr (by rw [hf]; rfl)⟩

/-- **The third poll blocks forever**: the first slice times out in the user's
function, the second goes on from there and ends in the loop's `pause`. -/
theorem third_poll_blocks : ∃ f : PreemptiveFuture Bool Bool, (machine Bool Bool 5).Reachable f ∧
    f.slices = [.paused, .behind] ∧ f.ctl = .send true .recv ∧ f.channel = some true ∧
    ∀ l, f.step 5 l = none := by
  obtain ⟨f, hr, hp⟩ := machine_of_exec 5
    (intoBody ++ sliceEnds ++ [.poll true, .send, .stamp 0, .returned none, .pause] ++ sliceEnds ++
      [.poll true])
    (fun f => decide (f.slices = [.paused, .behind] ∧ f.ctl = .send true .recv ∧
      f.channel = some true))
    (by decide)
  obtain ⟨hs, hc, hch⟩ := of_decide_eq_true hp
  refine ⟨f, hr, hs, hc, hch, fun l => ?_⟩
  cases l <;> simp [PreemptiveFuture.step, hc, hch]

/-- Nothing has to time out for that: here the user's function calls `pause`. -/
example : (LTS.exec (PreemptiveFuture.step (I := Bool) (V := Bool) 5) .poll_fns
    (intoBody ++ .pause :: sliceEnds ++ [.poll true, .send, .stamp 0, .returned none, .pause] ++
      sliceEnds ++
      [.poll true])).map (fun f => (f.slices, f.channel)) =
        some ([.paused, .behind], some true) := by
  decide

end Inger.L5.Polls
