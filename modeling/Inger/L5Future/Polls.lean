import Inger.Core.History
import Inger.L2Machine.Budget

/-!
# What a `PreemptiveFuture` makes of the poll function it wraps

`poll_fns` wraps a user's poll function in a timed function that loops: receive
a closure from a `sync_channel(1)`, run it, poll, and `pause` while the poll is
pending. `poll` of the future sends one closure and resumes the timed function
for one time slice.

The machine has what an executor and a user see of this: each poll, each closure
that is sent or run, each call of the user's function and what it returned, each
`pause`, the end of the timed function, and what `poll` returned, in the order
they happened (`Event`). A slice has a deadline. `resume` stamps it, `pause`
clears it, and the slice that is preempted with a deadline of 0 counts as one
that yielded, so that `poll` does not ask to be polled again. The user's function
and the closures may call `pause` themselves; a slice may also end between the
return of the user's function and the end of the timed function around it.

`Refines` says what is wanted of a history. The result and the order of the
closures are as they should be in every run (`inv_reachable`). That a function which
merely timed out is polled again needs a deadline that is not 0 by accident: the
sum of the clock and the budget may wrap around to it (`polls_refine_iff`).
-/
namespace Inger.L5.Polls

open L2 (stamp)

/-- What `poll` returned; `panic` is the function's panic, which `resume`
raises again. -/
inductive Poll (V : Type) where
  | ready (v : V)
  | error
  | pending
  | panic
  deriving DecidableEq

/-- Where the timed function stands: about to receive, in the closure, about
to call the user's function, in it, about to `pause`, or about to return what
it returned.
mirrors src/future.rs:42-58 -/
inductive Pc (I V : Type) where
  | recv
  | prep (i : I)
  | call
  | body
  | pause
  | ready (v : V)
  deriving DecidableEq

/-- Where a call of `pause` returns to, if there is one: the loop's own, and
those of the user's code. -/
def Pc.behindPause {I V : Type} : Pc I V → Option (Pc I V)
  | .pause => some .recv
  | .prep i => some (.prep i)
  | .body => some .body
  | _ => none

/-- How a slice that left the function unfinished ended: before `recv`; behind
it, by a timeout or by a `pause` of the user's code; or in the loop's `pause`. -/
inductive Slice where
  | early
  | behind
  | paused
  deriving DecidableEq, Repr

/-- The slice timed out here. -/
def Pc.timeout {I V : Type} : Pc I V → Slice
  | .recv => .early
  | _ => .behind

/-- The slice ended in a `pause` that returns to here. -/
def Pc.yield {I V : Type} : Pc I V → Slice
  | .recv => .paused
  | _ => .behind

/-- What `resume` leaves of the function. -/
inductive Linger (I V : Type) where
  | completion (v : V)
  | continuation (pc : Pc I V) (yielded : Bool)
  deriving DecidableEq

/-- The executor's thread: outside `poll`, before `self.pre.send`, in `resume`
before the deadline is stamped, in the function, in its call of `pause`, and
behind `resume`. -/
inductive Ctl (I V : Type) where
  | idle
  | send (i : I) (pc : Pc I V)
  | resume (pc : Pc I V)
  | run (pc : Pc I V) (deadline : UInt64)
  | pausing (back : Pc I V) (deadline : UInt64)
  | back (linger : Linger I V)
  deriving DecidableEq

inductive Event (I V : Type) where
  | poll
  | send (i : I)
  | prep (i : I)
  | call
  | returned (res : Option V)
  | pause
  | finish (v : V)
  | ret (r : Poll V) (woken : Bool)
  deriving DecidableEq

/-- `self.fun` as the place where the function stands, the channel and the
executor's thread. `history` and `slices` are ghost; of the slices the last is
first. `I` is the type of the closures and `V` that of the result.
mirrors src/future.rs:11-21 -/
structure PreemptiveFuture (I V : Type) where
  fn : Option (Pc I V)
  channel : Option I
  ctl : Ctl I V
  history : List (Event I V)
  slices : List Slice
  deriving DecidableEq

/-- What the executor, the clock, the timer and the user's code do; `returned
none` is `Pending`. -/
inductive Label (I V : Type) where
  | poll (i : I)
  | send
  | stamp (now : UInt64)
  | recv
  | prep
  | call
  | returned (res : Option V)
  | pause
  | finish
  | preempt (now : UInt64)
  | ret
  | fail
  | panic

namespace PreemptiveFuture

variable {I V : Type}

def log (f : PreemptiveFuture I V) (e : Event I V) : PreemptiveFuture I V :=
  { f with history := f.history ++ [e] }

/-- The function is launched with no budget.
mirrors src/future.rs:41-64 -/
def poll_fns : PreemptiveFuture I V := ⟨some .recv, none, .idle, [], []⟩

/-- The function goes on at `pc`. -/
def goto (f : PreemptiveFuture I V) (pc : Pc I V) (deadline : UInt64) : PreemptiveFuture I V :=
  { f with ctl := .run pc deadline }

/-- The handler `preempt`: the slice is over if the deadline is not ahead, and
counts as yielded if it is 0.
mirrors src/linger.rs:431-439 -/
def preempt (f : PreemptiveFuture I V) (pc : Pc I V) (slice : Slice) (deadline now : UInt64) :
    PreemptiveFuture I V :=
  if deadline ≤ now then
    { f with ctl := .back (.continuation pc (deadline = 0)), slices := slice :: f.slices }
  else f

/-- `poll` returns and `self.fun` stays `None`. -/
def leave (f : PreemptiveFuture I V) (r : Poll V) : PreemptiveFuture I V :=
  { f with ctl := .idle }.log (.ret r false)

/-- `none`: not possible now; for `send` and `recv`, they block.
mirrors src/future.rs:42-58,71-95 -/
def step (us : UInt64) (f : PreemptiveFuture I V) (l : Label I V) : Option (PreemptiveFuture I V) :=
  match f.ctl, l with
  | .idle, .poll i =>
    match f.fn with
    | some pc => some ({ f with fn := none, ctl := .send i pc }.log .poll)
    | none => some ((f.log .poll).leave .pending)
  | .send i pc, .send =>
    match f.channel with
    | none => some ({ f with channel := some i, ctl := .resume pc }.log (.send i))
    | some _ => none
  | .resume pc, .stamp now => some (f.goto pc (stamp now us))
  | .run .recv d, .recv =>
    match f.channel with
    | some i => some ({ f with channel := none }.goto (.prep i) d)
    | none => none
  | .run (.prep i) d, .prep => some ((f.goto .call d).log (.prep i))
  | .run .call d, .call => some ((f.goto .body d).log .call)
  | .run .body d, .returned none => some ((f.goto .pause d).log (.returned none))
  | .run .body d, .returned (some v) => some ((f.goto (.ready v) d).log (.returned (some v)))
  -- It clears the deadline and is preempted on its return.
  | .run pc _, .pause => pc.behindPause.map fun back => { f with ctl := .pausing back 0 }.log .pause
  | .run (.ready v) _, .finish => some ({ f with ctl := .back (.completion v) }.log (.finish v))
  | .run pc d, .preempt now => some (f.preempt pc pc.timeout d now)
  | .pausing back d, .preempt now => some (f.preempt back back.yield d now)
  | .back (.completion v), .ret => some (f.leave (.ready v))
  -- `wake_by_ref` unless it yielded.
  | .back (.continuation pc yielded), .ret =>
    some ({ f with fn := some pc, ctl := .idle }.log (.ret .pending !yielded))
  | .run _ _, .fail => some (f.leave .error)
  | .run _ _, .panic => some (f.leave .panic)
  | .resume _, .fail => some (f.leave .error)
  | .resume _, .panic => some (f.leave .panic)
  | _, _ => none

end PreemptiveFuture

variable {I V : Type}

def machine (I V : Type) (us : UInt64) : LTS (PreemptiveFuture I V) (Label I V) :=
  LTS.ofFn (fun f => f = .poll_fns) (PreemptiveFuture.step us)

/-- The steps, one by one. -/
inductive Step (us : UInt64) (f : PreemptiveFuture I V) : Label I V → PreemptiveFuture I V → Prop
  | poll (i : I) {pc : Pc I V} (hc : f.ctl = .idle) (hf : f.fn = some pc) :
    Step us f (.poll i) ({ f with fn := none, ctl := .send i pc }.log .poll)
  | gone (i : I) (hc : f.ctl = .idle) (hf : f.fn = none) :
    Step us f (.poll i) ((f.log .poll).leave .pending)
  | send {i : I} {pc : Pc I V} (hc : f.ctl = .send i pc) (hch : f.channel = none) :
    Step us f .send ({ f with channel := some i, ctl := .resume pc }.log (.send i))
  | stamp (now : UInt64) {pc : Pc I V} (hc : f.ctl = .resume pc) :
    Step us f (.stamp now) (f.goto pc (stamp now us))
  | recv {i : I} {d : UInt64} (hc : f.ctl = .run .recv d) (hch : f.channel = some i) :
    Step us f .recv ({ f with channel := none }.goto (.prep i) d)
  | prep {i : I} {d : UInt64} (hc : f.ctl = .run (.prep i) d) :
    Step us f .prep ((f.goto .call d).log (.prep i))
  | call {d : UInt64} (hc : f.ctl = .run .call d) : Step us f .call ((f.goto .body d).log .call)
  | pending {d : UInt64} (hc : f.ctl = .run .body d) :
    Step us f (.returned none) ((f.goto .pause d).log (.returned none))
  | ready (v : V) {d : UInt64} (hc : f.ctl = .run .body d) :
    Step us f (.returned (some v)) ((f.goto (.ready v) d).log (.returned (some v)))
  | pause {pc back : Pc I V} {d : UInt64} (hc : f.ctl = .run pc d)
      (hb : pc.behindPause = some back) :
    Step us f .pause ({ f with ctl := .pausing back 0 }.log .pause)
  | finish {v : V} {d : UInt64} (hc : f.ctl = .run (.ready v) d) :
    Step us f .finish ({ f with ctl := .back (.completion v) }.log (.finish v))
  | timeout (now : UInt64) {pc : Pc I V} {d : UInt64} (hc : f.ctl = .run pc d) :
    Step us f (.preempt now) (f.preempt pc pc.timeout d now)
  | yield (now : UInt64) {back : Pc I V} {d : UInt64} (hc : f.ctl = .pausing back d) :
    Step us f (.preempt now) (f.preempt back back.yield d now)
  | result {v : V} (hc : f.ctl = .back (.completion v)) : Step us f .ret (f.leave (.ready v))
  | suspend {pc : Pc I V} {yielded : Bool} (hc : f.ctl = .back (.continuation pc yielded)) :
    Step us f .ret ({ f with fn := some pc, ctl := .idle }.log (.ret .pending !yielded))
  | fail {pc : Pc I V} (hc : f.ctl = .resume pc ∨ ∃ d, f.ctl = .run pc d) :
    Step us f .fail (f.leave .error)
  | panic {pc : Pc I V} (hc : f.ctl = .resume pc ∨ ∃ d, f.ctl = .run pc d) :
    Step us f .panic (f.leave .panic)

theorem step_cases {us : UInt64} {f f' : PreemptiveFuture I V} {l : Label I V}
    (hs : f.step us l = some f') : Step us f l f' := by
  unfold PreemptiveFuture.step at hs
  split at hs
  case h_1 hc =>
    split at hs <;> cases hs <;> rename_i hf
    · exact .poll _ hc hf
    · exact .gone _ hc hf
  case h_2 hc =>
    split at hs <;> cases hs
    exact .send hc ‹_›
  case h_3 hc => cases hs; exact .stamp _ hc
  case h_4 hc =>
    split at hs <;> cases hs
    exact .recv hc ‹_›
  case h_5 hc => cases hs; exact .prep hc
  case h_6 hc => cases hs; exact .call hc
  case h_7 hc => cases hs; exact .pending hc
  case h_8 hc => cases hs; exact .ready _ hc
  case h_9 hc =>
    obtain ⟨back, hb, rfl⟩ := Option.map_eq_some_iff.mp hs
    exact .pause hc hb
  case h_10 hc => cases hs; exact .finish hc
  case h_11 hc => cases hs; exact .timeout _ hc
  case h_12 hc => cases hs; exact .yield _ hc
  case h_13 hc => cases hs; exact .result hc
  case h_14 hc => cases hs; exact .suspend hc
  case h_15 hc => cases hs; exact .fail (.inr ⟨_, hc⟩)
  case h_16 hc => cases hs; exact .panic (.inr ⟨_, hc⟩)
  case h_17 hc => cases hs; exact .fail (.inl hc)
  case h_18 hc => cases hs; exact .panic (.inl hc)
  case h_19 => cases hs

/-- During a poll `self.fun` is `None`. -/
def PreemptiveFuture.Busy (f : PreemptiveFuture I V) : Prop := f.ctl ≠ .idle → f.fn = none

theorem busy_step {us : UInt64} {f f' : PreemptiveFuture I V} {l : Label I V}
    (h : f.Busy) (hs : f.step us l = some f') : f'.Busy := by
  have keep {c : Ctl I V} (hc : f.ctl = c) (hi : c ≠ .idle) :
      f.fn = none := h (by rw [hc]; exact hi)
  cases step_cases hs with
  | poll i hc hf => exact fun _ => rfl
  | gone i hc hf => exact fun hi => absurd rfl hi
  | timeout now hc =>
    unfold PreemptiveFuture.preempt
    split <;> exact fun _ => keep hc (by simp)
  | yield now hc =>
    unfold PreemptiveFuture.preempt
    split <;> exact fun _ => keep hc (by simp)
  | result hc => exact fun hi => absurd rfl hi
  | suspend hc => exact fun hi => absurd rfl hi
  | fail hc => exact fun hi => absurd rfl hi
  | panic hc => exact fun hi => absurd rfl hi
  | send hc hch => exact fun _ => keep hc (by simp)
  | stamp now hc => exact fun _ => keep hc (by simp)
  | recv hc hch => exact fun _ => keep hc (by simp)
  | prep hc => exact fun _ => keep hc (by simp)
  | call hc => exact fun _ => keep hc (by simp)
  | pending hc => exact fun _ => keep hc (by simp)
  | ready v hc => exact fun _ => keep hc (by simp)
  | pause hc hb => exact fun _ => keep hc (by simp)
  | finish hc => exact fun _ => keep hc (by simp)

/-- No `resume` fails, the user's code does not panic, and the readings of the
clock at the start of a slice are among `clock`. -/
def Fine (clock : UInt64 → Prop) (_ : PreemptiveFuture I V) : Label I V → Prop
  | .fail => False
  | .panic => False
  | .stamp now => clock now
  | _ => True

/-! ## Histories -/

def Event.isPoll : Event I V → Bool
  | .poll => true
  | _ => false

/-- The closures, as they were sent. -/
def sends (h : List (Event I V)) : List I :=
  h.filterMap fun
    | .send i => some i
    | _ => none

/-- The closures, as they were run. -/
def preps (h : List (Event I V)) : List I :=
  h.filterMap fun
    | .prep i => some i
    | _ => none

/-- The runs of closures (`some`) and the calls of the user's function (`none`). -/
def calls (h : List (Event I V)) : List (Option I) :=
  h.filterMap fun
    | .prep i => some (some i)
    | .call => some none
    | _ => none

/-- The last of them is a closure: it has run and the call is due. -/
def Due (h : List (Event I V)) : Prop := ∃ i, (calls h).getLast? = some (some i)

/-- What an event says of those before it: `Ready(Ok(v))` is returned once, by
the poll during which the function finished with `v`; it finishes with what the
user's function returned, which is not called again; each call follows a closure
and no closure follows another without a call. -/
def Meets (a : List (Event I V)) : Event I V → Prop
  | .ret r _ =>
    ∀ v, (r = .ready v ↔ .finish v ∈ since Event.isPoll a) ∧
      (r = .ready v → ∀ v' w, .ret (.ready v') w ∉ a)
  | .finish v => .returned (some v) ∈ a
  | .call => Due a ∧ ∀ v, .returned (some v) ∉ a
  | .prep _ => ¬ Due a
  | _ => True

/-- Before the function has finished, a poll returns `Pending` without waking
only right behind a `pause`. -/
def Wakes (a : List (Event I V)) : Event I V → Prop
  | .ret .pending false => (∀ v, .finish v ∉ a) → a.getLast? = some .pause
  | _ => True

structure Refines (h : List (Event I V)) : Prop where
  meets : Each Meets h
  order : preps h <+: sends h
  wakes : Each Wakes h

section

variable (h : List (Event I V)) (e : Event I V)

theorem sends_snoc : sends (h ++ [e]) = sends h ++ sends [e] := List.filterMap_append

theorem preps_snoc : preps (h ++ [e]) = preps h ++ preps [e] := List.filterMap_append

theorem calls_snoc : calls (h ++ [e]) = calls h ++ calls [e] := List.filterMap_append

end

theorem order_snoc {h : List (Event I V)} {e : Event I V} (ho : preps h <+: sends h)
    (hs : sends [e] = []) (hp : preps [e] = []) : preps (h ++ [e]) <+: sends (h ++ [e]) := by
  rwa [sends_snoc, preps_snoc, hs, hp, List.append_nil, List.append_nil]

/-- An event that is neither a closure's run nor a call changes nothing here. -/
theorem due_snoc {h : List (Event I V)} {e : Event I V} (he : calls [e] = []) :
    Due (h ++ [e]) ↔ Due h := by
  rw [Due, calls_snoc, he, List.append_nil, Due]

theorem due_prep (h : List (Event I V)) (i : I) : Due (h ++ [.prep i]) :=
  ⟨i, by rw [calls_snoc]; exact List.getLast?_concat⟩

theorem not_due_call (h : List (Event I V)) : ¬ Due (h ++ [.call]) := by
  rintro ⟨i, hi⟩
  rw [calls_snoc, show calls [(.call : Event I V)] = [none] from rfl, List.getLast?_concat] at hi
  cases hi

/-! ## What every run keeps -/

/-- The closure that was received and has not run. -/
def Pc.held : Pc I V → List I
  | .prep i => [i]
  | _ => []

/-- The function is unfinished and stands at `pc`, with history `h`. -/
structure At (channel : Option I) (h : List (Event I V)) (pc : Pc I V) : Prop where
  fifo : sends h = preps h ++ (pc.held ++ channel.toList)
  due : Due h ↔ pc = .call
  returned : ∀ v, .returned (some v) ∈ h ↔ pc = .ready v
  unfinished : ∀ v, .finish v ∉ h
  unready : ∀ v w, .ret (.ready v) w ∉ h

/-- `poll` is about to return the function's result. -/
structure Finished (h : List (Event I V)) (v : V) : Prop where
  finish : h.getLast? = some (.finish v)
  only : ∀ v', .finish v' ∈ h → v' = v
  unready : ∀ v w, .ret (.ready v) w ∉ h

/-- The unfinished function's place. -/
def PreemptiveFuture.place (f : PreemptiveFuture I V) : Option (Pc I V) :=
  match f.ctl with
  | .idle => f.fn
  | .send _ pc => some pc
  | .resume pc => some pc
  | .run pc _ => some pc
  | .pausing back _ => some back
  | .back (.continuation pc _) => some pc
  | .back (.completion _) => none

structure Inv (f : PreemptiveFuture I V) : Prop where
  meets : Each Meets f.history
  order : preps f.history <+: sends f.history
  unfinished : ∀ pc, f.place = some pc → At f.channel f.history pc
  finished : ∀ v, f.ctl = .back (.completion v) → Finished f.history v
  gone : f.ctl = .idle → f.fn = none → ∃ v, .finish v ∈ f.history

/-- Events that move neither closures nor results. -/
def Event.quiet : Event I V → Bool
  | .poll => true
  | .returned none => true
  | .pause => true
  | .ret .pending _ => true
  | _ => false

section

variable {channel : Option I} {h : List (Event I V)} {pc pc' : Pc I V}

theorem At.move (hat : At channel h pc) (hheld : pc'.held = pc.held)
    (hcall : pc' = .call ↔ pc = .call) (hready : ∀ v, pc' = .ready v ↔ pc = .ready v) :
    At channel h pc' where
  fifo := by rw [hheld, hat.fifo]
  due := hat.due.trans hcall.symm
  returned v := (hat.returned v).trans (hready v).symm
  unfinished := hat.unfinished
  unready := hat.unready

/-- A quiet event, or one of those that `At` does not look at. -/
theorem At.quiet (hat : At channel h pc) {e : Event I V} (he : e.quiet = true) :
    At channel (h ++ [e]) pc where
  fifo := by
    have hs : sends [e] = [] := by cases e <;> first | rfl | cases he
    have hp : preps [e] = [] := by cases e <;> first | rfl | cases he
    rw [sends_snoc, preps_snoc, hs, hp, List.append_nil, List.append_nil, hat.fifo]
  due := by
    have hc : calls [e] = [] := by cases e <;> first | rfl | cases he
    exact (due_snoc hc).trans hat.due
  returned := by
    intro v
    rw [← hat.returned v, List.mem_append, List.mem_singleton, or_iff_left]
    rintro rfl
    cases he
  unfinished := by
    intro v hv
    rw [List.mem_append, List.mem_singleton] at hv
    obtain hv | rfl := hv
    · exact hat.unfinished v hv
    · cases he
  unready := by
    intro v w hv
    rw [List.mem_append, List.mem_singleton] at hv
    obtain hv | rfl := hv
    · exact hat.unready v w hv
    · cases he

theorem At.send (hat : At none h pc) (i : I) : At (some i) (h ++ [.send i]) pc where
  fifo := by
    have hs : sends [(.send i : Event I V)] = [i] := rfl
    have hp : preps [(.send i : Event I V)] = [] := rfl
    rw [sends_snoc, preps_snoc, hs, hp, List.append_nil, hat.fifo]
    simp
  due := (due_snoc rfl).trans hat.due
  returned v := by simpa using hat.returned v
  unfinished v := by simpa using hat.unfinished v
  unready v w := by simpa using hat.unready v w

theorem At.recv {i : I} (hat : At (some i) h (.recv : Pc I V)) : At none h (.prep i : Pc I V) where
  fifo := hat.fifo
  due := hat.due.trans (by simp)
  returned v := (hat.returned v).trans (by simp)
  unfinished := hat.unfinished
  unready := hat.unready

theorem At.prep {i : I} (hat : At channel h (.prep i : Pc I V)) :
    At channel (h ++ [.prep i]) (.call : Pc I V) where
  fifo := by
    have hs : sends [(.prep i : Event I V)] = [] := rfl
    have hp : preps [(.prep i : Event I V)] = [i] := rfl
    rw [sends_snoc, preps_snoc, hs, hp, List.append_nil, hat.fifo, List.append_assoc]
    rfl
  due := iff_of_true (due_prep h i) rfl
  returned v := by simpa using hat.returned v
  unfinished v := by simpa using hat.unfinished v
  unready v w := by simpa using hat.unready v w

theorem At.call (hat : At channel h (.call : Pc I V)) :
    At channel (h ++ [.call]) (.body : Pc I V) where
  fifo := by
    have hs : sends [(.call : Event I V)] = [] := rfl
    have hp : preps [(.call : Event I V)] = [] := rfl
    rw [sends_snoc, preps_snoc, hs, hp, List.append_nil, List.append_nil, hat.fifo]
    rfl
  due := iff_of_false (not_due_call h) (by simp)
  returned v := by simpa using hat.returned v
  unfinished v := by simpa using hat.unfinished v
  unready v w := by simpa using hat.unready v w

theorem At.ready (hat : At channel h (.body : Pc I V)) (v : V) :
    At channel (h ++ [.returned (some v)]) (.ready v : Pc I V) where
  fifo := by
    have hs : sends [(.returned (some v) : Event I V)] = [] := rfl
    have hp : preps [(.returned (some v) : Event I V)] = [] := rfl
    rw [sends_snoc, preps_snoc, hs, hp, List.append_nil, List.append_nil, hat.fifo]
    rfl
  due := (due_snoc rfl).trans (hat.due.trans (by simp))
  returned v' := by
    have hno := hat.returned v'
    simp only [reduceCtorEq, iff_false] at hno
    simp [hno, eq_comm]
  unfinished v := by simpa using hat.unfinished v
  unready v w := by simpa using hat.unready v w

/-- The function returns. -/
theorem At.finish {v : V} (hat : At channel h (.ready v : Pc I V)) :
    Finished (h ++ [.finish v]) v where
  finish := List.getLast?_concat
  only v' hv := by simpa [hat.unfinished v'] using hv
  unready v w := by simpa using hat.unready v w

/-- `poll` returns `Pending` while the function is unfinished. -/
theorem At.meets_pending (hat : At channel h pc) (w : Bool) : Meets h (.ret .pending w) := by
  intro v
  refine ⟨iff_of_false (by simp) fun hv => hat.unfinished v (mem_of_mem_since hv), ?_⟩
  intro hr
  cases hr

/-- `poll` returns the result. -/
theorem Finished.meets {v : V} (hf : Finished h v) : Meets h (.ret (.ready v) false) := by
  intro v'
  refine ⟨⟨?_, ?_⟩, fun _ => hf.unready⟩
  · intro hv
    cases hv
    obtain ⟨a, rfl⟩ := List.getLast?_eq_some_iff.mp hf.finish
    rw [since_snoc]
    exact List.mem_append_right _ (List.mem_singleton_self _)
  · intro hv
    rw [hf.only v' (mem_of_mem_since hv)]

end

theorem Inv.of_at {f : PreemptiveFuture I V} {pc : Pc I V} (hp : f.place = some pc)
    (h : At f.channel f.history pc) (hm : Each Meets f.history) : Inv f where
  meets := hm
  order := ⟨_, h.fifo.symm⟩
  unfinished := by
    intro pc' hp'
    rw [hp] at hp'
    cases hp'
    exact h
  finished := by
    intro v hv
    rw [PreemptiveFuture.place, hv] at hp
    cases hp
  gone := by
    intro hi hf
    rw [PreemptiveFuture.place, hi] at hp
    exact absurd (hf.symm.trans hp) (by simp)

theorem Inv.at {f : PreemptiveFuture I V} (h : Inv f) {c : Ctl I V} (hc : f.ctl = c) {pc : Pc I V}
    (hp : { f with ctl := c }.place = some pc) : At f.channel f.history pc :=
  h.unfinished pc (by subst hc; exact hp)

/-- `preempt` ends the slice or changes nothing. -/
theorem Inv.preempt {f : PreemptiveFuture I V} (h : Inv f) {pc : Pc I V} (hp : f.place = some pc)
    (x : Slice) (d now : UInt64) : Inv (f.preempt pc x d now) := by
  unfold PreemptiveFuture.preempt
  split
  · exact .of_at rfl (h.unfinished pc hp) h.meets
  · exact h

theorem inv_step {us : UInt64} {clock : UInt64 → Prop} {f f' : PreemptiveFuture I V} {l : Label I V}
    (h : Inv f) (hb : f.Busy) (hs : f.step us l = some f') (hl : Fine clock f l) : Inv f' := by
  have snoc {e : Event I V} (he : Meets f.history e) : Each Meets (f.history ++ [e]) :=
    each_snoc.mpr ⟨h.meets, he⟩
  cases step_cases hs with
  | poll i hc hf =>
    exact .of_at rfl ((h.at hc hf).quiet rfl) (snoc trivial)
  | gone i hc hf =>
    obtain ⟨v, hv⟩ := h.gone hc hf
    refine ⟨each_snoc.mpr ⟨snoc trivial, fun v' => ?_⟩, ?_, ?_, ?_, ?_⟩
    · refine ⟨iff_of_false (by simp) ?_, by simp⟩
      rw [PreemptiveFuture.log, since_snoc]
      exact List.not_mem_nil
    · exact order_snoc (order_snoc h.order rfl rfl) rfl rfl
    · intro pc hp
      exact absurd (hf.symm.trans hp) (by simp)
    · intro v' hv'
      cases hv'
    · intro _ _
      exact ⟨v, by simp [PreemptiveFuture.leave, PreemptiveFuture.log, hv]⟩
  | send hc hch =>
    have hat := h.at hc rfl
    rw [hch] at hat
    exact .of_at rfl (hat.send _) (snoc trivial)
  | stamp now hc => exact .of_at rfl (h.at hc rfl) h.meets
  | recv hc hch =>
    have hat := h.at hc rfl
    rw [hch] at hat
    exact .of_at rfl hat.recv h.meets
  | prep hc =>
    have hat := h.at hc rfl
    exact .of_at rfl hat.prep (snoc fun hd => by simpa using hat.due.mp hd)
  | call hc =>
    have hat := h.at hc rfl
    refine .of_at rfl hat.call (snoc ⟨hat.due.mpr rfl, fun v hv => ?_⟩)
    simpa using (hat.returned v).mp hv
  | pending hc =>
    have hat : At f.channel f.history .pause := (h.at hc rfl).move rfl (by simp) (by simp)
    exact .of_at rfl (hat.quiet rfl) (snoc trivial)
  | ready v hc =>
    exact .of_at rfl ((h.at hc rfl).ready v) (snoc trivial)
  | @pause pc back d hc hb =>
    have hat := h.at hc rfl
    have hback : At f.channel f.history back := by
      cases pc <;> cases hb
      · exact hat
      · exact hat
      · exact hat.move rfl (by simp) (by simp)
    exact .of_at rfl (hback.quiet rfl) (snoc trivial)
  | finish hc =>
    have hat := h.at hc rfl
    refine ⟨snoc ((hat.returned _).mpr rfl), order_snoc h.order rfl rfl, ?_, ?_, ?_⟩
    · intro pc hp
      cases hp
    · intro v hv
      cases hv
      exact hat.finish
    · intro hi
      cases hi
  | timeout now hc => exact h.preempt (by rw [PreemptiveFuture.place, hc]) _ _ now
  | yield now hc => exact h.preempt (by rw [PreemptiveFuture.place, hc]) _ _ now
  | result hc =>
    have hf := h.finished _ hc
    have hfn := hb (by simp [hc])
    refine ⟨snoc hf.meets, order_snoc h.order rfl rfl, ?_, ?_, ?_⟩
    · intro pc hp
      exact absurd (hfn.symm.trans hp) (by simp)
    · intro v hv
      cases hv
    · intro _ _
      exact ⟨_, List.mem_append_left _ (List.mem_of_getLast? hf.finish)⟩
  | suspend hc =>
    have hat := h.at hc rfl
    exact .of_at rfl (hat.quiet rfl) (snoc (hat.meets_pending _))
  | fail => exact hl.elim
  | panic => exact hl.elim

theorem inv_poll_fns : Inv (.poll_fns : PreemptiveFuture I V) := by
  have hat : At none ([] : List (Event I V)) .recv := by
    refine ⟨rfl, iff_of_false ?_ (by simp), by simp, by simp, by simp⟩
    rintro ⟨i, hi⟩
    cases hi
  exact .of_at rfl hat (each_nil _)

theorem inv_reachable {us : UInt64} {clock : UInt64 → Prop} {f : PreemptiveFuture I V}
    (hr : ((machine I V us).only (Fine clock)).Reachable f) : Inv f := by
  refine (LTS.Inductive.reachable (I := fun f => Inv f ∧ f.Busy) ⟨?_, ?_⟩ f hr).1
  · rintro f rfl
    exact ⟨inv_poll_fns, fun hi => absurd rfl hi⟩
  · intro f l f' h hs
    exact ⟨inv_step h.1 h.2 hs.1 hs.2, busy_step h.2 hs.1⟩

/-! ## Deadlines -/

/-- No deadline is 0 but that of a `pause`. -/
structure Stamped (f : PreemptiveFuture I V) : Prop where
  wakes : Each Wakes f.history
  run : ∀ pc d, f.ctl = .run pc d → d ≠ 0
  pausing : ∀ pc d, f.ctl = .pausing pc d → f.history.getLast? = some .pause
  yielded : ∀ pc, f.ctl = .back (.continuation pc true) → f.history.getLast? = some .pause

/-- Outside a slice. -/
theorem Stamped.of_idle {f : PreemptiveFuture I V} (hw : Each Wakes f.history)
    (hc : f.ctl = .idle ∨ (∃ i pc, f.ctl = .send i pc) ∨ (∃ pc, f.ctl = .resume pc) ∨
      ∃ v, f.ctl = .back (.completion v)) : Stamped f := by
  obtain hc | ⟨i, pc, hc⟩ | ⟨pc, hc⟩ | ⟨v, hc⟩ := hc <;>
    exact ⟨hw, by simp [hc], by simp [hc], by simp [hc]⟩

/-- In a slice. -/
theorem Stamped.of_run {f : PreemptiveFuture I V} {pc : Pc I V} {d : UInt64}
    (hw : Each Wakes f.history) (hc : f.ctl = .run pc d) (hd : d ≠ 0) : Stamped f := by
  refine ⟨hw, ?_, by simp [hc], by simp [hc]⟩
  intro pc' d' hc'
  rw [hc] at hc'
  cases hc'
  exact hd

theorem Stamped.preempt {f : PreemptiveFuture I V} (h : Stamped f) {pc : Pc I V} {x : Slice}
    {d now : UInt64} (hd : d = 0 → f.history.getLast? = some .pause) :
    Stamped (f.preempt pc x d now) := by
  unfold PreemptiveFuture.preempt
  split
  · refine ⟨h.wakes, by simp, by simp, ?_⟩
    intro pc' hc
    simp only [Ctl.back.injEq, Linger.continuation.injEq, decide_eq_true_eq] at hc
    exact hd hc.2
  · exact h

theorem stamped_step {us : UInt64} {clock : UInt64 → Prop} {f f' : PreemptiveFuture I V}
    {l : Label I V} (hclock : ∀ now, clock now → stamp now us ≠ 0) (hi : Inv f) (h : Stamped f)
    (hs : f.step us l = some f') (hl : Fine clock f l) : Stamped f' := by
  have snoc {e : Event I V} (he : Wakes f.history e) : Each Wakes (f.history ++ [e]) :=
    each_snoc.mpr ⟨h.wakes, he⟩
  cases step_cases hs with
  | poll i hc hf => exact .of_idle (snoc trivial) (.inr (.inl ⟨_, _, rfl⟩))
  | gone i hc hf =>
    obtain ⟨v, hv⟩ := hi.gone hc hf
    refine .of_idle (each_snoc.mpr ⟨snoc trivial, fun hno => ?_⟩) (.inl rfl)
    exact absurd (List.mem_append_left _ hv) (hno v)
  | send hc hch => exact .of_idle (snoc trivial) (.inr (.inr (.inl ⟨_, rfl⟩)))
  | stamp now hc => exact .of_run h.wakes rfl (hclock now hl)
  | recv hc hch => exact .of_run h.wakes rfl (h.run _ _ hc)
  | prep hc => exact .of_run (snoc trivial) rfl (h.run _ _ hc)
  | call hc => exact .of_run (snoc trivial) rfl (h.run _ _ hc)
  | pending hc => exact .of_run (snoc trivial) rfl (h.run _ _ hc)
  | ready v hc => exact .of_run (snoc trivial) rfl (h.run _ _ hc)
  | pause hc hb =>
    exact ⟨snoc trivial, by simp [PreemptiveFuture.log], fun _ _ _ => List.getLast?_concat,
      by simp [PreemptiveFuture.log]⟩
  | finish hc => exact .of_idle (snoc trivial) (.inr (.inr (.inr ⟨_, rfl⟩)))
  | timeout now hc => exact h.preempt fun hd => absurd hd (h.run _ _ hc)
  | yield now hc => exact h.preempt fun _ => h.pausing _ _ hc
  | result hc => exact .of_idle (snoc trivial) (.inl rfl)
  | @suspend pc yielded hc =>
    refine .of_idle (snoc ?_) (.inl rfl)
    cases yielded with
    | true => exact fun _ => h.yielded _ hc
    | false => trivial
  | fail => exact hl.elim
  | panic => exact hl.elim

theorem stamped_reachable {us : UInt64} {clock : UInt64 → Prop} {f : PreemptiveFuture I V}
    (hclock : ∀ now, clock now → stamp now us ≠ 0)
    (hr : ((machine I V us).only (Fine clock)).Reachable f) : Stamped f := by
  refine (LTS.Inductive.reachable (I := fun f => (Inv f ∧ f.Busy) ∧ Stamped f) ⟨?_, ?_⟩ f hr).2
  · rintro f rfl
    exact ⟨⟨inv_poll_fns, fun hi => absurd rfl hi⟩, .of_idle (each_nil _) (.inl rfl)⟩
  · intro f l f' h hs
    exact ⟨⟨inv_step h.1.1 h.1.2 hs.1 hs.2, busy_step h.1.2 hs.1⟩,
      stamped_step hclock h.1.1 h.2 hs.1 hs.2⟩

/-- A slice whose deadline is stamped 0 times out at once, and `poll` does not
wake. -/
theorem unwoken_timeout {us now : UInt64} (clock : UInt64 → Prop) (i : I) (hc : clock now)
    (h0 : stamp now us = 0) :
    ∃ f : PreemptiveFuture I V, ((machine I V us).only (Fine clock)).Reachable f ∧
      f.history = [.poll, .send i, .ret .pending false] := by
  refine ⟨⟨some .recv, some i, .idle, [.poll, .send i, .ret .pending false], [.early]⟩, ⟨.poll_fns,
    [.poll i, .send, .stamp now, .preempt now, .ret], rfl, ?_⟩, rfl⟩
  refine .cons ⟨rfl, trivial⟩ (.cons ⟨rfl, trivial⟩ (.cons ⟨rfl, hc⟩ ?_))
  rw [h0]
  exact .cons ⟨rfl, trivial⟩ (.cons ⟨rfl, trivial⟩ (.nil _))

theorem not_wakes_unwoken (i : I) : ¬ Each (Wakes (V := V))
      [.poll, .send i, .ret .pending false] := by
  intro h
  have hw : Wakes (V := V) [.poll, .send i] (.ret .pending false) := h _ _ [] rfl
  have hlast := hw (by simp)
  cases hlast

/-- **The future refines the poll function it wraps**, in every run without
failures and panics, exactly if no reading of the clock at the start of a slice
makes the deadline 0. -/
theorem polls_refine_iff [Inhabited I] (us : UInt64) (clock : UInt64 → Prop) :
    (∀ f : PreemptiveFuture I V, ((machine I V us).only (Fine clock)).Reachable f →
      Refines f.history) ↔
      ∀ now, clock now → stamp now us ≠ 0 := by
  constructor
  · intro h now hc h0
    obtain ⟨f, hr, hf⟩ := unwoken_timeout (I := I) (V := V) clock default hc h0
    exact not_wakes_unwoken (V := V) default (hf ▸ (h f hr).wakes)
  · intro hclock f hr
    have hi := inv_reachable hr
    exact ⟨hi.meets, hi.order, (stamped_reachable hclock hr).wakes⟩

/-- A budget of some 500 years, and clock and budget add up to 2^64 ns: the
function times out at the first tick and is not polled again. -/
theorem timed_out_unwoken :
    ∃ f : PreemptiveFuture Bool Bool, ((machine Bool Bool 16656744073709551).only
      (Fine fun now => now = 1790000000000000616)).Reachable f ∧ ¬ Refines f.history := by
  have h0 : stamp 1790000000000000616 16656744073709551 = 0 := by decide
  obtain ⟨f, hr, hf⟩ := unwoken_timeout (V := Bool) (fun now => now = 1790000000000000616)
    true rfl h0
  exact ⟨f, hr, fun h => not_wakes_unwoken (V := Bool) true (hf ▸ h.wakes)⟩

end Inger.L5.Polls
