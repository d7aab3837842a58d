import Inger.L1Pool.Reusable
import Mathlib.Tactic.Abel

/-!
# Pools whose builder panics (`SharedMut`, `PoisonError`)

`Reusable` models src/reusable.rs for builders that do not panic. Here they may.
The builder runs inside `try_from`'s one statement, so a panic in it drops the
guard of the `Mutex` while the thread is unwinding: the lock is poisoned, for good.
From then on `lock` returns an error, which holds the guard.

* `try_from` returns the error, `Err(Some(_))`. Its callers unwrap it, which
  drops the guard; `prealloc` keeps it, locked, in its list.
* The destructor of a `Reusable` has taken its value out when it unwraps the
  error: it panics, and the value is destroyed on the way. In a thread that is
  unwinding already, that ends the process.

The threads interleave between the locked steps, as in `Reusable`. A thread that
calls `lock` on a mutex that is locked, by itself too, does not get on.

* `panics_conserved`: whatever panics, values in use, the free list and the values
  destroyed are together what the builder has produced.
* `poisoned_closed`: the lock is poisoned exactly when a call of the builder has
  panicked, and that was its last call; no value is handed out or given back
  any more.
* `poisoned_prealloc_deadlocks`: a `prealloc` call that finds the lock poisoned when
  it has acquired a value, or has more than one to acquire, locks the pool for ever.
* `unpoisoned_refines`: until a call of the builder panics, the pool is one of
  `Reusable`.
-/
namespace Inger.L1.Poison

open Reusable (Pool release produced produced_succ)
open Tokens

variable {T : Type}

/-- What a call of the builder does. -/
inductive Built (T : Type) where
  | value (v : T)
  | none
  | panic
  deriving DecidableEq

def Built.value? : Built T → Option T
  | .value v => some v
  | .none => Option.none
  | .panic => Option.none

/-- The mutex around the free list. Between two steps it is locked only where a
`PoisonError` is kept.
mirrors src/reusable.rs:15,73-77,136-144 -/
structure Mutex (T : Type) where
  pool : Pool T
  poisoned : Bool
  locked : Bool
  deriving DecidableEq

/-- What `try_from` returns: `Ok`, `Err(None)` and `Err(Some(_))`. -/
inductive Temp (T : Type) where
  | ok (v : T)
  | none
  | poisoned
  deriving DecidableEq

@[simp] def Temp.value? : Temp T → Option T
  | .ok v => some v
  | .none => Option.none
  | .poisoned => Option.none

/-- `Reusable::try_from`; with the first component `none` it unwinds.
mirrors src/reusable.rs:29-41 -/
def tryFrom (build : Nat → Built T) (m : Mutex T) : Option (Temp T) × Mutex T :=
  if m.poisoned then (some .poisoned, m)
  else
    match m.pool.free with
    | v :: rest => (some (.ok v), { m with pool := { m.pool with free := rest } })
    | [] =>
      match build m.pool.calls with
      | .value v => (some (.ok v), { m with pool := { m.pool with calls := m.pool.calls + 1 } })
      | .none => (some .none, { m with pool := { m.pool with calls := m.pool.calls + 1 } })
      | .panic =>
        (none, { m with pool := { m.pool with calls := m.pool.calls + 1 }, poisoned := true })

/-- The mutex when the result of a `try_from` is kept. -/
def Mutex.keep (m : Mutex T) : Temp T → Mutex T
  | .poisoned => { m with locked := true }
  | _ => m

def Mutex.unlock (m : Mutex T) : Mutex T := { m with locked := false }

/-- How a `prealloc` call has ended; `err true` is `Err(Some(_))`. -/
inductive Outcome where
  | ok
  | err (poison : Bool)
  | panicked
  deriving DecidableEq

/-- A `prealloc` call: collecting the list, the `for` loop, the drop of the rest
of the list once the result is fixed, or while the thread unwinds.
mirrors src/reusable.rs:91-103 -/
inductive Job (T : Type) where
  | collect (todo : Nat) (got : List (Temp T))
  | loop (left : List (Temp T))
  | leave (poison : Bool) (left : List (Temp T))
  | panicking (left : List (Temp T))
  | done (o : Outcome)
  deriving DecidableEq

/-- What a step of a `prealloc` call leaves; `lost` is what it destroys. -/
structure After (T : Type) where
  mutex : Mutex T
  job : Job T
  lost : List T
  aborted : Bool

/-- Dropping a `Reusable`: `next` is where its thread goes on, `unwind` where it
does after a panic.
mirrors src/reusable.rs:64-70 -/
def dropReusable (m : Mutex T) (v : T) (next unwind : Job T) (unwinding : Bool) :
    Option (After T) :=
  if m.locked then none
  else if m.poisoned then some ⟨m, unwind, [v], unwinding⟩
  else some ⟨{ m with pool := release m.pool v }, next, [], false⟩

/-- One locked step of a `prealloc` call, or one step between two of them.
mirrors src/reusable.rs:91-103 -/
def jobStep (build : Nat → Built T) (m : Mutex T) : Job T → Option (After T)
  | .collect 0 got => some ⟨m, .loop got, [], false⟩
  | .collect (n + 1) got =>
    if m.locked then none
    else
      match tryFrom build m with
      | (some t, m') => some ⟨m'.keep t, .collect n (got ++ [t]), [], false⟩
      | (none, m') => some ⟨m', .panicking got, [], false⟩
  | .loop [] => some ⟨m, .done .ok, [], false⟩
  | .loop (.ok v :: left) => dropReusable m v (.loop left) (.panicking left) false
  | .loop (.none :: left) => some ⟨m, .leave false left, [], false⟩
  | .loop (.poisoned :: left) => some ⟨m, .leave true left, [], false⟩
  -- The caller unwraps the result.
  | .leave poison [] => some ⟨if poison then m.unlock else m, .done (.err poison), [], false⟩
  -- With an error kept the mutex is locked, and the destructor does not get on.
  | .leave poison (.ok v :: left) =>
    dropReusable m v (.leave poison left) (.panicking (left ++ if poison then [.poisoned] else []))
      false
  | .leave poison (.none :: left) => some ⟨m, .leave poison left, [], false⟩
  | .leave poison (.poisoned :: left) => some ⟨m.unlock, .leave poison left, [], false⟩
  | .panicking [] => some ⟨m, .done .panicked, [], false⟩
  | .panicking (.ok v :: left) => dropReusable m v (.panicking left) (.panicking left) true
  | .panicking (.none :: left) => some ⟨m, .panicking left, [], false⟩
  | .panicking (.poisoned :: left) => some ⟨m.unlock, .panicking left, [], false⟩
  | .done _ => none

/-- `destroyed` is ghost. -/
structure St (T : Type) where
  mutex : Mutex T
  live : List T
  jobs : List (Job T)
  destroyed : Multiset T
  aborted : Bool

/-- A caller's acquisition and drop, in a thread that may be unwinding, the call of
`prealloc` and a step of one. -/
inductive Ev where
  | acquire
  | drop (i : Nat) (unwinding : Bool)
  | prealloc (count : Nat)
  | job (j : Nat)
  deriving DecidableEq

/-- What a caller has after `try_from`. -/
def acquired : Option (Temp T) → List T
  | some t => t.value?.toList
  | none => []

/-- mirrors src/reusable.rs:26-103 -/
def step (build : Nat → Built T) (s : St T) (e : Ev) : Option (St T) :=
  if s.aborted then none
  else
    match e with
    | .acquire =>
      if s.mutex.locked then none
      else
        some { s with
          mutex := (tryFrom build s.mutex).2
          live := acquired (tryFrom build s.mutex).1 ++ s.live }
    | .drop i unwinding =>
      match s.live[i]? with
      | none => none
      | some v =>
        if s.mutex.locked then none
        else if s.mutex.poisoned then
          some { s with live := s.live.eraseIdx i, destroyed := v ::ₘ s.destroyed, aborted := unwinding }
        else
          some { s with
            mutex := { s.mutex with pool := release s.mutex.pool v }
            live := s.live.eraseIdx i }
    | .prealloc count => some { s with jobs := s.jobs ++ [.collect count []] }
    | .job j =>
      match s.jobs[j]? with
      | none => none
      | some b =>
        match jobStep build s.mutex b with
        | none => none
        | some a =>
          some { s with
            mutex := a.mutex
            jobs := s.jobs.set j a.job
            destroyed := (a.lost : Multiset T) + s.destroyed
            aborted := a.aborted }

def initial : St T := ⟨⟨.new, false, false⟩, [], [], 0, false⟩

def machine (build : Nat → Built T) : LTS (St T) Ev := LTS.ofFn (· = initial) (step build)

/-! ## What a call holds -/

def values (l : List (Temp T)) : Multiset T := (l.filterMap Temp.value? : List T)

@[simp] def Temp.guards : Temp T → Nat
  | .poisoned => 1
  | _ => 0

def guards (l : List (Temp T)) : Nat := held Temp.guards l

@[simp] def Job.temps : Job T → List (Temp T)
  | .collect _ got => got
  | .loop left => left
  | .leave _ left => left
  | .panicking left => left
  | .done _ => []

def Job.values (b : Job T) : Multiset T := Poison.values b.temps

/-- The guards that a call keeps: in its list, and in the result that it is about
to return. -/
def Job.guards (b : Job T) : Nat :=
  Poison.guards b.temps +
    match b with
    | .leave true _ => 1
    | _ => 0

/-- The values that are out of the pool. -/
def St.inUse (s : St T) : Multiset T := (s.live : Multiset T) + held Job.values s.jobs

@[simp] theorem values_nil : values ([] : List (Temp T)) = 0 := rfl

@[simp] theorem values_cons (t : Temp T) (l : List (Temp T)) :
    values (t :: l) = (t.value?.toList : Multiset T) + values l := by
  cases t <;> simp [values, List.filterMap_cons, Temp.value?]

@[simp] theorem values_append (l l' : List (Temp T)) : values (l ++ l') = values l + values l' := by
  simp [values]

@[simp] theorem guards_nil : guards ([] : List (Temp T)) = 0 := rfl

@[simp] theorem guards_cons (t : Temp T) (l : List (Temp T)) :
    guards (t :: l) = t.guards + guards l :=
  held_cons ..

@[simp] theorem guards_append (l l' : List (Temp T)) : guards (l ++ l') = guards l + guards l' :=
  held_append ..

/-! ## The steps by what they do -/

section
variable {build : Nat → Built T} {m m' : Mutex T} {b : Job T} {a : After T}

inductive JobMoves (build : Nat → Built T) (m : Mutex T) (b : Job T) : After T → Prop
  | quiet (b' : Job T) (values : b'.values = b.values) (guards : b'.guards = b.guards) :
      JobMoves build m b ⟨m, b', [], false⟩
  | unlock (b' : Job T) (values : b'.values = b.values) (guards : b.guards = b'.guards + 1) :
      JobMoves build m b ⟨m.unlock, b', [], false⟩
  | get (n : Nat) (got : List (Temp T)) (t : Temp T) (m' : Mutex T) (at_ : b = .collect (n + 1) got)
      (unlocked : m.locked = false) (gets : tryFrom build m = (some t, m')) :
      JobMoves build m b ⟨m'.keep t, .collect n (got ++ [t]), [], false⟩
  | panic (n : Nat) (got : List (Temp T)) (m' : Mutex T) (at_ : b = .collect (n + 1) got)
      (unlocked : m.locked = false) (panics : tryFrom build m = (none, m')) :
      JobMoves build m b ⟨m', .panicking got, [], false⟩
  | release (v : T) (b' : Job T) (unlocked : m.locked = false) (clean : m.poisoned = false)
      (values : b.values = {v} + b'.values) (guards : b'.guards = b.guards) :
      JobMoves build m b ⟨{ m with pool := Reusable.release m.pool v }, b', [], false⟩
  | destroy (v : T) (b' : Job T) (abort : Bool) (unlocked : m.locked = false)
      (poisoned : m.poisoned = true) (values : b.values = {v} + b'.values)
      (guards : b'.guards = b.guards) :
      JobMoves build m b ⟨m, b', [v], abort⟩

/-- The two ways in which the destructor of a `Reusable` gets on. -/
theorem dropReusable_moves {v : T} {next unwind : Job T} {unwinding : Bool}
    (hs : dropReusable m v next unwind unwinding = some a) (hv : b.values = {v} + next.values)
    (hv' : unwind.values = next.values) (hg : next.guards = b.guards)
    (hg' : unwind.guards = b.guards) :
    JobMoves build m b a := by
  unfold dropReusable at hs
  split at hs
  · cases hs
  · rename_i hl
    have unlocked : m.locked = false := by simpa using hl
    split at hs <;> cases hs
    · rename_i hp
      exact .destroy v unwind unwinding unlocked hp (hv' ▸ hv) hg'
    · rename_i hp
      exact .release v next unlocked (by simpa using hp) hv hg

theorem jobStep_moves (hs : jobStep build m b = some a) : JobMoves build m b a := by
  match b with
  | .collect 0 got => cases hs; exact .quiet _ rfl rfl
  | .collect (n + 1) got =>
    simp only [jobStep] at hs
    split at hs
    · cases hs
    · rename_i hl
      have unlocked : m.locked = false := by simpa using hl
      split at hs <;> cases hs
      · rename_i t m' ht
        exact .get n got t m' rfl unlocked ht
      · rename_i m' ht
        exact .panic n got m' rfl unlocked ht
  | .loop [] => cases hs; exact .quiet _ rfl rfl
  | .loop (.ok v :: left) =>
    refine dropReusable_moves hs ?_ rfl ?_ ?_ <;> simp [Job.values, Job.guards]
  | .loop (.none :: left) =>
    cases hs
    refine .quiet _ ?_ ?_ <;> simp [Job.values, Job.guards]
  | .loop (.poisoned :: left) =>
    cases hs
    refine .quiet _ ?_ ?_ <;> simp [Job.values, Job.guards, add_comm]
  | .leave false [] => cases hs; exact .quiet _ rfl rfl
  | .leave true [] => cases hs; exact .unlock _ rfl rfl
  | .leave poison (.ok v :: left) =>
    cases poison <;> refine dropReusable_moves hs ?_ ?_ ?_ ?_ <;>
      simp [Job.values, Job.guards]
  | .leave poison (.none :: left) =>
    cases hs
    cases poison <;> refine .quiet _ ?_ ?_ <;> simp [Job.values, Job.guards]
  | .leave poison (.poisoned :: left) =>
    cases hs
    cases poison <;> refine .unlock _ ?_ ?_ <;>
      simp [Job.values, Job.guards, add_comm]
  | .panicking [] => cases hs; exact .quiet _ rfl rfl
  | .panicking (.ok v :: left) =>
    refine dropReusable_moves hs ?_ rfl ?_ ?_ <;> simp [Job.values, Job.guards]
  | .panicking (.none :: left) =>
    cases hs
    refine .quiet _ ?_ ?_ <;> simp [Job.values, Job.guards]
  | .panicking (.poisoned :: left) =>
    cases hs
    refine .unlock _ ?_ ?_ <;> simp [Job.values, Job.guards, add_comm]

inductive Moves (build : Nat → Built T) (s : St T) : St T → Prop
  | acquire (unlocked : s.mutex.locked = false) :
      Moves build s { s with
        mutex := (tryFrom build s.mutex).2
        live := acquired (tryFrom build s.mutex).1 ++ s.live }
  | destroy (i : Nat) (v : T) (unwinding : Bool) (at_ : s.live[i]? = some v)
      (unlocked : s.mutex.locked = false) (poisoned : s.mutex.poisoned = true) :
      Moves build s
        { s with live := s.live.eraseIdx i, destroyed := v ::ₘ s.destroyed, aborted := unwinding }
  | release (i : Nat) (v : T) (at_ : s.live[i]? = some v) (unlocked : s.mutex.locked = false)
      (clean : s.mutex.poisoned = false) :
      Moves build s { s with
        mutex := { s.mutex with pool := Reusable.release s.mutex.pool v }
        live := s.live.eraseIdx i }
  | prealloc (count : Nat) : Moves build s { s with jobs := s.jobs ++ [.collect count []] }
  | job (j : Nat) (b : Job T) (a : After T) (at_ : s.jobs[j]? = some b)
      (steps : jobStep build s.mutex b = some a) :
      Moves build s { s with
        mutex := a.mutex
        jobs := s.jobs.set j a.job
        destroyed := (a.lost : Multiset T) + s.destroyed
        aborted := a.aborted }

variable {s s' : St T} {e : Ev}

theorem step_moves (hs : step build s e = some s') : Moves build s s' := by
  unfold step at hs
  split at hs
  · cases hs
  cases e with
  | acquire =>
    dsimp only at hs
    split at hs
    · cases hs
    · rename_i hl
      cases hs
      exact .acquire (by simpa using hl)
  | drop i unwinding =>
    dsimp only at hs
    split at hs
    · cases hs
    · rename_i v hv
      split at hs
      · cases hs
      · rename_i hl
        have unlocked : s.mutex.locked = false := by simpa using hl
        split at hs <;> cases hs
        · rename_i hp
          exact .destroy i v unwinding hv unlocked hp
        · rename_i hp
          exact .release i v hv unlocked (by simpa using hp)
  | prealloc count =>
    cases hs
    exact .prealloc count
  | job j =>
    dsimp only at hs
    split at hs
    · cases hs
    · rename_i b hb
      split at hs
      · cases hs
      · rename_i a ha
        cases hs
        exact .job j b a hb ha

/-! ## One acquisition -/

theorem tryFrom_poisoned (h : m.poisoned = true) : tryFrom build m = (some .poisoned, m) := by
  rw [tryFrom, if_pos h]

theorem tryFrom_locked (build : Nat → Built T) (m : Mutex T) :
    (tryFrom build m).2.locked = m.locked := by
  unfold tryFrom
  split
  · rfl
  · split
    · rfl
    · split <;> rfl

/-- On a lock that is not poisoned, `try_from` is that of `Reusable`; it poisons the
lock where it panics. -/
theorem tryFrom_clean (build : Nat → Built T) (h : m.poisoned = false) :
    (tryFrom build m).2 =
        ⟨(Reusable.tryFrom (fun i => (build i).value?) m.pool).2, (tryFrom build m).1.isNone,
          m.locked⟩ ∧
      acquired (tryFrom build m).1 =
        (Reusable.tryFrom (fun i => (build i).value?) m.pool).1.toList ∧
      (tryFrom build m).1 ≠ some .poisoned := by
  unfold tryFrom Reusable.tryFrom
  rw [if_neg (by simp [h])]
  cases hf : m.pool.free with
  | cons v rest => simp [h, acquired]
  | nil => cases hb : build m.pool.calls <;> simp [h, hb, hf, acquired, Built.value?]

/-- What the builder's calls say about the lock. -/
structure Recorded (build : Nat → Built T) (m : Mutex T) : Prop where
  last : m.poisoned = true ↔ ∃ n, m.pool.calls = n + 1 ∧ build n = .panic
  before : ∀ i, i + 1 < m.pool.calls → build i ≠ .panic

theorem Recorded.congr (h : Recorded build m) (hp : m'.poisoned = m.poisoned)
    (hc : m'.pool.calls = m.pool.calls) : Recorded build m' := by
  refine ⟨?_, ?_⟩
  · rw [hp, hc]
    exact h.last
  · rw [hc]
    exact h.before

theorem Recorded.tryFrom (h : Recorded build m) : Recorded build (tryFrom build m).2 := by
  cases hp : m.poisoned with
  | true =>
    rw [tryFrom_poisoned hp]
    exact h
  | false =>
    -- No call so far has panicked.
    have hnone : ∀ i < m.pool.calls, build i ≠ .panic := by
      intro i hi hb
      by_cases hlast : i + 1 = m.pool.calls
      · rw [h.last.mpr ⟨i, hlast.symm, hb⟩] at hp
        cases hp
      · exact h.before i (by omega) hb
    unfold Poison.tryFrom
    rw [if_neg (by simp [hp])]
    split
    · exact h.congr rfl rfl
    · have hbefore : ∀ i, i + 1 < m.pool.calls + 1 → build i ≠ .panic := by
        intro i hi
        exact hnone i (by omega)
      cases hb : build m.pool.calls <;> refine ⟨?_, hbefore⟩ <;> simp [hp, hb]

theorem JobMoves.recorded (hm : JobMoves build m b a) (h : Recorded build m) :
    Recorded build a.mutex := by
  cases hm with
  | get n got t m' at_ unlocked gets =>
    have ht := h.tryFrom
    rw [gets] at ht
    cases t <;> exact ht.congr rfl rfl
  | panic n got m' at_ unlocked panics =>
    have ht := h.tryFrom
    rw [panics] at ht
    exact ht
  | _ => exact h.congr rfl rfl

theorem Recorded.moves (h : Recorded build s.mutex) (hm : Moves build s s') :
    Recorded build s'.mutex := by
  cases hm with
  | acquire unlocked => exact h.tryFrom
  | job j b a at_ steps => exact (jobStep_moves steps).recorded h
  | _ => exact h.congr rfl rfl

/-! ## No value is lost -/

/-- What the builder has produced, against what is out of the pool. -/
def Owes (build : Nat → Built T) (m : Mutex T) (out : Multiset T) : Prop :=
  out + (m.pool.free : Multiset T) = produced (fun i => (build i).value?) m.pool.calls

theorem Owes.congr {out out' : Multiset T} (h : Owes build m out) (he : out' = out) :
    Owes build m out' :=
  he ▸ h

theorem Owes.tryFrom {out : Multiset T} (h : Owes build m out) :
    Owes build (tryFrom build m).2 ((acquired (tryFrom build m).1 : Multiset T) + out) := by
  cases hp : m.poisoned with
  | true =>
    rw [tryFrom_poisoned hp]
    simpa [acquired] using h
  | false =>
    obtain ⟨hm, hv, -⟩ := tryFrom_clean build hp
    rw [hm, hv]
    exact Reusable.tryFrom_conserves _ m.pool out h

theorem Owes.release {out : Multiset T} {v : T} (h : Owes build m ({v} + out)) :
    Owes build { m with pool := Reusable.release m.pool v } out :=
  Reusable.release_conserves _ m.pool out v h

/-- A step of a `prealloc` call, next to what others have. -/
theorem JobMoves.owes {out : Multiset T} (hm : JobMoves build m b a)
    (h : Owes build m (b.values + out)) :
    Owes build a.mutex (a.job.values + ((a.lost : Multiset T) + out)) := by
  cases hm with
  | quiet b' values guards => simpa [values] using h
  | unlock b' values guards =>
    have hu : Owes build m.unlock (b.values + out) := h
    simpa [values] using hu
  | get n got t m' at_ unlocked gets =>
    have ht := h.tryFrom
    subst at_
    rw [gets] at ht
    have hk : Owes build (m'.keep t)
        ((acquired (some t) : Multiset T) + ((Job.collect (n + 1) got).values + out)) := by
      cases t <;> exact ht
    simpa [Job.values, acquired, add_assoc, add_left_comm] using hk
  | panic n got m' at_ unlocked panics =>
    have ht := h.tryFrom
    subst at_
    rw [panics] at ht
    simpa [Job.values, acquired] using ht
  | release v b' unlocked clean values guards =>
    rw [values, add_assoc] at h
    simpa using h.release
  | destroy v b' abort unlocked poisoned values guards =>
    simpa [values, add_assoc, add_left_comm] using h

def Conserved (build : Nat → Built T) (s : St T) : Prop :=
  Owes build s.mutex (s.inUse + s.destroyed)

/-- A value that leaves the callers' hands. -/
theorem live_erase {l : List T} {i : Nat} {v : T} (h : l[i]? = some v) :
    (l : Multiset T) = {v} + (l.eraseIdx i : List T) := by
  obtain ⟨hi, rfl⟩ := List.getElem?_eq_some_iff.mp h
  exact Multiset.coe_eq_coe.mpr (List.getElem_cons_eraseIdx_perm hi).symm

theorem Conserved.moves (h : Conserved build s) (hm : Moves build s s') : Conserved build s' := by
  cases hm with
  | acquire unlocked =>
    refine (Owes.tryFrom h).congr ?_
    simp only [St.inUse, ← Multiset.coe_add]
    abel
  | destroy i v unwinding at_ unlocked poisoned =>
    refine Owes.congr h ?_
    simp only [St.inUse, live_erase at_, ← Multiset.singleton_add]
    abel
  | release i v at_ unlocked clean =>
    refine Owes.release (Owes.congr h ?_)
    simp only [St.inUse, live_erase at_]
    abel
  | prealloc count => simpa [Conserved, St.inUse, held_append, Job.values] using h
  | job j b a at_ steps =>
    obtain ⟨l, hl, hl'⟩ := held_set (f := Job.values) at_ a.job
    have hb : Owes build s.mutex (b.values + ((s.live : Multiset T) + l + s.destroyed)) := by
      refine Owes.congr h ?_
      rw [St.inUse, hl]
      abel
    refine ((jobStep_moves steps).owes hb).congr ?_
    simp only [St.inUse, hl']
    abel

/-! ## The guards -/

/-- The mutex is locked where one `PoisonError` is kept. -/
def Guarded (s : St T) : Prop := held Job.guards s.jobs = s.mutex.locked.toNat

theorem JobMoves.guarded {n : Nat} (hm : JobMoves build m b a) (h : b.guards + n = m.locked.toNat) :
    a.job.guards + n = a.mutex.locked.toNat := by
  cases hm with
  | quiet b' values guards => exact guards ▸ h
  | unlock b' values guards =>
    have hle := Bool.toNat_le m.locked
    simp only [Mutex.unlock, Bool.toNat_false]
    omega
  | get n' got t m' at_ unlocked gets =>
    have hl : m'.locked = false := by simpa [gets, unlocked] using tryFrom_locked build m
    rw [at_, unlocked] at h
    cases t <;> simpa [Job.guards, Mutex.keep, hl, add_right_comm] using h
  | panic n' got m' at_ unlocked panics =>
    have hl : m'.locked = false := by simpa [panics, unlocked] using tryFrom_locked build m
    rw [at_, unlocked] at h
    simpa [Job.guards, hl] using h
  | release v b' unlocked clean values guards => exact guards ▸ h
  | destroy v b' abort unlocked poisoned values guards => exact guards ▸ h

theorem Guarded.moves (h : Guarded s) (hm : Moves build s s') : Guarded s' := by
  cases hm with
  | acquire unlocked =>
    rw [Guarded, tryFrom_locked]
    exact h
  | prealloc count => simpa [Guarded, held_append, Job.guards] using h
  | job j b a at_ steps =>
    obtain ⟨n, hn, hn'⟩ := held_set (f := Job.guards) at_ a.job
    exact hn'.trans ((jobStep_moves steps).guarded (hn.symm.trans h))
  | _ => exact h

structure Inv (build : Nat → Built T) (s : St T) : Prop where
  recorded : Recorded build s.mutex
  conserved : Conserved build s
  guarded : Guarded s

theorem Inv.moves (h : Inv build s) (hm : Moves build s s') : Inv build s' :=
  ⟨h.recorded.moves hm, h.conserved.moves hm, h.guarded.moves hm⟩

theorem inv_reachable (hr : (machine build).Reachable s) : Inv build s := by
  refine LTS.Inductive.reachable (M := machine build) ⟨?_, ?_⟩ s hr
  · rintro s rfl
    refine ⟨⟨?_, ?_⟩, rfl, rfl⟩ <;> simp [initial, Pool.new]
  · intro s e s' h hs
    exact h.moves (step_moves hs)

/-- **Nothing is lost unseen.** Whatever panics, in every order of the threads'
steps: the values in use, those in the free list and those destroyed are together
the values that the builder has produced. -/
theorem panics_conserved (hr : (machine build).Reachable s) :
    s.inUse + s.destroyed + (s.mutex.pool.free : Multiset T) =
      produced (fun i => (build i).value?) s.mutex.pool.calls :=
  (inv_reachable hr).conserved

/-- A builder that panics in its second call. -/
def second (n : Nat) : Built Nat := if n = 1 then .panic else .value n

theorem second_of_exec (es : List Ev) (p : St Nat → Bool)
    (h : (LTS.exec (step second) initial es).map p = some true) :
    ∃ s, (machine second).Reachable s ∧ p s = true :=
  LTS.reach_of_exec rfl h

/-- The drop after a panic destroys the value. -/
theorem panics_conserved_drop :
    ∃ s, (machine second).Reachable s ∧ s.inUse = 0 ∧ s.destroyed = {0} ∧
      s.inUse + s.destroyed + (s.mutex.pool.free : Multiset Nat) =
        produced (fun i => (second i).value?) s.mutex.pool.calls := by
  obtain ⟨s, hr, hp⟩ := second_of_exec [.acquire, .acquire, .drop 0 false]
    (fun s => decide (s.live = [] ∧ s.jobs = [] ∧ s.destroyed = {0})) (by decide)
  obtain ⟨hlive, hjobs, hdestroyed⟩ := of_decide_eq_true hp
  exact ⟨s, hr, by simp [St.inUse, hlive, hjobs], hdestroyed, panics_conserved hr⟩

/-! ## A poisoned pool -/

theorem JobMoves.closed (hm : JobMoves build m b a) (hp : m.poisoned = true) :
    a.mutex.poisoned = true ∧ a.mutex.pool = m.pool ∧ a.job.values ≤ b.values := by
  cases hm with
  | quiet b' values guards => exact ⟨hp, rfl, values.le⟩
  | unlock b' values guards => exact ⟨hp, rfl, values.le⟩
  | get n got t m' at_ unlocked gets =>
    rw [tryFrom_poisoned hp] at gets
    cases gets
    subst at_
    exact ⟨hp, rfl, by simp [Job.values]⟩
  | panic n got m' at_ unlocked panics =>
    rw [tryFrom_poisoned hp] at panics
    cases panics
  | release v b' unlocked clean values guards => cases hp.symm.trans clean
  | destroy v b' abort unlocked poisoned values guards =>
    exact ⟨hp, rfl, values ▸ Multiset.le_add_left _ _⟩

/-- What no step of a poisoned pool changes, or only to less. -/
structure Closed (s s' : St T) : Prop where
  poisoned : s'.mutex.poisoned = true
  pool : s'.mutex.pool = s.mutex.pool
  inUse : s'.inUse ≤ s.inUse

theorem Moves.closed (hm : Moves build s s') (hp : s.mutex.poisoned = true) : Closed s s' := by
  cases hm with
  | acquire unlocked =>
    rw [tryFrom_poisoned hp]
    exact ⟨hp, rfl, le_rfl⟩
  | destroy i v unwinding at_ unlocked poisoned =>
    refine ⟨hp, rfl, ?_⟩
    simp only [St.inUse, live_erase at_]
    exact add_le_add_left (Multiset.le_add_left _ _) _
  | release i v at_ unlocked clean => cases hp.symm.trans clean
  | prealloc count => exact ⟨hp, rfl, by simp [St.inUse, held_append, Job.values]⟩
  | job j b a at_ steps =>
    obtain ⟨hpoisoned, hpool, hle⟩ := (jobStep_moves steps).closed hp
    obtain ⟨l, hl, hl'⟩ := held_set (f := Job.values) at_ a.job
    refine ⟨hpoisoned, hpool, ?_⟩
    simp only [St.inUse, hl, hl']
    exact add_le_add_right (add_le_add_left hle l) _

theorem run_closed {es : List Ev} (hrun : (machine build).Run s es s')
    (hp : s.mutex.poisoned = true) :
    Closed s s' := by
  induction hrun with
  | nil => exact ⟨hp, rfl, le_rfl⟩
  | cons hs _ ih =>
    have h := (step_moves hs).closed hp
    have h' := ih h.poisoned
    exact ⟨h'.poisoned, h'.pool.trans h.pool, h'.inUse.trans h.inUse⟩

/-- **A panic closes the pool.** The lock is poisoned exactly when the builder has
panicked, which it has done in its last call; from then on, in every continuation, the free
list stays as it is, the builder is not called again and no value comes into use. -/
theorem poisoned_closed (hr : (machine build).Reachable s) :
    (s.mutex.poisoned = true ↔ ∃ n < s.mutex.pool.calls, build n = .panic) ∧
      ∀ n < s.mutex.pool.calls, build n = .panic → n + 1 = s.mutex.pool.calls ∧
        ∀ es s', (machine build).Run s es s' → s'.mutex.pool = s.mutex.pool ∧
          s'.inUse ≤ s.inUse := by
  have hrec := (inv_reachable hr).recorded
  have hlast : ∀ n < s.mutex.pool.calls, build n = .panic → n + 1 = s.mutex.pool.calls := by
    intro n hn hb
    by_contra hne
    exact hrec.before n (by omega) hb
  have hiff : s.mutex.poisoned = true ↔ ∃ n < s.mutex.pool.calls, build n = .panic := by
    rw [hrec.last]
    constructor
    · rintro ⟨n, hn, hb⟩
      exact ⟨n, by omega, hb⟩
    · rintro ⟨n, hn, hb⟩
      exact ⟨n, (hlast n hn hb).symm, hb⟩
  refine ⟨hiff, ?_⟩
  intro n hn hb
  refine ⟨hlast n hn hb, ?_⟩
  intro es s' hrun
  have hc := run_closed hrun (hiff.mpr ⟨n, hn, hb⟩)
  exact ⟨hc.pool, hc.inUse⟩

/-- The value that is in use stays so or is destroyed. -/
theorem poisoned_closed_second :
    ∃ s, (machine second).Reachable s ∧ s.mutex.poisoned = true ∧
      ∀ es s', (machine second).Run s es s' → s'.mutex.pool = s.mutex.pool ∧
        s'.inUse ≤ s.inUse := by
  obtain ⟨s, hr, hp⟩ := second_of_exec [.acquire, .acquire]
    (fun s => decide (s.mutex.poisoned = true ∧ 1 < s.mutex.pool.calls)) (by decide)
  obtain ⟨hpoisoned, hlt⟩ := of_decide_eq_true hp
  exact ⟨s, hr, hpoisoned, ((poisoned_closed hr).2 1 hlt rfl).2⟩

/-! ## A `prealloc` call that keeps the error -/

/-- The list has the error behind a value. -/
def behind : List (Temp T) → Bool
  | [] => false
  | .ok _ :: left => decide (0 < guards left)
  | .none :: left => behind left
  | .poisoned :: _ => false

/-- The call has to lock the mutex once more before it drops the error. -/
def Job.stuck : Job T → Bool
  | .collect 0 got => behind got
  | .collect (_ + 1) got => decide (0 < Poison.guards got)
  | .loop left => behind left
  | .leave _ left => behind left
  | .panicking left => behind left
  | .done _ => false

theorem guards_of_behind {l : List (Temp T)} (h : behind l = true) : 0 < guards l := by
  induction l with
  | nil => cases h
  | cons t l ih =>
    cases t with
    | ok v => simpa [behind] using h
    | none => simpa using ih h
    | poisoned => cases h

theorem behind_append {l : List (Temp T)} (h : guards l = 0) (hv : values l ≠ 0) :
    behind (l ++ [.poisoned]) = true := by
  induction l with
  | nil => exact absurd rfl hv
  | cons t l ih =>
    cases t with
    | ok v => simp [behind]
    | none => exact ih (by simpa using h) (by simpa using hv)
    | poisoned => simp at h

theorem Job.guards_of_stuck (h : b.stuck = true) : 0 < b.guards := by
  have hpos : 0 < Poison.guards b.temps := by
    match b with
    | .collect 0 got => exact guards_of_behind h
    | .collect (n + 1) got => exact of_decide_eq_true h
    | .loop left => exact guards_of_behind h
    | .leave poison left => exact guards_of_behind h
    | .panicking left => exact guards_of_behind h
    | .done o => cases h
  exact Nat.lt_of_lt_of_le hpos (Nat.le_add_right _ _)

theorem dropReusable_locked {v : T} {next unwind : Job T} {unwinding : Bool} (h : m.locked = true) :
    dropReusable m v next unwind unwinding = none := by
  rw [dropReusable, if_pos h]

/-- What a stuck call still does: it goes through what it did not get. -/
theorem jobStep_stuck (hl : m.locked = true) (hb : b.stuck = true)
    (hs : jobStep build m b = some a) :
    a.job.stuck = true ∧ a.mutex = m ∧ a.job.values = b.values ∧ a.lost = [] := by
  match b with
  | .collect 0 got =>
    cases hs
    exact ⟨hb, rfl, rfl, rfl⟩
  | .collect (n + 1) got =>
    rw [jobStep, if_pos hl] at hs
    cases hs
  | .loop (.ok v :: left) | .leave poison (.ok v :: left) | .panicking (.ok v :: left) =>
    rw [jobStep, dropReusable_locked hl] at hs
    cases hs
  | .loop (.none :: left) | .leave poison (.none :: left) | .panicking (.none :: left) =>
    cases hs
    exact ⟨hb, rfl, by simp [Job.values], rfl⟩
  | .loop [] | .leave poison [] | .panicking [] => cases hb
  | .loop (.poisoned :: left) | .leave poison (.poisoned :: left)
  | .panicking (.poisoned :: left) => cases hb
  | .done o => cases hb

/-- What another call does meanwhile. -/
theorem JobMoves.waits (hm : JobMoves build m b a) (hl : m.locked = true) (hb : b.guards = 0) :
    a.mutex = m ∧ a.job.values = b.values ∧ a.lost = [] := by
  cases hm with
  | quiet b' values guards => exact ⟨rfl, values, rfl⟩
  | unlock b' values guards => omega
  | get n got t m' at_ unlocked gets => cases unlocked.symm.trans hl
  | panic n got m' at_ unlocked panics => cases unlocked.symm.trans hl
  | release v b' unlocked clean values guards => cases unlocked.symm.trans hl
  | destroy v b' abort unlocked poisoned values guards => cases unlocked.symm.trans hl

/-- Call `j` is stuck, and the pool is as it is in `s`. -/
structure Deadlocked (s : St T) (j : Nat) (s' : St T) : Prop where
  stuck : ∃ b, s'.jobs[j]? = some b ∧ b.stuck = true
  mutex : s'.mutex = s.mutex
  inUse : s'.inUse = s.inUse
  destroyed : s'.destroyed = s.destroyed

theorem Guarded.locked {j : Nat} (h : Guarded s) (hj : s.jobs[j]? = some b) (hb : b.stuck = true) :
    s.mutex.locked = true := by
  obtain ⟨n, hn⟩ := held_split (f := Job.guards) hj
  have hcount : held Job.guards s.jobs = s.mutex.locked.toNat := h
  have hpos := Job.guards_of_stuck hb
  cases hl : s.mutex.locked with
  | true => rfl
  | false =>
    rw [hn, hl, Bool.toNat_false] at hcount
    omega

theorem Moves.deadlocked {j : Nat} (hm : Moves build s s') (h : Guarded s)
    (hj : s.jobs[j]? = some b) (hb : b.stuck = true) : Deadlocked s j s' := by
  have hl := h.locked hj hb
  cases hm with
  | acquire unlocked => cases unlocked.symm.trans hl
  | destroy i v unwinding at_ unlocked poisoned => cases unlocked.symm.trans hl
  | release i v at_ unlocked clean => cases unlocked.symm.trans hl
  | prealloc count =>
    refine ⟨⟨b, ?_, hb⟩, rfl, by simp [St.inUse, held_append, Job.values], rfl⟩
    exact (List.getElem?_append_left (List.getElem?_eq_some_iff.mp hj).1).trans hj
  | job i c a at_ steps =>
    -- The values after the step, from what it does to those of the call.
    have same (hv : a.job.values = c.values) :
        held Job.values (s.jobs.set i a.job) = held Job.values s.jobs := by
      obtain ⟨l, hl, hl'⟩ := held_set (f := Job.values) at_ a.job
      rw [hl, hl', hv]
    by_cases hij : i = j
    · subst hij
      cases hj.symm.trans at_
      obtain ⟨hstuck, hmutex, hv, hlost⟩ := jobStep_stuck hl hb steps
      refine ⟨⟨a.job, ?_, hstuck⟩, hmutex, by rw [St.inUse, St.inUse, same hv], by simp [hlost]⟩
      exact List.getElem?_set_self (List.getElem?_eq_some_iff.mp hj).1
    · have hzero : c.guards = 0 := by
        obtain ⟨n, hn⟩ := held_split_two (f := Job.guards) hij at_ hj
        have hcount : held Job.guards s.jobs = s.mutex.locked.toNat := h
        have hpos := Job.guards_of_stuck hb
        rw [hn, hl, Bool.toNat_true] at hcount
        omega
      obtain ⟨hmutex, hv, hlost⟩ := (jobStep_moves steps).waits hl hzero
      refine ⟨⟨b, ?_, hb⟩, hmutex, by rw [St.inUse, St.inUse, same hv], by simp [hlost]⟩
      exact (List.getElem?_set_ne hij).trans hj

theorem run_deadlocked {j : Nat} {es : List Ev} (hrun : (machine build).Run s es s')
    (h : Inv build s) (hj : s.jobs[j]? = some b) (hb : b.stuck = true) : Deadlocked s j s' := by
  induction hrun generalizing b with
  | nil => exact ⟨⟨b, hj, hb⟩, rfl, rfl, rfl⟩
  | cons hs _ ih =>
    have hm := step_moves hs
    have hd := hm.deadlocked h.guarded hj hb
    obtain ⟨b', hj', hb'⟩ := hd.stuck
    have hd' := ih (h.moves hm) hj' hb'
    exact ⟨hd'.stuck, hd'.mutex.trans hd.mutex, hd'.inUse.trans hd.inUse,
      hd'.destroyed.trans hd.destroyed⟩

/-- The step in which a call gets the error and keeps it. -/
theorem keeps_error {s₁ : St T} {j n : Nat} {got : List (Temp T)} (h : Inv build s)
    (hp : s.mutex.poisoned = true) (hj : s.jobs[j]? = some (.collect (n + 1) got))
    (hmore : 0 < n ∨ values got ≠ 0) (hs : step build s (.job j) = some s₁) :
    ∃ b, s₁.jobs[j]? = some b ∧ b.stuck = true := by
  have hlt := (List.getElem?_eq_some_iff.mp hj).1
  cases hl : s.mutex.locked with
  | true => simp [step, hj, jobStep, hl] at hs
  | false =>
    have hguards : guards got = 0 := by
      obtain ⟨k, hk⟩ := held_split (f := Job.guards) hj
      have hcount : held Job.guards s.jobs = s.mutex.locked.toNat := h.guarded
      rw [hk, hl, Bool.toNat_false] at hcount
      simp [Job.guards] at hcount
      omega
    refine ⟨.collect n (got ++ [.poisoned]), ?_, ?_⟩
    · simp only [step, hj, jobStep, hl, tryFrom_poisoned hp, Bool.false_eq_true, if_false] at hs
      split at hs
      · cases hs
      · cases hs
        exact List.getElem?_set_self hlt
    · cases n with
      | zero => exact behind_append hguards (hmore.resolve_left (Nat.lt_irrefl 0))
      | succ n => simp [Job.stuck]

/-- **A `prealloc` call can lock the pool for ever.** The lock is poisoned and a
`prealloc` call goes on that has acquired a value or has more than one to acquire: it keeps
the guard, and in every continuation it does not return, no other thread acquires a value and
none gets a value back into the pool. -/
theorem poisoned_prealloc_deadlocks {s₁ s₂ : St T} {j n : Nat} {got : List (Temp T)} {es : List Ev}
    (hr : (machine build).Reachable s) (hp : s.mutex.poisoned = true)
    (hj : s.jobs[j]? = some (.collect (n + 1) got)) (hmore : 0 < n ∨ values got ≠ 0)
    (hs : step build s (.job j) = some s₁) (hrun : (machine build).Run s₁ es s₂) :
    (∀ o, s₂.jobs[j]? ≠ some (.done o)) ∧ s₂.inUse = s₁.inUse ∧ step build s₂ .acquire = none ∧
      ∀ i unwinding, step build s₂ (.drop i unwinding) = none := by
  have hinv := inv_reachable hr
  obtain ⟨b, hj₁, hb⟩ := keeps_error hinv hp hj hmore hs
  have hinv₁ := hinv.moves (step_moves hs)
  have hd := run_deadlocked hrun hinv₁ hj₁ hb
  have hl : s₂.mutex.locked = true := hd.mutex ▸ hinv₁.guarded.locked hj₁ hb
  refine ⟨fun o ho => ?_, hd.inUse, by simp [step, hl], fun i unwinding => ?_⟩
  · obtain ⟨b', hj₂, hb'⟩ := hd.stuck
    cases hj₂.symm.trans ho
    cases hb'
  · simp only [step, hl, if_true]
    split
    · rfl
    · split <;> rfl

/-- Two values to acquire, behind a panic. -/
theorem poisoned_prealloc_deadlocks_two :
    ∃ s₁ : St Nat, ∀ es s₂, (machine second).Run s₁ es s₂ →
      (∀ o, s₂.jobs[0]? ≠ some (.done o)) ∧ step second s₂ .acquire = none := by
  obtain ⟨s, hr, hp⟩ := second_of_exec [.acquire, .acquire, .prealloc 2]
    (fun s : St Nat => decide (s.mutex.poisoned = true ∧ s.jobs[0]? = some (Job.collect 2 [])) &&
      (step second s (.job 0)).isSome)
    (by decide)
  obtain ⟨hs, hsome⟩ := Bool.and_eq_true_iff.mp hp
  obtain ⟨hpoisoned, hjob⟩ := of_decide_eq_true hs
  obtain ⟨s₁, hs₁⟩ := Option.isSome_iff_exists.mp hsome
  refine ⟨s₁, fun es s₂ hrun => ?_⟩
  have h := poisoned_prealloc_deadlocks hr hpoisoned hjob (.inl Nat.one_pos) hs₁ hrun
  exact ⟨h.1, h.2.2.1⟩

/-! ## Until a panic -/

def Job.plain : Job T → Reusable.Job T
  | .collect todo got => .collect todo (got.map Temp.value?)
  | .loop left => .loop (left.map Temp.value?)
  | .leave _ left => .unwind (left.map Temp.value?)
  | .panicking left => .unwind (left.map Temp.value?)
  | .done o => .done (decide (o = .ok))

def St.plain (s : St T) : Reusable.St T := ⟨s.mutex.pool, s.live, s.jobs.map Job.plain⟩

theorem dropReusable_clean {v : T} {next unwind : Job T} {unwinding : Bool}
    (hp : m.poisoned = false) (hs : dropReusable m v next unwind unwinding = some a) :
    a.mutex.pool = release m.pool v ∧ a.job = next := by
  unfold dropReusable at hs
  split at hs
  · cases hs
  · rw [if_neg (by simp [hp])] at hs
    cases hs
    exact ⟨rfl, rfl⟩

theorem jobStep_plain (hp : m.poisoned = false) (hs : jobStep build m b = some a)
    (hp' : a.mutex.poisoned = false) :
    Reusable.jobStep (fun i => (build i).value?) m.pool b.plain = (a.mutex.pool, a.job.plain) := by
  match b with
  | .collect 0 got => cases hs; rfl
  | .collect (n + 1) got =>
    obtain ⟨hm, hv, hne⟩ := tryFrom_clean build hp
    simp only [jobStep] at hs
    split at hs
    · cases hs
    · split at hs <;> cases hs
      · rename_i t m' ht
        rw [ht] at hm hv hne
        have hpool : (m'.keep t).pool =
            (Reusable.tryFrom (fun i => (build i).value?) m.pool).2 := by
          cases t <;> exact congrArg Mutex.pool hm
        have hval : (Reusable.tryFrom (fun i => (build i).value?) m.pool).1 = t.value? := by
          cases ht' : (Reusable.tryFrom (fun i => (build i).value?) m.pool).1 <;> cases t <;>
            simp_all [acquired]
        simp [Job.plain, Reusable.jobStep, hpool, hval]
      · rename_i m' ht
        rw [ht] at hm
        cases (congrArg Mutex.poisoned hm).symm.trans hp'
  | .loop (.ok v :: left) | .leave poison (.ok v :: left) | .panicking (.ok v :: left) =>
    obtain ⟨hpool, hjob⟩ := dropReusable_clean hp hs
    rw [hpool, hjob]
    rfl
  | .leave poison [] => cases poison <;> cases hs <;> rfl
  | .loop [] | .panicking [] => cases hs; rfl
  | .loop (.none :: left) | .leave poison (.none :: left) | .panicking (.none :: left) =>
    cases hs; rfl
  | .loop (.poisoned :: left) | .leave poison (.poisoned :: left) | .panicking
      (.poisoned :: left) =>
    cases hs; rfl
  | .done o => cases hs

theorem Moves.plain (hm : Moves build s s') (hp : s.mutex.poisoned = false)
    (hp' : s'.mutex.poisoned = false) :
    ∃ e, Reusable.step (fun i => (build i).value?) s.plain e = some s'.plain := by
  cases hm with
  | acquire unlocked =>
    obtain ⟨hm, hv, -⟩ := tryFrom_clean build hp
    refine ⟨.acquire, ?_⟩
    simp [Reusable.step, St.plain, hm, hv]
  | destroy i v unwinding at_ unlocked poisoned => cases hp.symm.trans poisoned
  | release i v at_ unlocked clean =>
    refine ⟨.drop i, ?_⟩
    simp [Reusable.step, St.plain, at_]
  | prealloc count =>
    refine ⟨.prealloc count, ?_⟩
    simp [Reusable.step, St.plain, Job.plain]
  | job j b a at_ steps =>
    refine ⟨.job j, ?_⟩
    simp [Reusable.step, St.plain, at_, jobStep_plain hp steps hp', List.map_set]

/-- **Until a panic this is `Reusable`.** In a state whose lock is not poisoned,
the free list, the values in use and the `prealloc` calls are those of a run of `Reusable`,
with the builder's values. -/
theorem unpoisoned_refines (hr : (machine build).Reachable s) (hp : s.mutex.poisoned = false) :
    (Reusable.lts fun i => (build i).value?).Reachable s.plain := by
  refine LTS.Inductive.reachable (M := machine build)
    (I := fun s => s.mutex.poisoned = false →
      (Reusable.lts fun i => (build i).value?).Reachable s.plain)
    ⟨?_, ?_⟩ s hr hp
  · rintro s rfl -
    exact ⟨_, [], rfl, .nil _⟩
  · intro s e s' ih hs hp'
    have hm := step_moves hs
    have hp : s.mutex.poisoned = false := by
      by_contra hpo
      cases hp'.symm.trans (hm.closed (by simpa using hpo)).poisoned
    obtain ⟨e', he'⟩ := hm.plain hp hp'
    exact (ih hp).step he'

end

/-- A `prealloc` call between two steps, and a value in use. -/
theorem unpoisoned_refines_prealloc :
    ∃ s : St Nat, s.jobs = [.collect 0 [.ok 0]] ∧
      (Reusable.lts fun i => (second i).value?).Reachable s.plain := by
  obtain ⟨s, hr, hp⟩ := second_of_exec [.acquire, .drop 0 false, .prealloc 1, .job 0]
    (fun s => decide (s.jobs = [.collect 0 [.ok 0]] ∧ s.mutex.poisoned = false)) (by decide)
  obtain ⟨hjobs, hpoisoned⟩ := of_decide_eq_true hp
  exact ⟨s, hjobs, unpoisoned_refines hr hpoisoned⟩

end Inger.L1.Poison
