import Inger.Core.LTS
import Inger.Core.Tokens
import Mathlib.Algebra.Order.Group.Multiset
import Mathlib.Data.List.Nodup

/-!
# Pools of reusable values (`Pool`, `Reusable`)

Model of src/reusable.rs: a pool is a free list behind a lock and a builder.
`try_from` pops the free list or, when it is empty, calls the builder, both
under the lock (the guard is a temporary of that one statement); dropping a
`Reusable` pushes its value back. `prealloc` acquires `count` values into a
linked list and then drops them, each acquisition and each drop under the
lock, so other threads may run in between; a `Job` is a `prealloc` call in
progress.

The builder is a `Fn` with interior state, so it is the sequence `build` of
its results. `Mutex::lock` fails only on a poisoned lock, and a lock is
poisoned only by a panic while it is held, i.e. by a builder that panics;
builders here do not panic and the `Err(Some(_))` exits are not modelled.

Results, over every interleaving of acquisitions, drops and preallocations:
* `conserved_reachable`: live values plus free list are, as a multiset, the
  values the builder has produced so far.
* `tryFrom_fails_iff`: an acquisition fails exactly when the free list is
  empty and the builder returns `None`, and then changes no list.
* `prealloc_reserves`: what an undisturbed `prealloc` leaves in the pool.
* `step_calls`: only a step from an empty free list calls the builder.
-/
namespace Inger.L1.Reusable

open Tokens

variable {T : Type}

/-- The free list, top of the `Vec` first, and the number of builder calls
made so far.
mirrors src/reusable.rs:73-77 -/
structure Pool (T : Type) where
  free : List T
  calls : Nat
  deriving DecidableEq, Repr

/-- `Pool::new`.
mirrors src/reusable.rs:83-89 -/
def Pool.new : Pool T := ⟨[], 0⟩

/-- `Reusable::try_from`; `none` is `Err(None)`.
mirrors src/reusable.rs:29-41 -/
def tryFrom (build : Nat → Option T) (p : Pool T) : Option T × Pool T :=
  match p.free with
  | v :: rest => (some v, { p with free := rest })
  | [] => (build p.calls, { p with calls := p.calls + 1 })

/-- `Reusable::drop`.
mirrors src/reusable.rs:64-70 -/
def release (p : Pool T) (v : T) : Pool T := { p with free := v :: p.free }

/-- `try_from` with a builder that always builds (`alloc_stack`,
`alloc_localstore`).
mirrors src/stacks.rs:34 and src/localstores.rs:28 -/
def alloc (build : Nat → T) (p : Pool T) : T × Pool T :=
  match p.free with
  | v :: rest => (v, { p with free := rest })
  | [] => (build p.calls, { p with calls := p.calls + 1 })

/-- `(0..count).map(|_| self.try_into()).collect()`.
mirrors src/reusable.rs:96-98 -/
def collect (build : Nat → Option T) : Nat → Pool T → List (Option T) × Pool T
  | 0, p => ([], p)
  | n + 1, p =>
    let (v, p') := tryFrom build p
    let (vs, p'') := collect build n p'
    (v :: vs, p'')

/-- Dropping a list of results: every `Reusable` in it is released. -/
def dropAll : List (Option T) → Pool T → Pool T
  | [], p => p
  | some v :: l, p => dropAll l (release p v)
  | none :: l, p => dropAll l p

/-- `for temp in swap { temp?; }`; after the early return the iterator's
destructor drops the rest.
mirrors src/reusable.rs:99-102 -/
def temps : List (Option T) → Pool T → Bool × Pool T
  | [], p => (true, p)
  | some v :: l, p => temps l (release p v)
  | none :: l, p => (false, dropAll l p)

/-- `prealloc`, undisturbed; `false` is `Err(None)`.
mirrors src/reusable.rs:91-103 -/
def prealloc (build : Nat → Option T) (count : Nat) (p : Pool T) : Bool × Pool T :=
  let (swap, p') := collect build count p
  temps swap p'

/-- A `prealloc` call: collecting the list, the `for` loop over it, the drop
of what is left of it after an early return, and the result.
mirrors src/reusable.rs:91-103 -/
inductive Job (T : Type) where
  | collect (todo : Nat) (got : List (Option T))
  | loop (left : List (Option T))
  | unwind (left : List (Option T))
  | done (ok : Bool)
  deriving DecidableEq, Repr

/-- One locked step of a `prealloc` call (or one step between two of them).
mirrors src/reusable.rs:96-102 -/
def jobStep (build : Nat → Option T) (p : Pool T) : Job T → Pool T × Job T
  | .collect 0 got => (p, .loop got)
  | .collect (n + 1) got => ((tryFrom build p).2, .collect n (got ++ [(tryFrom build p).1]))
  | .loop [] => (p, .done true)
  | .loop (some v :: left) => (release p v, .loop left)
  | .loop (none :: left) => (p, .unwind left)
  | .unwind [] => (p, .done false)
  | .unwind (some v :: left) => (release p v, .unwind left)
  | .unwind (none :: left) => (p, .unwind left)
  | .done ok => (p, .done ok)

/-- A pool, the values of the `Reusable`s that callers hold, and the
`prealloc` calls in progress (or over). -/
structure St (T : Type) where
  pool : Pool T
  live : List T
  jobs : List (Job T)

inductive Ev
  | acquire
  | drop (i : Nat)
  | prealloc (count : Nat)
  | job (j : Nat)
  deriving DecidableEq, Repr

def step (build : Nat → Option T) (s : St T) : Ev → Option (St T)
  | .acquire =>
    some { s with pool := (tryFrom build s.pool).2, live := (tryFrom build s.pool).1.toList ++ s.live }
  | .drop i =>
    match s.live[i]? with
    | none => none
    | some v => some { s with pool := release s.pool v, live := s.live.eraseIdx i }
  | .prealloc count => some { s with jobs := s.jobs ++ [.collect count []] }
  | .job j =>
    match s.jobs[j]? with
    | none => none
    | some b => some { s with pool := (jobStep build s.pool b).1,
                              jobs := s.jobs.set j (jobStep build s.pool b).2 }

def lts (build : Nat → Option T) : LTS (St T) Ev :=
  LTS.ofFn (· = ⟨.new, [], []⟩) (step build)

/-! ## One acquisition -/

/-- **Exact failure.** An acquisition fails exactly when the free list is
empty and the builder returns `None`. -/
theorem tryFrom_fails_iff (build : Nat → Option T) (p : Pool T) :
    (tryFrom build p).1 = none ↔ p.free = [] ∧ build p.calls = none := by
  unfold tryFrom; split <;> rename_i h <;> simp [h]

theorem tryFrom_fails_free (build : Nat → Option T) (p : Pool T) (h : (tryFrom build p).1 = none) :
    (tryFrom build p).2.free = p.free := by
  have hf := ((tryFrom_fails_iff build p).mp h).1
  unfold tryFrom; rw [hf]

theorem tryFrom_calls (build : Nat → Option T) (p : Pool T) :
    ((tryFrom build p).2.calls = p.calls ∧ p.free ≠ []) ∨
      ((tryFrom build p).2.calls = p.calls + 1 ∧ p.free = []) := by
  unfold tryFrom; split <;> rename_i h <;> simp [h]

/-- A value just dropped is the next one handed out. -/
theorem tryFrom_release (build : Nat → Option T) (p : Pool T) (v : T) :
    tryFrom build (release p v) = (some v, p) := rfl

theorem tryFrom_alloc (build : Nat → T) (p : Pool T) :
    tryFrom (fun i => some (build i)) p = (some (alloc build p).1, (alloc build p).2) := by
  unfold tryFrom alloc; split <;> rfl

theorem alloc_fst (build : Nat → T) (p : Pool T) :
    (alloc build p).1 ∈ p.free ∨ (alloc build p).1 = build p.calls := by
  unfold alloc; split <;> rename_i h <;> simp [h]

theorem alloc_free (build : Nat → T) (p : Pool T) : ∀ x ∈ (alloc build p).2.free, x ∈ p.free := by
  unfold alloc; split <;> rename_i h <;> simp +contextual [h]

/-! ## An undisturbed `prealloc` -/

/-- `n` steps of a `prealloc` call that no other thread interleaves with. -/
def jobRun (build : Nat → Option T) : Nat → Pool T × Job T → Pool T × Job T
  | 0, b => b
  | n + 1, b => jobRun build n (jobStep build b.1 b.2)

theorem jobRun_unwind (build : Nat → Option T) :
    ∀ (l : List (Option T)) (p : Pool T),
      jobRun build (l.length + 1) (p, .unwind l) = (dropAll l p, .done false)
  | [], _ => rfl
  | some v :: l, p => jobRun_unwind build l (release p v)
  | none :: l, p => jobRun_unwind build l p

theorem jobRun_loop (build : Nat → Option T) :
    ∀ (l : List (Option T)) (p : Pool T),
      jobRun build (l.length + 1) (p, .loop l) = ((temps l p).2, .done (temps l p).1)
  | [], _ => rfl
  | some v :: l, p => jobRun_loop build l (release p v)
  | none :: l, p => jobRun_unwind build l p

theorem jobRun_collect (build : Nat → Option T) :
    ∀ (n : Nat) (got : List (Option T)) (p : Pool T) (m : Nat),
      jobRun build (n + 1 + m) (p, .collect n got) =
        jobRun build m ((collect build n p).2, .loop (got ++ (collect build n p).1))
  | 0, got, p, m => by
    rw [show 0 + 1 + m = m + 1 by omega]
    simp [jobRun, jobStep, collect]
  | n + 1, got, p, m => by
    rw [show n + 1 + 1 + m = (n + 1 + m) + 1 by omega]
    simp only [jobRun, jobStep, jobRun_collect build n, collect, List.append_assoc,
      List.singleton_append]

/-- Left alone, the steps of a `prealloc` call are `prealloc`. -/
theorem jobRun_prealloc (build : Nat → Option T) (count : Nat) (p : Pool T) :
    ∃ n, jobRun build n (p, .collect count []) =
      ((prealloc build count p).2, .done (prealloc build count p).1) :=
  ⟨count + 1 + ((collect build count p).1.length + 1), by
    rw [jobRun_collect, List.nil_append, jobRun_loop]; rfl⟩

/-! ## What `prealloc` leaves -/

/-- `count` acquisitions take what is free and then call the builder, whatever
it returns. -/
theorem collect_eq (build : Nat → Option T) (n : Nat) (p : Pool T) :
    collect build n p = ((p.free.take n).map some ++
      (List.range' p.calls (n - p.free.length)).map build,
      ⟨p.free.drop n, p.calls + (n - p.free.length)⟩) := by
  induction n generalizing p with
  | zero => simp [collect]
  | succ n ih =>
    obtain ⟨free, calls⟩ := p
    cases free with
    | nil =>
      simp only [collect, tryFrom, ih, List.take_nil, List.drop_nil, List.map_nil, List.nil_append,
        List.length_nil, Nat.sub_zero, List.range'_succ, List.map_cons, Nat.add_assoc,
        Nat.add_comm 1 n]
    | cons v rest =>
      simp only [collect, tryFrom, ih, List.take_succ_cons, List.drop_succ_cons, List.map_cons,
        List.cons_append, List.length_cons, Nat.add_sub_add_right]

theorem dropAll_eq (l : List (Option T)) (p : Pool T) :
    dropAll l p = { p with free := (l.filterMap id).reverse ++ p.free } := by
  induction l generalizing p with
  | nil => rfl
  | cons a l ih =>
    cases a with
    | none => exact ih p
    | some v => rw [dropAll, ih, release]; simp

/-- The early return drops the rest of the list all the same. -/
theorem temps_eq (l : List (Option T)) (p : Pool T) :
    temps l p = (l.all Option.isSome, dropAll l p) := by
  induction l generalizing p with
  | nil => rfl
  | cons a l ih =>
    cases a with
    | none => rfl
    | some v => exact ih (release p v)

theorem prealloc_eq (build : Nat → Option T) (count : Nat) (p : Pool T) :
    prealloc build count p =
      ((List.range' p.calls (count - p.free.length)).all fun i => (build i).isSome,
        ⟨(p.free.take count ++ (List.range' p.calls (count - p.free.length)).filterMap
          build).reverse ++
          p.free.drop count, p.calls + (count - p.free.length)⟩) := by
  have hfree : ((p.free.take count).all fun _ => true) = true := List.all_eq_true.mpr fun _ _ => rfl
  simp only [prealloc, collect_eq, temps_eq, dropAll_eq, List.all_append, List.all_map,
    List.filterMap_append, List.filterMap_map, Function.comp_def, Option.isSome_some, hfree,
    Bool.true_and, id, List.filterMap_some]

/-- `prealloc` adds to the free list only what the builder builds. -/
theorem mem_prealloc {build : Nat → Option T} {n : Nat} {p : Pool T} {x : T}
    (h : x ∈ (prealloc build n p).2.free) : x ∈ p.free ∨ ∃ i, build i = some x := by
  rw [prealloc_eq] at h
  simp only [List.mem_append, List.mem_reverse, List.mem_filterMap] at h
  obtain (h | ⟨i, -, h⟩) | h := h
  · exact .inl (List.mem_of_mem_take h)
  · exact .inr ⟨i, h⟩
  · exact .inl (List.mem_of_mem_drop h)

/-- The free list is the old one and what has been built. -/
theorem prealloc_perm (build : Nat → Option T) (count : Nat) (p : Pool T) :
    (prealloc build count p).2.free.Perm
      (p.free ++ (List.range' p.calls (count - p.free.length)).filterMap build) := by
  rw [prealloc_eq]
  refine ((List.reverse_perm _).append_right _).trans ?_
  rw [List.append_assoc]
  refine (List.perm_append_comm.append_left _).trans ?_
  rw [← List.append_assoc, List.take_append_drop]

/-- `prealloc(count)` has turned `p` into `p'`: the calls of the builder are
those from number `p.calls` on. -/
structure Reserved (build : Nat → Option T) (count : Nat) (p : Pool T) (success : Bool)
    (p' : Pool T) :
    Prop where
  calls : p'.calls = p.calls + (count - p.free.length)
  ok : success = true ↔ ∀ i, p.calls ≤ i → i < p'.calls → (build i).isSome = true
  free : p'.free.Perm (p.free ++ (List.range' p.calls (count - p.free.length)).filterMap build)
  next : success = true → ∀ n ≤ count, (collect build n p').2.calls = p'.calls ∧
    none ∉ (collect build n p').1

/-- **`prealloc` reserves without loss.** It calls the builder as often as
values are missing, succeeds exactly when each of these calls builds one, and in
either case leaves the previous values and the new ones in the free list. After
a success the next `count` acquisitions do not call the builder. -/
theorem prealloc_reserves (build : Nat → Option T) (count : Nat) (p : Pool T) :
    Reserved build count p (prealloc build count p).1 (prealloc build count p).2 := by
  constructor
  case free => exact prealloc_perm build count p
  all_goals rw [prealloc_eq]
  case ok => simp [List.all_eq_true, List.mem_range'_1]
  case next =>
    intro hok n hn
    have hbuilt : ((List.range' p.calls (count - p.free.length)).filterMap build).length =
        count - p.free.length := by
      rw [List.length_filterMap_eq_countP, List.countP_eq_length.mpr (List.all_eq_true.mp hok),
        List.length_range']
    have hlen : n ≤ ((p.free.take count ++
        (List.range' p.calls (count - p.free.length)).filterMap build).reverse ++
          p.free.drop count).length := by
      simp only [List.length_append, List.length_reverse, List.length_take,
        List.length_drop, hbuilt]
      omega
    rw [collect_eq]
    dsimp only
    rw [Nat.sub_eq_zero_of_le hlen, List.range'_zero, List.map_nil, List.append_nil]
    refine ⟨rfl, fun hnone => ?_⟩
    obtain ⟨v, -, hv⟩ := List.mem_map.mp hnone
    cases hv

/-! ## Conservation -/

/-- What the builder has produced in its first `n` calls. -/
def produced (build : Nat → Option T) (n : Nat) : Multiset T :=
  ((List.range n).filterMap build : List T)

theorem produced_succ (build : Nat → Option T) (n : Nat) :
    produced build (n + 1) = produced build n + ((build n).toList : List T) := by
  unfold produced
  rw [List.range_succ, List.filterMap_append, ← Multiset.coe_add]
  cases h : build n <;> simp [h]

theorem mem_produced {build : Nat → Option T} {n : Nat} {v : T} :
    v ∈ produced build n ↔ ∃ i < n, build i = some v := by
  simp [produced]

/-- The first `n` results of the builder are pairwise distinct. -/
def Distinct (build : Nat → Option T) (n : Nat) : Prop :=
  ∀ i < n, ∀ j < n, ∀ v, build i = some v → build j = some v → i = j

theorem Distinct.mono {build : Nat → Option T} {m n : Nat} (h : Distinct build n) (hm : m ≤ n) :
    Distinct build m :=
  fun i hi j hj => h i (by omega) j (by omega)

theorem produced_nodup {build : Nat → Option T} {n : Nat} (h : Distinct build n) :
    (produced build n).Nodup := by
  induction n with
  | zero => exact Multiset.nodup_zero
  | succ n ih =>
    rw [produced_succ]
    cases hb : build n with
    | none => simpa using ih (h.mono (by omega))
    | some v =>
      have hv : v ∉ produced build n := by
        rw [mem_produced]
        rintro ⟨i, hi, hiv⟩
        have := h i (by omega) n (by omega) v hiv hb
        omega
      rw [Option.toList_some, Multiset.coe_singleton, add_comm, Multiset.singleton_add,
        Multiset.nodup_cons]
      exact ⟨hv, ih (h.mono (by omega))⟩

/-- The values a `prealloc` call holds. -/
def Job.values : Job T → Multiset T
  | .collect _ got => (got.filterMap id : List T)
  | .loop left => (left.filterMap id : List T)
  | .unwind left => (left.filterMap id : List T)
  | .done _ => 0

/-- The values of all live `Reusable`s: those of the callers and those in
the lists of `prealloc` calls. -/
def St.held (s : St T) : Multiset T := (s.live : Multiset T) + Tokens.held Job.values s.jobs

/-- Live values and free list are what the builder has produced. -/
def Conserved (build : Nat → Option T) (s : St T) : Prop :=
  s.held + (s.pool.free : Multiset T) = produced build s.pool.calls

/-- What a pool owes: its free list against the builder's output. An
acquisition moves one value out (or builds one), a drop moves one in. -/
theorem tryFrom_conserves (build : Nat → Option T) (p : Pool T) (m : Multiset T)
    (h : m + (p.free : Multiset T) = produced build p.calls) :
    (((tryFrom build p).1.toList : List T) : Multiset T) + m +
      ((tryFrom build p).2.free : Multiset T) = produced build (tryFrom build p).2.calls := by
  unfold tryFrom
  split
  · rename_i v rest hf
    rw [hf, ← Multiset.cons_coe, ← Multiset.singleton_add] at h
    simp only [Option.toList_some, Multiset.coe_singleton]
    rw [← h, add_comm {v} m, add_assoc]
  · rename_i hf
    rw [hf, Multiset.coe_nil, add_zero] at h
    simp only [hf, Multiset.coe_nil, add_zero, produced_succ, h]
    exact add_comm _ _

theorem release_conserves (build : Nat → Option T) (p : Pool T) (m : Multiset T) (v : T)
    (h : {v} + m + (p.free : Multiset T) = produced build p.calls) :
    m + ((release p v).free : Multiset T) = produced build (release p v).calls := by
  simp only [release]
  rw [← h, ← Multiset.cons_coe, ← Multiset.singleton_add, add_left_comm, add_assoc]

theorem jobStep_conserves (build : Nat → Option T) (p : Pool T) (b : Job T) (m : Multiset T)
    (h : b.values + m + (p.free : Multiset T) = produced build p.calls) :
    (jobStep build p b).2.values + m + ((jobStep build p b).1.free : Multiset T) =
      produced build (jobStep build p b).1.calls := by
  cases b with
  | collect todo got =>
    cases todo with
    | zero => exact h
    | succ n =>
      have ht := tryFrom_conserves build p _ h
      simp only [jobStep, Job.values, List.filterMap_append]
      rw [← ht, ← Multiset.coe_add, Job.values]
      cases (tryFrom build p).1 with
      | none => simp [add_assoc]
      | some v =>
        simp only [Option.toList_some, Multiset.coe_singleton]
        ac_rfl
  | loop left =>
    match left with
    | [] => exact h
    | none :: left => simpa [jobStep, Job.values] using h
    | some v :: left =>
      refine release_conserves build p ((left.filterMap id : List T) + m) v ?_
      simpa [Job.values, ← Multiset.cons_coe, ← Multiset.singleton_add, add_assoc] using h
  | unwind left =>
    match left with
    | [] => exact h
    | none :: left => simpa [jobStep, Job.values] using h
    | some v :: left =>
      refine release_conserves build p ((left.filterMap id : List T) + m) v ?_
      simpa [Job.values, ← Multiset.cons_coe, ← Multiset.singleton_add, add_assoc] using h
  | done ok => exact h

theorem card_produced (build : Nat → T) (n : Nat) :
    Multiset.card (produced (fun i => some (build i)) n) = n := by
  simp [produced]

/-- Values out and values free, when the builder always builds. -/
theorem alloc_count (build : Nat → T) (p : Pool T) (n : Nat) (h : n + p.free.length = p.calls) :
    1 + n + (alloc build p).2.free.length = (alloc build p).2.calls := by
  unfold alloc
  split <;> rename_i hf <;> rw [hf] at h <;>
    simp only [hf, List.length_cons, List.length_nil] at h ⊢ <;> omega

theorem produced_add (build : Nat → Option T) (m n : Nat) :
    produced build (m + n) = produced build m + ((List.range' m n).filterMap build : List T) := by
  unfold produced
  rw [List.range_add, List.filterMap_append, ← Multiset.coe_add, ← List.range'_eq_map_range]

/-- Nothing is lost in a `prealloc` call that is left alone. -/
theorem prealloc_conserves (build : Nat → Option T) (count : Nat) (p : Pool T) (m : Multiset T)
    (h : m + (p.free : Multiset T) = produced build p.calls) :
    m + ((prealloc build count p).2.free : Multiset T) =
      produced build (prealloc build count p).2.calls := by
  have hcalls : (prealloc build count p).2.calls = p.calls + (count - p.free.length) := by
    rw [prealloc_eq]
  rw [Multiset.coe_eq_coe.mpr (prealloc_perm build count p), ← Multiset.coe_add, ← add_assoc,
    h, hcalls, produced_add]

theorem conserved_step (build : Nat → Option T) (s s' : St T) (e : Ev) (h : Conserved build s)
    (hs : step build s e = some s') : Conserved build s' := by
  unfold Conserved St.held at h ⊢
  cases e with
  | acquire =>
    simp only [step, Option.some.injEq] at hs; subst hs
    have ht := tryFrom_conserves build s.pool _ h
    simp only [← Multiset.coe_add]
    rw [← ht]; ac_rfl
  | drop i =>
    simp only [step] at hs
    split at hs
    · cases hs
    · rename_i v hv
      simp only [Option.some.injEq] at hs; subst hs
      refine release_conserves build s.pool _ v ?_
      obtain ⟨hi, rfl⟩ := List.getElem?_eq_some_iff.mp hv
      have hp : (s.live : Multiset T) = s.live[i] ::ₘ (s.live.eraseIdx i : List T) :=
        Multiset.coe_eq_coe.mpr (List.getElem_cons_eraseIdx_perm hi).symm
      rw [← h, hp, ← Multiset.singleton_add]; ac_rfl
  | prealloc count =>
    simp only [step, Option.some.injEq] at hs; subst hs
    simpa [held_append, Job.values] using h
  | job j =>
    simp only [step] at hs
    split at hs
    · cases hs
    · rename_i b hb
      simp only [Option.some.injEq] at hs; subst hs
      obtain ⟨m, hm, hm'⟩ := held_set (f := Job.values) hb (jobStep build s.pool b).2
      have hj := jobStep_conserves build s.pool b ((s.live : Multiset T) + m) (by
        rw [← h, hm]; ac_rfl)
      simp only [hm']
      rw [← hj]; ac_rfl

theorem conserved_inductive (build : Nat → Option T) : (lts build).Inductive (Conserved build) where
  init := by intro s hs; rw [hs]; rfl
  step := fun s e s' h hs => conserved_step build s s' e h hs

/-- **Conservation.** In every reachable state the live values and the free
list are together the values the builder has produced. -/
theorem conserved_reachable (build : Nat → Option T) (s : St T) (h : (lts build).Reachable s) :
    s.held + (s.pool.free : Multiset T) = produced build s.pool.calls :=
  (conserved_inductive build).reachable s h

/-! ## Calls of the builder -/

theorem jobStep_calls (build : Nat → Option T) (p : Pool T) (b : Job T) :
    (jobStep build p b).1.calls = p.calls ∨
      ((jobStep build p b).1.calls = p.calls + 1 ∧ p.free = []) := by
  unfold jobStep
  split
  case h_2 n got => exact (tryFrom_calls build p).imp And.left id
  all_goals exact .inl rfl

/-- A step calls the builder at most once, and only on an empty free list. -/
theorem step_calls (build : Nat → Option T) (s s' : St T) (e : Ev) (hs : step build s e = some s') :
    s'.pool.calls = s.pool.calls ∨ (s'.pool.calls = s.pool.calls + 1 ∧ s.pool.free = []) := by
  cases e with
  | acquire =>
    simp only [step, Option.some.injEq] at hs; subst hs
    exact (tryFrom_calls build s.pool).imp And.left id
  | drop i =>
    simp only [step] at hs
    split at hs
    · cases hs
    · simp only [Option.some.injEq] at hs; subst hs; exact .inl rfl
  | prealloc count => simp only [step, Option.some.injEq] at hs; subst hs; exact .inl rfl
  | job j =>
    simp only [step] at hs
    split at hs
    · cases hs
    · simp only [Option.some.injEq] at hs; subst hs; exact jobStep_calls build s.pool _

end Inger.L1.Reusable
