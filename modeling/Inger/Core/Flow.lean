import Mathlib.Data.List.Basic

/-!
# Programs that are lists of lines

A deterministic machine is a step function that goes on, ends with a result or is
stuck; `Runs step c o`: from `c` it ends with `o`; `Sticks step c`: it gets stuck.
`Sim` relates two of them step by step, with a run of the second one for the last
step of the first; then the results of the second are what `F` makes of those of
the first (`Sim.runs_iff`), in both directions: no end is lost and none is added.
If `F` leaves no end without a result, the second gets stuck exactly when the
first does (`Sim.sticks_iff`).

A line program is a list of lines, some of which are labels. The lines of a block
are executed in order; a jump goes to the lines behind a label (`lookup`). A block
does not run into the next one: a label that is reached otherwise is stuck. Values
of registers (`ρ`) belong to one activation, `μ` is everything else; `prev` is the
block from which the current one was entered. An instruction that takes several
lines leaves its first part in the registers.
-/
namespace Inger.Flow

/-! ## Deterministic machines -/

inductive Step (C O : Type) where
  | goes (c : C)
  | ends (o : O)
  | stuck

/-- The result is only seen through `f`. -/
def Step.map {C O O' : Type} (f : O → O') : Step C O → Step C O'
  | .goes c => .goes c
  | .ends o => .ends (f o)
  | .stuck => .stuck

section
variable {C O C' O' : Type} {step : C → Step C O} {step' : C' → Step C' O'}

/-- At most `n` steps. -/
def run (step : C → Step C O) : Nat → C → Option O
  | 0, _ => none
  | n + 1, c =>
    match step c with
    | .goes c' => run step n c'
    | .ends o => some o
    | .stuck => none

def Runs (step : C → Step C O) (c : C) (o : O) : Prop := ∃ n, run step n c = some o

theorem Runs.goes_iff {c c₁ : C} {o : O} (h : step c = .goes c₁) :
    Runs step c o ↔ Runs step c₁ o := by
  constructor
  · rintro ⟨n, hn⟩
    cases n with
    | zero => cases hn
    | succ n => exact ⟨n, by simpa only [run, h] using hn⟩
  · rintro ⟨n, hn⟩
    exact ⟨n + 1, by simpa only [run, h] using hn⟩

theorem Runs.ends_iff {c : C} {o o' : O} (h : step c = .ends o) : Runs step c o' ↔ o' = o := by
  constructor
  · rintro ⟨n, hn⟩
    cases n with
    | zero => cases hn
    | succ n =>
      simp only [run, h, Option.some.injEq] at hn
      exact hn.symm
  · rintro rfl
    exact ⟨1, by simp only [run, h]⟩

theorem Runs.not_stuck {c : C} {o : O} (h : Runs step c o) : step c ≠ .stuck := by
  obtain ⟨n, hn⟩ := h
  intro hc
  cases n with
  | zero => cases hn
  | succ n => simp only [run, hc, reduceCtorEq] at hn

theorem Runs.map_iff {f : O → O'} {c : C} {o' : O'} :
    Runs (fun c => (step c).map f) c o' ↔ ∃ o, Runs step c o ∧ f o = o' := by
  have hrun (n : Nat) (c : C) : run (fun c => (step c).map f) n c = (run step n c).map f := by
    induction n generalizing c with
    | zero => rfl
    | succ n ih =>
      rw [run, run]
      cases step c with
      | goes c₁ => exact ih c₁
      | ends o => rfl
      | stuck => rfl
  constructor
  · rintro ⟨n, hn⟩
    rw [hrun, Option.map_eq_some_iff] at hn
    obtain ⟨o, ho, hf⟩ := hn
    exact ⟨o, ⟨n, ho⟩, hf⟩
  · rintro ⟨o, ⟨n, hn⟩, hf⟩
    exact ⟨n, by rw [hrun, hn, Option.map_some, hf]⟩

/-- After some steps it is stuck. -/
inductive Sticks (step : C → Step C O) : C → Prop
  | here {c : C} (h : step c = .stuck) : Sticks step c
  | later {c c₁ : C} (h : step c = .goes c₁) (hc : Sticks step c₁) : Sticks step c

theorem Sticks.not_runs {c : C} (h : Sticks step c) (o : O) : ¬Runs step c o := by
  induction h with
  | here h => exact fun ho => ho.not_stuck h
  | later h _ ih => exact fun ho => ih ((Runs.goes_iff h).mp ho)

theorem Sticks.map_iff {f : O → O'} {c : C} :
    Sticks (fun c => (step c).map f) c ↔ Sticks step c := by
  constructor
  · intro h
    induction h with
    | @here c h =>
      refine .here ?_
      cases hc : step c with
      | stuck => rfl
      | goes c₁ => simp only [hc, Step.map, reduceCtorEq] at h
      | ends o => simp only [hc, Step.map, reduceCtorEq] at h
    | @later c c₁ h _ ih =>
      cases hc : step c with
      | stuck => simp only [hc, Step.map, reduceCtorEq] at h
      | ends o => simp only [hc, Step.map, reduceCtorEq] at h
      | goes c₂ =>
        simp only [hc, Step.map, Step.goes.injEq] at h
        exact .later hc (h ▸ ih)
  · intro h
    induction h with
    | here h => exact .here (by rw [h]; rfl)
    | later h _ ih => exact .later (by rw [h]; rfl) ih

/-- What `step'` does at `c'` while `step` takes the given step: the same until
`step` ends; then its results are those that `F` allows. -/
def Answers (step' : C' → Step C' O') (R : C → C' → Prop) (F : O → O' → Prop) (c' : C') :
    Step C O → Prop
  | .goes c₁ => ∃ c₁', step' c' = .goes c₁' ∧ R c₁ c₁'
  | .ends o => ∀ o', Runs step' c' o' ↔ F o o'
  | .stuck => step' c' = .stuck

def Sim (step : C → Step C O) (step' : C' → Step C' O') (R : C → C' → Prop)
    (F : O → O' → Prop) : Prop :=
  ∀ c c', R c c' → Answers step' R F c' (step c)

/-- The second machine ends when the first one does, and with what `F` makes of
its result. -/
theorem Sim.runs_iff {R : C → C' → Prop} {F : O → O' → Prop} (h : Sim step step' R F)
    {c : C} {c' : C'} (hR : R c c') (o' : O') : Runs step' c' o' ↔ ∃ o, Runs step c o ∧ F o o' := by
  constructor
  · rintro ⟨n, hn⟩
    induction n generalizing c c' with
    | zero => cases hn
    | succ n ih =>
      have ha := h c c' hR
      cases hc : step c with
      | goes c₁ =>
        rw [hc] at ha
        obtain ⟨c₁', hc', hR'⟩ := ha
        simp only [run, hc'] at hn
        obtain ⟨o, ho, hF⟩ := ih hR' hn
        exact ⟨o, (Runs.goes_iff hc).mpr ho, hF⟩
      | ends o =>
        rw [hc] at ha
        exact ⟨o, (Runs.ends_iff hc).mpr rfl, (ha o').mp ⟨n + 1, hn⟩⟩
      | stuck =>
        rw [hc] at ha
        simp only [run, show step' c' = .stuck from ha, reduceCtorEq] at hn
  · rintro ⟨o, ⟨n, hn⟩, hF⟩
    induction n generalizing c c' with
    | zero => cases hn
    | succ n ih =>
      have ha := h c c' hR
      cases hc : step c with
      | goes c₁ =>
        rw [hc] at ha
        obtain ⟨c₁', hc', hR'⟩ := ha
        simp only [run, hc] at hn
        exact (Runs.goes_iff hc').mpr (ih hR' hn)
      | ends o₁ =>
        rw [hc] at ha
        simp only [run, hc, Option.some.injEq] at hn
        exact (ha o').mpr (hn ▸ hF)
      | stuck => simp only [run, hc, reduceCtorEq] at hn

/-- The second machine gets stuck when the first one does. -/
theorem Sim.sticks_iff {R : C → C' → Prop} {F : O → O' → Prop} (h : Sim step step' R F)
    (hF : ∀ o, ∃ o', F o o') {c : C} {c' : C'} (hR : R c c') : Sticks step' c' ↔ Sticks step c := by
  constructor
  · intro hs
    induction hs generalizing c with
    | @here c' hs =>
      have ha := h c c' hR
      cases hc : step c with
      | stuck => exact .here hc
      | goes c₁ =>
        rw [hc] at ha
        obtain ⟨c₁', hc', -⟩ := ha
        rw [hs] at hc'
        cases hc'
      | ends o =>
        rw [hc] at ha
        obtain ⟨o', ho'⟩ := hF o
        exact absurd ((ha o').mpr ho') (Sticks.not_runs (.here hs) o')
    | @later c' c₂' hs hstuck ih =>
      have ha := h c c' hR
      cases hc : step c with
      | stuck => exact .here hc
      | goes c₁ =>
        rw [hc] at ha
        obtain ⟨c₁', hc', hR'⟩ := ha
        rw [hs] at hc'
        cases hc'
        exact .later hc (ih hR')
      | ends o =>
        rw [hc] at ha
        obtain ⟨o', ho'⟩ := hF o
        exact absurd ((ha o').mpr ho') (Sticks.not_runs (.later hs hstuck) o')
  · intro hs
    induction hs generalizing c' with
    | @here c hc =>
      have ha := h c c' hR
      rw [hc] at ha
      exact .here ha
    | @later c c₁ hc _ ih =>
      have ha := h c c' hR
      rw [hc] at ha
      obtain ⟨c₁', hc', hR'⟩ := ha
      exact .later hc' (ih hR')

end

/-! ## Line programs -/

/-- What a line does: go on with the next one, jump, return, throw. -/
inductive Out (N ρ μ V : Type) where
  | next (regs : ρ) (mem : μ)
  | jump (n : N) (regs : ρ) (mem : μ)
  | ret (v : V)
  | throw (mem : μ)
  | stuck

structure Lang (α N ρ μ V : Type) where
  label : α → Option N
  exec : (line : α) → (prev : N) → ρ → μ → Out N ρ μ V

structure Config (α N ρ μ : Type) where
  rest : List α
  prev : N
  here : N
  regs : ρ
  mem : μ

/-- How an activation ends, with the block and the registers it returns from. -/
inductive End (N ρ μ V : Type) where
  | returned (v : V) (here : N) (regs : ρ) (mem : μ)
  | unwound (mem : μ)
  deriving DecidableEq

/-- What its caller sees. -/
inductive Result (μ V : Type) where
  | returned (v : V) (mem : μ)
  | unwound (mem : μ)
  deriving DecidableEq

def End.result {N ρ μ V : Type} : End N ρ μ V → Result μ V
  | .returned v _ _ mem => .returned v mem
  | .unwound mem => .unwound mem

namespace Lang

variable {α N ρ μ V : Type} [DecidableEq N]

/-- The lines behind the label. -/
def lookup (L : Lang α N ρ μ V) (n : N) : List α → Option (List α)
  | [] => none
  | l :: ls => if L.label l = some n then some ls else L.lookup n ls

/-- A step of the program `prog`. -/
def step (L : Lang α N ρ μ V) (prog : List α) (c : Config α N ρ μ) :
    Step (Config α N ρ μ) (End N ρ μ V) :=
  match c.rest with
  | [] => .stuck
  | l :: rest =>
    if (L.label l).isSome then .stuck
    else
      match L.exec l c.prev c.regs c.mem with
      | .next regs mem => .goes ⟨rest, c.prev, c.here, regs, mem⟩
      | .jump n regs mem =>
        match L.lookup n prog with
        | some target => .goes ⟨target, c.here, n, regs, mem⟩
        | none => .stuck
      | .ret v => .ends (.returned v c.here c.regs c.mem)
      | .throw mem => .ends (.unwound mem)
      | .stuck => .stuck

/-- The first block; one without a label is called `entry`. -/
def start (L : Lang α N ρ μ V) (entry : N) (prog : List α) (regs : ρ) (mem : μ) : Config α N ρ μ :=
  match prog with
  | [] => ⟨[], entry, entry, regs, mem⟩
  | l :: rest =>
    match L.label l with
    | some n => ⟨rest, entry, n, regs, mem⟩
    | none => ⟨l :: rest, entry, entry, regs, mem⟩

/-- An activation ends with `e`. -/
def Ends (L : Lang α N ρ μ V) (entry : N) (prog : List α) (regs : ρ) (mem : μ)
    (e : End N ρ μ V) : Prop :=
  Runs (L.step prog) (L.start entry prog regs mem) e

/-- From the configuration `c` on, the caller gets to see `o`. -/
def Shows (L : Lang α N ρ μ V) (prog : List α) (c : Config α N ρ μ) (o : Result μ V) : Prop :=
  Runs (fun c => (L.step prog c).map End.result) c o

/-- A call of the program ends with `o`. -/
def Means (L : Lang α N ρ μ V) (entry : N) (prog : List α) (regs : ρ) (mem : μ)
    (o : Result μ V) : Prop :=
  L.Shows prog (L.start entry prog regs mem) o

theorem means_iff {L : Lang α N ρ μ V} {entry : N} {prog : List α} {regs : ρ} {mem : μ}
    {o : Result μ V} :
    L.Means entry prog regs mem o ↔ ∃ e, L.Ends entry prog regs mem e ∧ e.result = o :=
  Runs.map_iff

/-- A call of the program gets stuck. -/
def Sticks (L : Lang α N ρ μ V) (entry : N) (prog : List α) (regs : ρ) (mem : μ) : Prop :=
  Flow.Sticks (L.step prog) (L.start entry prog regs mem)

/-- Every jump has a target. -/
def Closed (L : Lang α N ρ μ V) (prog : List α) : Prop :=
  ∀ l ∈ prog, ∀ prev regs mem n regs' mem', L.exec l prev regs mem = .jump n regs' mem' →
    (L.lookup n prog).isSome = true

section
variable {L : Lang α N ρ μ V} {n : N} {prog a b : List α} {x : α}

/-- The first line with the label. -/
theorem lookup_eq_some {t : List α} (h : L.lookup n prog = some t) :
    ∃ a x, prog = a ++ x :: t ∧ L.label x = some n ∧ ∀ y ∈ a, L.label y ≠ some n := by
  induction prog with
  | nil => cases h
  | cons l ls ih =>
    rw [lookup] at h
    split at h
    · rename_i hl
      cases h
      exact ⟨[], l, rfl, hl, List.forall_mem_nil _⟩
    · rename_i hl
      obtain ⟨a, x, rfl, hx, ha⟩ := ih h
      exact ⟨l :: a, x, rfl, hx, List.forall_mem_cons.mpr ⟨hl, ha⟩⟩

theorem lookup_append (ha : ∀ y ∈ a, L.label y ≠ some n) : L.lookup n (a ++ b) = L.lookup n b := by
  induction a with
  | nil => rfl
  | cons l a ih =>
    rw [List.forall_mem_cons] at ha
    rw [List.cons_append, lookup, if_neg ha.1, ih ha.2]

theorem lookup_isSome : (L.lookup n prog).isSome = true ↔ ∃ l ∈ prog, L.label l = some n := by
  induction prog with
  | nil => simp [lookup]
  | cons l ls ih =>
    rw [lookup, List.exists_mem_cons_iff]
    split
    · rename_i hl
      exact ⟨fun _ => .inl hl, fun _ => rfl⟩
    · rename_i hl
      rw [ih]
      exact ⟨.inr, fun h => h.resolve_left hl⟩

theorem lookup_self (hx : L.label x = some n) : L.lookup n (x :: b) = some b := by
  rw [lookup, if_pos hx]

end

section
variable {L : Lang α N ρ μ V} {prog rest : List α} {l : α} {prev here : N} {regs regs' : ρ}
  {mem mem' : μ}

/-! ## One step -/

theorem step_label (h : (L.label l).isSome = true) :
    L.step prog ⟨l :: rest, prev, here, regs, mem⟩ = .stuck := by
  simp only [step, h, if_true]

theorem step_next (h : L.label l = none) (hx : L.exec l prev regs mem = .next regs' mem') :
    L.step prog ⟨l :: rest, prev, here, regs, mem⟩ = .goes ⟨rest, prev, here, regs', mem'⟩ := by
  simp only [step, h, hx, Option.isSome_none, Bool.false_eq_true, if_false]

theorem step_jump {n : N} {target : List α} (h : L.label l = none)
    (hx : L.exec l prev regs mem = .jump n regs' mem') (ht : L.lookup n prog = some target) :
    L.step prog ⟨l :: rest, prev, here, regs, mem⟩ = .goes ⟨target, here, n, regs', mem'⟩ := by
  simp only [step, h, hx, ht, Option.isSome_none, Bool.false_eq_true, if_false]

theorem step_lost {n : N} (h : L.label l = none) (hx : L.exec l prev regs mem = .jump n regs' mem')
    (ht : L.lookup n prog = none) : L.step prog ⟨l :: rest, prev, here, regs, mem⟩ = .stuck := by
  simp only [step, h, hx, ht, Option.isSome_none, Bool.false_eq_true, if_false]

theorem step_ret {v : V} (h : L.label l = none) (hx : L.exec l prev regs mem = .ret v) :
    L.step prog ⟨l :: rest, prev, here, regs, mem⟩ = .ends (.returned v here regs mem) := by
  simp only [step, h, hx, Option.isSome_none, Bool.false_eq_true, if_false]

theorem step_throw (h : L.label l = none) (hx : L.exec l prev regs mem = .throw mem') :
    L.step prog ⟨l :: rest, prev, here, regs, mem⟩ = .ends (.unwound mem') := by
  simp only [step, h, hx, Option.isSome_none, Bool.false_eq_true, if_false]

theorem step_stuck (h : L.label l = none) (hx : L.exec l prev regs mem = .stuck) :
    L.step prog ⟨l :: rest, prev, here, regs, mem⟩ = .stuck := by
  simp only [step, h, hx, Option.isSome_none, Bool.false_eq_true, if_false]

theorem shows_goes {c c₁ : Config α N ρ μ} {o : Result μ V} (h : L.step prog c = .goes c₁) :
    L.Shows prog c o ↔ L.Shows prog c₁ o :=
  Runs.goes_iff (by rw [h]; rfl)

theorem not_shows {c : Config α N ρ μ} {o : Result μ V} (h : L.step prog c = .stuck) :
    ¬L.Shows prog c o :=
  fun ho => ho.not_stuck (by rw [h]; rfl)

theorem shows_ends {c : Config α N ρ μ} {e : End N ρ μ V} {o : Result μ V}
    (h : L.step prog c = .ends e) :
    L.Shows prog c o ↔ o = e.result :=
  Runs.ends_iff (by rw [h]; rfl)

end

end Lang

end Inger.Flow
