import Mathlib.Data.List.Basic

/-!
# Labelled transition systems

States, labels, an initial predicate and a step relation. `Run` is a finite
run with the list of its labels, `Reachable` a state some run from an initial
state ends in, and `Inductive I` says `I` holds initially and is kept by every
step; `Inductive.reachable` is the one induction every safety result of the
project goes through.

`only C` is the system whose runs are those in which every step meets `C` (a
condition on the state before the step and on the label). A property that
holds only while some branch is not taken is a property of `only C`.
-/
namespace Inger

structure LTS (S L : Type) where
  init : S → Prop
  step : S → L → S → Prop

namespace LTS

variable {S L : Type}

/-- The system of a partial step function. -/
def ofFn (init : S → Prop) (f : S → L → Option S) : LTS S L where
  init := init
  step s l s' := f s l = some s'

inductive Run (M : LTS S L) : S → List L → S → Prop
  | nil (s : S) : Run M s [] s
  | cons {s s' s'' : S} {l : L} {ls : List L} :
      M.step s l s' → Run M s' ls s'' → Run M s (l :: ls) s''

def Reachable (M : LTS S L) (s : S) : Prop := ∃ s₀ ls, M.init s₀ ∧ M.Run s₀ ls s

structure Inductive (M : LTS S L) (I : S → Prop) : Prop where
  init : ∀ s, M.init s → I s
  step : ∀ s l s', I s → M.step s l s' → I s'

/-- Preserved by every step, so preserved by every run. -/
theorem Inductive.run {M : LTS S L} {I : S → Prop} (h : M.Inductive I) {s s' : S} {ls : List L}
    (hr : M.Run s ls s') (hs : I s) : I s' := by
  induction hr with
  | nil => exact hs
  | cons hst _ ih => exact ih (h.step _ _ _ hs hst)

theorem Inductive.reachable {M : LTS S L} {I : S → Prop} (h : M.Inductive I) (s : S)
    (hr : M.Reachable s) : I s := by
  obtain ⟨s₀, ls, hi, hrun⟩ := hr
  exact h.run hrun (h.init s₀ hi)

theorem Run.snoc {M : LTS S L} {s s' s'' : S} {l : L} {ls : List L} (h : M.Run s ls s')
    (hst : M.step s' l s'') : M.Run s (ls ++ [l]) s'' := by
  induction h with
  | nil => exact .cons hst (.nil _)
  | cons h1 _ ih => exact .cons h1 (ih hst)

theorem Reachable.step {M : LTS S L} {s s' : S} {l : L} (h : M.Reachable s) (hst : M.step s l s') :
    M.Reachable s' := by
  obtain ⟨s₀, ls, hi, hrun⟩ := h
  exact ⟨s₀, ls ++ [l], hi, hrun.snoc hst⟩

theorem Reachable.run {M : LTS S L} {s s' : S} {ls : List L} (h : M.Reachable s)
    (hr : M.Run s ls s') :
    M.Reachable s' := by
  induction hr with
  | nil => exact h
  | cons hst _ ih => exact ih (h.step hst)

/-- The runs of `M` all of whose steps meet `C`. -/
def only (M : LTS S L) (C : S → L → Prop) : LTS S L where
  init := M.init
  step s l s' := M.step s l s' ∧ C s l

theorem Run.of_only {M : LTS S L} {C : S → L → Prop} {s s' : S} {ls : List L}
    (h : (M.only C).Run s ls s') : M.Run s ls s' := by
  induction h with
  | nil => exact .nil _
  | cons hst _ ih => exact .cons hst.1 ih

/-- A condition that every step meets. -/
theorem Reachable.only_of_forall {M : LTS S L} {C : S → L → Prop} {s : S} (h : M.Reachable s)
    (hc : ∀ s l, C s l) : (M.only C).Reachable s := by
  refine Inductive.reachable ⟨fun s hs => ⟨s, [], hs, .nil s⟩, fun s l s' hs hst => ?_⟩ s h
  exact Reachable.step hs ⟨hst, hc s l⟩

theorem Reachable.of_only {M : LTS S L} {C : S → L → Prop} {s : S} (h : (M.only C).Reachable s) :
    M.Reachable s := by
  obtain ⟨s₀, ls, hi, hrun⟩ := h
  exact ⟨s₀, ls, hi, hrun.of_only⟩

/-! ## Executing a list of labels -/

/-- Run the labels of a list in order; `none` when one of them is not enabled. -/
def exec (f : S → L → Option S) : S → List L → Option S
  | s, [] => some s
  | s, l :: ls => (f s l).bind fun s' => exec f s' ls

theorem run_of_exec {init : S → Prop} {f : S → L → Option S} :
    ∀ {s : S} {ls : List L} {s' : S}, exec f s ls = some s' → (ofFn init f).Run s ls s'
  | s, [], s', h => by
    simp only [exec, Option.some.injEq] at h; subst h; exact .nil _
  | s, l :: ls, s', h => by
    simp only [exec, Option.bind_eq_some_iff] at h
    obtain ⟨s₁, h₁, h₂⟩ := h
    exact .cons h₁ (run_of_exec h₂)

/-- A list of labels that can be executed from an initial state ends in a
reachable state; `p` reads off what the run is wanted for. -/
theorem reach_of_exec {init : S → Prop} {f : S → L → Option S} {s₀ : S} {ls : List L}
    {p : S → Bool} (hi : init s₀) (h : (exec f s₀ ls).map p = some true) :
    ∃ s, (ofFn init f).Reachable s ∧ p s = true := by
  simp only [Option.map_eq_some_iff] at h
  obtain ⟨s, hs, hp⟩ := h
  exact ⟨s, ⟨s₀, ls, hi, run_of_exec hs⟩, hp⟩

/-- The same for a last step: `p` reads off the states before and after it. -/
theorem reach_step_of_exec {init : S → Prop} {f : S → L → Option S} {s₀ : S} {ls : List L} {l : L}
    {p : S → S → Bool} (hi : init s₀)
    (h : ((exec f s₀ ls).bind fun s => (f s l).map (p s)) = some true) :
    ∃ s s', (ofFn init f).Reachable s ∧ (ofFn init f).step s l s' ∧ p s s' = true := by
  simp only [Option.bind_eq_some_iff, Option.map_eq_some_iff] at h
  obtain ⟨s, hs, s', hs', hp⟩ := h
  exact ⟨s, s', ⟨s₀, ls, hi, run_of_exec hs⟩, hs', hp⟩

/-- The steps of `f` that meet `C`. -/
def checked (C : S → L → Prop) [∀ s l, Decidable (C s l)] (f : S → L → Option S) (s : S) (l : L) :
    Option S := if C s l then f s l else none

/-- Runs of the checked steps are runs of `only C`. -/
theorem Run.of_checked {init : S → Prop} {C : S → L → Prop} [∀ s l, Decidable (C s l)]
    {f : S → L → Option S} {s s' : S} {ls : List L} (h : (ofFn init (checked C f)).Run s ls s') :
    ((ofFn init f).only C).Run s ls s' := by
  induction h with
  | nil => exact .nil _
  | cons hst _ ih =>
    simp only [ofFn, checked, Option.ite_none_right_eq_some] at hst
    exact .cons ⟨hst.2, hst.1⟩ ih

theorem Reachable.of_checked {init : S → Prop} {C : S → L → Prop} [∀ s l, Decidable (C s l)]
    {f : S → L → Option S} {s : S} (h : (ofFn init (checked C f)).Reachable s) :
    ((ofFn init f).only C).Reachable s := by
  obtain ⟨s₀, ls, hi, hrun⟩ := h
  exact ⟨s₀, ls, hi, hrun.of_checked⟩

/-- Two lists of labels one after the other, the second within `C`. -/
theorem reach_run_of_exec {init : S → Prop} {C : S → L → Prop} [∀ s l, Decidable (C s l)]
    {f : S → L → Option S} {s₀ : S} {ls ls' : List L} {p : S → S → Bool} (hi : init s₀)
    (h : ((exec f s₀ ls).bind fun s => (exec (checked C f) s ls').map (p s)) = some true) :
    ∃ s s', (ofFn init f).Reachable s ∧ ((ofFn init f).only C).Run s ls' s' ∧ p s s' = true := by
  simp only [Option.bind_eq_some_iff, Option.map_eq_some_iff] at h
  obtain ⟨s, hs, s', hs', hp⟩ := h
  exact ⟨s, s', ⟨s₀, ls, hi, run_of_exec hs⟩, (run_of_exec hs').of_checked, hp⟩

end LTS
end Inger
