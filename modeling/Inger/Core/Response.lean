import Inger.Core.LTS

/-!
# Bounded response

A system in which `P` holds is on its way to `Q`. Every step it takes until then
costs something, and some steps (arrivals, interruptions) give it more to do. When
a rank covers the cost of each step, it covers, with what has been given, the cost
of every run up to `Q`.
-/
namespace Inger.LTS

variable {S L : Type}

def total (f : L → Nat) : List L → Nat
  | [] => 0
  | l :: ls => f l + total f ls

@[simp] theorem total_nil (f : L → Nat) : total f [] = 0 := rfl

@[simp] theorem total_cons (f : L → Nat) (l : L) (ls : List L) :
    total f (l :: ls) = f l + total f ls := rfl

theorem total_mul (n : Nat) (f : L → Nat) (ls : List L) :
    total (fun l => n * f l) ls = n * total f ls := by
  induction ls with
  | nil => rfl
  | cons l ls ih => rw [total_cons, total_cons, ih, Nat.mul_add]

/-- A step by a label in `C` reaches `Q` or stays in `P`, at a cost within the rank
and what the step gives. -/
structure Responds (M : LTS S L) (C : L → Prop) (P Q : S → Prop) (rank : S → Nat)
    (cost gain : L → Nat) : Prop where
  step : ∀ s l s', P s → C l → M.step s l s' →
    (Q s' ∧ cost l ≤ rank s + gain l) ∨ (P s' ∧ rank s' + cost l ≤ rank s + gain l)

/-- A run reaches `Q` at a cost within the rank and what its steps have given, or
has cost no more so far. -/
theorem Responds.run {M : LTS S L} {C : L → Prop} {P Q : S → Prop} {rank : S → Nat}
    {cost gain : L → Nat} (h : Responds M C P Q rank cost gain) {s s' : S} {ls : List L}
    (hrun : M.Run s ls s') (hc : ∀ l ∈ ls, C l) (hp : P s) :
    (∃ a b s₁, ls = a ++ b ∧ M.Run s a s₁ ∧ Q s₁ ∧ total cost a ≤ rank s + total gain a) ∨
      (P s' ∧ rank s' + total cost ls ≤ rank s + total gain ls) := by
  induction hrun with
  | nil s => exact .inr ⟨hp, Nat.le_refl _⟩
  | @cons s s₁ s' l ls hs hrun ih =>
    rcases h.step s l s₁ hp (hc l List.mem_cons_self) hs with ⟨hq, hle⟩ | ⟨hp₁, hle⟩
    · exact .inl ⟨[l], ls, s₁, rfl, .cons hs (.nil s₁), hq, hle⟩
    · rcases ih (fun l' hl' => hc l' (List.mem_cons_of_mem l hl')) hp₁ with
        ⟨a, b, s₂, rfl, hrun', hq, hle'⟩ | ⟨hp', hle'⟩
      · refine .inl ⟨l :: a, b, s₂, rfl, .cons hs hrun', hq, ?_⟩
        simp only [total_cons]
        omega
      · refine .inr ⟨hp', ?_⟩
        simp only [total_cons]
        omega

end Inger.LTS
