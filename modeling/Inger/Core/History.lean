import Mathlib.Data.List.Basic

/-!
# Histories

A history is a list of events in the order they happened. `Each P h`: every
event of `h` meets `P` together with the events before it. `since p h`: the
events behind the last one that meets `p`.
-/
namespace Inger

variable {α : Type}

def Each (P : List α → α → Prop) (h : List α) : Prop := ∀ a e b, h = a ++ e :: b → P a e

theorem each_nil (P : List α → α → Prop) : Each P [] := by
  intro a e b h
  cases a <;> cases h

theorem each_snoc {P : List α → α → Prop} {h : List α} {x : α} :
    Each P (h ++ [x]) ↔ Each P h ∧ P h x := by
  constructor
  · intro hp
    refine ⟨fun a e b hab => hp a e (b ++ [x]) ?_, hp h x [] rfl⟩
    rw [hab, List.append_assoc, List.cons_append]
  · rintro ⟨hp, hx⟩ a e b hab
    -- The event is the new one exactly if nothing is behind it.
    obtain rfl | ⟨b, y, rfl⟩ := List.eq_nil_or_concat b
    · obtain ⟨rfl, hx'⟩ := List.append_inj' hab rfl
      cases hx'
      exact hx
    · rw [List.concat_eq_append, ← List.cons_append, ← List.append_assoc] at hab
      exact hp a e b (List.append_inj' hab rfl).1

def since (p : α → Bool) (h : List α) : List α := (h.reverse.takeWhile fun e => !p e).reverse

theorem since_snoc (p : α → Bool) (h : List α) (x : α) :
    since p (h ++ [x]) = if p x then [] else since p h ++ [x] := by
  unfold since
  rw [List.reverse_append, List.reverse_singleton, List.singleton_append, List.takeWhile_cons]
  cases p x with
  | true => rfl
  | false => exact List.reverse_cons

theorem mem_of_mem_since {p : α → Bool} {h : List α} {x : α} (hx : x ∈ since p h) : x ∈ h :=
  List.mem_reverse.mp ((List.takeWhile_prefix _).subset (List.mem_reverse.mp hx))

end Inger
