import Mathlib.Data.List.Basic

/-!
# Splitting a text at a separator

`split sep` cuts a list at every occurrence of `sep`, from the left and without
overlaps, as `String.prototype.split` does with a non-empty string;
`List.intercalate sep` is the `join` that undoes it (`intercalate_split`).

A text is then the concatenation of its first piece and of the other pieces,
each behind a separator (`split_spread`), which is the form in which a program
that treats the pieces one by one is compared with the text it started from.

`Inserted P` relates a list to one with further elements, all of which meet `P`.
-/
namespace Inger.Text

variable {α : Type}

theorem intercalate_modifyHead (sep : List α) (c : α) {ps : List (List α)} (h : ps ≠ []) :
    List.intercalate sep (ps.modifyHead (c :: ·)) = c :: List.intercalate sep ps := by
  match ps, h with
  | [p], _ => simp
  | p :: q :: ps, _ => simp [List.intercalate_cons_cons]

theorem intercalate_nil_cons (sep : List α) {ps : List (List α)} (h : ps ≠ []) :
    List.intercalate sep ([] :: ps) = sep ++ List.intercalate sep ps := by
  match ps, h with
  | p :: ps, _ => simp [List.intercalate_cons_cons]

section
variable [DecidableEq α]

/-- `skip` elements are left of a separator. -/
def splitFrom (sep : List α) : (skip : Nat) → List α → List (List α)
  | _, [] => [[]]
  | k + 1, _ :: s => splitFrom sep k s
  | 0, c :: s =>
    if sep <+: c :: s then [] :: splitFrom sep (sep.length - 1) s
    else (splitFrom sep 0 s).modifyHead (c :: ·)

def split (sep s : List α) : List (List α) := splitFrom sep 0 s

theorem splitFrom_ne_nil (sep : List α) : ∀ (k : Nat) (s : List α), splitFrom sep k s ≠ []
  | _, [] => by simp [splitFrom]
  | k + 1, _ :: s => by rw [splitFrom]; exact splitFrom_ne_nil sep k s
  | 0, c :: s => by
    rw [splitFrom]
    split
    · simp
    · simpa [List.modifyHead_eq_nil_iff] using splitFrom_ne_nil sep 0 s

theorem split_ne_nil (sep s : List α) : split sep s ≠ [] := splitFrom_ne_nil sep 0 s

theorem intercalate_splitFrom {sep : List α} (hsep : sep ≠ []) :
    ∀ (k : Nat) (s : List α), List.intercalate sep (splitFrom sep k s) = s.drop k
  | _, [] => by simp [splitFrom]
  | k + 1, _ :: s => by rw [splitFrom, intercalate_splitFrom hsep k s, List.drop_succ_cons]
  | 0, c :: s => by
    rw [splitFrom, List.drop_zero]
    split
    · rename_i hp
      rw [intercalate_nil_cons sep (splitFrom_ne_nil _ _ _), intercalate_splitFrom hsep]
      obtain ⟨rest, hrest⟩ := hp
      -- The separator is its first element and the ones skipped.
      match sep, hsep with
      | d :: sep, _ =>
        simp only [List.cons_append, List.cons.injEq] at hrest
        simp [← hrest.1, ← hrest.2]
    · rw [intercalate_modifyHead sep c (splitFrom_ne_nil _ _ _), intercalate_splitFrom hsep 0 s,
        List.drop_zero]

/-- `join` undoes `split`. -/
theorem intercalate_split {sep : List α} (hsep : sep ≠ []) (s : List α) :
    List.intercalate sep (split sep s) = s := intercalate_splitFrom hsep 0 s

/-- A text that starts with the separator has an empty first piece. -/
theorem split_of_prefix {sep s : List α} (hs : s ≠ []) (h : sep <+: s) :
    (split sep s).head? = some [] := by
  match s, hs with
  | c :: s, _ => simp [split, splitFrom, h]

end

theorem intercalate_spread (sep p : List α) (ps : List (List α)) :
    List.intercalate sep (p :: ps) = p ++ ps.flatMap (sep ++ ·) := by
  induction ps generalizing p with
  | nil => simp
  | cons q ps ih => simp [List.intercalate_cons_cons, ih]

/-- A text is its first piece and the others, each behind a separator. -/
theorem split_spread [DecidableEq α] {sep : List α} (hsep : sep ≠ []) {s p : List α}
    {ps : List (List α)} (h : split sep s = p :: ps) : s = p ++ ps.flatMap (sep ++ ·) := by
  rw [← intercalate_spread, ← h, intercalate_split hsep]

/-! ## Lengths of concatenations -/

theorem length_flatMap_le {β : Type} {f g : β → List α} :
    ∀ {l : List β}, (∀ x ∈ l, (f x).length ≤ (g x).length) →
      (l.flatMap f).length ≤ (l.flatMap g).length
  | [], _ => Nat.le_refl _
  | x :: l, h => by
    have hx := h x (by simp)
    have ih := length_flatMap_le (f := f) (g := g) (l := l) fun y hy => h y (by simp [hy])
    simp only [List.flatMap_cons, List.length_append]
    omega

/-- Where no part is longer and the wholes have the same length, no part is
shorter. -/
theorem length_eq_of_flatMap {β : Type} {f g : β → List α} {l : List β}
    (h : ∀ x ∈ l, (f x).length ≤ (g x).length)
    (heq : (l.flatMap g).length ≤ (l.flatMap f).length) : ∀ x ∈ l, (f x).length = (g x).length := by
  induction l with
  | nil => simp
  | cons y l ih =>
    have hy := h y (by simp)
    have hl : ∀ x ∈ l, (f x).length ≤ (g x).length := fun x hx => h x (by simp [hx])
    have hle := length_flatMap_le hl
    simp only [List.flatMap_cons, List.length_append] at heq
    intro x hx
    rcases List.mem_cons.mp hx with rfl | hx
    · omega
    · exact ih hl (by omega) x hx

/-! ## Insertions -/

/-- The second list is the first with further elements, which meet `P`. -/
inductive Inserted (P : α → Prop) : List α → List α → Prop
  | nil : Inserted P [] []
  | keep (x : α) {l l' : List α} : Inserted P l l' → Inserted P (x :: l) (x :: l')
  | add {x : α} {l l' : List α} : P x → Inserted P l l' → Inserted P l (x :: l')

theorem Inserted.refl (P : α → Prop) : ∀ l : List α, Inserted P l l
  | [] => .nil
  | x :: l => .keep x (.refl P l)

theorem Inserted.append {P : α → Prop} {l₁ l₁' l₂ l₂' : List α} (h₁ : Inserted P l₁ l₁')
    (h₂ : Inserted P l₂ l₂') : Inserted P (l₁ ++ l₂) (l₁' ++ l₂') := by
  induction h₁ with
  | nil => exact h₂
  | keep x _ ih => exact .keep x ih
  | add hx _ ih => exact .add hx ih

theorem Inserted.all {P : α → Prop} : ∀ {l : List α}, (∀ x ∈ l, P x) → Inserted P [] l
  | [], _ => .nil
  | x :: _, h => .add (h x (by simp)) (.all fun y hy => h y (by simp [hy]))

theorem Inserted.trans {P : α → Prop} {l₁ l₂ l₃ : List α} (h₁ : Inserted P l₁ l₂)
    (h₂ : Inserted P l₂ l₃) : Inserted P l₁ l₃ := by
  induction h₂ generalizing l₁ with
  | nil => exact h₁
  | keep x _ ih =>
    cases h₁ with
    | keep _ h₁ => exact .keep x (ih h₁)
    | add hx h₁ => exact .add hx (ih h₁)
  | add hx _ ih => exact .add hx (ih h₁)

end Inger.Text
