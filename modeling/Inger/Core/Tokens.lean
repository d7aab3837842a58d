import Mathlib.Algebra.BigOperators.Group.List.Basic
import Mathlib.Algebra.Order.Group.Multiset

/-!
# Values held in a list of cells

A resource (a token) is at every moment in exactly one place: a free list, or
one of a list of cells, each of which holds zero or more of them. `held f l`
adds up what the cells of `l` hold. A step of the system changes one cell (or
what one cell is taken to hold), and `held_change` is the only thing such a step
has to know about the other cells: what they hold stays the same.

`M` is any commutative monoid; with `Multiset T` an equation
`held f l + free = made` says that no token is lost or duplicated.
-/
namespace Inger.Tokens

variable {C M : Type} [AddCommMonoid M]

/-- What the cells of `l` hold together. -/
def held (f : C → M) (l : List C) : M := (l.map f).sum

@[simp] theorem held_nil (f : C → M) : held f [] = 0 := rfl

@[simp] theorem held_cons (f : C → M) (c : C) (l : List C) : held f (c :: l) = f c + held f l := by
  simp [held]

theorem held_append (f : C → M) (l l' : List C) : held f (l ++ l') = held f l + held f l' := by
  simp [held]

/-- One cell changes from `c` to `c'` and the way of counting from `f` to `g`,
which agree on every other cell: the others hold some `m`, before and after. -/
theorem held_change {f g : C → M} :
    ∀ {l l' : List C} {i : Nat} {c c' : C}, l[i]? = some c → l'[i]? = some c' →
      (∀ j, j ≠ i → l'[j]?.map g = l[j]?.map f) → ∃ m, held f l = f c + m ∧ held g l' = g c' + m
  | [], _, _, _, _, h, _, _ => by simp at h
  | _ :: _, [], _, _, _, _, h, _ => by simp at h
  | a :: l, b :: l', 0, c, c', h, h', hj => by
    simp only [List.getElem?_cons_zero, Option.some.injEq] at h h'
    subst h; subst h'
    have hmap : l'.map g = l.map f := by
      refine List.ext_getElem? fun j => ?_
      simpa using hj (j + 1) (by omega)
    exact ⟨held f l, held_cons f a l, by rw [held_cons, held, held, hmap]⟩
  | a :: l, b :: l', i + 1, c, c', h, h', hj => by
    have hab : g b = f a := by simpa using hj 0 (by omega)
    obtain ⟨m, hm, hm'⟩ : ∃ m, held f l = f c + m ∧ held g l' = g c' + m :=
      held_change (by simpa using h) (by simpa using h') fun j hji => by
        simpa using hj (j + 1) (by omega)
    exact ⟨f a + m, by rw [held_cons, hm, add_left_comm],
      by rw [held_cons, hm', hab, add_left_comm]⟩

/-- Overwriting one cell. -/
theorem held_set {f : C → M} {l : List C} {i : Nat} {c : C} (h : l[i]? = some c) (c' : C) :
    ∃ m, held f l = f c + m ∧ held f (l.set i c') = f c' + m := by
  have hi : i < l.length := (List.getElem?_eq_some_iff.mp h).1
  refine held_change h (List.getElem?_set_self hi) fun j hj => ?_
  rw [List.getElem?_set_ne (Ne.symm hj)]

/-- The cells after that. -/
theorem cell_of_set {l : List C} {i j : Nat} {c d : C} (h : (l.set i c)[j]? = some d) :
    (j = i ∧ d = c) ∨ (j ≠ i ∧ l[j]? = some d) := by
  by_cases hj : j = i
  · subst hj
    rw [List.getElem?_set_self'] at h
    obtain ⟨x, -, hd⟩ := Option.map_eq_some_iff.mp h
    exact .inl ⟨rfl, hd.symm⟩
  · rw [List.getElem?_set_ne (Ne.symm hj)] at h
    exact .inr ⟨hj, h⟩

/-- Removing one cell. -/
theorem held_eraseIdx {f : C → M} :
    ∀ {l : List C} {i : Nat} {c : C}, l[i]? = some c → held f l = f c + held f (l.eraseIdx i)
  | [], _, _, h => by simp at h
  | a :: l, 0, c, h => by
    obtain rfl : a = c := by simpa using h
    rw [held_cons, List.eraseIdx_cons_zero]
  | a :: l, i + 1, c, h => by
    rw [held_cons, List.eraseIdx_cons_succ, held_cons, held_eraseIdx (i := i) (by simpa using h),
      add_left_comm]

/-- A cell's share is part of the total, -/
theorem held_split {f : C → M} {l : List C} {i : Nat} {c : C} (h : l[i]? = some c) :
    ∃ m, held f l = f c + m :=
  (held_set h c).imp fun _ hm => hm.1

/-- and so are those of two cells. -/
theorem held_split_two {f : C → M} {l : List C} {i j : Nat} {c d : C} (hij : i ≠ j)
    (hi : l[i]? = some c) (hj : l[j]? = some d) : ∃ m, held f l = f c + f d + m := by
  induction l generalizing i j with
  | nil => simp at hi
  | cons a l ih =>
    match i, j with
    | 0, 0 => exact absurd rfl hij
    | 0, j + 1 =>
      obtain rfl : a = c := by simpa using hi
      obtain ⟨m, hm⟩ := held_split (f := f) (l := l) (i := j) (by simpa using hj)
      exact ⟨m, by rw [held_cons, hm, add_assoc]⟩
    | i + 1, 0 =>
      obtain rfl : a = d := by simpa using hj
      obtain ⟨m, hm⟩ := held_split (f := f) (l := l) (i := i) (by simpa using hi)
      exact ⟨m, by rw [held_cons, hm, add_left_comm, add_assoc]⟩
    | i + 1, j + 1 =>
      obtain ⟨m, hm⟩ := ih (i := i) (j := j) (by omega) (by simpa using hi) (by simpa using hj)
      exact ⟨f a + m, by rw [held_cons, hm, add_left_comm]⟩

/-! ## Tokens that are all different -/

section
variable {T : Type} {f : C → Multiset T} {l : List C} {free : Multiset T}

theorem mem_held {x : T} : x ∈ held f l ↔ ∃ c ∈ l, x ∈ f c := by
  induction l with
  | nil => simp
  | cons a l ih => simp [ih]

/-- No token is in two cells. -/
theorem held_unique (hnd : (held f l + free).Nodup) {i j : Nat} {c d : C} (hi : l[i]? = some c)
    (hj : l[j]? = some d) {x : T} (hc : x ∈ f c) (hd : x ∈ f d) : i = j := by
  classical
  by_contra hij
  obtain ⟨m, hm⟩ := held_split_two (f := f) hij hi hj
  rw [hm] at hnd
  have hcount := Multiset.nodup_iff_count_le_one.mp hnd x
  have h1 := Multiset.count_pos.mpr hc
  have h2 := Multiset.count_pos.mpr hd
  simp only [Multiset.count_add] at hcount
  omega

/-- No token is in a cell and free. -/
theorem held_not_free (hnd : (held f l + free).Nodup) {i : Nat} {c : C}
    (hi : l[i]? = some c) {x : T} (hc : x ∈ f c) : x ∉ free := by
  classical
  intro hfree
  obtain ⟨m, hm⟩ := held_split (f := f) hi
  rw [hm] at hnd
  have hcount := Multiset.nodup_iff_count_le_one.mp hnd x
  have h1 := Multiset.count_pos.mpr hc
  have h2 := Multiset.count_pos.mpr hfree
  simp only [Multiset.count_add] at hcount
  omega

end

end Inger.Tokens
