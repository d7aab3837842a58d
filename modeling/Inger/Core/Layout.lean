import Mathlib.Data.List.Nodup

/-!
# Order in a list, and moving an element

`Before l x y`: `x` stands somewhere in front of `y`. In a list without
duplicates, cut at `x`, that is membership in the part behind `x`
(`before_right_iff`) or in front of it (`before_left_iff`), and it is not changed
by elements that are moved around `x` and `y` (`before_filter_iff`).

`remove`, `insertBefore` and `insertAfter` are the operations of a linked list
whose elements are their own iterators; they are defined on each block of a list
of blocks and act on its concatenation as on one list.
-/
namespace Inger.Layout

variable {α : Type}

def Before (l : List α) (x y : α) : Prop := ∃ l₁ l₂, l = l₁ ++ l₂ ∧ x ∈ l₁ ∧ y ∈ l₂

theorem Before.mem {l : List α} {x y : α} (h : Before l x y) : x ∈ l ∧ y ∈ l := by
  obtain ⟨l₁, l₂, rfl, hx, hy⟩ := h
  exact ⟨List.mem_append_left _ hx, List.mem_append_right _ hy⟩

theorem before_right_iff {l l' : List α} {x y : α} (hnd : (l ++ x :: l').Nodup) :
    Before (l ++ x :: l') x y ↔ y ∈ l' := by
  have hx : x ∉ l := fun h => (List.nodup_append.mp hnd).2.2 x h x (by simp) rfl
  constructor
  · rintro ⟨l₁, l₂, heq, hx₁, hy⟩
    rcases List.append_eq_append_iff.mp heq with ⟨a, rfl, ha⟩ | ⟨a, rfl, rfl⟩
    · match a, ha with
      | [], _ => exact absurd (by simpa using hx₁) hx
      | b :: a, ha =>
        cases ha
        exact List.mem_append_right _ hy
    · exact absurd (List.mem_append_left _ hx₁) hx
  · intro hy
    exact ⟨l ++ [x], l', by simp, by simp, hy⟩

theorem before_left_iff {l l' : List α} {x y : α} (hnd : (l ++ x :: l').Nodup) :
    Before (l ++ x :: l') y x ↔ y ∈ l := by
  have hx : x ∉ l' := fun h => (List.nodup_cons.mp (List.nodup_append.mp hnd).2.1).1 h
  constructor
  · rintro ⟨l₁, l₂, heq, hy, hx₂⟩
    rcases List.append_eq_append_iff.mp heq with ⟨a, rfl, ha⟩ | ⟨a, rfl, rfl⟩
    · match a, ha with
      | [], _ => simpa using hy
      | b :: a, ha =>
        cases ha
        exact absurd (List.mem_append_right _ hx₂) hx
    · exact List.mem_append_left _ hy
  · intro hy
    exact ⟨l, x :: l', rfl, hy, by simp⟩

theorem Before.asymm {l : List α} (hnd : l.Nodup) {x y : α} (h : Before l x y) :
    ¬ Before l y x := by
  obtain ⟨l₁, l₂, rfl⟩ := List.append_of_mem h.mem.1
  rw [before_right_iff hnd] at h
  rw [before_left_iff hnd]
  intro hy
  exact (List.nodup_append.mp hnd).2.2 y hy y (List.mem_cons_of_mem _ h) rfl

theorem Before.ne {l : List α} (hnd : l.Nodup) {x y : α} (h : Before l x y) : x ≠ y := by
  rintro rfl
  exact h.asymm hnd h

theorem before_filter_iff {l : List α} {p : α → Bool} {x y : α} :
    Before (l.filter p) x y ↔ Before l x y ∧ p x = true ∧ p y = true := by
  constructor
  · rintro ⟨l₁, l₂, heq, hx, hy⟩
    obtain ⟨m₁, m₂, rfl, rfl, rfl⟩ := List.filter_eq_append_iff.mp heq
    rw [List.mem_filter] at hx hy
    exact ⟨⟨m₁, m₂, rfl, hx.1, hy.1⟩, hx.2, hy.2⟩
  · rintro ⟨⟨l₁, l₂, rfl, hx, hy⟩, hpx, hpy⟩
    exact ⟨l₁.filter p, l₂.filter p, List.filter_append .., List.mem_filter.mpr ⟨hx, hpx⟩,
      List.mem_filter.mpr ⟨hy, hpy⟩⟩

/-- A list without duplicates is cut at an element in one way. -/
theorem cut_unique {l l' m m' : List α} {x : α} (hnd : (l ++ x :: l').Nodup)
    (h : l ++ x :: l' = m ++ x :: m') : l = m ∧ l' = m' := by
  have hm : ∀ {y : α}, y ∈ l ↔ y ∈ m := by
    intro y
    rw [← before_left_iff hnd, h, before_left_iff (h ▸ hnd)]
  rcases List.append_eq_append_iff.mp h with ⟨a, rfl, ha⟩ | ⟨a, rfl, ha⟩
  · match a, ha with
    | [], ha => exact ⟨by simp, by simpa using ha⟩
    | b :: a, ha =>
      cases ha
      have hx : x ∈ l := hm.mpr (by simp)
      exact absurd rfl ((List.nodup_append.mp hnd).2.2 x hx x (by simp))
  · match a, ha with
    | [], ha => exact ⟨by simp, by simpa using ha.symm⟩
    | b :: a, ha =>
      cases ha
      exact absurd rfl ((List.nodup_append.mp hnd).2.2 x (by simp) x (by simp))

/-- Two lists that agree on the elements that meet `p` have them in one
order. -/
theorem before_of_filter_eq {l l' : List α} {p : α → Bool} (h : l'.filter p = l.filter p) {x y : α}
    (hx : p x = true) (hy : p y = true) : Before l' x y ↔ Before l x y := by
  have h₁ := before_filter_iff (l := l) (p := p) (x := x) (y := y)
  have h₂ := before_filter_iff (l := l') (p := p) (x := x) (y := y)
  rw [h] at h₂
  simp only [hx, hy, and_true] at h₁ h₂
  exact h₂.symm.trans h₁

variable [DecidableEq α]

def remove (x : α) (l : List α) : List α := l.filter (· ≠ x)

/-- Put `front` before and `back` behind `y`. -/
def splice (y : α) (front back l : List α) : List α :=
  l.flatMap fun z => if z = y then front ++ z :: back else [z]

def insertBefore (y x : α) (l : List α) : List α := splice y [x] [] l

def insertAfter (y x : α) (l : List α) : List α := splice y [] [x] l

theorem remove_of_notMem {x : α} {l : List α} (h : x ∉ l) : remove x l = l := by
  rw [remove, List.filter_eq_self]
  intro z hz
  simpa using fun he : z = x => h (he ▸ hz)

theorem remove_eq {x : α} {l l' : List α} (hnd : (l ++ x :: l').Nodup) :
    remove x (l ++ x :: l') = l ++ l' := by
  obtain ⟨-, hx, hl⟩ := List.nodup_append.mp hnd
  have h₁ : remove x l = l := remove_of_notMem fun h => hl x h x (by simp) rfl
  have h₂ : remove x l' = l' := remove_of_notMem (List.nodup_cons.mp hx).1
  rw [remove] at h₁ h₂
  rw [remove, List.filter_append, List.filter_cons_of_neg (by simp), h₁, h₂]

theorem splice_of_notMem {y : α} {front back l : List α} (h : y ∉ l) :
    splice y front back l = l := by
  induction l with
  | nil => rfl
  | cons z l ih =>
    rw [List.mem_cons, not_or] at h
    rw [splice, List.flatMap_cons, if_neg (Ne.symm h.1)]
    exact congrArg (z :: ·) (ih h.2)

theorem splice_eq {y : α} {front back l l' : List α} (hnd : (l ++ y :: l').Nodup) :
    splice y front back (l ++ y :: l') = l ++ front ++ y :: back ++ l' := by
  obtain ⟨-, hy, hl⟩ := List.nodup_append.mp hnd
  have h₁ : splice y front back l = l := splice_of_notMem fun h => hl y h y (by simp) rfl
  have h₂ : splice y front back l' = l' := splice_of_notMem (List.nodup_cons.mp hy).1
  rw [splice] at h₁ h₂
  rw [splice, List.flatMap_append, List.flatMap_cons, if_pos rfl, h₁, h₂]
  simp

theorem insertBefore_eq {x y : α} {l l' : List α} (hnd : (l ++ y :: l').Nodup) :
    insertBefore y x (l ++ y :: l') = l ++ x :: y :: l' := by
  rw [insertBefore, splice_eq hnd]
  simp

theorem insertAfter_eq {x y : α} {l l' : List α} (hnd : (l ++ y :: l').Nodup) :
    insertAfter y x (l ++ y :: l') = l ++ y :: x :: l' := by
  rw [insertAfter, splice_eq hnd]
  simp

/-! ## Elements that a filter drops -/

theorem filter_remove {p : α → Bool} {x : α} (hp : p x = false) (l : List α) :
    (remove x l).filter p = l.filter p := by
  rw [remove, List.filter_filter]
  refine List.filter_congr fun z _ => ?_
  by_cases hz : z = x
  · simp [hz, hp]
  · simp [hz]

theorem filter_splice {p : α → Bool} {y : α} {front back : List α}
    (hf : front.filter p = []) (hb : back.filter p = []) (l : List α) :
    (splice y front back l).filter p = l.filter p := by
  induction l with
  | nil => rfl
  | cons z l ih =>
    have hz : (if z = y then front ++ z :: back else [z]).filter p = [z].filter p := by
      split
      · rw [List.filter_append, hf, List.nil_append, ← List.singleton_append,
          List.filter_append, hb, List.append_nil]
      · rfl
    rw [splice] at ih ⊢
    rw [List.flatMap_cons, List.filter_append, ih, hz, ← List.filter_append, List.singleton_append]

theorem filter_insertBefore {p : α → Bool} {x : α} (hp : p x = false) (y : α) (l : List α) :
    (insertBefore y x l).filter p = l.filter p := filter_splice (by simp [hp]) rfl l

theorem filter_insertAfter {p : α → Bool} {x : α} (hp : p x = false) (y : α) (l : List α) :
    (insertAfter y x l).filter p = l.filter p := filter_splice rfl (by simp [hp]) l

/-! ## Blocks -/

theorem flatten_remove (x : α) (bs : List (List α)) :
    (bs.map (remove x)).flatten = remove x bs.flatten := by
  rw [remove, List.filter_flatten]
  rfl

theorem flatten_splice (y : α) (front back : List α) (bs : List (List α)) :
    (bs.map (splice y front back)).flatten = splice y front back bs.flatten := by
  induction bs with
  | nil => rfl
  | cons b bs ih =>
    rw [List.map_cons, List.flatten_cons, ih, List.flatten_cons, splice, splice, splice,
      List.flatMap_append]

end Inger.Layout
