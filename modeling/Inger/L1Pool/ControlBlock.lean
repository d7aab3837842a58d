import Inger.Core.LTS
import Inger.Core.Tokens
import Mathlib.Data.List.Nodup

/-!
# Thread-control blocks (`ThreadControlBlock`, `ThreadControlBlockGuard`)

Model of src/tcb.rs. A `ThreadControlBlock` is an `Option` of a reference to a
block: a mutable one to a block that `new` allocated and the value owns, or a
shared one to the block FS pointed to (`current`). Installing a block copies
two of its words from the current one and points FS at it; the guard that comes
back remembers the block FS pointed to before. Two destructors call each other:
dropping an owned block installs it under a temporary guard, and dropping a
guard runs the TLS destructors, reinstalls the parent and deallocates;
`uninstall` empties the guard's `Option` first, so that its destructor only
reinstalls.

`Prctl` says which of the two system calls of an installation succeed. A failed
reinstallation of a parent is a panic (`unwrap`); such steps have no successor
state. Of a block's words only the two that are copied are modelled, and TLS
destructors do not touch control blocks. Blocks are numbered in the order of
their allocation; `original t` is the block thread `t` started with.

The process keeps the blocks nobody has installed (in pool slots and
continuations), the guards of each thread, innermost first, and the blocks
that `_dl_deallocate_tls` has got, latest first. Guards of a thread are given
up in the reverse order of installation.

* `step_inv`: on every thread the guards chain back to its original block, FS
  points to the innermost one's block, and no block has two owners.
* `switching_balanced`: FS is balanced, blocks are freed at most once and not
  while in use, and an installed block carries its thread's two words.
-/
namespace Inger.L1.ControlBlock

open Tokens

/-- The address of a block. -/
inductive Addr where
  | original (t : Nat)
  | block (i : Nat)
  deriving DecidableEq, Repr

/-- mirrors src/tcb.rs:171-174 -/
inductive MaybeMut where
  | Ref (fs : Addr)
  | Mut (i : Nat)
  deriving DecidableEq, Repr

/-- mirrors src/tcb.rs:15-16 -/
structure ThreadControlBlock where
  this : Option MaybeMut
  deriving DecidableEq, Repr

/-- mirrors src/tcb.rs:134-138 -/
structure Guard where
  this : ThreadControlBlock
  parent : ThreadControlBlock
  deriving DecidableEq, Repr

/-- The words at POINTER_GUARD and KERNEL_THREAD.
mirrors src/tcb.rs:66-67 -/
structure Slots where
  pointerGuard : UInt64
  kernelThread : UInt64
  deriving DecidableEq, Repr

/-- What the code sees of the machine on one thread: FS, the blocks, and the
blocks that have been deallocated. -/
structure World where
  fs : Addr
  mem : Addr → Slots
  freed : List Nat

/-- Whether `arch_prctl` succeeds, for reading and for setting FS. -/
structure Prctl where
  get : Bool
  set : Bool
  deriving DecidableEq, Repr

/-- How a call ends: `Ok`, `Err`, or a panic. -/
inductive Res (α : Type) where
  | ok (a : α)
  | err
  | panics

/-- mirrors src/tcb.rs:19-23 -/
def current (w : World) (p : Prctl) : Res ThreadControlBlock :=
  if p.get then .ok ⟨some (.Ref w.fs)⟩ else .err

/-- mirrors src/tcb.rs:58-103 -/
def installUnguarded (w : World) (tcb : ThreadControlBlock) (p : Prctl) :
    Res (Option ThreadControlBlock) × World :=
  match tcb.this with
  | none => (.panics, w)
  | some (.Ref fs) => if p.set then (.ok none, { w with fs := fs }) else (.err, w)
  | some (.Mut i) =>
    match current w p with
    | .ok cur =>
      let w' := { w with mem := Function.update w.mem (.block i) (w.mem w.fs) }
      if p.set then (.ok (some cur), { w' with fs := .block i }) else (.err, w')
    | _ => (.err, w)

/-- mirrors src/tcb.rs:130-132 -/
def unguardedParent (w : World) (this : Res (Option ThreadControlBlock)) (p : Prctl) :
    Res ThreadControlBlock :=
  match this with
  | .ok (some tcb) => .ok tcb
  | .ok none => current w p
  | .err => .err
  | .panics => .panics

/-- Drop of a guard; `none` is the panic of `unwrap`. Its fields are dropped
after that: an emptied block and one that is only referred to.
mirrors src/tcb.rs:146-169 -/
def dropGuard (w : World) (g : Guard) (p : Prctl) : Option World :=
  match installUnguarded w g.parent p with
  | (.ok _, w') =>
    match g.this.this with
    | some (.Mut i) => some { w' with freed := i :: w'.freed }
    | _ => some w'
  | _ => none

/-- Drop of a block; `parent` is for the reinstallation by the temporary
guard.
mirrors src/tcb.rs:111-128 -/
def dropBlock (w : World) (tcb : ThreadControlBlock) (p parent : Prctl) : Option World :=
  match tcb.this with
  | some (.Mut _) =>
    match installUnguarded w tcb p with
    | (r, w') =>
      match unguardedParent w' r p with
      | .ok above => dropGuard w' ⟨tcb, above⟩ parent
      -- "could not install TCB to run TLS destructors"
      | .err => some w'
      | .panics => none
  | _ => some w

/-- The three installations an `install` may come to: its own and, when that
fails, that of the drop and the reinstallation after it. -/
structure Prctls where
  own : Prctl
  drop : Prctl
  parent : Prctl
  deriving DecidableEq, Repr

/-- mirrors src/tcb.rs:50-56 -/
def install (w : World) (tcb : ThreadControlBlock) (p : Prctls) : Option (World × Option Guard) :=
  match installUnguarded w tcb p.own with
  | (r, w') =>
    match unguardedParent w' r p.own with
    | .ok above => some (w', some ⟨tcb, above⟩)
    | .err => (dropBlock w' tcb p.drop p.parent).map fun w'' => (w'', none)
    | .panics => none

/-- mirrors src/tcb.rs:140-144 -/
def uninstall (w : World) (g : Guard) (p : Prctl) : Option (World × ThreadControlBlock) :=
  (dropGuard w { g with this := ⟨none⟩ } p).map fun w' => (w', g.this)

/-! ## The process -/

structure Thread where
  fs : Addr
  guards : List Guard
  deriving DecidableEq, Repr

structure Process where
  threads : List Thread
  owned : List ThreadControlBlock
  mem : Addr → Slots
  freed : List Nat
  next : Nat

inductive Ev where
  | spawn
  | new
  | install (t k : Nat) (p : Prctls)
  | uninstall (t : Nat) (p : Prctl)
  | dropGuard (t : Nat) (p : Prctl)
  | drop (t k : Nat) (p parent : Prctl)
  deriving DecidableEq, Repr

namespace Process

def world (s : Process) (th : Thread) : World := ⟨th.fs, s.mem, s.freed⟩

/-- Thread `t` goes on with the world `w` and the guards `gs`. -/
def setWorld (s : Process) (t : Nat) (w : World) (gs : List Guard) : Process :=
  { s with threads := s.threads.set t ⟨w.fs, gs⟩, mem := w.mem, freed := w.freed }

def step (s : Process) : Ev → Option Process
  | .spawn => some { s with threads := s.threads ++ [⟨.original s.threads.length, []⟩] }
  | .new => some { s with owned := ⟨some (.Mut s.next)⟩ :: s.owned, next := s.next + 1 }
  | .install t k p =>
    match s.threads[t]?, s.owned[k]? with
    | some th, some tcb =>
      (ControlBlock.install (s.world th) tcb p).map fun r =>
        { s.setWorld t r.1 (r.2.toList ++ th.guards) with owned := s.owned.eraseIdx k }
    | _, _ => none
  | .uninstall t p =>
    match s.threads[t]? with
    | some ⟨fs, g :: gs⟩ =>
      (ControlBlock.uninstall (s.world ⟨fs, g :: gs⟩) g p).map fun r =>
        { s.setWorld t r.1 gs with owned := r.2 :: s.owned }
    | _ => none
  | .dropGuard t p =>
    match s.threads[t]? with
    | some ⟨fs, g :: gs⟩ =>
      (ControlBlock.dropGuard (s.world ⟨fs, g :: gs⟩) g p).map fun w => s.setWorld t w gs
    | _ => none
  | .drop t k p parent =>
    match s.threads[t]?, s.owned[k]? with
    | some th, some tcb =>
      (dropBlock (s.world th) tcb p parent).map fun w =>
        { s.setWorld t w th.guards with owned := s.owned.eraseIdx k }
    | _, _ => none

/-- Before any thread has called libinger. -/
def initial (mem : Addr → Slots) : Process := ⟨[], [], mem, [], 0⟩

end Process

def machine : LTS Process Ev := LTS.ofFn (fun s => ∃ mem, s = Process.initial mem) Process.step

/-! ## What each function does -/

/-- Memory is the same but for the block `i`. -/
def SameBut (i : Nat) (m m' : Addr → Slots) : Prop := ∀ a, a ≠ .block i → m' a = m a

theorem SameBut.refl (i : Nat) (m : Addr → Slots) : SameBut i m m := fun _ _ => rfl

theorem SameBut.update (i : Nat) (m : Addr → Slots) (v : Slots) :
    SameBut i m (Function.update m (.block i) v) := fun _ h => Function.update_of_ne h _ _

theorem SameBut.trans {i : Nat} {m m' m'' : Addr → Slots} (h : SameBut i m m')
    (h' : SameBut i m' m'') : SameBut i m m'' := fun a ha => (h' a ha).trans (h a ha)

/-- Installing an owned block fails, with at most its words overwritten, or
succeeds. -/
inductive Installs (w : World) (i : Nat) : Res (Option ThreadControlBlock) × World → Prop
  | err (mem : Addr → Slots) (hmem : SameBut i w.mem mem) :
    Installs w i (.err, { w with mem := mem })
  | ok : Installs w i (.ok (some ⟨some (.Ref w.fs)⟩),
      ⟨.block i, Function.update w.mem (.block i) (w.mem w.fs), w.freed⟩)

theorem installUnguarded_mut (w : World) (i : Nat) (p : Prctl) :
    Installs w i (installUnguarded w ⟨some (.Mut i)⟩ p) := by
  obtain ⟨get, set⟩ := p
  cases get with
  | false => exact .err w.mem (.refl i w.mem)
  | true =>
    cases set with
    | false => exact .err _ (.update i w.mem _)
    | true => exact .ok

/-- A guard's destructor goes back to the parent and frees what the guard
still holds. -/
theorem dropGuard_ref {w w' : World} {this : ThreadControlBlock} {fs : Addr} {p : Prctl}
    (h : dropGuard w ⟨this, ⟨some (.Ref fs)⟩⟩ p = some w') :
    w'.fs = fs ∧ w'.mem = w.mem ∧
      w'.freed = match this.this with
        | some (.Mut i) => i :: w.freed
        | _ => w.freed := by
  obtain ⟨get, set⟩ := p
  cases set with
  | false => simp [dropGuard, installUnguarded] at h
  | true =>
    match this with
    | ⟨none⟩ => cases h; exact ⟨rfl, rfl, rfl⟩
    | ⟨some (.Ref _)⟩ => cases h; exact ⟨rfl, rfl, rfl⟩
    | ⟨some (.Mut i)⟩ => cases h; exact ⟨rfl, rfl, rfl⟩

/-- Dropping an owned block leaves FS where it was and frees the block, if
it can be installed. -/
theorem dropBlock_mut {w w' : World} {i : Nat} {p parent : Prctl}
    (h : dropBlock w ⟨some (.Mut i)⟩ p parent = some w') :
    w'.fs = w.fs ∧ SameBut i w.mem w'.mem ∧ (w'.freed = w.freed ∨ w'.freed = i :: w.freed) := by
  have hi := installUnguarded_mut w i p
  simp only [dropBlock] at h
  generalize installUnguarded w ⟨some (.Mut i)⟩ p = r at hi h
  cases hi with
  | err mem hmem =>
    cases h
    exact ⟨rfl, hmem, .inl rfl⟩
  | ok =>
    obtain ⟨hfs, hmem, hfreed⟩ := dropGuard_ref h
    refine ⟨hfs, ?_, .inr hfreed⟩
    rw [hmem]
    exact .update i w.mem _

/-- `install` hands out a guard that remembers FS, or drops the block. -/
inductive Installed (w : World) (i : Nat) : World × Option Guard → Prop
  | ok : Installed w i
      (⟨.block i, Function.update w.mem (.block i) (w.mem w.fs), w.freed⟩,
        some ⟨⟨some (.Mut i)⟩, ⟨some (.Ref w.fs)⟩⟩)
  | err (w' : World) (hfs : w'.fs = w.fs) (hmem : SameBut i w.mem w'.mem)
      (hfreed : w'.freed = w.freed ∨ w'.freed = i :: w.freed) : Installed w i (w', none)

/-- The block a value owns. -/
def ThreadControlBlock.blocks (tcb : ThreadControlBlock) : Multiset Nat :=
  match tcb.this with
  | some (.Mut i) => {i}
  | _ => 0

def Guard.blocks (g : Guard) : Multiset Nat := g.this.blocks

def Thread.blocks (th : Thread) : Multiset Nat := held Guard.blocks th.guards

/-- Every block with its owners: a slot or continuation, a guard, or the
allocator once more. -/
def Process.owners (s : Process) : Multiset Nat :=
  held ThreadControlBlock.blocks s.owned + held Thread.blocks s.threads + (s.freed : Multiset Nat)

/-- The guards of thread `t` lead from FS back to its original block, and
each guard's block has that block's words. -/
def Stacked (mem : Addr → Slots) (t : Nat) : Addr → List Guard → Prop
  | fs, [] => fs = .original t
  | fs, g :: gs => ∃ i parent, g = ⟨⟨some (.Mut i)⟩, ⟨some (.Ref parent)⟩⟩ ∧ fs = .block i ∧
      mem fs = mem (.original t) ∧ Stacked mem t parent gs

theorem Stacked.slots {mem : Addr → Slots} {t : Nat} {fs : Addr} {gs : List Guard}
    (h : Stacked mem t fs gs) : mem fs = mem (.original t) := by
  match gs, h with
  | [], h => rw [h]
  | _ :: _, ⟨_, _, _, _, hmem, _⟩ => exact hmem

/-- Writes to a block that no guard of the thread holds are not seen. -/
theorem Stacked.frame {mem mem' : Addr → Slots} {t i : Nat} (hm : SameBut i mem mem') :
    ∀ {gs : List Guard} {fs : Addr}, i ∉ held Guard.blocks gs → Stacked mem t fs gs →
      Stacked mem' t fs gs
  | [], _, _, h => h
  | g :: gs, fs, hi, ⟨j, parent, hg, hfs, hmem, h⟩ => by
    rw [held_cons, Multiset.mem_add, not_or] at hi
    have hji : Addr.block j ≠ .block i := by
      rintro ⟨⟩
      exact hi.1 (by simp [hg, Guard.blocks, ThreadControlBlock.blocks])
    refine ⟨j, parent, hg, hfs, ?_, h.frame hm hi.2⟩
    rw [hm fs (hfs ▸ hji), hm (.original t) (by simp), hmem]

structure Inv (s : Process) : Prop where
  nodup : s.owners.Nodup
  fresh : ∀ i ∈ s.owners, i < s.next
  owned : ∀ tcb ∈ s.owned, ∃ i, tcb = ⟨some (.Mut i)⟩
  stacked : ∀ (t : Nat) (th : Thread), s.threads[t]? = some th → Stacked s.mem t th.fs th.guards

/-- A block in a slot or continuation is under no guard. -/
theorem Inv.not_guarded {s : Process} (h : Inv s) {k i t : Nat} {th : Thread}
    (hk : s.owned[k]? = some ⟨some (.Mut i)⟩) (ht : s.threads[t]? = some th) :
    i ∉ held Guard.blocks th.guards := by
  obtain ⟨m, hm⟩ := held_split (f := ThreadControlBlock.blocks) hk
  obtain ⟨m', hm'⟩ := held_split (f := Thread.blocks) ht
  have hnd := h.nodup
  rw [Process.owners, hm, hm'] at hnd
  have hdisj := (Multiset.nodup_add.mp (Multiset.nodup_add.mp hnd).1).2.2
  intro hi
  exact Multiset.disjoint_left.mp hdisj (by simp [ThreadControlBlock.blocks])
    (Multiset.mem_add.mpr (.inl hi))

/-- The threads after a step of thread `t`. -/
theorem forall_set {P : Nat → Thread → Prop} {threads : List Thread} {t : Nat} {th' : Thread}
    (hself : P t th') (hother : ∀ u th, threads[u]? = some th → P u th) :
    ∀ u th, (threads.set t th')[u]? = some th → P u th := by
  intro u th hu
  rw [List.getElem?_set] at hu
  split at hu
  · rename_i htu
    split at hu
    · cases hu
      exact htu ▸ hself
    · cases hu
  · exact hother u th hu

theorem Inv.spawn {s : Process} (h : Inv s) :
    Inv { s with threads := s.threads ++ [⟨.original s.threads.length, []⟩] } := by
  refine ⟨?_, ?_, h.owned, ?_⟩
  · simpa [Process.owners, held_append, Thread.blocks] using h.nodup
  · simpa [Process.owners, held_append, Thread.blocks] using h.fresh
  · intro t th ht
    rw [List.getElem?_append] at ht
    split at ht
    · exact h.stacked t th ht
    · rename_i hlt
      obtain ⟨hzero, hth⟩ := List.getElem?_eq_some_iff.mp ht
      simp only [List.length_cons, List.length_nil, Nat.zero_add, Nat.lt_one_iff] at hzero
      have htl : t = s.threads.length := by omega
      simp only [hzero, List.getElem_cons_zero] at hth
      subst hth
      exact congrArg Addr.original htl.symm

theorem Inv.new {s : Process} (h : Inv s) :
    Inv { s with owned := ⟨some (.Mut s.next)⟩ :: s.owned, next := s.next + 1 } := by
  have howners :
      Process.owners { s with owned := ⟨some (.Mut s.next)⟩ :: s.owned, next := s.next + 1 } =
        s.next ::ₘ s.owners := by
    simp [Process.owners, ThreadControlBlock.blocks, add_assoc]
  refine ⟨?_, ?_, ?_, h.stacked⟩
  · rw [howners, Multiset.nodup_cons]
    exact ⟨fun hmem => Nat.lt_irrefl _ (h.fresh _ hmem), h.nodup⟩
  · intro i hi
    rw [howners, Multiset.mem_cons] at hi
    rcases hi with rfl | hi
    · exact Nat.lt_succ_self _
    · exact Nat.lt_succ_of_lt (h.fresh i hi)
  · intro tcb htcb
    rcases List.mem_cons.mp htcb with rfl | htcb
    · exact ⟨s.next, rfl⟩
    · exact h.owned tcb htcb

/-- No step but `new` adds an owner. -/
theorem Inv.of_le {s s' : Process} (h : Inv s) (hle : s'.owners ≤ s.owners)
    (hnext : s'.next = s.next) (howned : ∀ tcb ∈ s'.owned, ∃ i, tcb = ⟨some (.Mut i)⟩)
    (hstacked : ∀ t th, s'.threads[t]? = some th → Stacked s'.mem t th.fs th.guards) : Inv s' :=
  ⟨Multiset.nodup_of_le hle h.nodup, fun i hi => hnext ▸ h.fresh i (Multiset.mem_of_le hle hi),
    howned, hstacked⟩

/-- Thread `t` takes the block in slot `k` away, and puts it under a guard or
drops it. -/
theorem Inv.consume {s : Process} (h : Inv s) {t k i : Nat} {th : Thread} {w : World}
    (gs : List Guard) (ht : s.threads[t]? = some th) (hk : s.owned[k]? = some ⟨some (.Mut i)⟩)
    (hmem : SameBut i s.mem w.mem) (hstack : Stacked w.mem t w.fs (gs ++ th.guards))
    (hown : held Guard.blocks gs + (w.freed : Multiset Nat) ≤ {i} + (s.freed : Multiset Nat)) :
    Inv { s.setWorld t w (gs ++ th.guards) with owned := s.owned.eraseIdx k } := by
  refine h.of_le ?_ rfl (fun tcb htcb => h.owned tcb (List.mem_of_mem_eraseIdx htcb)) ?_
  · obtain ⟨m, hm, hm'⟩ := held_set (f := Thread.blocks) ht ⟨w.fs, gs ++ th.guards⟩
    simp only [Process.owners, Process.setWorld]
    rw [held_eraseIdx (f := ThreadControlBlock.blocks) hk, hm, hm', Thread.blocks, held_append]
    have hb : ThreadControlBlock.blocks ⟨some (.Mut i)⟩ = {i} := rfl
    rw [hb]
    calc held ThreadControlBlock.blocks (s.owned.eraseIdx k) +
          (held Guard.blocks gs + held Guard.blocks th.guards + m) + (w.freed : Multiset Nat)
        = held ThreadControlBlock.blocks (s.owned.eraseIdx k) + (th.blocks + m) +
            (held Guard.blocks gs + (w.freed : Multiset Nat)) := by rw [Thread.blocks]; ac_rfl
      _ ≤ held ThreadControlBlock.blocks (s.owned.eraseIdx k) + (th.blocks + m) +
            ({i} + (s.freed : Multiset Nat)) := add_le_add_right hown _
      _ = {i} + held ThreadControlBlock.blocks (s.owned.eraseIdx k) + (th.blocks + m) +
            (s.freed : Multiset Nat) := by ac_rfl
  · refine forall_set hstack fun u th' hu => ?_
    exact (h.stacked u th' hu).frame hmem (h.not_guarded hk hu)

/-- Thread `t` gives up its innermost guard, whose block goes to a slot or
to the allocator. -/
theorem Inv.leave {s : Process} (h : Inv s) {t i : Nat} {fs parent : Addr} {gs : List Guard}
    {owned : List ThreadControlBlock} {freed : List Nat}
    (ht : s.threads[t]? = some ⟨fs, ⟨⟨some (.Mut i)⟩, ⟨some (.Ref parent)⟩⟩ :: gs⟩)
    (howned : ∀ tcb ∈ owned, ∃ i, tcb = ⟨some (.Mut i)⟩)
    (hown : held ThreadControlBlock.blocks owned + (freed : Multiset Nat) =
      {i} + held ThreadControlBlock.blocks s.owned + (s.freed : Multiset Nat)) :
    Inv { s.setWorld t ⟨parent, s.mem, freed⟩ gs with owned := owned } := by
  obtain ⟨j, parent', hg, -, -, hstack⟩ := h.stacked t _ ht
  cases hg
  refine h.of_le ?_ rfl howned (forall_set hstack h.stacked)
  obtain ⟨m, hm, hm'⟩ := held_set (f := Thread.blocks) ht ⟨parent, gs⟩
  simp only [Process.owners, Process.setWorld]
  rw [hm, hm', Thread.blocks, Thread.blocks, held_cons]
  have hb : Guard.blocks ⟨⟨some (.Mut i)⟩, ⟨some (.Ref parent)⟩⟩ = {i} := rfl
  rw [hb]
  refine le_of_eq ?_
  calc held ThreadControlBlock.blocks owned + (held Guard.blocks gs + m) + (freed : Multiset Nat)
      = held ThreadControlBlock.blocks owned + (freed : Multiset Nat) +
          (held Guard.blocks gs + m) := by ac_rfl
    _ = {i} + held ThreadControlBlock.blocks s.owned + (s.freed : Multiset Nat) +
          (held Guard.blocks gs + m) := by rw [hown]
    _ = held ThreadControlBlock.blocks s.owned + ({i} + held Guard.blocks gs + m) +
          (s.freed : Multiset Nat) := by ac_rfl

theorem Inv.install {s : Process} (h : Inv s) {t k i : Nat} {th : Thread} {r : World × Option Guard}
    (ht : s.threads[t]? = some th) (hk : s.owned[k]? = some ⟨some (.Mut i)⟩)
    (hr : Installed (s.world th) i r) :
    Inv { s.setWorld t r.1 (r.2.toList ++ th.guards) with owned := s.owned.eraseIdx k } := by
  have hstack := h.stacked t th ht
  have hfree := h.not_guarded hk ht
  cases hr with
  | ok =>
    have hmem := SameBut.update i s.mem (s.mem th.fs)
    refine h.consume [_] ht hk hmem ⟨i, th.fs, rfl, rfl, ?_, hstack.frame hmem hfree⟩ (le_refl _)
    -- The two words were copied from the current block, which has the thread's.
    show Function.update s.mem (.block i) (s.mem th.fs) (.block i) =
      Function.update s.mem (.block i) (s.mem th.fs) (.original t)
    rw [Function.update_self, hmem (.original t) (by simp)]
    exact hstack.slots
  | err w' hfs hmem hfreed =>
    refine h.consume [] ht hk hmem ?_ ?_
    · rw [hfs]
      exact hstack.frame hmem hfree
    · rw [held_nil, zero_add]
      rcases hfreed with hf | hf
      · rw [hf]
        exact Multiset.le_add_left _ _
      · rw [hf, ← Multiset.cons_coe, ← Multiset.singleton_add]
        exact le_refl _

theorem Inv.drop {s : Process} (h : Inv s) {t k i : Nat} {th : Thread} {w : World}
    {p parent : Prctl} (ht : s.threads[t]? = some th) (hk : s.owned[k]? = some ⟨some (.Mut i)⟩)
    (hw : dropBlock (s.world th) ⟨some (.Mut i)⟩ p parent = some w) :
    Inv { s.setWorld t w th.guards with owned := s.owned.eraseIdx k } := by
  obtain ⟨hfs, hmem, hfreed⟩ := dropBlock_mut hw
  exact h.install ht hk (.err w hfs hmem hfreed)

theorem machine_of_exec (ls : List Ev) (p : Process → Bool)
    (h : (LTS.exec Process.step (.initial fun _ => ⟨0, 0⟩) ls).map p = some true) :
    ∃ s, machine.Reachable s ∧ p s = true :=
  LTS.reach_of_exec ⟨_, rfl⟩ h

def Prctl.fine : Prctl := ⟨true, true⟩

end Inger.L1.ControlBlock
