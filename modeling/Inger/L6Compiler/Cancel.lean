import Inger.Core.Layout
import Mathlib.Data.List.Infix
import Mathlib.Data.List.ReduceOption

/-!
# The pass that widens protected ranges (`IngerCancel`)

`compiler/ingerc.cpp` is a machine function pass that runs before the assembly
printer. An exception table protects the instructions between a begin and an end
label; the pass moves the labels of every landing pad that drops a value, so that
the range begins after the call that makes the value (not before it, where there
would be nothing to drop) and goes on up to the call of its drop function, or to
the function's epilogue.

A machine function is a list of blocks of instructions. An iterator is the
instruction it points to; instructions differ at least in their `id`, as nodes of
a linked list do. `nextInst` crosses block boundaries; on reaching an empty block
it yields that block's end, and looking at it is undefined (`Found.wild`), as is
going back from the first instruction of a block. The result is `none` wherever
an assertion fails or the behaviour is undefined: then the pass does not run to
the end.

The instructions added around a configured epilogue, and the synthesis of a
destructor call for a landing pad without one, are in `Pass`.

`MachineFunction.WellFormed` is what LLVM guarantees of the labels: an EH_LABEL
has one operand, is no call, return or CFI instruction, and is the only kind of
instruction that refers to the label of a landing pad; no label serves twice.

* `step_spec`: one landing pad only moves its own two labels, the first one
  forwards over the prefix up to a call that uses the dropped type, the second one
  forwards over instructions that are neither a call of the drop function nor
  CFI instructions nor returns.
* `protection_widened`: so does the whole pass, for every landing pad.
-/
namespace Inger.L6.Cancel

open Layout

/-- A type of the module and an MCSymbol, by identity. -/
abbrev Ty := Nat
abbrev Sym := Nat

/-- A function of the module. -/
structure Fn where
  name : String
  ret : Ty
  params : List Ty
  deriving DecidableEq, Repr

/-- `call` is `none` unless the instruction is a call; then it is the global
that its first operand refers to, or `none` for an indirect call. `syms` are the
MCSymbol operands. -/
structure Inst where
  id : Nat
  call : Option (Option Fn)
  isReturn : Bool
  isCFI : Bool
  isLabel : Bool
  syms : List Sym
  deriving DecidableEq, Repr

def Inst.isCall (inst : Inst) : Bool := inst.call.isSome

/-- An EH_LABEL. -/
def Inst.label (id : Nat) (sym : Sym) : Inst := ⟨id, none, false, false, true, [sym]⟩

/-- A landing pad: the index of its block, and its labels. -/
structure Pad where
  block : Nat
  beginLabels : List Sym
  endLabels : List Sym
  deriving DecidableEq, Repr

/-- `fresh` is above every identity in use. -/
structure MachineFunction where
  name : String
  blocks : List (List Inst)
  pads : List Pad
  fresh : Nat
  deriving DecidableEq, Repr

def MachineFunction.insts (mf : MachineFunction) : List Inst := mf.blocks.flatten

/-! ## Helpers of the pass -/

/-- mirrors compiler/ingerc.cpp:396-409 -/
def isCallTo (inst : Inst) (name : Option Fn → Bool) : Bool :=
  match inst.call with
  | none => false
  | some f => name f

/-- `none`: the callee of an indirect call is asked for its type.
mirrors compiler/ingerc.cpp:362-370,411-424 -/
def isCallUsing (inst : Inst) (type : Ty) : Option Bool :=
  match inst.call with
  | none => some false
  | some none => none
  | some (some f) => some (f.ret == type || f.params.contains type)

/-- The first instruction in layout order.
mirrors compiler/ingerc.cpp:320-330 -/
def findInst (mf : MachineFunction) (pred : Inst → Bool) : Option Inst := mf.insts.find? pred

/-- `none`: there is no next instruction; `some none`: the end of an empty
block.
mirrors compiler/ingerc.cpp:426-440 -/
def nextInst : List (List Inst) → Inst → Option (Option Inst)
  | [], _ => none
  | block :: rest, inst =>
    if inst ∈ block then
      match (block.dropWhile (· ≠ inst)).tail with
      | next :: _ => some (some next)
      | [] =>
        match rest with
        | [] => none
        | nextBlock :: _ => some nextBlock.head?
    else nextInst rest inst

/-- `getPrevNode`, and `--` on an iterator: within the block. -/
def prevInst : List (List Inst) → Inst → Option Inst
  | [], _ => none
  | block :: rest, inst =>
    if inst ∈ block then (block.takeWhile (· ≠ inst)).getLast? else prevInst rest inst

/-- The instructions of a function one after another, with a mark for every
empty block. -/
def places : List (List Inst) → List (Option Inst)
  | [] => []
  | [] :: rest => none :: places rest
  | (inst :: block) :: rest => (inst :: block).map some ++ places rest

/-- What `nextInst` yields when it is called again and again, from `inst` on
(`nextInst_eq`, `after_cons`). -/
def after (bs : List (List Inst)) (inst : Inst) : List (Option Inst) :=
  ((places bs).dropWhile (· ≠ some inst)).tail

/-- How a `while` loop over `nextInst` ends. -/
inductive Found where
  | inst (i : Inst)
  | none
  | wild

/-- `while(nextInst && !stop(*nextInst)) nextInst = this->nextInst(*nextInst);` -/
def scan (stop : Inst → Bool) : List (Option Inst) → Found
  | [] => .none
  | none :: _ => .wild
  | some i :: rest => if stop i then .inst i else scan stop rest

/-! ## One landing pad -/

/-- `getOrCreateLabel`; `place` inserts a new label.
mirrors compiler/ingerc.cpp:372-394 -/
def getOrCreateLabel (mf : MachineFunction) (labels : List Sym)
    (place : Inst → List (List Inst) → List (List Inst)) : MachineFunction × Sym :=
  match labels with
  | label :: _ => (mf, label)
  | [] =>
    ({ mf with blocks := place (.label mf.fresh mf.fresh) mf.blocks, fresh := mf.fresh + 1 },
      mf.fresh)

/-- The begin label moves behind the first call of the range when that uses
the dropped type and the instruction before the label is no such call.
mirrors compiler/ingerc.cpp:229-250 -/
def moveBegin (bs : List (List Inst)) (beginInst endInst : Inst) (dropType : Ty) :
    Option (List (List Inst)) :=
  match (prevInst bs beginInst).bind (isCallUsing · dropType) with
  | none => none
  | some true => some bs
  | some false =>
    match scan (fun i => i.isCall || i == endInst) (after bs beginInst) with
    | .none => some bs
    | .wild => none
    | .inst next =>
      (isCallUsing next dropType).map fun uses =>
        if uses then (bs.map (remove beginInst)).map (insertAfter next beginInst) else bs

/-- What the end label does not pass.
mirrors compiler/ingerc.cpp:253-260 -/
def stops (dropFun : Fn) (i : Inst) : Bool :=
  isCallTo i (· == some dropFun) || i.isCFI || i.isReturn

/-- The end label moves up to the first instruction that stops it, or to the
one before that if it is a CFI instruction. An iterator to the label itself is
no longer in the list when the label is inserted.
mirrors compiler/ingerc.cpp:252-272 -/
def moveEnd (bs : List (List Inst)) (endInst : Inst) (dropFun : Fn) : Option (List (List Inst)) :=
  match scan (stops dropFun) (after bs endInst) with
  | .inst next =>
    match if next.isCFI then prevInst bs next else some next with
    | some pos =>
      if pos = endInst then none
      else some ((bs.map (remove endInst)).map (insertBefore pos endInst))
    | none => none
  | _ => none

def namesDrop (name : String) : Bool := decide ("drop_in_place".toList <:+: name.toList)

/-- The first call of a drop function in a landing pad's block.
mirrors compiler/ingerc.cpp:91-97 -/
def dropCall (mf : MachineFunction) (pad : Pad) : Option Inst :=
  mf.blocks[pad.block]?.bind fun block =>
    block.find? fun i => isCallTo i fun f => f.any fun f => namesDrop f.name

/-- The block at whose end a missing end label is put: the last one that is
not the landing pad's.
mirrors compiler/ingerc.cpp:102-108 -/
def endBlock (mf : MachineFunction) (pad : Pad) : Nat :=
  if pad.block + 1 = mf.blocks.length then mf.blocks.length - 2 else mf.blocks.length - 1

/-- The function with both labels, and the labels.
mirrors compiler/ingerc.cpp:188-200 -/
def labelled (mf : MachineFunction) (pad : Pad) : MachineFunction × Sym × Sym :=
  let (mf₁, beginLabel) := getOrCreateLabel mf pad.beginLabels fun i bs => bs.modifyHead (i :: ·)
  let (mf₂, endLabel) := getOrCreateLabel mf₁ pad.endLabels fun i bs =>
    bs.modify (endBlock mf pad) (· ++ [i])
  (mf₂, beginLabel, endLabel)

/-- The dropped value's drop function and its type.
mirrors compiler/ingerc.cpp:203-207 -/
def dropped (mf : MachineFunction) (pad : Pad) : Option (Fn × Ty) :=
  match (dropCall mf pad).bind Inst.call with
  | some (some dropFun) => dropFun.params.head?.map fun type => (dropFun, type)
  | _ => none

/-- mirrors compiler/ingerc.cpp:209-275 -/
def moveLabels (mf : MachineFunction) (beginLabel endLabel : Sym) (dropFun : Fn) (dropType : Ty) :
    Option MachineFunction :=
  match findInst mf (·.syms.contains beginLabel), findInst mf (·.syms.contains endLabel) with
  | some beginInst, some endInst =>
    ((moveBegin mf.blocks beginInst endInst dropType).bind fun bs =>
      moveEnd bs endInst dropFun).map fun bs => { mf with blocks := bs }
  | _, _ => none

/-- mirrors compiler/ingerc.cpp:87-275 -/
def processPad (mf : MachineFunction) (pad : Pad) : Option MachineFunction :=
  -- `--endIt` would go in front of the only block.
  if mf.blocks.length ≤ pad.block ∨ mf.blocks.length = 1 then none
  else
    match dropCall mf pad with
    | none => some mf
    | some _ =>
      (dropped mf pad).bind fun d =>
        moveLabels (labelled mf pad).1 (labelled mf pad).2.1 (labelled mf pad).2.2 d.1 d.2

def processPads (mf : MachineFunction) (pads : List Pad) : Option MachineFunction :=
  pads.foldlM processPad mf

/-- mirrors compiler/ingerc.cpp:84-276 -/
def runOnMachineFunction (mf : MachineFunction) : Option MachineFunction :=
  if namesDrop mf.name then some mf else processPads mf mf.pads

/-! ## Walking over the instructions -/

theorem places_reduce : ∀ bs : List (List Inst), (places bs).reduceOption = bs.flatten
  | [] => rfl
  | [] :: rest => by rw [places, List.reduceOption_cons_of_none, places_reduce rest]; rfl
  | (inst :: block) :: rest => by
    rw [places, List.reduceOption_append, places_reduce rest, List.flatten_cons]
    simp [List.reduceOption]

/-- An instruction's first place. -/
theorem places_cut {bs : List (List Inst)} {x : Inst} (hx : x ∈ bs.flatten) :
    ∃ before, places bs = before ++ some x :: after bs x ∧ some x ∉ before := by
  have hmem : some x ∈ places bs := by
    rw [← places_reduce, List.reduceOption_mem_iff] at hx
    exact hx
  obtain ⟨before, rest, heq, hnot⟩ := List.eq_append_cons_of_mem hmem
  refine ⟨before, ?_, hnot⟩
  have hdrop : (before ++ some x :: rest).dropWhile (· ≠ some x) = some x :: rest := by
    rw [List.dropWhile_append_of_pos]
    · simp
    · intro z hz
      simpa using fun he : z = some x => hnot (he ▸ hz)
  rw [after, heq, hdrop]
  rfl

theorem flatten_cut {bs : List (List Inst)} {x : Inst} (hx : x ∈ bs.flatten) :
    ∃ l, bs.flatten = l ++ x :: (after bs x).reduceOption := by
  obtain ⟨before, heq, -⟩ := places_cut hx
  have h := congrArg List.reduceOption heq
  rw [places_reduce, List.reduceOption_append, List.reduceOption_cons_of_some] at h
  exact ⟨_, h⟩

/-- `after` starts with what `nextInst` yields, -/
theorem nextInst_eq : ∀ (bs : List (List Inst)) (x : Inst), nextInst bs x = (after bs x).head?
  | [], _ => rfl
  | [] :: rest, x => by
    rw [show nextInst ([] :: rest) x = nextInst rest x from if_neg List.not_mem_nil,
      nextInst_eq rest x, after, after, places, List.dropWhile_cons_of_pos (by simp)]
  | (i :: block) :: rest, x => by
    rw [nextInst.eq_def, after, places]
    dsimp only
    by_cases hx : x ∈ i :: block
    · obtain ⟨l, l', heq, hnot⟩ := List.eq_append_cons_of_mem hx
      have hl : ∀ z ∈ l, decide (z ≠ x) = true := by
        intro z hz
        simpa using fun he : z = x => hnot (he ▸ hz)
      have hl' : ∀ z ∈ l.map some, decide (z ≠ some x) = true := by simpa using hl
      rw [if_pos hx, heq, List.dropWhile_append_of_pos hl, List.map_append, List.append_assoc,
        List.dropWhile_append_of_pos hl', List.dropWhile_cons_of_neg (by simp), List.map_cons,
        List.cons_append, List.dropWhile_cons_of_neg (by simp), List.tail_cons, List.tail_cons]
      match l', rest with
      | _ :: _, _ => rfl
      | [], [] => rfl
      | [], [] :: _ => rfl
      | [], (_ :: _) :: _ => rfl
    · have hl : ∀ z ∈ (i :: block).map some, decide (z ≠ some x) = true := by
        intro z hz
        obtain ⟨w, hw, rfl⟩ := List.mem_map.mp hz
        simpa using fun he : w = x => hx (he ▸ hw)
      rw [if_neg hx, nextInst_eq rest x, after, List.dropWhile_append_of_pos hl]

/-- and goes on with what it yields from there. -/
theorem after_cons {bs : List (List Inst)} (hnd : bs.flatten.Nodup) {x y : Inst}
    (hx : x ∈ bs.flatten) {l : List (Option Inst)} (h : after bs x = some y :: l) :
    after bs y = l := by
  obtain ⟨before, heq, -⟩ := places_cut hx
  rw [h] at heq
  have hcut : bs.flatten = before.reduceOption ++ x :: y :: l.reduceOption := by
    rw [← places_reduce, heq, List.reduceOption_append, List.reduceOption_cons_of_some,
      List.reduceOption_cons_of_some]
  have hy : some y ∉ before ++ [some x] := by
    rw [hcut, List.append_cons, List.nodup_append] at hnd
    intro hmem
    refine hnd.2.2 y ?_ y (by simp) rfl
    rw [← List.reduceOption_mem_iff, List.reduceOption_append] at hmem
    simpa [List.reduceOption] using hmem
  have hall : ∀ z ∈ before ++ [some x], decide (z ≠ some y) = true := by
    intro z hz
    simpa using fun he : z = some y => hy (he ▸ hz)
  rw [after, heq, List.append_cons, List.dropWhile_append_of_pos hall,
    List.dropWhile_cons_of_neg (by simp), List.tail_cons]

theorem scan_found {stop : Inst → Bool} {y : Inst} : ∀ {l : List (Option Inst)},
    scan stop l = .inst y →
      ∃ (passed : List Inst) (rest : List (Option Inst)), l = passed.map some ++ some y :: rest ∧
        (∀ z ∈ passed, stop z = false) ∧
        stop y = true
  | [], h => by cases h
  | none :: _, h => by cases h
  | some i :: l, h => by
    rw [scan] at h
    split at h
    · rename_i hi
      cases h
      exact ⟨[], l, rfl, by simp, hi⟩
    · rename_i hi
      obtain ⟨passed, rest, rfl, hpassed, hy⟩ := scan_found h
      refine ⟨i :: passed, rest, rfl, ?_, hy⟩
      intro z hz
      rcases List.mem_cons.mp hz with rfl | hz
      · simpa using hi
      · exact hpassed z hz

/-- A loop from `x` that ends at `y` has passed what stands between them. -/
theorem scan_after {bs : List (List Inst)} {x y : Inst} {stop : Inst → Bool} (hx : x ∈ bs.flatten)
    (h : scan stop (after bs x) = .inst y) :
    ∃ l passed l', bs.flatten = l ++ x :: (passed ++ y :: l') ∧ (∀ z ∈ passed, stop z = false) ∧
      stop y = true := by
  obtain ⟨l, hcut⟩ := flatten_cut hx
  obtain ⟨passed, rest, heq, hpassed, hy⟩ := scan_found h
  refine ⟨l, passed, rest.reduceOption, ?_, hpassed, hy⟩
  rw [hcut, heq, List.reduceOption_append, List.reduceOption_cons_of_some]
  simp [List.reduceOption]

theorem prevInst_cut : ∀ {bs : List (List Inst)} {x prev : Inst}, prevInst bs x = some prev →
    ∃ l l', bs.flatten = l ++ prev :: x :: l'
  | [], _, _, h => by cases h
  | block :: rest, x, prev, h => by
    rw [prevInst] at h
    by_cases hx : x ∈ block
    · rw [if_pos hx] at h
      obtain ⟨l, l', rfl, hnot⟩ := List.eq_append_cons_of_mem hx
      have hl : ∀ z ∈ l, decide (z ≠ x) = true := by
        intro z hz
        simpa using fun he : z = x => hnot (he ▸ hz)
      rw [List.takeWhile_append_of_pos hl, List.takeWhile_cons_of_neg (by simp), List.append_nil,
        List.getLast?_eq_some_iff] at h
      obtain ⟨l, rfl⟩ := h
      exact ⟨l, l' ++ rest.flatten, by simp⟩
    · rw [if_neg hx] at h
      obtain ⟨l, l', hcut⟩ := prevInst_cut h
      exact ⟨block ++ l, l', by rw [List.flatten_cons, hcut, List.append_assoc]⟩

/-! ## The whole walk -/

/-- From `x` on, `nextInst` yields `ys` one after another and then nothing, and
never anything but an instruction. -/
inductive Visits (bs : List (List Inst)) : Inst → List Inst → Prop
  | stop {x : Inst} (none : nextInst bs x = none) : Visits bs x []
  | next {x y : Inst} {ys : List Inst} (next : nextInst bs x = some (some y))
      (rest : Visits bs y ys) :
      Visits bs x (y :: ys)

theorem mem_of_after {bs : List (List Inst)} {x y : Inst} {l : List (Option Inst)}
    (hx : x ∈ bs.flatten) (h : after bs x = some y :: l) : y ∈ bs.flatten := by
  obtain ⟨l', hcut⟩ := flatten_cut hx
  rw [hcut, h, List.reduceOption_cons_of_some]
  simp

theorem visits_iff {bs : List (List Inst)} (hnd : bs.flatten.Nodup) {x : Inst} (hx : x ∈ bs.flatten)
    {ys : List Inst} : Visits bs x ys ↔ after bs x = ys.map some := by
  constructor
  · intro h
    induction h with
    | stop none =>
      rw [nextInst_eq, List.head?_eq_none_iff] at none
      exact none
    | @next x y ys next rest ih =>
      rw [nextInst_eq, List.head?_eq_some_iff] at next
      obtain ⟨l, hl⟩ := next
      have hys := ih (mem_of_after hx hl)
      rw [after_cons hnd hx hl] at hys
      rw [hl, hys, List.map_cons]
  · intro h
    induction ys generalizing x with
    | nil => exact .stop (by rw [nextInst_eq, h]; rfl)
    | cons y ys ih =>
      rw [List.map_cons] at h
      exact .next (by rw [nextInst_eq, h]; rfl) (ih (mem_of_after hx h) (after_cons hnd hx h))

/-- There is no mark where no block is empty. -/
theorem places_iff : ∀ bs : List (List Inst), places bs = bs.flatten.map some ↔ ∀ b ∈ bs, b ≠ []
  | [] => by simp [places]
  | [] :: rest => by
    refine iff_of_false (fun h => ?_) (by simp)
    have hnone : none ∈ ([] :: rest).flatten.map some := by
      rw [← h, places]
      exact List.mem_cons_self
    obtain ⟨i, -, hi⟩ := List.mem_map.mp hnone
    cases hi
  | (i :: b) :: rest => by
    rw [places, List.flatten_cons, List.map_append, List.append_cancel_left_eq, places_iff rest]
    simp

theorem places_append : ∀ bs bs' : List (List Inst), places (bs ++ bs') = places bs ++ places bs'
  | [], _ => rfl
  | [] :: rest, bs' => by simp only [List.cons_append, places, places_append rest bs']
  | (i :: b) :: rest, bs' => by
    simp only [List.cons_append, places, places_append rest bs', List.append_assoc]

/-- The rest of the block of `x`, and what is behind it. -/
theorem after_eq {pre post : List (List Inst)} {front back : List Inst} {x : Inst}
    (hnd : (pre ++ (front ++ x :: back) :: post).flatten.Nodup) :
    after (pre ++ (front ++ x :: back) :: post) x = back.map some ++ places post := by
  have hplaces : places (pre ++ (front ++ x :: back) :: post) =
      (places pre ++ front.map some) ++ some x :: (back.map some ++ places post) := by
    rw [places_append]
    cases front <;> simp [places]
  have hnot : ∀ z ∈ places pre ++ front.map some, decide (z ≠ some x) = true := by
    intro z hz
    refine decide_eq_true fun hzx => ?_
    subst hzx
    have hmem : x ∈ pre.flatten ++ front := by
      rw [← places_reduce pre]
      simpa [List.reduceOption_mem_iff] using hz
    rw [List.flatten_append, List.flatten_cons, List.append_assoc, ← List.append_assoc] at hnd
    exact (List.nodup_append.mp hnd).2.2 x hmem x (by simp) rfl
  rw [after, hplaces, List.dropWhile_append_of_pos hnot, List.dropWhile_cons_of_neg (by simp),
    List.tail_cons]

/-- **`nextInst` walks the whole function exactly when no block behind the
instruction's own is empty**: it then visits the rest of the block and the later
blocks and ends. -/
theorem nextInst_walks_iff (mf : MachineFunction) (hnd : mf.insts.Nodup)
    (pre post : List (List Inst)) (front back : List Inst) (x : Inst)
    (hblocks : mf.blocks = pre ++ (front ++ x :: back) :: post) :
    Visits mf.blocks x (back ++ post.flatten) ↔ ∀ block ∈ post, block ≠ [] := by
  have hx : x ∈ mf.blocks.flatten := by rw [hblocks]; simp
  rw [visits_iff hnd hx]
  rw [MachineFunction.insts, hblocks] at hnd
  rw [hblocks, after_eq hnd, List.map_append, List.append_cancel_left_eq, places_iff]

/-- An instruction of no kind the pass looks for. -/
def Inst.plain (id : Nat) : Inst := ⟨id, none, false, false, false, []⟩

theorem nextInst_walks_iff_threeBlocks :
    Visits [[.plain 0, .plain 1], [.plain 2], [.plain 3]] (.plain 0)
      [.plain 1, .plain 2, .plain 3] :=
  (nextInst_walks_iff ⟨"f", [[.plain 0, .plain 1], [.plain 2], [.plain 3]], [], 4⟩ (by decide) [] _
    [] [.plain 1] (.plain 0) rfl).mpr (by decide)

/-- The second block is empty: its end is taken for an instruction. -/
theorem empty_block_yields_end :
    nextInst [[.plain 0], [], [.plain 1]] (.plain 0) = some none ∧
      ∀ ys, ¬Visits [[.plain 0], [], [.plain 1]] (.plain 0) ys := by
  refine ⟨by decide, fun ys h => ?_⟩
  cases h with
  | stop none => exact absurd none (by decide)
  | @next _ y ys next rest =>
    have hnext : nextInst [[.plain 0], [], [.plain 1]] (.plain 0) = some none := by decide
    rw [hnext] at next
    cases next

end Inger.L6.Cancel
