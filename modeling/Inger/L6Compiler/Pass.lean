import Inger.L6Compiler.Cancel
import Mathlib.Logic.Function.Basic

/-!
# The whole pass, with its faults (`IngerCancel`)

`Cancel` models what the pass does to a landing pad with a drop call, as far as
it gets through. This is all of `runOnMachineFunction`, with the way in which it
fails where it does (`Fault`): the instructions around a configured epilogue,
the destructor call that is synthesised for a landing pad without one, and the
moves of the labels. Where neither of the first two has anything to do, the whole
pass agrees with that of `Cancel` (`runOnMachineFunction_toOption`).

A landing pad without a drop call gets one when the function returns its result
through a pointer (`sret`) to a type that has a destructor: the first call of a
function with the same `sret` type is taken for the constructor, and what it
passes in RDI is passed to the destructor in the landing pad.

`getGlobal` is meant for operands that are globals. `isCallTo` asks first ("else
it's an indirect call so we cannot know the function statically"); `getFunction`
and `getFunctionType` do not. `globals_read_iff` says for which functions no
other operand is asked for its global: no such call stands in front of the
constructor, directly in front of a begin label, or first in the range behind it.
-/
namespace Inger.L6.Pass

open Layout Cancel

/-- A failed assertion of `getGlobal`, another failed assertion, and undefined
behaviour (a sentinel is looked at, or an iterator leaves its list). -/
inductive Fault where
  | global
  | assertion
  | undefined
  deriving DecidableEq, Repr

inductive Reg where
  | rdi
  | rbp
  | other (n : Nat)
  deriving DecidableEq, Repr

/-- What the pass knows of the module: the function it runs on, the functions
in order, and LLVM's `getParamStructRetType` and `getElementType`. -/
structure Module where
  function : Fn
  functions : List Fn
  getParamStructRetType : Fn → Nat → Option Ty
  getElementType : Ty → Option Ty

/-- A machine function with what only the synthesis looks at, by the identity
of the instruction: the register that is its first operand, and `isMoveReg`. -/
structure Code where
  mf : MachineFunction
  dst : Nat → Option Reg
  isMoveReg : Nat → Bool

/-! ## Calls -/

/-- mirrors compiler/ingerc.cpp:343-348 -/
def getFunction (call : Inst) : Except Fault (Option Fn) :=
  match call.call with
  | none => .ok none
  | some none => .error .global
  | some (some fn) => .ok (some fn)

/-- mirrors compiler/ingerc.cpp:350-361 -/
def getFunctionSRetType (m : Module) (fn : Fn) : Option (Nat × Ty) :=
  (List.range fn.params.length).findSome? fun index =>
    (m.getParamStructRetType fn index).map (index, ·)

/-- mirrors compiler/ingerc.cpp:363-371 -/
def getFunctionType (call : Inst) : Except Fault Fn :=
  match call.call with
  | none => .error .assertion
  | some none => .error .global
  | some (some fn) => .ok fn

/-- mirrors compiler/ingerc.cpp:411-424 -/
def isCallUsing (inst : Inst) (type : Ty) : Except Fault Bool :=
  if inst.isCall then (getFunctionType inst).map fun fn => fn.ret == type || fn.params.contains type
  else .ok false

/-! ## The epilogue -/

/-- The block of the first landing pad that starts with a CFI instruction.
mirrors compiler/ingerc.cpp:312-319 -/
def findFirstPad (mf : MachineFunction) : List Pad → Except Fault Bool
  | [] => .ok false
  | pad :: pads =>
    match mf.blocks[pad.block]? with
    | some (front :: _) => if front.isCFI then .ok true else findFirstPad mf pads
    | _ => .error .undefined

/-- The blocks in front of block `k`, backwards, up to one that starts with a
CFI instruction.
mirrors compiler/ingerc.cpp:51-53 -/
def findFrame (bs : List (List Inst)) : (k : Nat) → Except Fault Unit
  | 0 => .error .undefined
  | k + 1 =>
    match bs[k]? with
    | some (front :: _) => if front.isCFI then .ok () else findFrame bs k
    | _ => .error .undefined

/-- The CFI instruction from which the offset of the frame is taken.
mirrors compiler/ingerc.cpp:49-57 -/
def findOffset (mf : MachineFunction) : Except Fault Unit :=
  match findFirstPad mf mf.pads, mf.pads with
  | .error fault, _ => .error fault
  | .ok true, _ => .ok ()
  | .ok false, [] => .error .undefined
  | .ok false, pad :: _ => findFrame mf.blocks pad.block

/-- `lea` and `nop` around the first call of the epilogue. The offset that is
passed to it is left out: nothing reads it.
mirrors compiler/ingerc.cpp:41-82 -/
def addEpilogue (code : Code) (name : String) : Except Fault Code :=
  match findInst code.mf fun inst => isCallTo inst fun fn => fn.any (·.name == name) with
  | none => .ok code
  | some epilogue =>
    match findOffset code.mf with
    | .error fault => .error fault
    | .ok () =>
      -- `++*epilogue` must not be the end of the block.
      if code.mf.blocks.any fun block => block.getLast? == some epilogue then .error .undefined
      else
        let fresh := code.mf.fresh
        let lea : Inst := ⟨fresh, none, false, false, false, []⟩
        let nop : Inst := ⟨fresh + 1, none, false, false, false, []⟩
        .ok {
          mf := { code.mf with
            blocks := code.mf.blocks.map (splice epilogue [lea] [nop])
            fresh := fresh + 2 }
          dst := Function.update (Function.update code.dst fresh (some .rdi)) (fresh + 1) none
          isMoveReg := Function.update (Function.update code.isMoveReg fresh false)
            (fresh + 1) false }

/-! ## Synthesis of a destructor call -/

/-- mirrors compiler/ingerc.cpp:297-310 -/
def findDtor (m : Module) (type : Ty) : Option Fn :=
  m.functions.find? fun defn =>
    namesDrop defn.name && defn.params.head?.any fun param => m.getElementType param == some type

/-- The type that a missing drop call is synthesised for, and its
destructor.
mirrors compiler/ingerc.cpp:110-115 -/
def missing (m : Module) (mf : MachineFunction) (pad : Pad) : Option (Ty × Fn) :=
  match dropCall mf pad with
  | some _ => none
  | none =>
    (getFunctionSRetType m m.function).bind fun sRetType =>
      (findDtor m sRetType.2).map fun dtor => (sRetType.2, dtor)

/-- mirrors compiler/ingerc.cpp:117-122 -/
def isCtor (m : Module) (type : Ty) (inst : Inst) : Except Fault Bool :=
  (getFunction inst).map fun fn => fn.any fun fn => (getFunctionSRetType m fn).any (·.2 == type)

/-- `findInst` with a predicate that can fail. -/
def search (pred : Inst → Except Fault Bool) : List Inst → Except Fault (Option Inst)
  | [] => .ok none
  | inst :: rest =>
    match pred inst with
    | .error fault => .error fault
    | .ok true => .ok (some inst)
    | .ok false => search pred rest

/-- `getFunctionSRetType(*fun, &argIndex)` of the constructor. -/
def argIndex (m : Module) (ctor : Inst) : Option Nat :=
  ctor.call.bind fun fn => fn.bind fun fn => (getFunctionSRetType m fn).map Prod.fst

/-- Backwards over the instructions in front of the constructor call, up to the
one that sets RDI.
mirrors compiler/ingerc.cpp:130-135 -/
def findArgument (dst : Nat → Option Reg) : List Inst → Except Fault Inst
  | [] => .error .assertion
  | inst :: before =>
    match dst inst.id with
    | none => .error .assertion
    | some reg => if reg = .rdi then .ok inst else findArgument dst before

/-- The block of an instruction, and what follows it there. -/
def position (bs : List (List Inst)) (inst : Inst) : Nat × Option Inst :=
  let k := bs.findIdx fun block => decide (inst ∈ block)
  (k, (bs[k]?.bind fun block => (block.dropWhile (· ≠ inst)).tail.head?))

/-- An instruction is inserted in front of a position. -/
def insertAt (pos : Nat × Option Inst) (inst : Inst) (bs : List (List Inst)) : List (List Inst) :=
  match pos.2 with
  | some next => bs.map (insertBefore next inst)
  | none => bs.modify pos.1 (· ++ [inst])

/-- A new instruction with the opcode of `like`, and with a register for its
first operand. -/
def withOpcode (id : Nat) (like : Inst) : Inst :=
  ⟨id, like.call.map fun _ => none, like.isReturn, like.isCFI, like.isLabel, []⟩

/-- In the landing pad: the instruction that saves the `_Unwind_Context`
pointer, and the call that goes on unwinding.
mirrors compiler/ingerc.cpp:137-148 -/
def findUnwind (code : Code) (pad : Pad) : Option (Inst × Inst) :=
  let cleanupBlock := code.mf.blocks[pad.block]?.getD []
  (cleanupBlock.find? fun inst => code.isMoveReg inst.id).bind fun move =>
    ((cleanupBlock.dropWhile (· ≠ move)).find? Inst.isCall).map fun unwind => (move, unwind)

/-- In front of the call `unwind`: the victim is passed in RDI, the destructor is
called, and the context pointer, which `move` saves in RBP now, is passed on.
mirrors compiler/ingerc.cpp:142-184 -/
def addDropCall (code : Code) (dtor : Fn) (arg move unwind : Inst) : Code :=
  let fresh := code.mf.fresh
  let pass := withOpcode fresh arg
  let drop : Inst := { withOpcode (fresh + 1) unwind with call := some (some dtor) }
  let restore := withOpcode (fresh + 2) move
  { mf := { code.mf with
      blocks := code.mf.blocks.map (splice unwind [pass, drop, restore] [])
      fresh := fresh + 3 }
    dst := Function.update (Function.update
      (Function.update (Function.update code.dst move.id (some .rbp))
      fresh (some .rdi)) (fresh + 1) none) (fresh + 2) (some .rdi)
    isMoveReg := Function.update (Function.update (Function.update code.isMoveReg
      fresh (code.isMoveReg arg.id)) (fresh + 1) (code.isMoveReg unwind.id)) (fresh + 2) true }

/-- The function with the destructor call in the landing pad.
mirrors compiler/ingerc.cpp:128-184 -/
def destroy (m : Module) (code : Code) (pad : Pad) (dtor : Fn) (ctor : Inst) : Except Fault Code :=
  let block := code.mf.blocks[(position code.mf.blocks ctor).1]?.getD []
  if argIndex m ctor ≠ some 0 then .error .assertion
  -- The constructor call must not be the first instruction of its block.
  else if block.head? = some ctor then .error .undefined
  else
    match findArgument code.dst (block.takeWhile (· ≠ ctor)).reverse with
    | .error fault => .error fault
    | .ok arg =>
      match findUnwind code pad with
      | none => .error .assertion
      | some (move, unwind) => .ok (addDropCall code dtor arg move unwind)

/-- The position behind the constructor is that of the labels.
mirrors compiler/ingerc.cpp:116-185 -/
def synthesise (m : Module) (code : Code) (pad : Pad) (type : Ty) (dtor : Fn) :
    Except Fault (Code × (Nat × Option Inst)) :=
  match search (isCtor m type) code.mf.insts with
  | .error fault => .error fault
  | .ok none => .error .assertion
  | .ok (some ctor) =>
    (destroy m code pad dtor ctor).map fun code' => (code', position code.mf.blocks ctor)

/-! ## One landing pad -/

/-- The first call of the range, and the move behind it.
mirrors compiler/ingerc.cpp:234-250 -/
def moveOverCall (bs : List (List Inst)) (beginInst endInst : Inst) (dropType : Ty) :
    Except Fault (List (List Inst)) :=
  match scan (fun i => i.isCall || i == endInst) (after bs beginInst) with
  | .none => .ok bs
  | .wild => .error .undefined
  | .inst next => do
    if ← isCallUsing next dropType then
      return (bs.map (remove beginInst)).map (insertAfter next beginInst)
    return bs

/-- mirrors compiler/ingerc.cpp:231-251 -/
def moveBegin (bs : List (List Inst)) (beginInst endInst : Inst) (dropType : Ty) :
    Except Fault (List (List Inst)) :=
  match prevInst bs beginInst with
  | none => .error .assertion
  | some prev => do
    if ← isCallUsing prev dropType then return bs
    moveOverCall bs beginInst endInst dropType

/-- mirrors compiler/ingerc.cpp:253-271 -/
def moveEnd (bs : List (List Inst)) (endInst : Inst) (dropFun : Fn) :
    Except Fault (List (List Inst)) :=
  match scan (stops dropFun) (after bs endInst) with
  | .none => .error .assertion
  | .wild => .error .undefined
  | .inst next =>
    match if next.isCFI then prevInst bs next else some next with
    | none => .error .undefined
    | some pos =>
      if pos = endInst then .error .undefined
      else .ok ((bs.map (remove endInst)).map (insertBefore pos endInst))

/-- A landing pad whose labels are about to be moved. -/
structure Prepared where
  code : Code
  beginLabel : Sym
  endLabel : Sym
  dropFun : Fn

/-- mirrors compiler/ingerc.cpp:203-271 -/
def moveLabels (p : Prepared) : Except Fault Code :=
  match p.dropFun.params.head? with
  | none => .error .undefined
  | some dropType =>
    match findInst p.code.mf (·.syms.contains p.beginLabel),
      findInst p.code.mf (·.syms.contains p.endLabel) with
    | some beginInst, some endInst => do
      let bs ← moveBegin p.code.mf.blocks beginInst endInst dropType
      let bs ← moveEnd bs endInst p.dropFun
      return { p.code with mf := { p.code.mf with blocks := bs } }
    | _, _ => .error .assertion

/-- Both labels at the position behind the constructor call.
mirrors compiler/ingerc.cpp:124-126,188-200 -/
def labelledAt (mf : MachineFunction) (pad : Pad) (pos : Nat × Option Inst) :
    MachineFunction × Sym × Sym :=
  let (mf₁, beginLabel) := getOrCreateLabel mf pad.beginLabels (insertAt pos)
  let (mf₂, endLabel) := getOrCreateLabel mf₁ pad.endLabels (insertAt pos)
  (mf₂, beginLabel, endLabel)

/-- The drop call is found or synthesised and the labels are there; `none`:
there is no drop call.
mirrors compiler/ingerc.cpp:88-200 -/
def prepare (m : Module) (code : Code) (pad : Pad) : Except Fault (Option Prepared) :=
  -- `--endIt` would go in front of the only block.
  if code.mf.blocks.length ≤ pad.block ∨ code.mf.blocks.length = 1 then .error .undefined
  else
    match (dropCall code.mf pad).bind Inst.call with
    | some (some dropFun) =>
      let (mf, beginLabel, endLabel) := labelled code.mf pad
      .ok (some ⟨{ code with mf := mf }, beginLabel, endLabel, dropFun⟩)
    | _ =>
      match missing m code.mf pad with
      | none => .ok none
      | some (type, dtor) => do
        let (code, pos) ← synthesise m code pad type dtor
        let (mf, beginLabel, endLabel) := labelledAt code.mf pad pos
        return some ⟨{ code with mf := mf }, beginLabel, endLabel, dtor⟩

/-- mirrors compiler/ingerc.cpp:87-273 -/
def processPad (m : Module) (code : Code) (pad : Pad) : Except Fault Code := do
  match ← prepare m code pad with
  | none => return code
  | some p => moveLabels p

def processPads (m : Module) (code : Code) (pads : List Pad) : Except Fault Code :=
  pads.foldlM (processPad m) code

/-- mirrors compiler/ingerc.cpp:36-276 -/
def runOnMachineFunction (m : Module) (epilogue : Option String) (code : Code) :
    Except Fault Code := do
  let code ← epilogue.elim (pure code) (addEpilogue code)
  if namesDrop code.mf.name then return code
  processPads m code code.mf.pads

/-! ## Faults and results -/

section
variable {α β ε : Type}

theorem bind_eq_error {x : Except ε α} {f : α → Except ε β} {e : ε} :
    (x >>= f) = .error e ↔ x = .error e ∨ ∃ a, x = .ok a ∧ f a = .error e := by
  cases x with
  | error e' => simp [bind, Except.bind]
  | ok a => simp [bind, Except.bind]

theorem bind_eq_ok {x : Except ε α} {f : α → Except ε β} {b : β} :
    (x >>= f) = .ok b ↔ ∃ a, x = .ok a ∧ f a = .ok b := by
  cases x with
  | error e => simp [bind, Except.bind]
  | ok a => simp [bind, Except.bind]

theorem toOption_bind (x : Except ε α) (f : α → Except ε β) :
    (x >>= f).toOption = x.toOption.bind fun a => (f a).toOption := by
  cases x <;> rfl

/-- A loop fails in one of its rounds, those before having succeeded. -/
theorem foldlM_eq_error {f : α → β → Except ε α} {e : ε} {l : List β} {a : α} :
    l.foldlM f a = .error e ↔
      ∃ pre b post a', l = pre ++ b :: post ∧ pre.foldlM f a = .ok a' ∧ f a' b = .error e := by
  induction l generalizing a with
  | nil => simp [pure, Except.pure]
  | cons x l ih =>
    rw [List.foldlM_cons, bind_eq_error]
    constructor
    · rintro (h | ⟨a', ha', h⟩)
      · exact ⟨[], x, l, a, rfl, rfl, h⟩
      · obtain ⟨pre, b, post, a'', rfl, hpre, hb⟩ := ih.mp h
        refine ⟨x :: pre, b, post, a'', rfl, ?_, hb⟩
        rw [List.foldlM_cons, bind_eq_ok]
        exact ⟨a', ha', hpre⟩
    · rintro ⟨pre, b, post, a', heq, hpre, hb⟩
      cases pre with
      | nil =>
        cases heq
        cases hpre
        exact .inl hb
      | cons y pre =>
        cases heq
        rw [List.foldlM_cons, bind_eq_ok] at hpre
        obtain ⟨a'', hx, hpre⟩ := hpre
        exact .inr ⟨a'', hx, ih.mpr ⟨pre, b, post, a', rfl, hpre, hb⟩⟩

end

/-! ## Agreement with `Cancel` -/

theorem isCallUsing_toOption (inst : Inst) (type : Ty) :
    (isCallUsing inst type).toOption = Cancel.isCallUsing inst type := by
  rw [isCallUsing, getFunctionType, Cancel.isCallUsing, Inst.isCall]
  match inst.call with
  | none => rfl
  | some none => rfl
  | some (some fn) => rfl

theorem moveBegin_toOption (bs : List (List Inst)) (b e : Inst) (type : Ty) :
    (moveBegin bs b e type).toOption = Cancel.moveBegin bs b e type := by
  rw [moveBegin, Cancel.moveBegin]
  cases prevInst bs b with
  | none => rfl
  | some prev =>
    dsimp only
    rw [toOption_bind, isCallUsing_toOption, Option.bind_some]
    cases Cancel.isCallUsing prev type with
    | none => rfl
    | some uses =>
      cases uses with
      | true => rfl
      | false =>
        rw [Option.bind_some, if_neg Bool.false_ne_true, moveOverCall]
        dsimp only
        cases scan (fun i => i.isCall || i == e) (after bs b) with
        | none => rfl
        | wild => rfl
        | inst next =>
          dsimp only
          rw [← isCallUsing_toOption]
          cases isCallUsing next type with
          | error fault => rfl
          | ok uses => cases uses <;> rfl

theorem moveEnd_toOption (bs : List (List Inst)) (e : Inst) (f : Fn) :
    (moveEnd bs e f).toOption = Cancel.moveEnd bs e f := by
  rw [moveEnd, Cancel.moveEnd]
  cases scan (stops f) (after bs e) with
  | none => rfl
  | wild => rfl
  | inst next =>
    dsimp only
    cases if next.isCFI = true then prevInst bs next else some next with
    | none => rfl
    | some pos =>
      dsimp only
      split <;> rfl

theorem moveLabels_toOption (p : Prepared) :
    (moveLabels p).toOption.map Code.mf = p.dropFun.params.head?.bind
      (Cancel.moveLabels p.code.mf p.beginLabel p.endLabel p.dropFun) := by
  rw [moveLabels]
  cases p.dropFun.params.head? with
  | none => rfl
  | some type =>
    rw [Option.bind_some, Cancel.moveLabels]
    cases findInst p.code.mf (·.syms.contains p.beginLabel) with
    | none => rfl
    | some b =>
      cases findInst p.code.mf (·.syms.contains p.endLabel) with
      | none => rfl
      | some e =>
        dsimp only
        rw [toOption_bind, moveBegin_toOption]
        cases Cancel.moveBegin p.code.mf.blocks b e type with
        | none => rfl
        | some bs =>
          rw [Option.bind_some, Option.bind_some, toOption_bind, moveEnd_toOption]
          cases Cancel.moveEnd bs e p.dropFun <;> rfl

/-- The callee of a drop call is known. -/
theorem dropCall_call {mf : MachineFunction} {pad : Pad} {drop : Inst}
    (h : dropCall mf pad = some drop) :
    ∃ f, drop.call = some (some f) := by
  obtain ⟨block, -, hfind⟩ := Option.bind_eq_some_iff.mp h
  have hcall := List.find?_some hfind
  unfold isCallTo at hcall
  match hc : drop.call with
  | none =>
    rw [hc] at hcall
    cases hcall
  | some none =>
    rw [hc] at hcall
    cases hcall
  | some (some f) => exact ⟨f, rfl⟩

/-- A landing pad for which nothing is synthesised is processed as in
`Cancel`. -/
theorem processPad_toOption (m : Module) (code : Code) (pad : Pad)
    (h : missing m code.mf pad = none) :
    (processPad m code pad).toOption.map Code.mf = Cancel.processPad code.mf pad := by
  rw [processPad, prepare, Cancel.processPad]
  split
  · rfl
  · cases hdrop : dropCall code.mf pad with
    | none =>
      rw [Option.bind_none, h]
      rfl
    | some drop =>
      obtain ⟨f, hf⟩ := dropCall_call hdrop
      have hdropped : dropped code.mf pad = f.params.head?.map fun type => (f, type) := by
        rw [dropped, hdrop, Option.bind_some, hf]
      rw [Option.bind_some, hf, hdropped]
      have hmoves := moveLabels_toOption ⟨{ code with mf := (labelled code.mf pad).1 },
        (labelled code.mf pad).2.1, (labelled code.mf pad).2.2, f⟩
      cases hparams : f.params.head? <;> rw [hparams] at hmoves <;> exact hmoves

/-- Every landing pad that needs a drop call has one: nothing is synthesised. -/
def Provided (m : Module) : Code → List Pad → Prop
  | _, [] => True
  | code, pad :: pads =>
    missing m code.mf pad = none ∧ ∀ code', processPad m code pad = .ok code' →
      Provided m code' pads

theorem processPads_toOption (m : Module) (pads : List Pad) (code : Code)
    (h : Provided m code pads) :
    (processPads m code pads).toOption.map Code.mf = Cancel.processPads code.mf pads := by
  induction pads generalizing code with
  | nil => rfl
  | cons pad pads ih =>
    have hpad := processPad_toOption m code pad h.1
    rw [processPads, Cancel.processPads, List.foldlM_cons, List.foldlM_cons, toOption_bind, ← hpad]
    cases hcode : processPad m code pad with
    | error fault => rfl
    | ok code' => exact ih code' (h.2 code' hcode)

/-- **The whole pass is that of `Cancel`** where no epilogue is configured and
nothing is synthesised: it comes to the end for the same functions, with the same
result, and what is said there of the labels holds here. -/
theorem runOnMachineFunction_toOption (m : Module) (code : Code)
    (h : Provided m code code.mf.pads) :
    (runOnMachineFunction m none code).toOption.map Code.mf = Cancel.runOnMachineFunction
      code.mf := by
  rw [Cancel.runOnMachineFunction, ← processPads_toOption m _ code h]
  change ((if namesDrop code.mf.name then pure code else processPads m code code.mf.pads :
    Except Fault Code).toOption.map Code.mf) = _
  split <;> rfl

/-! ## Reading globals -/

/-- A call whose first operand is not a global: a register, memory or an
external symbol. -/
def Indirect (inst : Inst) : Prop := inst.call = some none

theorem isCallUsing_cases (inst : Inst) (type : Ty) :
    isCallUsing inst type = .error .global ∧ Indirect inst ∨
      ∃ b, isCallUsing inst type = .ok b ∧ ¬Indirect inst := by
  rw [isCallUsing, getFunctionType, Inst.isCall, Indirect]
  match inst.call with
  | none => exact .inr ⟨_, rfl, nofun⟩
  | some none => exact .inl ⟨rfl, rfl⟩
  | some (some fn) => exact .inr ⟨_, rfl, nofun⟩

theorem isCtor_cases (m : Module) (type : Ty) (inst : Inst) :
    isCtor m type inst = .error .global ∧ Indirect inst ∨
      ∃ b, isCtor m type inst = .ok b ∧ ¬Indirect inst := by
  rw [isCtor, getFunction, Indirect]
  match inst.call with
  | none => exact .inr ⟨_, rfl, nofun⟩
  | some none => exact .inl ⟨rfl, rfl⟩
  | some (some fn) => exact .inr ⟨_, rfl, nofun⟩

/-- The search for the constructor comes to an indirect call first. -/
theorem search_global {m : Module} {type : Ty} {l : List Inst} :
    search (isCtor m type) l = .error .global ↔
      ∃ l₁ i l₂, l = l₁ ++ i :: l₂ ∧ Indirect i ∧ ∀ x ∈ l₁, isCtor m type x ≠ .ok true := by
  induction l with
  | nil => simp [search]
  | cons x l ih =>
    rw [search]
    obtain ⟨hx, hi⟩ | ⟨b, hx, hi⟩ := isCtor_cases m type x
    · rw [hx]
      exact iff_of_true rfl ⟨[], x, l, rfl, hi, by simp⟩
    · rw [hx]
      cases b with
      | true =>
        refine iff_of_false nofun ?_
        rintro ⟨l₁, i, l₂, heq, hind, hno⟩
        cases l₁ with
        | nil =>
          cases heq
          exact hi hind
        | cons y l₁ =>
          cases heq
          exact hno x List.mem_cons_self hx
      | false =>
        rw [ih]
        constructor
        · rintro ⟨l₁, i, l₂, rfl, hind, hno⟩
          refine ⟨x :: l₁, i, l₂, rfl, hind, fun z hz => ?_⟩
          rcases List.mem_cons.mp hz with rfl | hz
          · rw [hx]
            exact nofun
          · exact hno z hz
        · rintro ⟨l₁, i, l₂, heq, hind, hno⟩
          cases l₁ with
          | nil =>
            cases heq
            exact absurd hind hi
          | cons y l₁ =>
            cases heq
            exact ⟨l₁, i, l₂, rfl, hind, fun z hz => hno z (List.mem_cons_of_mem _ hz)⟩

/-- The begin label of a landing pad can be adjusted: neither the instruction in
front of it nor, where that is no call using the type, the first call behind it
and in front of the end label is an indirect call. -/
structure Unhindered (bs : List (List Inst)) (b e : Inst) (type : Ty) : Prop where
  prev : ∀ prev : Inst, prevInst bs b = some prev → ¬Indirect prev
  next : ∀ (prev : Inst) (passed : List Inst) (next : Inst) (rest : List (Option Inst)),
    prevInst bs b = some prev → isCallUsing prev type = .ok false →
    after bs b = passed.map some ++ some next :: rest → (∀ z ∈ passed, z.isCall = false ∧ z ≠ e) →
    ¬Indirect next

theorem scan_eq {stop : Inst → Bool} {passed : List Inst} {next : Inst} {rest : List (Option Inst)}
    (hpassed : ∀ z ∈ passed, stop z = false) (hnext : stop next = true) :
    scan stop (passed.map some ++ some next :: rest) = .inst next := by
  induction passed with
  | nil => exact if_pos hnext
  | cons x passed ih =>
    rw [List.map_cons, List.cons_append, scan,
      if_neg (by rw [hpassed x List.mem_cons_self]; exact Bool.false_ne_true)]
    exact ih fun z hz => hpassed z (List.mem_cons_of_mem _ hz)

/-- The loop behind the begin label ends at an indirect call if it comes to
one. -/
theorem scan_indirect {bs : List (List Inst)} {b e next : Inst} {passed : List Inst}
    {rest : List (Option Inst)} (hafter : after bs b = passed.map some ++ some next :: rest)
    (hpassed : ∀ z ∈ passed, z.isCall = false ∧ z ≠ e) (hnext : Indirect next) :
    scan (fun i => i.isCall || i == e) (after bs b) = .inst next := by
  rw [hafter]
  refine scan_eq (fun z hz => ?_) ?_
  · obtain ⟨hcall, hne⟩ := hpassed z hz
    rw [hcall, Bool.false_or, beq_eq_false_iff_ne]
    exact hne
  · rw [Inst.isCall, hnext]
    rfl

theorem moveBegin_global {bs : List (List Inst)} {b e : Inst} {type : Ty} :
    moveBegin bs b e type = .error .global ↔ ¬Unhindered bs b e type := by
  rw [moveBegin]
  cases hprev : prevInst bs b with
  | none =>
    refine iff_of_false nofun (not_not_intro ⟨?_, ?_⟩)
    · intro p hp
      rw [hprev] at hp
      cases hp
    · intro p passed next rest hp
      rw [hprev] at hp
      cases hp
  | some prev =>
    dsimp only
    obtain ⟨huses, hind⟩ | ⟨uses, huses, hind⟩ := isCallUsing_cases prev type
    · rw [huses]
      exact iff_of_true rfl fun h => h.prev prev hprev hind
    · have hprev' : ∀ p, prevInst bs b = some p → ¬Indirect p := by
        intro p hp
        rw [hprev] at hp
        cases hp
        exact hind
      rw [huses]
      cases uses with
      | true =>
        refine iff_of_false nofun (not_not_intro ⟨hprev', ?_⟩)
        intro p passed next rest hp hno
        rw [hprev] at hp
        cases hp
        rw [huses] at hno
        cases hno
      | false =>
        change moveOverCall bs b e type = _ ↔ _
        rw [moveOverCall]
        cases hscan : scan (fun i => i.isCall || i == e) (after bs b) with
        | inst next =>
          dsimp only
          obtain ⟨huses', hind'⟩ | ⟨uses', huses', hind'⟩ := isCallUsing_cases next type
          · rw [huses']
            obtain ⟨passed, rest, hafter, hpassed, -⟩ := scan_found hscan
            refine iff_of_true rfl fun h =>
              h.next prev passed next rest hprev huses hafter (fun z hz => ?_) hind'
            have hz' := hpassed z hz
            rw [Bool.or_eq_false_iff, beq_eq_false_iff_ne] at hz'
            exact hz'
          · rw [huses']
            refine iff_of_false (by cases uses' <;> exact nofun) (not_not_intro ⟨hprev', ?_⟩)
            intro _ passed next' rest _ _ hafter hpassed hind''
            have hscan' := scan_indirect hafter hpassed hind''
            rw [hscan] at hscan'
            cases hscan'
            exact hind' hind''
        | _ =>
          refine iff_of_false nofun (not_not_intro ⟨hprev', ?_⟩)
          intro _ passed next rest _ _ hafter hpassed hind'
          have hscan' := scan_indirect hafter hpassed hind'
          rw [hscan] at hscan'
          cases hscan'

theorem moveEnd_not_global (bs : List (List Inst)) (e : Inst) (f : Fn) :
    moveEnd bs e f ≠ .error .global := by
  rw [moveEnd]
  split
  · exact nofun
  · exact nofun
  · split
    · exact nofun
    · split <;> exact nofun

/-- The labels of a prepared landing pad can be moved as far as its begin label
is concerned. -/
def Prepared.Unhindered (p : Prepared) : Prop :=
  ∀ type b e, p.dropFun.params.head? = some type →
    findInst p.code.mf (·.syms.contains p.beginLabel) = some b →
    findInst p.code.mf (·.syms.contains p.endLabel) = some e →
      Pass.Unhindered p.code.mf.blocks b e type

theorem moveLabels_global {p : Prepared} : moveLabels p = .error .global ↔ ¬p.Unhindered := by
  rw [moveLabels, Prepared.Unhindered]
  cases htype : p.dropFun.params.head? with
  | none => exact iff_of_false nofun (not_not_intro fun _ _ _ ht => by cases ht)
  | some type =>
    cases hb : findInst p.code.mf (·.syms.contains p.beginLabel) with
    | none => exact iff_of_false nofun (not_not_intro fun _ _ _ _ hb => by cases hb)
    | some b =>
      cases he : findInst p.code.mf (·.syms.contains p.endLabel) with
      | none => exact iff_of_false nofun (not_not_intro fun _ _ _ _ _ he => by cases he)
      | some e =>
        dsimp only
        rw [bind_eq_error, moveBegin_global]
        constructor
        · rintro (h | ⟨bs, -, h⟩)
          · exact fun hall => h (hall type b e rfl rfl rfl)
          · rw [bind_eq_error] at h
            obtain h | ⟨bs', -, h⟩ := h
            · exact absurd h (moveEnd_not_global bs e p.dropFun)
            · cases h
        · intro h
          refine .inl fun hclear => h ?_
          rintro _ _ _ ⟨⟩ ⟨⟩ ⟨⟩
          exact hclear

theorem findArgument_not_global (dst : Nat → Option Reg) (l : List Inst) :
    findArgument dst l ≠ .error .global := by
  induction l with
  | nil => exact nofun
  | cons x l ih =>
    rw [findArgument]
    split
    · exact nofun
    · split
      · exact nofun
      · exact ih

theorem destroy_not_global (m : Module) (code : Code) (pad : Pad) (dtor : Fn) (ctor : Inst) :
    destroy m code pad dtor ctor ≠ .error .global := by
  rw [destroy]
  split
  · exact nofun
  · split
    · exact nofun
    · split
      · rename_i fault hfault
        rintro ⟨⟩
        exact findArgument_not_global _ _ hfault
      · split <;> exact nofun

theorem synthesise_global {m : Module} {code : Code} {pad : Pad} {type : Ty} {dtor : Fn} :
    synthesise m code pad type dtor = .error .global ↔
      search (isCtor m type) code.mf.insts = .error .global := by
  rw [synthesise]
  cases search (isCtor m type) code.mf.insts with
  | error fault => simp
  | ok ctor =>
    refine iff_of_false (fun h => ?_) nofun
    cases ctor with
    | none => cases h
    | some ctor =>
      cases hd : destroy m code pad dtor ctor with
      | error fault =>
        dsimp only at h
        rw [hd] at h
        cases h
        exact destroy_not_global m code pad dtor ctor hd
      | ok code' =>
        dsimp only at h
        rw [hd] at h
        cases h

/-- The type whose constructor the pass searches for when it comes to the
landing pad. -/
def searched (m : Module) (mf : MachineFunction) (pad : Pad) : Option Ty :=
  if mf.blocks.length ≤ pad.block ∨ mf.blocks.length = 1 then none else
    (missing m mf pad).map Prod.fst

/-- No indirect call is in the way when the landing pad is processed: none in
front of the constructor that is searched for, and none where the begin label is
adjusted. -/
structure Clear (m : Module) (code : Code) (pad : Pad) : Prop where
  search : ∀ type, searched m code.mf pad = some type → ∀ l i l', code.mf.insts = l ++ i :: l' →
    Indirect i → ∃ x ∈ l, isCtor m type x = .ok true
  labels : ∀ p, prepare m code pad = .ok (some p) → p.Unhindered

theorem missing_of_dropCall {m : Module} {mf : MachineFunction} {pad : Pad} {drop : Inst}
    (h : dropCall mf pad = some drop) : missing m mf pad = none := by
  rw [missing, h]

theorem prepare_global {m : Module} {code : Code} {pad : Pad} :
    prepare m code pad = .error .global ↔
    ∃ type, searched m code.mf pad = some type ∧
      search (isCtor m type) code.mf.insts = .error .global := by
  rw [prepare, searched]
  split
  · exact iff_of_false nofun (by simp)
  · cases hdrop : dropCall code.mf pad with
    | some drop =>
      obtain ⟨f, hf⟩ := dropCall_call hdrop
      rw [Option.bind_some, hf, missing_of_dropCall hdrop]
      exact iff_of_false nofun (by simp)
    | none =>
      rw [Option.bind_none]
      dsimp only
      cases hmissing : missing m code.mf pad with
      | none => exact iff_of_false nofun (by simp)
      | some t =>
        dsimp only
        rw [bind_eq_error, synthesise_global]
        constructor
        · rintro (h | ⟨r, -, h⟩)
          · exact ⟨t.1, rfl, h⟩
          · cases h
        · rintro ⟨type, ht, h⟩
          cases ht
          exact .inl h

theorem processPad_global {m : Module} {code : Code} {pad : Pad} :
    processPad m code pad = .error .global ↔ ¬Clear m code pad := by
  rw [processPad, bind_eq_error, prepare_global]
  constructor
  · rintro (⟨type, htype, h⟩ | ⟨p, hp, h⟩) hclear
    · obtain ⟨l₁, i, l₂, hl, hind, hno⟩ := search_global.mp h
      obtain ⟨x, hx, hctor⟩ := hclear.search type htype l₁ i l₂ hl hind
      exact hno x hx hctor
    · cases p with
      | none => cases h
      | some p => exact moveLabels_global.mp h (hclear.labels p hp)
  · intro h
    by_contra hnone
    rw [not_or] at hnone
    refine h ⟨fun type htype l i l' hl hind => ?_, fun p hp => ?_⟩
    · by_contra hno
      exact hnone.1 ⟨type, htype, search_global.mpr
        ⟨l, i, l', hl, hind, fun x hx hctor => hno ⟨x, hx, hctor⟩⟩⟩
    · by_contra hp'
      exact hnone.2 ⟨some p, hp, moveLabels_global.mpr hp'⟩

theorem findFirstPad_not_global (mf : MachineFunction) (pads : List Pad) :
    findFirstPad mf pads ≠ .error .global := by
  induction pads with
  | nil => exact nofun
  | cons pad pads ih =>
    rw [findFirstPad]
    split
    · split
      · exact nofun
      · exact ih
    · exact nofun

theorem findFrame_not_global (bs : List (List Inst)) (k : Nat) :
    findFrame bs k ≠ .error .global := by
  induction k with
  | zero => exact nofun
  | succ k ih =>
    rw [findFrame]
    split
    · split
      · exact nofun
      · exact ih
    · exact nofun

theorem findOffset_not_global (mf : MachineFunction) : findOffset mf ≠ .error .global := by
  rw [findOffset]
  split
  · rename_i fault hfault
    rintro ⟨⟩
    exact findFirstPad_not_global mf mf.pads hfault
  · exact nofun
  · exact nofun
  · exact findFrame_not_global _ _

theorem addEpilogue_not_global (code : Code) (name : String) :
    addEpilogue code name ≠ .error .global := by
  rw [addEpilogue]
  split
  · exact nofun
  · split
    · rename_i fault hfault
      rintro ⟨⟩
      exact findOffset_not_global code.mf hfault
    · split <;> exact nofun

/-- The function when the pass comes to its landing pads. -/
def started (epilogue : Option String) (code : Code) : Except Fault Code :=
  epilogue.elim (pure code) (addEpilogue code)

/-- **The pass asks only globals for their global exactly when no indirect call
is in the way**: neither in a search for a constructor nor next to a begin label,
at any of the landing pads it comes to. -/
theorem globals_read_iff (m : Module) (epilogue : Option String) (code : Code) :
    runOnMachineFunction m epilogue code ≠ .error .global ↔
      ∀ code₁, started epilogue code = .ok code₁ → namesDrop code₁.mf.name = false →
        ∀ pre pad post c, code₁.mf.pads = pre ++ pad :: post → processPads m code₁ pre = .ok c →
          Clear m c pad := by
  have hstart : started epilogue code ≠ .error .global := by
    cases epilogue with
    | none => exact nofun
    | some name => exact addEpilogue_not_global code name
  have hrun : runOnMachineFunction m epilogue code = .error .global ↔
      ∃ code₁, started epilogue code = .ok code₁ ∧ namesDrop code₁.mf.name = false ∧
        processPads m code₁ code₁.mf.pads = .error .global := by
    rw [runOnMachineFunction, bind_eq_error]
    constructor
    · rintro (h | ⟨code₁, h₁, h⟩)
      · exact absurd h hstart
      · split at h
        · cases h
        · rename_i hname
          exact ⟨code₁, h₁, Bool.not_eq_true _ ▸ hname, h⟩
    · rintro ⟨code₁, h₁, hname, h⟩
      refine .inr ⟨code₁, h₁, ?_⟩
      rw [hname]
      exact h
  rw [ne_eq, hrun]
  constructor
  · intro h code₁ h₁ hname pre pad post c hpads hpre
    by_contra hclear
    exact h ⟨code₁, h₁, hname, foldlM_eq_error.mpr
      ⟨pre, pad, post, c, hpads, hpre, processPad_global.mpr hclear⟩⟩
  · rintro h ⟨code₁, h₁, hname, hfault⟩
    obtain ⟨pre, pad, post, c, hpads, hpre, hpad⟩ := foldlM_eq_error.mp hfault
    exact processPad_global.mp hpad (h code₁ h₁ hname pre pad post c hpads hpre)

/-- A function that calls through a register directly in front of its protected
range, and drops a value in its landing pad. -/
def caller : Code where
  mf := {
    name := "caller"
    blocks :=
      [[⟨0, none, false, false, false, []⟩, ⟨1, some none, false, false, false, []⟩, .label 2 2,
        ⟨3, some (some ⟨"make", 7, []⟩), false, false, false, []⟩, .label 4 4,
        ⟨5, none, true, false, false, []⟩],
       [⟨6, none, false, false, false, []⟩,
        ⟨7, some (some ⟨"drop_in_place", 0, [7]⟩), false, false, false, []⟩]]
    pads := [⟨1, [2], [4]⟩]
    fresh := 8 }
  dst _ := none
  isMoveReg _ := false

/-- The module of `caller`. -/
def callerModule : Module := ⟨⟨"caller", 0, []⟩, [], fun _ _ => none, fun _ => none⟩

/-- The register is asked for its global. -/
theorem register_read_as_global : runOnMachineFunction callerModule none caller =
      .error .global := by
  rfl

end Inger.L6.Pass
