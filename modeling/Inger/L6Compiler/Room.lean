import Inger.L6Compiler.Pass
import Inger.L6Compiler.Widen
import Mathlib.Data.List.Pairwise

/-!
# Labels at the edge of a block (`IngerCancel`)

Three shapes make the pass fail on a landing pad whose labels are in order: the
begin label is the first instruction of its block, so that there is nothing in
front of it to look at; a CFI instruction stands directly behind the end label,
so that the instruction in front of which the label is to be put back is the label
itself; or the first instruction that stops the end label is a CFI instruction at
the start of a block. A landing pad without labels gets a begin label of the
first kind.

`Room` is their absence (and that of indirect calls next to the begin label, see
`Pass`). `label_moves_iff` says that a landing pad with a drop call is processed
to the end exactly if there is room for it when the pass comes to it, whatever
the pass has done for the landing pads before: it adds instructions, those of a
synthesised destructor call included, and moves labels, but not those of a
landing pad that it has not come to (`processPads_spares`).
-/
namespace Inger.L6.Pass

open Layout Cancel

/-! ## Functions in order -/

/-- What LLVM guarantees of a function and its labels: an EH label has a symbol
and no register for an operand. -/
structure Sound (code : Code) : Prop where
  wf : code.mf.WellFormed
  label : ∀ x ∈ code.mf.insts, x.isLabel = true → code.dst x.id = none ∧ code.isMoveReg x.id = false
  fresh : ∀ n, code.mf.fresh ≤ n → code.dst n = none ∧ code.isMoveReg n = false

/-- The landing pad has no labels, or its begin label stands in front of its end
label in one block. -/
def Paired (mf : MachineFunction) (pad : Pad) : Prop :=
  pad.beginLabels = [] ∧ pad.endLabels = [] ∨
    ∃ bl el b e, pad.beginLabels.head? = some bl ∧ pad.endLabels.head? = some el ∧ bl ∈ b.syms ∧
      el ∈ e.syms ∧ ∃ block ∈ mf.blocks, Before block b e

def First (bs : List (List Inst)) (x : Inst) : Prop := ∃ block ∈ bs, block.head? = some x

/-- `x` stands directly behind `y`. -/
def Adjoins (bs : List (List Inst)) (y x : Inst) : Prop := ∃ block ∈ bs, [y, x] <:+: block

/-- Something behind the end label stops it, and if that is a CFI instruction, it
is neither the first of its block nor directly behind the label. -/
def Stopped (bs : List (List Inst)) (e : Inst) (f : Fn) : Prop :=
  ∃ (passed : List Inst) (next : Inst) (rest : List (Option Inst)),
    after bs e = passed.map some ++ some next :: rest ∧ (∀ z ∈ passed, stops f z = false) ∧
      stops f next = true ∧ (next.isCFI = true → ¬First bs next ∧ ¬Adjoins bs e next)

/-- A landing pad with a drop call can be processed. -/
structure Room (mf : MachineFunction) (pad : Pad) (b e : Inst) (f : Fn) (type : Ty) : Prop where
  blocks : mf.blocks.length ≠ 1
  bounds : ∃ bl el, pad.beginLabels.head? = some bl ∧ pad.endLabels.head? = some el ∧
    Bounds mf (bl, el) b e
  dropped : dropped mf pad = some (f, type)
  notFirst : ¬First mf.blocks b
  unhindered : Unhindered mf.blocks b e type
  stopped : Stopped mf.blocks e f

/-! ## The blocks around a landing pad's labels -/

theorem prevInst_append {pre bs : List (List Inst)} {x : Inst} (hx : x ∉ pre.flatten) :
    prevInst (pre ++ bs) x = prevInst bs x := by
  induction pre with
  | nil => rfl
  | cons block pre ih =>
    rw [List.flatten_cons, List.mem_append, not_or] at hx
    rw [List.cons_append, prevInst, if_neg hx.1, ih hx.2]

theorem takeWhile_ne {l l' : List Inst} {x : Inst} (hx : x ∉ l) :
    (l ++ l').takeWhile (· ≠ x) = l ++ l'.takeWhile (· ≠ x) := by
  refine List.takeWhile_append_of_pos fun z hz => decide_eq_true ?_
  rintro rfl
  exact hx hz

/-- What stands in front of an instruction. -/
theorem prevInst_eq {pre post : List (List Inst)} {l l' : List Inst} {x : Inst}
    (hnd : (pre ++ (l ++ x :: l') :: post).flatten.Nodup) :
    prevInst (pre ++ (l ++ x :: l') :: post) x = l.getLast? := by
  have hcut : (pre ++ (l ++ x :: l') :: post).flatten = (pre.flatten ++ l) ++ x ::
      (l' ++ post.flatten) := by simp
  have hnot : x ∉ pre.flatten ++ l := by
    rw [hcut, List.nodup_append] at hnd
    exact fun h => hnd.2.2 x h x List.mem_cons_self rfl
  rw [List.mem_append, not_or] at hnot
  rw [prevInst_append hnot.1, prevInst, if_pos (by simp), takeWhile_ne hnot.2,
    List.takeWhile_cons_of_neg (by simp), List.append_nil]

section
variable {bs : List (List Inst)} {x y : Inst} (hnd : bs.flatten.Nodup)
include hnd

theorem block_unique {block block' : List Inst} (h : block ∈ bs) (h' : block' ∈ bs) (hx : x ∈ block)
    (hx' : x ∈ block') : block = block' := by
  have : Std.Symm (@List.Disjoint Inst) := ⟨fun _ _ h _ hy hx => h hx hy⟩
  by_contra hne
  exact (List.nodup_flatten.mp hnd).2.forall h h' hne hx hx'

theorem prevInst_none_iff (hx : x ∈ bs.flatten) : prevInst bs x = none ↔ First bs x := by
  obtain ⟨block, hblock, hmem⟩ := List.mem_flatten.mp hx
  obtain ⟨pre, post, rfl⟩ := List.append_of_mem hblock
  obtain ⟨l, l', rfl⟩ := List.append_of_mem hmem
  rw [prevInst_eq hnd, List.getLast?_eq_none_iff]
  constructor
  · rintro rfl
    exact ⟨_, hblock, rfl⟩
  · rintro ⟨block', hblock', hhead⟩
    cases block_unique hnd hblock' hblock (List.mem_of_mem_head? hhead) hmem
    cases l with
    | nil => rfl
    | cons z l =>
      cases hhead
      have hnot := (List.nodup_cons.mp ((List.nodup_flatten.mp hnd).1 _ hblock)).1
      exact absurd (by simp) hnot

theorem prevInst_some_iff (hx : x ∈ bs.flatten) : prevInst bs x = some y ↔ Adjoins bs y x := by
  obtain ⟨block, hblock, hmem⟩ := List.mem_flatten.mp hx
  obtain ⟨pre, post, rfl⟩ := List.append_of_mem hblock
  obtain ⟨l, l', rfl⟩ := List.append_of_mem hmem
  rw [prevInst_eq hnd, List.getLast?_eq_some_iff]
  constructor
  · rintro ⟨l₀, rfl⟩
    exact ⟨_, hblock, l₀, l', by simp⟩
  · rintro ⟨block', hblock', l₁, l₂, hcut⟩
    have hcut' : block' = (l₁ ++ [y]) ++ x :: l₂ := by rw [← hcut]; simp
    cases block_unique hnd hblock' hblock (by rw [hcut']; simp) hmem
    have hblocknd := (List.nodup_flatten.mp hnd).1 _ hblock
    exact ⟨l₁, (cut_unique hblocknd hcut').1⟩

/-- What stands in front of a CFI instruction is there and is not `y`. -/
theorem prevInst_other_iff (hx : x ∈ bs.flatten) :
    (∃ pos, prevInst bs x = some pos ∧ pos ≠ y) ↔ ¬First bs x ∧ ¬Adjoins bs y x := by
  rw [← prevInst_none_iff hnd hx, ← prevInst_some_iff hnd hx]
  cases prevInst bs x with
  | none => simp
  | some pos => simp

omit hnd in
theorem mem_behind (hx : x ∈ bs.flatten) (hy : some y ∈ after bs x) : y ∈ bs.flatten := by
  obtain ⟨l, hcut⟩ := flatten_cut hx
  rw [hcut]
  exact List.mem_append_right _ (List.mem_cons_of_mem _ (List.reduceOption_mem_iff.mpr hy))

end

section
variable {pre post : List (List Inst)} {front mid back : List Inst} {b e x : Inst} {f : Fn}
  {type : Ty}

/-- What stands in front of an instruction behind `e` does not depend on what
stands in front of `e`. -/
theorem prevInst_behind (hnd : (pre ++ (front ++ e :: back) :: post).flatten.Nodup)
    (hx : x ∈ back ++ post.flatten) :
    prevInst (pre ++ (front ++ e :: back) :: post) x =
      if x ∈ back then (e :: back.takeWhile (· ≠ x)).getLast? else prevInst post x := by
  have hcut : (pre ++ (front ++ e :: back) :: post).flatten =
      (pre.flatten ++ front ++ [e]) ++ (back ++ post.flatten) := by simp
  rw [hcut, List.nodup_append] at hnd
  have hnot : x ∉ pre.flatten ++ front ++ [e] := fun hmem => hnd.2.2 x hmem x hx rfl
  rw [List.mem_append, List.mem_append, List.mem_singleton] at hnot
  have hpre : x ∉ pre.flatten := fun h => hnot (.inl (.inl h))
  have hfront : x ∉ front := fun h => hnot (.inl (.inr h))
  have hxe : x ≠ e := fun h => hnot (.inr h)
  have hmem : x ∈ front ++ e :: back ↔ x ∈ back := by simp [hfront, hxe]
  rw [prevInst_append hpre, prevInst]
  simp only [hmem]
  split
  · have hfe : x ∉ front ++ [e] := by simp [hfront, hxe]
    rw [List.append_cons, takeWhile_ne hfe, List.append_assoc, List.singleton_append,
      List.getLast?_append, List.getLast?_cons, Option.some_or]
  · rfl

/-- Blocks that a move does not concern. -/
theorem map_move_of_notMem {bs : List (List Inst)} {y : Inst} {f₁ f₂ : List Inst}
    (hx : x ∉ bs.flatten) (hy : y ∉ bs.flatten) :
    (bs.map (remove x)).map (splice y f₁ f₂) = bs := by
  rw [List.map_map]
  refine (List.map_congr_left fun block hblock => ?_).trans (List.map_id bs)
  have hx' : x ∉ block := fun h => hx (List.mem_flatten_of_mem hblock h)
  have hy' : y ∉ block := fun h => hy (List.mem_flatten_of_mem hblock h)
  rw [Function.comp_apply, remove_of_notMem hx', splice_of_notMem hy', id]

/-- Where a label is moved within its block. -/
theorem move_block {y : Inst} {f₁ f₂ block block' : List Inst}
    (hnd : (pre ++ block :: post).flatten.Nodup) (hx : x ∈ block) (hy : y ∈ block)
    (hblock : splice y f₁ f₂ (remove x block) = block') :
    ((pre ++ block :: post).map (remove x)).map (splice y f₁ f₂) = pre ++ block' :: post := by
  have hother : ∀ z ∈ block, z ∉ pre.flatten ∧ z ∉ post.flatten := by
    rw [List.flatten_append, List.flatten_cons, List.nodup_append, List.nodup_append] at hnd
    intro z hz
    exact ⟨fun h => hnd.2.2 z h z (List.mem_append_left _ hz) rfl,
      fun h => hnd.2.1.2.2 z hz z h rfl⟩
  rw [List.map_append, List.map_append, map_move_of_notMem (hother x hx).1 (hother y hy).1,
    List.map_cons, List.map_cons, map_move_of_notMem (hother x hx).2 (hother y hy).2, hblock]

/-- The loop behind the begin label does not pass the end label. -/
theorem scan_range {next : Inst} {l : List (Option Inst)} (hnext : next ≠ e)
    (h : scan (fun i => i.isCall || i == e) (mid.map some ++ some e :: l) = .inst next) :
    next ∈ mid := by
  induction mid with
  | nil =>
    rw [List.map_nil, List.nil_append, scan, if_pos (by simp)] at h
    cases h
    exact absurd rfl hnext
  | cons z mid ih =>
    rw [List.map_cons, List.cons_append, scan] at h
    split at h
    · cases h
      exact List.mem_cons_self
    · exact List.mem_cons_of_mem z (ih h)

theorem scan_not_wild {l : List (Option Inst)} :
    scan (fun i => i.isCall || i == e) (mid.map some ++ some e :: l) ≠ .wild := by
  induction mid with
  | nil =>
    rw [List.map_nil, List.nil_append, scan, if_pos (by simp)]
    exact Found.noConfusion
  | cons z mid ih =>
    rw [List.map_cons, List.cons_append, scan]
    split
    · exact Found.noConfusion
    · exact ih

/-- The begin label is moved in front of the end label, if at all. -/
theorem moveBegin_shape {bs : List (List Inst)} (he : e.isCall = false)
    (hnd : (pre ++ (front ++ b :: (mid ++ e :: back)) :: post).flatten.Nodup)
    (h : moveBegin (pre ++ (front ++ b :: (mid ++ e :: back)) :: post) b e type = .ok bs) :
    ∃ front', bs = pre ++ (front' ++ e :: back) :: post := by
  have same : ∃ front', pre ++ (front ++ b :: (mid ++ e :: back)) :: post = pre ++
      (front' ++ e :: back) :: post :=
    ⟨front ++ b :: mid, by simp⟩
  rw [moveBegin] at h
  split at h
  · cases h
  · rename_i prev hprev
    obtain ⟨uses, -, h⟩ := bind_eq_ok.mp h
    cases uses with
    | true =>
      cases h
      exact same
    | false =>
      change moveOverCall _ b e type = .ok bs at h
      rw [moveOverCall, after_eq hnd] at h
      split at h
      · cases h
        exact same
      · cases h
      · rename_i next hscan
        obtain ⟨uses, huses, h⟩ := bind_eq_ok.mp h
        cases uses with
        | false =>
          cases h
          exact same
        | true =>
          cases h
          -- The call is in front of the end label, in the same block.
          have hne : next ≠ e := by
            rintro rfl
            rw [isCallUsing, he] at huses
            cases huses
          rw [List.map_append, List.map_cons, List.append_assoc, List.cons_append] at hscan
          obtain ⟨m₁, m₂, rfl⟩ := List.append_of_mem (scan_range hne hscan)
          refine ⟨front ++ m₁ ++ next :: b :: m₂, move_block hnd (by simp) (by simp) ?_⟩
          have hblock : (front ++ b :: (m₁ ++ next :: m₂ ++ e :: back)).Nodup := by
            rw [List.flatten_append, List.flatten_cons, List.nodup_append, List.nodup_append] at hnd
            exact hnd.2.1.1
          have hcut : front ++ (m₁ ++ next :: m₂ ++ e :: back) = (front ++ m₁) ++ next ::
              (m₂ ++ e :: back) := by
            simp
          rw [remove_eq hblock, hcut, splice_eq]
          · simp
          · rw [← hcut]
            exact (List.nodup_cons.mp (List.nodup_middle.mp hblock)).2

theorem moveBegin_iff (hnd : (pre ++ (front ++ b :: (mid ++ e :: back)) :: post).flatten.Nodup) :
    (∃ bs, moveBegin (pre ++ (front ++ b :: (mid ++ e :: back)) :: post) b e type = .ok bs) ↔
      ¬First (pre ++ (front ++ b :: (mid ++ e :: back)) :: post) b ∧
        Unhindered (pre ++ (front ++ b :: (mid ++ e :: back)) :: post) b e type := by
  have hafter := after_eq hnd
  rw [← prevInst_none_iff hnd (by simp)]
  generalize pre ++ (front ++ b :: (mid ++ e :: back)) :: post = bs at hafter ⊢
  constructor
  · rintro ⟨bs', h⟩
    constructor
    · rw [moveBegin] at h
      split at h
      · cases h
      · rename_i prev hprev
        rw [hprev]
        exact Option.some_ne_none prev
    · by_contra hno
      rw [moveBegin_global.mpr hno] at h
      cases h
  · rintro ⟨hfirst, hclear⟩
    obtain ⟨prev, hprev⟩ := Option.ne_none_iff_exists'.mp hfirst
    have hglobal : moveBegin bs b e type ≠ .error .global := fun h => moveBegin_global.mp h hclear
    rw [moveBegin, hprev] at hglobal ⊢
    dsimp only at hglobal ⊢
    obtain ⟨huses, -⟩ | ⟨uses, huses, -⟩ := isCallUsing_cases prev type
    · rw [huses] at hglobal
      exact absurd rfl hglobal
    · rw [huses] at hglobal ⊢
      cases uses with
      | true => exact ⟨bs, rfl⟩
      | false =>
        change moveOverCall bs b e type ≠ _ at hglobal
        change ∃ bs', moveOverCall bs b e type = .ok bs'
        rw [moveOverCall] at hglobal ⊢
        cases hscan : scan (fun i => i.isCall || i == e) (after bs b) with
        | none => exact ⟨bs, rfl⟩
        | wild =>
          rw [hafter, List.map_append, List.map_cons, List.append_assoc, List.cons_append] at hscan
          exact absurd hscan scan_not_wild
        | inst next =>
          rw [hscan] at hglobal
          dsimp only at hglobal ⊢
          obtain ⟨huses', -⟩ | ⟨uses', huses', -⟩ := isCallUsing_cases next type
          · rw [huses'] at hglobal
            exact absurd rfl hglobal
          · rw [huses']
            cases uses' with
            | true => exact ⟨_, rfl⟩
            | false => exact ⟨_, rfl⟩

theorem moveEnd_iff {bs : List (List Inst)} (hnd : bs.flatten.Nodup) (he : e ∈ bs.flatten) :
    (∃ bs', moveEnd bs e f = .ok bs') ↔ Stopped bs e f := by
  rw [moveEnd]
  constructor
  · rintro ⟨bs', h⟩
    split at h
    · cases h
    · cases h
    · rename_i next hscan
      obtain ⟨passed, rest, hafter, hpassed, hnext⟩ := scan_found hscan
      refine ⟨passed, next, rest, hafter, hpassed, hnext, fun hcfi => ?_⟩
      rw [← prevInst_other_iff hnd (mem_behind he (by rw [hafter]; simp))]
      rw [if_pos hcfi] at h
      split at h
      · cases h
      · rename_i pos hpos
        split at h
        · cases h
        · rename_i hne
          exact ⟨pos, hpos, hne⟩
  · rintro ⟨passed, next, rest, hafter, hpassed, hnext, hcfi⟩
    have hne : next ≠ e := by
      obtain ⟨l, hcut⟩ := flatten_cut he
      rw [hafter, List.reduceOption_append, List.reduceOption_cons_of_some] at hcut
      rw [hcut] at hnd
      have hnot := (List.nodup_cons.mp (List.nodup_append.mp hnd).2.1).1
      rintro rfl
      exact hnot (by simp)
    rw [hafter, scan_eq hpassed hnext]
    dsimp only
    by_cases h : next.isCFI = true
    · obtain ⟨pos, hpos, hpe⟩ := (prevInst_other_iff hnd (mem_behind he (by rw [hafter]; simp))).mpr
        (hcfi h)
      rw [if_pos h, hpos]
      dsimp only
      rw [if_neg hpe]
      exact ⟨_, rfl⟩
    · rw [if_neg h]
      dsimp only
      rw [if_neg hne]
      exact ⟨_, rfl⟩

/-- What stands in front of the end label does not matter to it. -/
theorem stopped_congr {front' : List Inst}
    (hnd : (pre ++ (front ++ e :: back) :: post).flatten.Nodup)
    (hnd' : (pre ++ (front' ++ e :: back) :: post).flatten.Nodup)
    (h : Stopped (pre ++ (front ++ e :: back) :: post) e f) :
    Stopped (pre ++ (front' ++ e :: back) :: post) e f := by
  obtain ⟨passed, next, rest, hafter, hpassed, hnext, hcfi⟩ := h
  rw [after_eq hnd] at hafter
  have hmem : next ∈ back ++ post.flatten := by
    have hsome : some next ∈ back.map some ++ places post := by rw [hafter]; simp
    rw [← places_reduce post]
    simpa [List.reduceOption_mem_iff] using hsome
  have hin : next ∈ (pre ++ (front ++ e :: back) :: post).flatten :=
    mem_behind (x := e) (by simp) (by rw [after_eq hnd, hafter]; simp)
  have hin' : next ∈ (pre ++ (front' ++ e :: back) :: post).flatten :=
    mem_behind (x := e) (by simp) (by rw [after_eq hnd', hafter]; simp)
  rw [← prevInst_other_iff hnd hin, prevInst_behind hnd hmem, ← prevInst_behind hnd' hmem,
    prevInst_other_iff hnd' hin'] at hcfi
  exact ⟨passed, next, rest, (after_eq hnd').trans hafter, hpassed, hnext, hcfi⟩

end

/-! ## One landing pad -/

section
variable {m : Module} {code : Code} {pad : Pad}

/-- The begin label of a landing pad without labels is put in front of
everything. -/
theorem labelled_front {mf : MachineFunction} (hmf : mf.blocks ≠ []) (hb : pad.beginLabels = []) :
    (labelled mf pad).2.1 = mf.fresh ∧
      ∃ block rest, (labelled mf pad).1.blocks = (.label mf.fresh mf.fresh :: block) :: rest := by
  obtain ⟨block, rest, hblocks⟩ := List.exists_cons_of_ne_nil hmf
  rw [labelled, hb, getOrCreateLabel]
  refine ⟨rfl, ?_⟩
  dsimp only
  rw [hblocks, List.modifyHead_cons]
  cases pad.endLabels with
  | cons l ls => exact ⟨_, _, rfl⟩
  | nil => cases endBlock mf pad <;> exact ⟨_, _, rfl⟩

theorem prevInst_first (b : Inst) (block : List Inst) (rest : List (List Inst)) :
    prevInst ((b :: block) :: rest) b = none := by
  rw [prevInst, if_pos List.mem_cons_self, List.takeWhile_cons_of_neg (by simp)]
  rfl

/-- Both moves of a landing pad. -/
def Moves (bs : List (List Inst)) (b e : Inst) (f : Fn) (type : Ty) : Prop :=
  ∃ bs₁ bs₂, moveBegin bs b e type = .ok bs₁ ∧ moveEnd bs₁ e f = .ok bs₂

theorem moveLabels_iff {bl el : Sym} {f : Fn} :
    (∃ code', moveLabels ⟨code, bl, el, f⟩ = .ok code') ↔
    ∃ b e type, Bounds code.mf (bl, el) b e ∧ f.params.head? = some type ∧
      Moves code.mf.blocks b e f type := by
  rw [moveLabels]
  constructor
  · rintro ⟨code', h⟩
    split at h
    · cases h
    · rename_i type htype
      split at h
      · rename_i b e hb he
        obtain ⟨bs₁, hbegin, h⟩ := bind_eq_ok.mp h
        obtain ⟨bs₂, hend, -⟩ := bind_eq_ok.mp h
        exact ⟨b, e, type, ⟨hb, he⟩, htype, bs₁, bs₂, hbegin, hend⟩
      · cases h
  · rintro ⟨b, e, type, hbounds, htype, bs₁, bs₂, hbegin, hend⟩
    dsimp only at hbounds ⊢
    rw [htype, hbounds.first, hbounds.last]
    dsimp only
    rw [hbegin]
    refine ⟨{ code with mf := { code.mf with blocks := bs₂ } }, bind_eq_ok.mpr ⟨bs₁, rfl, ?_⟩⟩
    exact bind_eq_ok.mpr ⟨bs₂, hend, rfl⟩

/-- The pass goes on with the labels of a landing pad that has a drop call. -/
theorem processPad_drop {drop : Inst} {f : Fn} (hdrop : dropCall code.mf pad = some drop)
    (hf : drop.call = some (some f)) (hlen : code.mf.blocks.length ≠ 1) :
    processPad m code pad = moveLabels ⟨{ code with mf := (labelled code.mf pad).1 },
      (labelled code.mf pad).2.1, (labelled code.mf pad).2.2, f⟩ := by
  have hblock : pad.block < code.mf.blocks.length := by
    obtain ⟨block, hblock, -⟩ := Option.bind_eq_some_iff.mp hdrop
    exact (List.getElem?_eq_some_iff.mp hblock).1
  rw [processPad, prepare, if_neg (by omega), hdrop, Option.bind_some, hf]
  rfl

theorem moves_iff {bs : List (List Inst)} {b e : Inst} {f : Fn} {type : Ty} (hnd : bs.flatten.Nodup)
    (hbe : ∃ block ∈ bs, Before block b e) (he : e.isCall = false) :
    Moves bs b e f type ↔ ¬First bs b ∧ Unhindered bs b e type ∧ Stopped bs e f := by
  obtain ⟨block, hblock, l₁, l₂, rfl, hb₁, he₂⟩ := hbe
  obtain ⟨pre, post, rfl⟩ := List.append_of_mem hblock
  obtain ⟨front, m₁, rfl⟩ := List.append_of_mem hb₁
  obtain ⟨m₂, back, rfl⟩ := List.append_of_mem he₂
  have hshape : front ++ b :: m₁ ++ (m₂ ++ e :: back) = front ++ b :: (m₁ ++ m₂ ++ e :: back) := by
    simp
  rw [hshape] at hnd ⊢
  -- The first move leaves alone what the second one depends on.
  have hcut : front ++ b :: (m₁ ++ m₂ ++ e :: back) = (front ++ b :: (m₁ ++ m₂)) ++ e :: back := by
    simp
  have hmem : b ∈ (pre ++ (front ++ b :: (m₁ ++ m₂ ++ e :: back)) :: post).flatten := by simp
  have hstopped : ∀ bs₁, moveBegin (pre ++ (front ++ b :: (m₁ ++ m₂ ++ e :: back)) :: post) b e
      type = .ok bs₁ →
      ((∃ bs₂, moveEnd bs₁ e f = .ok bs₂) ↔
        Stopped (pre ++ (front ++ b :: (m₁ ++ m₂ ++ e :: back)) :: post) e f) := by
    intro bs₁ h
    obtain ⟨front', rfl⟩ := moveBegin_shape he hnd h
    have hnd₁ : (pre ++ (front' ++ e :: back) :: post).flatten.Nodup := by
      have h' := congrArg Except.toOption h
      rw [moveBegin_toOption] at h'
      rcases Cancel.moveBegin_cases hnd hmem h' with heq | ⟨-, hshifted, -⟩
      · rw [heq]
        exact hnd
      · exact hshifted.nodup hnd
    rw [moveEnd_iff hnd₁ (by simp), hcut]
    rw [hcut] at hnd
    exact ⟨stopped_congr hnd₁ hnd, stopped_congr hnd hnd₁⟩
  rw [← and_assoc, ← moveBegin_iff hnd]
  constructor
  · rintro ⟨bs₁, bs₂, hbegin, hend⟩
    exact ⟨⟨bs₁, hbegin⟩, (hstopped bs₁ hbegin).mp ⟨bs₂, hend⟩⟩
  · rintro ⟨⟨bs₁, hbegin⟩, hstop⟩
    obtain ⟨bs₂, hend⟩ := (hstopped bs₁ hbegin).mpr hstop
    exact ⟨bs₁, bs₂, hbegin, hend⟩

theorem labelled_pair {mf : MachineFunction} {bl el : Sym} (hb : pad.beginLabels.head? = some bl)
    (he : pad.endLabels.head? = some el) : labelled mf pad = (mf, bl, el) := by
  obtain ⟨bs, hbs⟩ := List.head?_eq_some_iff.mp hb
  obtain ⟨es, hes⟩ := List.head?_eq_some_iff.mp he
  rw [labelled, hbs, hes]
  rfl

theorem processPad_iff (hwf : code.mf.WellFormed) (hpad : pad ∈ code.mf.pads)
    (hpaired : Paired code.mf pad) (hdrop : (dropCall code.mf pad).isSome = true) :
    (∃ code', processPad m code pad = .ok code') ↔ ∃ b e f type, Room code.mf pad b e f type := by
  obtain ⟨drop, hdrop⟩ := Option.isSome_iff_exists.mp hdrop
  obtain ⟨f, hf⟩ := dropCall_call hdrop
  have hdropped : dropped code.mf pad = f.params.head?.map fun type => (f, type) := by
    rw [dropped, hdrop, Option.bind_some, hf]
  by_cases hlen : code.mf.blocks.length = 1
  · refine iff_of_false ?_ ?_
    · rintro ⟨code', h⟩
      rw [processPad, prepare, if_pos (.inr hlen)] at h
      cases h
    · rintro ⟨_, _, _, _, h⟩
      exact h.blocks hlen
  rw [processPad_drop hdrop hf hlen, moveLabels_iff]
  rcases hpaired with ⟨hb, -⟩ | ⟨bl, el, b, e, hb, he, hbs, hes, hbefore⟩
  · refine iff_of_false ?_ ?_
    · rintro ⟨b, e, type, hbounds, -, bs₁, bs₂, hbegin, -⟩
      have hmf : code.mf.blocks ≠ [] := by
        intro hnil
        rw [dropCall, hnil] at hdrop
        cases hdrop
      obtain ⟨hsym, block, rest, hblocks⟩ := labelled_front hmf hb
      have hfirst := hbounds.first
      rw [hsym, findInst, MachineFunction.insts, hblocks, List.flatten_cons, List.cons_append,
        List.find?_cons_of_pos (by simp [Inst.label])] at hfirst
      cases hfirst
      rw [hblocks, moveBegin, prevInst_first] at hbegin
      cases hbegin
    · rintro ⟨_, _, _, _, h⟩
      obtain ⟨bl, el, hbl, -⟩ := h.bounds
      rw [hb] at hbl
      cases hbl
  · obtain ⟨block, hblock, hbefore'⟩ := hbefore
    have hmb : b ∈ code.mf.insts := List.mem_flatten_of_mem hblock hbefore'.mem.1
    have hme : e ∈ code.mf.insts := List.mem_flatten_of_mem hblock hbefore'.mem.2
    have hblmem : bl ∈ pad.labels := List.mem_append_left _ (List.mem_of_mem_head? hb)
    have helmem : el ∈ pad.labels := List.mem_append_right _ (List.mem_of_mem_head? he)
    have hbounds : Bounds code.mf (bl, el) b e :=
      ⟨findInst_label hwf hpad hblmem hmb hbs, findInst_label hwf hpad helmem hme hes⟩
    have hcall : e.isCall = false := (hwf.label e hme (hwf.refer pad hpad el helmem e hme hes)).1
    rw [labelled_pair hb he]
    constructor
    · rintro ⟨b', e', type, hbounds', htype, hmoves⟩
      cases hbounds.first.symm.trans hbounds'.first
      cases hbounds.last.symm.trans hbounds'.last
      obtain ⟨hfirst, hclear, hstop⟩ :=
        (moves_iff hwf.nodup ⟨block, hblock, hbefore'⟩ hcall).mp hmoves
      refine ⟨b, e, f, type, hlen, ⟨bl, el, hb, he, hbounds⟩, ?_, hfirst, hclear, hstop⟩
      rw [hdropped, htype]
      rfl
    · rintro ⟨b', e', f', type, hroom⟩
      obtain ⟨bl', el', hbl', hel', hbounds'⟩ := hroom.bounds
      cases hb.symm.trans hbl'
      cases he.symm.trans hel'
      cases hbounds.first.symm.trans hbounds'.first
      cases hbounds.last.symm.trans hbounds'.last
      have hd := hroom.dropped
      rw [hdropped] at hd
      obtain ⟨type', htype, heq⟩ := Option.map_eq_some_iff.mp hd
      cases heq
      exact ⟨b, e, type, hbounds, htype,
        (moves_iff hwf.nodup ⟨block, hblock, hbefore'⟩ hcall).mpr
          ⟨hroom.notFirst, hroom.unhindered, hroom.stopped⟩⟩

end

/-! ## What a step leaves alone -/

/-- The function is changed, but not where the `fixed` instructions stand in
their blocks. -/
structure Spares (fixed : Inst → Prop) (c c' : Code) : Prop where
  pads : c'.mf.pads = c.mf.pads
  fresh : c.mf.fresh ≤ c'.mf.fresh
  sound : Sound c'
  blocks : ∀ p : Inst → Bool, (∀ x, p x = true → fixed x) →
    c'.mf.blocks.map (·.filter p) = c.mf.blocks.map (·.filter p)

section
variable {fixed fixed' : Inst → Prop} {c c' c'' : Code}

theorem Spares.refl (hc : Sound c) : Spares fixed c c := ⟨rfl, Nat.le_refl _, hc, fun _ _ => rfl⟩

theorem Spares.trans (h : Spares fixed c c') (h' : Spares fixed' c' c'')
    (hfixed : ∀ x, fixed x → fixed' x) :
    Spares fixed c c'' :=
  ⟨h'.pads.trans h.pads, Nat.le_trans h.fresh h'.fresh, h'.sound,
    fun p hp => (h'.blocks p fun x hx => hfixed x (hp x hx)).trans (h.blocks p hp)⟩

theorem Spares.mono (h : Spares fixed c c') (hfixed : ∀ x, fixed' x → fixed x) :
    Spares fixed' c c' :=
  ⟨h.pads, h.fresh, h.sound, fun p hp => h.blocks p fun x hx => hfixed x (hp x hx)⟩

/-- A block with two fixed instructions has a counterpart. -/
theorem Spares.before (h : Spares fixed c c') {x y : Inst} (hx : fixed x) (hy : fixed y)
    (hxy : ∃ block ∈ c.mf.blocks, Before block x y) : ∃ block ∈ c'.mf.blocks, Before block x y := by
  obtain ⟨block, hblock, hbefore⟩ := hxy
  let p : Inst → Bool := fun z => decide (z = x ∨ z = y)
  have hp : ∀ z, p z = true → fixed z := by
    intro z hz
    rcases of_decide_eq_true hz with rfl | rfl
    · exact hx
    · exact hy
  have hmem := List.mem_map_of_mem (f := (·.filter p)) hblock
  rw [← h.blocks p hp, List.mem_map] at hmem
  obtain ⟨block', hblock', heq⟩ := hmem
  have hpx : p x = true := decide_eq_true (.inl rfl)
  have hpy : p y = true := decide_eq_true (.inr rfl)
  exact ⟨block', hblock', (before_of_filter_eq heq hpx hpy).mpr hbefore⟩

/-- A fixed instruction was there before. -/
theorem Spares.mem (h : Spares fixed c c') {x : Inst} (hx : fixed x) (hmem : x ∈ c'.mf.insts) :
    x ∈ c.mf.insts := by
  obtain ⟨block, hblock, hin⟩ := List.mem_flatten.mp hmem
  let p : Inst → Bool := fun z => decide (z = x)
  have hp : ∀ z, p z = true → fixed z := by
    intro z hz
    rw [of_decide_eq_true hz]
    exact hx
  have hfilter := List.mem_map_of_mem (f := (·.filter p)) hblock
  rw [h.blocks p hp, List.mem_map] at hfilter
  obtain ⟨block', hblock', heq⟩ := hfilter
  have hin' : x ∈ block'.filter p := by
    rw [heq, List.mem_filter]
    exact ⟨hin, decide_eq_true rfl⟩
  exact List.mem_flatten_of_mem hblock' (List.mem_filter.mp hin').1

end

/-! ### New instructions -/

theorem perm_splice {y : Inst} {front back l : List Inst} (hnd : l.Nodup) :
    (splice y front back l).Perm (front ++ back ++ l) ∨ splice y front back l = l := by
  by_cases hy : y ∈ l
  · obtain ⟨l₁, l₂, rfl⟩ := List.append_of_mem hy
    rw [splice_eq hnd]
    refine .inl (List.perm_iff_count.mpr fun z => ?_)
    simp only [List.count_append, List.count_cons]
    omega
  · exact .inr (splice_of_notMem hy)

section
variable {mf : MachineFunction} {bs : List (List Inst)} {new : List Inst} {n : Nat}

/-- New instructions that are no labels. -/
structure Plain (mf : MachineFunction) (n : Nat) (new : List Inst) : Prop where
  nodup : new.Nodup
  fresh : ∀ x ∈ new, mf.fresh ≤ x.id ∧ x.id < n
  plain : ∀ x ∈ new, x.isLabel = false ∧ x.syms = []

theorem WellFormed_of_plain (hwf : mf.WellFormed) (hn : mf.fresh ≤ n) (hnew : Plain mf n new)
    (hp : bs.flatten.Perm (new ++ mf.insts) ∨ bs.flatten = mf.insts) :
    MachineFunction.WellFormed { mf with blocks := bs, fresh := n } := by
  have hmem : ∀ x ∈ bs.flatten, x ∈ new ∨ x ∈ mf.insts := by
    intro x hx
    rcases hp with hp | hp
    · exact List.mem_append.mp (hp.mem_iff.mp hx)
    · exact .inr (hp ▸ hx)
  have hlabel : ∀ x ∈ bs.flatten, x.isLabel = true → x ∈ mf.insts := by
    intro x hx hl
    refine (hmem x hx).resolve_left fun hin => ?_
    rw [(hnew.plain x hin).1] at hl
    cases hl
  refine ⟨?_, fun x hx hl => hwf.label x (hlabel x hx hl) hl,
    fun x hx y hy hlx hly => hwf.once x (hlabel x hx hlx) y (hlabel y hy hly) hlx hly,
    fun pad hpad sym hsym x hx hs => ?_, hwf.distinct, fun x hx => ?_,
    fun pad hpad sym hsym => Nat.lt_of_lt_of_le (hwf.pads_fresh pad hpad sym hsym) hn⟩
  · rcases hp with hp | hp
    · refine hp.nodup_iff.mpr (List.nodup_append.mpr ⟨hnew.nodup, hwf.nodup, ?_⟩)
      rintro x hx _ hy rfl
      exact Nat.lt_irrefl _ (Nat.lt_of_lt_of_le (hwf.insts_fresh x hy).1 (hnew.fresh x hx).1)
    · rw [MachineFunction.insts, hp]
      exact hwf.nodup
  · rcases hmem x hx with hin | hin
    · rw [(hnew.plain x hin).2] at hs
      cases hs
    · exact hwf.refer pad hpad sym hsym x hin hs
  · rcases hmem x hx with hin | hin
    · refine ⟨(hnew.fresh x hin).2, ?_⟩
      rw [(hnew.plain x hin).2]
      exact List.forall_mem_nil _
    · obtain ⟨hid, hs⟩ := hwf.insts_fresh x hin
      exact ⟨Nat.lt_of_lt_of_le hid hn, fun sym hsym => Nat.lt_of_lt_of_le (hs sym hsym) hn⟩

end

section
variable {c : Code} (hc : Sound c)
include hc

theorem spares_splice {y : Inst} {front back : List Inst} {n : Nat} {dst : Nat → Option Reg}
    {isMoveReg : Nat → Bool} (hn : c.mf.fresh ≤ n) (hnew : Plain c.mf n (front ++ back))
    (hlabel : ∀ x ∈ c.mf.insts, x.isLabel = true → dst x.id = none ∧ isMoveReg x.id = false)
    (hfresh : ∀ k, n ≤ k → dst k = none ∧ isMoveReg k = false) :
    Spares (·.id < c.mf.fresh) c
      ⟨{ c.mf with blocks := c.mf.blocks.map (splice y front back), fresh := n },
        dst, isMoveReg⟩ := by
  have hp : (splice y front back c.mf.insts).Perm (front ++ back ++ c.mf.insts) ∨
      splice y front back c.mf.insts = c.mf.insts := perm_splice hc.wf.nodup
  rw [show splice y front back c.mf.insts = _
    from (flatten_splice y front back c.mf.blocks).symm] at hp
  refine ⟨rfl, hn, ⟨WellFormed_of_plain hc.wf hn hnew hp, fun x hx hl => ?_, hfresh⟩,
    fun p hp => ?_⟩
  · refine hlabel x ?_ hl
    rcases hp with hp | hp
    · refine (List.mem_append.mp (hp.mem_iff.mp hx)).resolve_left fun hin => ?_
      rw [(hnew.plain x hin).1] at hl
      cases hl
    · rw [← hp]
      exact hx
  · rw [List.map_map]
    refine List.map_congr_left fun block _ => ?_
    have hout : ∀ l : List Inst, (∀ x ∈ l, x ∈ front ++ back) → l.filter p = [] := by
      intro l hl
      rw [List.filter_eq_nil_iff]
      intro x hx hpx
      exact Nat.lt_irrefl _ (Nat.lt_of_lt_of_le (hp x hpx) (hnew.fresh x (hl x hx)).1)
    exact filter_splice (hout front fun x hx => List.mem_append_left _ hx)
      (hout back fun x hx => List.mem_append_right _ hx) block

theorem addEpilogue_spares {name : String} {c' : Code} (h : addEpilogue c name = .ok c') :
    Spares (·.id < c.mf.fresh) c c' := by
  rw [addEpilogue] at h
  split at h
  · cases h
    exact .refl hc
  · split at h
    · cases h
    · split at h
      · cases h
      · cases h
        refine spares_splice hc (by omega) ⟨?_, ?_, ?_⟩ (fun x hx hl => ?_) fun k hk => ?_
        · simp
        · simp
        · simp
        · have hid := (hc.wf.insts_fresh x hx).1
          rw [Function.update_of_ne (by omega), Function.update_of_ne (by omega),
            Function.update_of_ne (by omega), Function.update_of_ne (by omega)]
          exact hc.label x hx hl
        · rw [Function.update_of_ne (by omega), Function.update_of_ne (by omega),
            Function.update_of_ne (by omega), Function.update_of_ne (by omega)]
          exact hc.fresh k (by omega)

theorem addDropCall_spares {dtor : Fn} {arg move unwind : Inst} (harg : arg.isLabel = false)
    (hmove : move ∈ c.mf.insts) (hreg : c.isMoveReg move.id = true)
    (hunwind : unwind.isLabel = false) :
    Spares (·.id < c.mf.fresh) c (addDropCall c dtor arg move unwind) := by
  have hmovelabel : move.isLabel = false := by
    by_contra hl
    rw [(hc.label move hmove (by simpa using hl)).2] at hreg
    cases hreg
  have hmoveid := (hc.wf.insts_fresh move hmove).1
  refine spares_splice hc (by omega) ⟨?_, ?_, ?_⟩ (fun x hx hl => ?_) fun k hk => ?_
  · simp [withOpcode]
  · simp [withOpcode]
  · simp [withOpcode, harg, hmovelabel, hunwind]
  · have hid := (hc.wf.insts_fresh x hx).1
    have hne : x.id ≠ move.id := by
      intro heq
      rw [← heq, (hc.label x hx hl).2] at hreg
      cases hreg
    rw [Function.update_of_ne (by omega), Function.update_of_ne (by omega),
      Function.update_of_ne (by omega), Function.update_of_ne hne, Function.update_of_ne (by omega),
      Function.update_of_ne (by omega), Function.update_of_ne (by omega)]
    exact hc.label x hx hl
  · rw [Function.update_of_ne (by omega), Function.update_of_ne (by omega),
      Function.update_of_ne (by omega), Function.update_of_ne (by omega),
      Function.update_of_ne (by omega), Function.update_of_ne (by omega),
      Function.update_of_ne (by omega)]
    exact hc.fresh k (by omega)

omit hc in
theorem findArgument_spec {l : List Inst} {arg : Inst} (h : findArgument c.dst l = .ok arg) :
    arg ∈ l ∧ c.dst arg.id = some .rdi := by
  induction l with
  | nil => cases h
  | cons x l ih =>
    rw [findArgument] at h
    split at h
    · cases h
    · rename_i reg hreg
      split at h
      · rename_i hrdi
        cases h
        exact ⟨List.mem_cons_self, hrdi ▸ hreg⟩
      · obtain ⟨hmem, hdst⟩ := ih h
        exact ⟨List.mem_cons_of_mem x hmem, hdst⟩

omit hc in
theorem mem_of_block {k : Nat} {x : Inst} (hx : x ∈ c.mf.blocks[k]?.getD []) : x ∈ c.mf.insts := by
  match hk : c.mf.blocks[k]? with
  | none =>
    rw [hk] at hx
    cases hx
  | some block =>
    rw [hk] at hx
    exact List.mem_flatten_of_mem (List.mem_of_getElem? hk) hx

theorem destroy_spares {m : Module} {pad : Pad} {dtor : Fn} {ctor : Inst} {c' : Code}
    (h : destroy m c pad dtor ctor = .ok c') : Spares (·.id < c.mf.fresh) c c' := by
  rw [destroy] at h
  split at h
  · cases h
  · split at h
    · cases h
    · split at h
      · cases h
      · rename_i arg harg
        split at h
        · cases h
        · rename_i move unwind hunwind
          cases h
          obtain ⟨hmem, hdst⟩ := findArgument_spec harg
          rw [List.mem_reverse] at hmem
          have hargin := mem_of_block (List.takeWhile_subset _ hmem)
          obtain ⟨move', hmove, hrest⟩ := Option.bind_eq_some_iff.mp hunwind
          obtain ⟨unwind', hcall, heq⟩ := Option.map_eq_some_iff.mp hrest
          cases heq
          have hunwindin := mem_of_block (List.dropWhile_subset _ (List.mem_of_find?_eq_some hcall))
          have hreg : c.isMoveReg move.id = true := by simpa using List.find?_some hmove
          refine addDropCall_spares hc ?_ (mem_of_block (List.mem_of_find?_eq_some hmove)) hreg ?_
          · by_contra hl
            rw [(hc.label arg hargin (by simpa using hl)).1] at hdst
            cases hdst
          · by_contra hl
            have hno := (hc.wf.label unwind hunwindin (by simpa using hl)).1
            rw [List.find?_some hcall] at hno
            cases hno

end

/-! ### New labels -/

/-- `Puts`, block by block. -/
structure Sets (i : Inst) (bs bs' : List (List Inst)) : Prop where
  puts : Puts i bs bs'
  blocks : ∀ p : Inst → Bool, p i = false → bs'.map (·.filter p) = bs.map (·.filter p)

theorem sets_head (i : Inst) (bs : List (List Inst)) : Sets i bs (bs.modifyHead (i :: ·)) := by
  refine ⟨puts_head i bs, fun p hp => ?_⟩
  match bs with
  | [] => rfl
  | block :: bs =>
    rw [List.modifyHead_cons, List.map_cons, List.map_cons, List.filter_cons_of_neg (by simp [hp])]

theorem sets_end (i : Inst) (k : Nat) (bs : List (List Inst)) :
    Sets i bs (bs.modify k (· ++ [i])) := by
  refine ⟨puts_end i k bs, fun p hp => ?_⟩
  induction bs generalizing k with
  | nil => rw [List.modify_nil]
  | cons block bs ih =>
    cases k with
    | zero =>
      rw [List.modify_zero_cons, List.map_cons, List.map_cons, List.filter_append,
        List.filter_cons_of_neg (by simp [hp]), List.filter_nil, List.append_nil]
    | succ k => rw [List.modify_succ_cons, List.map_cons, List.map_cons, ih]

theorem sets_at (i : Inst) (pos : Nat × Option Inst) {bs : List (List Inst)}
    (hnd : bs.flatten.Nodup) :
    Sets i bs (insertAt pos i bs) := by
  rw [insertAt]
  split
  · rename_i next hnext
    have hfilter : ∀ p : Inst → Bool, p i = false →
        (bs.map (insertBefore next i)).map (·.filter p) = bs.map (·.filter p) := by
      intro p hp
      rw [List.map_map]
      exact List.map_congr_left fun block _ => filter_insertBefore hp next block
    refine ⟨⟨fun hl => hfilter _ (by simp [hl]), fun p hp => ?_, ?_⟩, hfilter⟩
    · rw [List.filter_flatten, List.filter_flatten, hfilter p hp]
    · have hsplice : (bs.map (insertBefore next i)).flatten = splice next [i] [] bs.flatten :=
        flatten_splice next [i] [] bs
      rw [hsplice]
      exact perm_splice hnd
  · exact sets_end i pos.1 bs

section
variable {c : Code} (hc : Sound c)
include hc

theorem spares_label (labels : List Sym) (place : Inst → List (List Inst) → List (List Inst))
    (h : Sets (.label c.mf.fresh c.mf.fresh) c.mf.blocks
      (place (.label c.mf.fresh c.mf.fresh) c.mf.blocks)) :
    Spares (·.id < c.mf.fresh) c { c with mf := (getOrCreateLabel c.mf labels place).1 } := by
  match labels with
  | _ :: _ => exact .refl hc
  | [] =>
    have hadds := adds_create h.puts
    refine ⟨rfl, hadds.fresh, ⟨hadds.wf hc.wf, fun x hx hl => ?_,
      fun n hn => hc.fresh n (Nat.le_of_succ_le hn)⟩,
      fun p hp => h.blocks p ?_⟩
    · rcases hadds.mem x hx with hin | ⟨k, hk, rfl⟩
      · exact hc.label x hin hl
      · exact hc.fresh k hk
    · by_contra hpi
      exact Nat.lt_irrefl _ (hp _ (by simpa using hpi))

omit hc in
theorem own_label (mf : MachineFunction) (labels : List Sym)
    (place : Inst → List (List Inst) → List (List Inst)) :
    Own mf labels (getOrCreateLabel mf labels place).2 := by
  match labels with
  | _ :: _ => exact .given rfl
  | [] => exact .new (Nat.le_refl _)

omit hc in
theorem own_mono {mf mf' : MachineFunction} {labels : List Sym} {sym : Sym}
    (hfresh : mf.fresh ≤ mf'.fresh) (h : Own mf' labels sym) : Own mf labels sym := by
  cases h with
  | given h => exact .given h
  | new h => exact .new (Nat.le_trans hfresh h)

theorem labelled_spares (pad : Pad) :
    Spares (·.id < c.mf.fresh) c { c with mf := (labelled c.mf pad).1 } := by
  have h₁ := spares_label hc pad.beginLabels (fun i bs => bs.modifyHead (i :: ·)) (sets_head _ _)
  have h₂ := spares_label h₁.sound pad.endLabels
    (fun i bs => bs.modify (endBlock c.mf pad) (· ++ [i]))
    (sets_end _ _ _)
  exact h₁.trans h₂ fun x hx => Nat.lt_of_lt_of_le hx h₁.fresh

theorem labelledAt_spares (pad : Pad) (pos : Nat × Option Inst) :
    Spares (·.id < c.mf.fresh) c { c with mf := (labelledAt c.mf pad pos).1 } ∧
      Own c.mf pad.beginLabels (labelledAt c.mf pad pos).2.1 ∧
        Own c.mf pad.endLabels (labelledAt c.mf pad pos).2.2 := by
  have h₁ := spares_label hc pad.beginLabels (insertAt pos) (sets_at _ pos hc.wf.nodup)
  have h₂ := spares_label h₁.sound pad.endLabels (insertAt pos) (sets_at _ pos h₁.sound.wf.nodup)
  exact ⟨h₁.trans h₂ fun x hx => Nat.lt_of_lt_of_le hx h₁.fresh, own_label _ _ _,
    own_mono h₁.fresh (own_label _ _ _)⟩

/-- A landing pad is prepared by adding instructions. -/
theorem prepare_spares {m : Module} {pad : Pad} {p : Prepared}
    (h : prepare m c pad = .ok (some p)) :
    Spares (·.id < c.mf.fresh) c p.code ∧ Own c.mf pad.beginLabels p.beginLabel ∧
      Own c.mf pad.endLabels p.endLabel := by
  rw [prepare] at h
  split at h
  · cases h
  · split at h
    · cases h
      exact ⟨labelled_spares hc pad, own_begin c.mf pad, own_end c.mf pad⟩
    · split at h
      · cases h
      · rename_i type dtor hmissing
        obtain ⟨⟨c₁, pos⟩, hsyn, hlabels⟩ := bind_eq_ok.mp h
        cases hlabels
        rw [synthesise] at hsyn
        split at hsyn
        · cases hsyn
        · cases hsyn
        · rename_i ctor hctor
          cases hd : destroy m c pad dtor ctor with
          | error fault =>
            rw [hd] at hsyn
            cases hsyn
          | ok c₂ =>
            rw [hd] at hsyn
            cases hsyn
            have h₁ := destroy_spares hc hd
            obtain ⟨h₂, hb, he⟩ := labelledAt_spares h₁.sound pad (position c.mf.blocks ctor)
            exact ⟨h₁.trans h₂ fun x hx => Nat.lt_of_lt_of_le hx h₁.fresh, own_mono h₁.fresh hb,
              own_mono h₁.fresh he⟩

end

/-! ### Moves -/

section
variable {m : Module} {c c' : Code}

theorem map_filter_move {x y : Inst} {front back : List Inst} {p : Inst → Bool} (hp : p x = false)
    (hf : front.filter p = []) (hb : back.filter p = []) (bs : List (List Inst)) :
    ((bs.map (remove x)).map (splice y front back)).map (·.filter p) = bs.map (·.filter p) := by
  rw [List.map_map, List.map_map]
  refine List.map_congr_left fun block _ => ?_
  rw [Function.comp_apply, Function.comp_apply, filter_splice hf hb, filter_remove hp]

theorem moveBegin_blocks {bs bs' : List (List Inst)} {b e : Inst} {type : Ty}
    (h : moveBegin bs b e type = .ok bs') {p : Inst → Bool} (hp : p b = false) :
    bs'.map (·.filter p) = bs.map (·.filter p) := by
  rw [moveBegin] at h
  split at h
  · cases h
  · obtain ⟨uses, -, h⟩ := bind_eq_ok.mp h
    cases uses with
    | true =>
      cases h
      rfl
    | false =>
      change moveOverCall bs b e type = .ok bs' at h
      rw [moveOverCall] at h
      split at h
      · cases h
        rfl
      · cases h
      · obtain ⟨uses, -, h⟩ := bind_eq_ok.mp h
        cases uses with
        | true =>
          cases h
          exact map_filter_move hp rfl (by simp [hp]) bs
        | false =>
          cases h
          rfl

theorem moveEnd_blocks {bs bs' : List (List Inst)} {e : Inst} {f : Fn}
    (h : moveEnd bs e f = .ok bs') {p : Inst → Bool} (hp : p e = false) :
    bs'.map (·.filter p) = bs.map (·.filter p) := by
  rw [moveEnd] at h
  split at h
  · cases h
  · cases h
  · split at h
    · cases h
    · split at h
      · cases h
      · cases h
        exact map_filter_move hp (by simp [hp]) rfl bs

theorem moveLabels_spares {p : Prepared} (hc : Sound p.code) (h : moveLabels p = .ok c') :
    ∃ b e, Bounds p.code.mf (p.beginLabel, p.endLabel) b e ∧
      Spares (fun x => x ≠ b ∧ x ≠ e) p.code c' := by
  rw [moveLabels] at h
  split at h
  · cases h
  · split at h
    · rename_i b e hb he
      obtain ⟨bs₁, hbegin, h⟩ := bind_eq_ok.mp h
      obtain ⟨bs₂, hend, h⟩ := bind_eq_ok.mp h
      cases h
      have hperm : bs₂.flatten.Perm p.code.mf.insts := by
        have hbegin' := congrArg Except.toOption hbegin
        have hend' := congrArg Except.toOption hend
        rw [moveBegin_toOption] at hbegin'
        rw [moveEnd_toOption] at hend'
        have hperm₁ : bs₁.flatten.Perm p.code.mf.insts := by
          rcases Cancel.moveBegin_cases hc.wf.nodup (findInst_mem hb).1 hbegin'
            with rfl | ⟨-, hs, -⟩
          · exact .refl _
          · exact hs.perm
        have hs := (Cancel.moveEnd_cases (hperm₁.nodup_iff.mpr hc.wf.nodup)
          (hperm₁.mem_iff.mpr (findInst_mem he).1) hend').1
        exact hs.perm.trans hperm₁
      refine ⟨b, e, ⟨hb, he⟩, rfl, Nat.le_refl _,
        ⟨WellFormed_of_perm hc.wf hperm, fun x hx hl => ?_, hc.fresh⟩,
        fun q hq => ?_⟩
      · exact hc.label x (hperm.mem_iff.mp hx) hl
      · have hqb : q b = false := by
          by_contra hqb
          exact (hq b (by simpa using hqb)).1 rfl
        have hqe : q e = false := by
          by_contra hqe
          exact (hq e (by simpa using hqe)).2 rfl
        exact (moveEnd_blocks hend hqe).trans (moveBegin_blocks hbegin hqb)
    · cases h

/-- The instruction with a label of the pad is touched for it, or new. -/
theorem Spares.not_stays (hc : Sound c) (h : Spares (·.id < c.mf.fresh) c c') (pad : Pad)
    {labels : List Sym} {sym : Sym} (hown : Own c.mf labels sym) {x : Inst} (hx : x ∈ c'.mf.insts)
    (hsym : sym ∈ x.syms) (htouch : labels.head? = some sym → touches pad x = true) :
    ¬ stays [pad] c.mf.fresh x = true := by
  intro hstays
  simp only [stays, Bool.and_eq_true, decide_eq_true_eq, List.all_cons, List.all_nil, Bool.and_true,
    Bool.not_eq_true'] at hstays
  cases hown with
  | given hgiven =>
    rw [htouch hgiven] at hstays
    cases hstays.2
  | new hnew =>
    have hlt := (hc.wf.insts_fresh x (h.mem hstays.1 hx)).2 sym hsym
    exact absurd hlt (Nat.not_lt.mpr hnew)

/-- A step leaves alone what it does not add and what does not refer to a label
of its landing pad. -/
theorem processPad_spares {pad : Pad} (hc : Sound c) (h : processPad m c pad = .ok c') :
    Spares (fun x => stays [pad] c.mf.fresh x = true) c c' := by
  rw [processPad] at h
  obtain ⟨p, hp, h⟩ := bind_eq_ok.mp h
  cases p with
  | none =>
    cases h
    exact .refl hc
  | some p =>
    obtain ⟨h₁, hbegin, hend⟩ := prepare_spares hc hp
    obtain ⟨b, e, hbounds, h₂⟩ := moveLabels_spares h₁.sound h
    obtain ⟨hb, hbs⟩ := findInst_mem hbounds.first
    obtain ⟨he, hes⟩ := findInst_mem hbounds.last
    have hnb := h₁.not_stays hc pad hbegin hb hbs (touches_begin hbs)
    have hne := h₁.not_stays hc pad hend he hes (touches_end hes)
    refine (h₁.mono fun x hx => ?_).trans h₂ fun x hx => ?_
    · simp only [stays, Bool.and_eq_true, decide_eq_true_eq] at hx
      exact hx.1
    · constructor
      · rintro rfl
        exact hnb hx
      · rintro rfl
        exact hne hx

theorem processPads_spares {qs : List Pad} (hc : Sound c) (h : processPads m c qs = .ok c') :
    Spares (fun x => stays qs c.mf.fresh x = true) c c' := by
  induction qs generalizing c with
  | nil =>
    cases h
    exact .refl hc
  | cons q qs ih =>
    rw [processPads, List.foldlM_cons] at h
    obtain ⟨c₁, hstep, hrest⟩ := bind_eq_ok.mp h
    have h₁ := processPad_spares hc hstep
    have h₂ := ih h₁.sound hrest
    exact (h₁.mono fun x hx => (stays_cons.mp hx).1).trans h₂
      fun x hx => stays_mono h₁.fresh (stays_cons.mp hx).2

theorem started_spares {epilogue : Option String} (hc : Sound c) (h : started epilogue c = .ok c') :
    Spares (·.id < c.mf.fresh) c c' := by
  cases epilogue with
  | none =>
    cases h
    exact .refl hc
  | some name => exact addEpilogue_spares hc h

/-- The labels of a landing pad stay in their order until the pass comes to
it. -/
theorem paired_later {pre post : List Pad} {pad : Pad} (hc : Sound c)
    (hpads : c.mf.pads = pre ++ pad :: post) (hpaired : Paired c.mf pad) {fixed : Inst → Prop}
    (h : Spares fixed c c') (hfixed : ∀ x, stays pre c.mf.fresh x = true → fixed x) :
    Paired c'.mf pad := by
  refine hpaired.imp_right ?_
  rintro ⟨bl, el, b, e, hb, he, hbs, hes, block, hblock, hbefore⟩
  have hpad : pad ∈ c.mf.pads := by rw [hpads]; simp
  -- No landing pad before this one has its labels.
  have hstay : ∀ {labels : List Sym} {sym : Sym} {x : Inst}, (∀ sym ∈ labels, sym ∈ pad.labels) →
      labels.head? = some sym → x ∈ block → sym ∈ x.syms → fixed x := by
    intro labels sym x hlabels hhead hx hsym
    have hin : x ∈ c.mf.insts := List.mem_flatten_of_mem hblock hx
    have hlabel := hc.wf.refer pad hpad sym (hlabels sym (List.mem_of_mem_head? hhead)) x hin hsym
    have hsyms := syms_of_label hc.wf hin hlabel hsym
    refine hfixed x (stays_of_mem hc.wf hin fun q hq => ?_)
    exact untouched_of_own hc.wf hpads hlabels (Nat.le_refl _) (.given hhead) hsyms (.inl hq)
  refine ⟨bl, el, b, e, hb, he, hbs, hes, h.before ?_ ?_ ⟨block, hblock, hbefore⟩⟩
  · exact hstay (fun sym hs => List.mem_append_left _ hs) hb hbefore.mem.1 hbs
  · exact hstay (fun sym hs => List.mem_append_right _ hs) he hbefore.mem.2 hes

end

/-! ## Every landing pad -/

/-- **A landing pad with a drop call is processed to the end exactly if there is
room for its labels when the pass comes to it**, in a function whose labels are
in order at the start. -/
theorem label_moves_iff (m : Module) (epilogue : Option String) (code code₁ c : Code)
    (pre post : List Pad) (pad : Pad) (hcode : Sound code)
    (hpaired : ∀ pad ∈ code.mf.pads, Paired code.mf pad)
    (hstart : started epilogue code = .ok code₁) (hpads : code₁.mf.pads = pre ++ pad :: post)
    (hpre : processPads m code₁ pre = .ok c) (hdrop : (dropCall c.mf pad).isSome = true) :
    (∃ c', processPad m c pad = .ok c') ↔ ∃ b e f type, Room c.mf pad b e f type := by
  have h₀ := started_spares hcode hstart
  have h₁ := processPads_spares h₀.sound hpre
  have hpad : pad ∈ code₁.mf.pads := by rw [hpads]; simp
  have hpaired₁ : Paired code₁.mf pad := by
    rw [h₀.pads] at hpad hpads
    refine paired_later hcode hpads (hpaired pad hpad) h₀ fun x hx => ?_
    simp only [stays, Bool.and_eq_true, decide_eq_true_eq] at hx
    exact hx.1
  refine processPad_iff h₁.sound.wf ?_ (paired_later h₀.sound hpads hpaired₁ h₁ fun _ hx => hx)
    hdrop
  rw [h₁.pads]
  exact hpad

/-- A function none of whose instructions matters to the synthesis. -/
def Code.simple (mf : MachineFunction) : Code := ⟨mf, fun _ => none, fun _ => false⟩

theorem sound_simple {mf : MachineFunction} (hwf : mf.WellFormed) : Sound (.simple mf) :=
  ⟨hwf, fun _ _ _ => ⟨rfl, rfl⟩, fun _ _ => ⟨rfl, rfl⟩⟩

/-- There is room for the labels of `maker`. -/
theorem label_moves_iff_maker : (∃ c', processPad callerModule (.simple maker)
      ⟨1, [1], [4]⟩ = .ok c') ∧
    ∃ b e f type, Room maker ⟨1, [1], [4]⟩ b e f type := by
  have hmoves : ∃ c', processPad callerModule (.simple maker) ⟨1, [1], [4]⟩ = .ok c' := ⟨_, rfl⟩
  refine ⟨hmoves, (label_moves_iff callerModule none (.simple maker) (.simple maker)
    (.simple maker) [] [] ⟨1, [1], [4]⟩ (sound_simple maker_wellFormed) ?_ rfl rfl rfl rfl).mp
      hmoves⟩
  intro pad hpad
  cases List.mem_singleton.mp hpad
  exact .inr ⟨1, 4, .label 1 1, .label 4 4, rfl, rfl, by decide, by decide, _, List.mem_cons_self,
    maker.blocks[0].take 2, maker.blocks[0].drop 2, rfl, by decide, by decide⟩

/-- A function that starts with its protected range. -/
def starter : MachineFunction where
  name := "start"
  blocks :=
    [[.label 1 1, ⟨2, some (some ⟨"make", 7, []⟩), false, false, false, []⟩, .label 4 4,
      ⟨6, none, true, false, false, []⟩],
     [⟨7, none, false, false, false, []⟩,
      ⟨8, some (some ⟨"drop_in_place", 0, [7]⟩), false, false, false, []⟩]]
  pads := [⟨1, [1], [4]⟩]
  fresh := 9

/-- Nothing stands in front of its begin label. -/
theorem starter_fails : Sound (.simple starter) ∧ (∀ pad ∈ starter.pads, Paired starter pad) ∧
    (∀ block ∈ starter.blocks, block ≠ []) ∧
    runOnMachineFunction callerModule none (.simple starter) = .error .assertion := by
  refine ⟨sound_simple
    ⟨by decide, by decide, by decide, by decide, by decide, by decide, by decide⟩, ?_,
    by decide, rfl⟩
  intro pad hpad
  cases List.mem_singleton.mp hpad
  exact .inr ⟨1, 4, .label 1 1, .label 4 4, rfl, rfl, by decide, by decide, _, List.mem_cons_self,
    starter.blocks[0].take 1, starter.blocks[0].drop 1, rfl, by decide, by decide⟩

end Inger.L6.Pass
