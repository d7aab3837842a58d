import Inger.L6Compiler.Cancel

/-!
# What `IngerCancel` does to the protected ranges

The moves of one landing pad as equations between layouts (`moveBegin_cases`,
`moveEnd_cases`), what follows for its range (`pad_widened`), and the same for a
whole pass, in which the moves of the other landing pads come before and after
(`protection_widened`).
-/
namespace Inger.L6.Cancel

open Layout

/-- The blocks without their EH labels. -/
def erase (bs : List (List Inst)) : List (List Inst) := bs.map (·.filter fun i => !i.isLabel)

/-! ## Moving one label -/

/-- The blocks after `x` has been moved. -/
structure Shifted (bs bs' : List (List Inst)) (x : Inst) : Prop where
  erase : x.isLabel = true → erase bs' = erase bs
  others : ∀ p : Inst → Bool, p x = false → bs'.flatten.filter p = bs.flatten.filter p
  perm : bs'.flatten.Perm bs.flatten

theorem erase_insertAfter {x : Inst} (hx : x.isLabel = true) (y : Inst) (bs : List (List Inst)) :
    erase ((bs.map (remove x)).map (insertAfter y x)) = erase bs := by
  simp only [erase, List.map_map]
  refine List.map_congr_left fun b _ => ?_
  simp only [Function.comp]
  rw [filter_insertAfter (by simp [hx]), filter_remove (by simp [hx])]

theorem erase_insertBefore {x : Inst} (hx : x.isLabel = true) (y : Inst) (bs : List (List Inst)) :
    erase ((bs.map (remove x)).map (insertBefore y x)) = erase bs := by
  simp only [erase, List.map_map]
  refine List.map_congr_left fun b _ => ?_
  simp only [Function.comp]
  rw [filter_insertBefore (by simp [hx]), filter_remove (by simp [hx])]

section
variable {bs : List (List Inst)} {x y : Inst} {l m l' : List Inst} (hnd : bs.flatten.Nodup)
  (heq : bs.flatten = l ++ x :: (m ++ y :: l'))
include hnd heq

theorem remove_cut : remove x bs.flatten = l ++ m ++ y :: l' ∧ (l ++ m ++ y :: l').Nodup := by
  rw [heq] at hnd ⊢
  rw [remove_eq hnd, List.append_assoc]
  exact ⟨rfl, (List.nodup_cons.mp (List.nodup_middle.mp hnd)).2⟩

theorem flatten_moveAfter :
    ((bs.map (remove x)).map (insertAfter y x)).flatten = l ++ (m ++ y :: x :: l') := by
  obtain ⟨hrem, hnd'⟩ := remove_cut hnd heq
  rw [show (bs.map (remove x)).map (insertAfter y x) = (bs.map (remove x)).map (splice y [] [x])
    from rfl, flatten_splice, flatten_remove, hrem]
  rw [show splice y [] [x] (l ++ m ++ y :: l') = insertAfter y x (l ++ m ++ y :: l') from rfl,
    insertAfter_eq hnd', List.append_assoc]

theorem flatten_moveBefore :
    ((bs.map (remove x)).map (insertBefore y x)).flatten = l ++ (m ++ x :: y :: l') := by
  obtain ⟨hrem, hnd'⟩ := remove_cut hnd heq
  rw [show (bs.map (remove x)).map (insertBefore y x) = (bs.map (remove x)).map (splice y [x] [])
    from rfl, flatten_splice, flatten_remove, hrem]
  rw [show splice y [x] [] (l ++ m ++ y :: l') = insertBefore y x (l ++ m ++ y :: l') from rfl,
    insertBefore_eq hnd', List.append_assoc]

end

/-- A layout in which one element has another place. -/
theorem filter_shift {l m l' : List Inst} {x : Inst} {p : Inst → Bool} (hp : p x = false) :
    (l ++ (m ++ x :: l')).filter p = (l ++ x :: (m ++ l')).filter p := by
  simp [List.filter_append, hp]

theorem shifted_of_cut {bs bs' : List (List Inst)} {x : Inst} {l m l' : List Inst}
    (herase : x.isLabel = true → erase bs' = erase bs) (heq : bs.flatten = l ++ x :: (m ++ l'))
    (heq' : bs'.flatten = l ++ (m ++ x :: l')) : Shifted bs bs' x := by
  refine ⟨herase, fun p hp => ?_, ?_⟩
  · rw [heq, heq', filter_shift hp]
  · rw [heq, heq']
    exact List.Perm.append_left l List.perm_middle

/-! ## The two moves -/

/-- The instruction in front of the begin label is not a call that uses the
dropped type. -/
def Unguarded (bs : List (List Inst)) (beginInst : Inst) (dropType : Ty) : Prop :=
  ∃ prev, prevInst bs beginInst = some prev ∧ isCallUsing prev dropType = some false

theorem isCall_of_using {i : Inst} {type : Ty} (h : isCallUsing i type = some true) :
    i.isCall = true := by
  rw [isCallUsing] at h
  split at h
  · cases h
  · cases h
  · rename_i hi
    rw [Inst.isCall, hi]
    rfl

theorem moveBegin_cases {bs bs' : List (List Inst)} {b e : Inst} {type : Ty}
    (hnd : bs.flatten.Nodup) (hb : b ∈ bs.flatten) (h : moveBegin bs b e type = some bs') :
    bs' = bs ∨
      Unguarded bs b type ∧ Shifted bs bs' b ∧ ∃ l m c l', bs.flatten = l ++ b :: (m ++ c :: l') ∧
        bs'.flatten = l ++ (m ++ c :: b :: l') ∧ (∀ z ∈ m, z.isCall = false ∧ z ≠ e) ∧
        isCallUsing c type = some true := by
  rw [moveBegin] at h
  split at h
  · cases h
  · cases h
    exact .inl rfl
  · rename_i hprev
    split at h
    · cases h
      exact .inl rfl
    · cases h
    · rename_i c hscan
      obtain ⟨uses, huses, rfl⟩ := Option.map_eq_some_iff.mp h
      cases uses with
      | false => exact .inl rfl
      | true =>
        obtain ⟨prev, hp, hpu⟩ := Option.bind_eq_some_iff.mp hprev
        obtain ⟨l, m, l', heq, hm, -⟩ := scan_after hb hscan
        have heq' := flatten_moveAfter hnd heq
        have hcut : bs.flatten = l ++ b :: (m ++ [c] ++ l') := by rw [heq]; simp
        have hcut' : ((bs.map (remove b)).map (insertAfter c b)).flatten =
            l ++ (m ++ [c] ++ b :: l') := by rw [heq']; simp
        refine .inr ⟨⟨prev, hp, hpu⟩, shifted_of_cut (fun hl => erase_insertAfter hl c bs)
          hcut hcut', l, m, c, l', heq, heq', fun z hz => ?_, huses⟩
        have hz' := hm z hz
        simp only [Bool.or_eq_false_iff, beq_eq_false_iff_ne] at hz'
        exact hz'

theorem moveEnd_cases {bs bs' : List (List Inst)} {e : Inst} {f : Fn} (hnd : bs.flatten.Nodup)
    (he : e ∈ bs.flatten) (h : moveEnd bs e f = some bs') :
    Shifted bs bs' e ∧ ∃ l m l', bs.flatten = l ++ e :: (m ++ l') ∧
      bs'.flatten = l ++ (m ++ e :: l') ∧ ∀ z ∈ m, stops f z = false := by
  rw [moveEnd] at h
  split at h
  · rename_i next hscan
    obtain ⟨l, m, l', heq, hm, -⟩ := scan_after he hscan
    split at h
    · rename_i pos hpos
      split at h
      · cases h
      · rename_i hne
        cases h
        -- The label goes in front of `pos`, which is `next` or the one before it.
        obtain ⟨m', l'', hcut, hsub⟩ : ∃ m' l'', bs.flatten = l ++ e :: (m' ++ pos :: l'') ∧
            ∀ z ∈ m', z ∈ m := by
          by_cases hcfi : next.isCFI = true
          · rw [if_pos hcfi] at hpos
            obtain ⟨k, k', hk⟩ := prevInst_cut hpos
            have h₁ : bs.flatten = (l ++ e :: m) ++ next :: l' := by rw [heq]; simp
            have h₂ : bs.flatten = (k ++ [pos]) ++ next :: k' := by rw [hk]; simp
            obtain ⟨hfront, -⟩ := cut_unique (h₁ ▸ hnd) (h₁.symm.trans h₂)
            rcases List.eq_nil_or_concat m with rfl | ⟨m', z, rfl⟩
            · have hpe := List.append_inj_right' hfront rfl
              simp only [List.cons.injEq, and_true] at hpe
              exact absurd hpe.symm hne
            · have hlast : (l ++ e :: m') ++ [z] = k ++ [pos] := by simpa using hfront
              have hz := List.append_inj_right' hlast rfl
              simp only [List.cons.injEq, and_true] at hz
              refine ⟨m', next :: l', ?_, fun z' hz' => by simp [hz']⟩
              rw [heq, hz]
              simp
          · rw [if_neg hcfi] at hpos
            cases hpos
            exact ⟨m, l', heq, fun z hz => hz⟩
        have hcut' := flatten_moveBefore hnd hcut
        exact ⟨shifted_of_cut (fun hl => erase_insertBefore hl pos bs) hcut hcut', l, m',
          pos :: l'', hcut, hcut', fun z hz => hm z (hsub z hz)⟩
    · cases h
  · cases h

/-! ## The range of one landing pad -/

/-- `x` stands in the part of the range that the begin label leaves: up to
and including the first call, which uses the dropped type. -/
def Released (l : List Inst) (b e : Inst) (type : Ty) (x : Inst) : Prop :=
  ∃ c, isCallUsing c type = some true ∧ Before l b c ∧ Before l c e ∧
    (∀ z, Before l b z → Before l z c → z.isCall = false) ∧ (x = c ∨ Before l x c)

/-- What becomes of the range from `b` to `e` when `l` is changed into `l'`:
of the instructions other than the labels that are moved (`fixed`), those in the
range stay there unless the begin label may move (`free`) and leaves them, and
those behind it that stop the end label stay behind it. -/
structure Widened (fixed : Inst → Prop) (l l' : List Inst) (b e : Inst) (f : Fn) (type : Ty)
    (free : Prop) : Prop where
  order : Before l' b e
  kept : ∀ x, fixed x → Before l b x → Before l x e →
    Before l' b x ∧ Before l' x e ∨ free ∧ Released l b e type x
  stopped : ∀ x, fixed x → Before l e x → stops f x = true → Before l' e x

theorem filter_ne_pos {x y : Inst} (h : y ≠ x) : decide (y ≠ x) = true := decide_eq_true h

theorem Shifted.before {bs bs' : List (List Inst)} {x : Inst} (h : Shifted bs bs' x) {y z : Inst}
    (hy : y ≠ x) (hz : z ≠ x) : Before bs'.flatten y z ↔ Before bs.flatten y z :=
  before_of_filter_eq (h.others (fun i => decide (i ≠ x)) (by simp)) (filter_ne_pos hy)
    (filter_ne_pos hz)

theorem Shifted.nodup {bs bs' : List (List Inst)} {x : Inst} (h : Shifted bs bs' x)
    (hnd : bs.flatten.Nodup) : bs'.flatten.Nodup := h.perm.nodup_iff.mpr hnd

/-- The end label has moved over `m`. -/
theorem end_widened {bs bs' : List (List Inst)} {b e : Inst} {f : Fn} {l m l' : List Inst}
    (hnd : bs.flatten.Nodup) (hs : Shifted bs bs' e) (heq : bs.flatten = l ++ e :: (m ++ l'))
    (heq' : bs'.flatten = l ++ (m ++ e :: l')) (hm : ∀ z ∈ m, stops f z = false) (hbe : b ≠ e)
    (h : Before bs.flatten b e) :
    Before bs'.flatten b e ∧
      (∀ x, x ≠ e → Before bs.flatten b x → Before bs.flatten x e →
        Before bs'.flatten b x ∧ Before bs'.flatten x e) ∧
      ∀ x, Before bs.flatten e x → stops f x = true → Before bs'.flatten e x := by
  have hnd' := hs.nodup hnd
  have hfront : ∀ x, Before bs.flatten x e → Before bs'.flatten x e := by
    intro x hx
    rw [heq, before_left_iff (heq ▸ hnd)] at hx
    rw [heq', ← List.append_assoc, before_left_iff (by rw [List.append_assoc]; exact heq' ▸ hnd')]
    exact List.mem_append_left m hx
  refine ⟨hfront b h, fun x hxe hbx hx => ⟨(hs.before hbe hxe).mpr hbx, hfront x hx⟩, ?_⟩
  intro x hx hstop
  rw [heq, before_right_iff (heq ▸ hnd)] at hx
  rw [heq', ← List.append_assoc, before_right_iff (by rw [List.append_assoc]; exact heq' ▸ hnd')]
  refine (List.mem_append.mp hx).resolve_left fun hxm => ?_
  rw [hm x hxm] at hstop
  cases hstop

/-- The begin label has moved behind the call `c`. -/
theorem begin_moved {bs bs' : List (List Inst)} {b e c : Inst} {type : Ty} {l m l' : List Inst}
    (hnd : bs.flatten.Nodup) (hs : Shifted bs bs' b) (heq : bs.flatten = l ++ b :: (m ++ c :: l'))
    (heq' : bs'.flatten = l ++ (m ++ c :: b :: l')) (hm : ∀ z ∈ m, z.isCall = false ∧ z ≠ e)
    (hc : isCallUsing c type = some true) (hbe : b ≠ e) (hce : c ≠ e) (h : Before bs.flatten b e) :
    Before bs'.flatten b e ∧
      ∀ x, x ≠ b → Before bs.flatten b x → Before bs.flatten x e →
        Before bs'.flatten b x ∧ Before bs'.flatten x e ∨ Released bs.flatten b e type x := by
  have hnd' := hs.nodup hnd
  have hright : ∀ x, Before bs.flatten b x ↔ x ∈ m ++ c :: l' := by
    intro x
    rw [heq, before_right_iff (heq ▸ hnd)]
  have hright' : ∀ x, Before bs'.flatten b x ↔ x ∈ l' := by
    intro x
    have hcut : bs'.flatten = (l ++ (m ++ [c])) ++ b :: l' := by rw [heq']; simp
    rw [hcut, before_right_iff (hcut ▸ hnd')]
  have hcutc : bs.flatten = (l ++ b :: m) ++ c :: l' := by rw [heq]; simp
  have hleftc : ∀ x, Before bs.flatten x c ↔ x ∈ l ++ b :: m := by
    intro x
    rw [hcutc, before_left_iff (hcutc ▸ hnd)]
  have he : e ∈ l' := by
    rcases List.mem_append.mp ((hright e).mp h) with he | he
    · exact absurd rfl (hm e he).2
    · rcases List.mem_cons.mp he with he | he
      · exact absurd he.symm hce
      · exact he
  refine ⟨(hright' e).mpr he, fun x hxb hbx hxe => ?_⟩
  by_cases hx : x ∈ l'
  · exact .inl ⟨(hright' x).mpr hx, (hs.before hxb (Ne.symm hbe)).mpr hxe⟩
  · refine .inr ⟨c, hc, (hright c).mpr (by simp), ?_, ?_, ?_⟩
    · rw [hcutc, before_right_iff (hcutc ▸ hnd)]
      exact he
    · intro z hbz hzc
      rw [hright] at hbz
      rw [hleftc] at hzc
      rcases List.mem_append.mp hbz with hz | hz
      · exact (hm z hz).1
      · -- Nothing stands on both sides of `c`.
        rw [hcutc, List.nodup_append] at hnd
        exact absurd rfl (hnd.2.2 z hzc z hz)
    · rcases List.mem_append.mp ((hright x).mp hbx) with hxm | hxc
      · exact .inr ((hleftc x).mpr (by simp [hxm]))
      · exact .inl ((List.mem_cons.mp hxc).resolve_right hx)

/-- Both moves together. -/
structure PadMoved (bs bs' : List (List Inst)) (b e : Inst) (f : Fn) (type : Ty) : Prop where
  erase : b.isLabel = true → e.isLabel = true → erase bs' = erase bs
  others : ∀ p : Inst → Bool, p b = false → p e = false →
    bs'.flatten.filter p = bs.flatten.filter p
  perm : bs'.flatten.Perm bs.flatten
  widened : Before bs.flatten b e →
    Widened (fun x => x ≠ b ∧ x ≠ e) bs.flatten bs'.flatten b e f type (Unguarded bs b type)

theorem pad_moved {bs bs₁ bs₂ : List (List Inst)} {b e : Inst} {f : Fn} {type : Ty}
    (hnd : bs.flatten.Nodup) (hb : b ∈ bs.flatten) (he : e ∈ bs.flatten) (hbe : b ≠ e)
    (hec : e.isCall = false) (h₁ : moveBegin bs b e type = some bs₁)
    (h₂ : moveEnd bs₁ e f = some bs₂) : PadMoved bs bs₂ b e f type := by
  rcases moveBegin_cases hnd hb h₁ with rfl | ⟨hfree, hs₁, l, m, c, l', heq, heq', hm, hc⟩
  · obtain ⟨hs, l, m, l', heq, heq', hm⟩ := moveEnd_cases hnd he h₂
    refine ⟨fun _ hl => hs.erase hl, fun p _ hp => hs.others p hp, hs.perm, fun h => ?_⟩
    obtain ⟨horder, hkept, hstopped⟩ := end_widened hnd hs heq heq' hm hbe h
    exact ⟨horder, fun x hx hbx hxe => .inl (hkept x hx.2 hbx hxe),
      fun x _ hx hstop => hstopped x hx hstop⟩
  · have hnd₁ := hs₁.nodup hnd
    obtain ⟨hs₂, k, n, k', heq₂, heq₂', hn⟩ := moveEnd_cases hnd₁ (hs₁.perm.mem_iff.mpr he) h₂
    refine ⟨fun hbl hel => (hs₂.erase hel).trans (hs₁.erase hbl),
      fun p hpb hpe => (hs₂.others p hpe).trans (hs₁.others p hpb), hs₂.perm.trans hs₁.perm,
      fun h => ?_⟩
    have hce : c ≠ e := by
      intro hce
      rw [← hce, isCall_of_using hc] at hec
      cases hec
    obtain ⟨horder₁, hkept₁⟩ := begin_moved hnd hs₁ heq heq' hm hc hbe hce h
    obtain ⟨horder, hkept, hstopped⟩ := end_widened hnd₁ hs₂ heq₂ heq₂' hn hbe horder₁
    refine ⟨horder, fun x hx hbx hxe => ?_, fun x hx hex hstop => ?_⟩
    · rcases hkept₁ x hx.1 hbx hxe with ⟨hbx₁, hx₁⟩ | hrel
      · exact .inl (hkept x hx.2 hbx₁ hx₁)
      · exact .inr ⟨hfree, hrel⟩
    · exact hstopped x ((hs₁.before (Ne.symm hbe) hx.1).mpr hex) hstop

/-! ## Well-formed functions -/

def Pad.labels (pad : Pad) : List Sym := pad.beginLabels ++ pad.endLabels

/-- What LLVM guarantees of the labels of a machine function. -/
structure MachineFunction.WellFormed (mf : MachineFunction) : Prop where
  nodup : mf.insts.Nodup
  label : ∀ x ∈ mf.insts, x.isLabel = true →
    x.isCall = false ∧ x.isReturn = false ∧ x.isCFI = false ∧ x.syms.length = 1
  once : ∀ x ∈ mf.insts, ∀ y ∈ mf.insts, x.isLabel = true → y.isLabel = true →
    x.syms = y.syms → x = y
  refer : ∀ pad ∈ mf.pads, ∀ sym ∈ pad.labels, ∀ x ∈ mf.insts, sym ∈ x.syms → x.isLabel = true
  distinct : (mf.pads.flatMap Pad.labels).Nodup
  insts_fresh : ∀ x ∈ mf.insts, x.id < mf.fresh ∧ ∀ sym ∈ x.syms, sym < mf.fresh
  pads_fresh : ∀ pad ∈ mf.pads, ∀ sym ∈ pad.labels, sym < mf.fresh

/-- `mf'` has the instructions of `mf` and new labels. -/
structure Adds (mf mf' : MachineFunction) : Prop where
  pads : mf'.pads = mf.pads
  fresh : mf.fresh ≤ mf'.fresh
  erase : erase mf'.blocks = erase mf.blocks
  others : ∀ p : Inst → Bool, (∀ k, mf.fresh ≤ k → p (.label k k) = false) →
    mf'.insts.filter p = mf.insts.filter p
  mem : ∀ x ∈ mf'.insts, x ∈ mf.insts ∨ ∃ k, mf.fresh ≤ k ∧ x = .label k k
  wf : mf.WellFormed → mf'.WellFormed

theorem Adds.refl (mf : MachineFunction) : Adds mf mf :=
  ⟨rfl, Nat.le_refl _, rfl, fun _ _ => rfl, fun _ hx => .inl hx, fun h => h⟩

theorem Adds.trans {mf mf' mf'' : MachineFunction} (h : Adds mf mf') (h' : Adds mf' mf'') :
    Adds mf mf'' := by
  refine ⟨h'.pads.trans h.pads, Nat.le_trans h.fresh h'.fresh, h'.erase.trans h.erase,
    fun p hp => ?_, fun x hx => ?_, fun hwf => h'.wf (h.wf hwf)⟩
  · rw [h'.others p fun k hk => hp k (Nat.le_trans h.fresh hk), h.others p hp]
  · rcases h'.mem x hx with hx | ⟨k, hk, hx⟩
    · exact h.mem x hx
    · exact .inr ⟨k, Nat.le_trans h.fresh hk, hx⟩

/-- Inserting one instruction somewhere, or nowhere. -/
structure Puts (i : Inst) (bs bs' : List (List Inst)) : Prop where
  erase : i.isLabel = true → Cancel.erase bs' = Cancel.erase bs
  others : ∀ p : Inst → Bool, p i = false → bs'.flatten.filter p = bs.flatten.filter p
  perm : bs'.flatten.Perm (i :: bs.flatten) ∨ bs'.flatten = bs.flatten

theorem puts_head (i : Inst) (bs : List (List Inst)) : Puts i bs (bs.modifyHead (i :: ·)) := by
  match bs with
  | [] => exact ⟨fun _ => rfl, fun _ _ => rfl, .inr rfl⟩
  | b :: bs =>
    refine ⟨fun hi => ?_, fun p hp => ?_, .inl (List.Perm.refl _)⟩
    · simp [Cancel.erase, hi]
    · simp [hp]

theorem puts_end (i : Inst) : ∀ (k : Nat) (bs : List (List Inst)),
    Puts i bs (bs.modify k (· ++ [i]))
  | _, [] => by
    rw [List.modify_nil]
    exact ⟨fun _ => rfl, fun _ _ => rfl, .inr rfl⟩
  | 0, b :: bs => by
    rw [List.modify_zero_cons]
    refine ⟨fun hi => ?_, fun p hp => ?_, .inl ?_⟩
    · simp [Cancel.erase, hi]
    · simp [hp]
    · simp
  | k + 1, b :: bs => by
    obtain ⟨herase, hothers, hperm⟩ := puts_end i k bs
    rw [List.modify_succ_cons]
    refine ⟨fun hi => ?_, fun p hp => ?_, ?_⟩
    · exact congrArg (b.filter (fun i => !i.isLabel) :: ·) (herase hi)
    · rw [List.flatten_cons, List.flatten_cons, List.filter_append, List.filter_append,
        hothers p hp]
    · rw [List.flatten_cons, List.flatten_cons]
      rcases hperm with hperm | hperm
      · exact .inl ((hperm.append_left b).trans List.perm_middle)
      · exact .inr (by rw [hperm])

theorem adds_create {mf : MachineFunction} {bs : List (List Inst)}
    (h : Puts (.label mf.fresh mf.fresh) mf.blocks bs) :
    Adds mf { mf with blocks := bs, fresh := mf.fresh + 1 } := by
  have hmem : ∀ x ∈ bs.flatten, x ∈ mf.insts ∨ x = .label mf.fresh mf.fresh := by
    intro x hx
    rcases h.perm with hp | hp
    · rw [hp.mem_iff, List.mem_cons] at hx
      exact hx.symm
    · rw [hp] at hx
      exact .inl hx
  refine ⟨rfl, Nat.le_succ _, h.erase rfl, fun p hp => h.others p (hp _ (Nat.le_refl _)),
    fun x hx => (hmem x hx).imp_right fun hx => ⟨mf.fresh, Nat.le_refl _, hx⟩, fun hwf => ?_⟩
  have hnew : ∀ x ∈ mf.insts, x.syms ≠ (Inst.label mf.fresh mf.fresh).syms := by
    intro x hx heq
    exact Nat.lt_irrefl _ ((hwf.insts_fresh x hx).2 mf.fresh (by rw [heq]; simp [Inst.label]))
  refine ⟨?_, fun x hx hl => ?_, fun x hx y hy hlx hly heq => ?_,
    fun pad hpad sym hsym x hx hs => ?_, hwf.distinct, fun x hx => ?_,
    fun pad hpad sym hsym => Nat.lt_succ_of_lt (hwf.pads_fresh pad hpad sym hsym)⟩
  · rcases h.perm with hp | hp
    · refine hp.nodup_iff.mpr (List.nodup_cons.mpr ⟨fun hin => ?_, hwf.nodup⟩)
      exact Nat.lt_irrefl _ (hwf.insts_fresh _ hin).1
    · rw [MachineFunction.insts, hp]
      exact hwf.nodup
  · rcases hmem x hx with hx | rfl
    · exact hwf.label x hx hl
    · exact ⟨rfl, rfl, rfl, rfl⟩
  · rcases hmem x hx with hx | rfl
    · rcases hmem y hy with hy | rfl
      · exact hwf.once x hx y hy hlx hly heq
      · exact absurd heq (hnew x hx)
    · rcases hmem y hy with hy | rfl
      · exact absurd heq.symm (hnew y hy)
      · rfl
  · rcases hmem x hx with hx | rfl
    · exact hwf.refer pad hpad sym hsym x hx hs
    · rfl
  · rcases hmem x hx with hx | rfl
    · obtain ⟨hid, hs⟩ := hwf.insts_fresh x hx
      exact ⟨Nat.lt_succ_of_lt hid, fun sym hsym => Nat.lt_succ_of_lt (hs sym hsym)⟩
    · exact ⟨Nat.lt_succ_self _, by simp [Inst.label]⟩

theorem adds_label {mf : MachineFunction} (labels : List Sym)
    {place : Inst → List (List Inst) → List (List Inst)}
    (h : Puts (.label mf.fresh mf.fresh) mf.blocks (place (.label mf.fresh mf.fresh) mf.blocks)) :
    Adds mf (getOrCreateLabel mf labels place).1 := by
  match labels with
  | _ :: _ => exact .refl mf
  | [] => exact adds_create h

theorem adds_labelled (mf : MachineFunction) (pad : Pad) : Adds mf (labelled mf pad).1 := by
  rw [labelled]
  dsimp only
  exact (adds_label pad.beginLabels (puts_head _ _)).trans
    (adds_label pad.endLabels (puts_end _ _ _))

/-! ## One step of the pass -/

/-- The instruction refers to a label that is moved for this pad. -/
def touches (pad : Pad) (x : Inst) : Bool :=
  pad.beginLabels.head?.any (x.syms.contains ·) || pad.endLabels.head?.any (x.syms.contains ·)

/-- An instruction from before the numbering reached `n`, not touched for
`pads`. -/
def stays (pads : List Pad) (n : Nat) (x : Inst) : Bool :=
  decide (x.id < n) && pads.all (!touches · x)

/-- The labels of a pad are its own first ones or new. -/
inductive Own (mf : MachineFunction) (labels : List Sym) (sym : Sym) : Prop
  | given (h : labels.head? = some sym)
  | new (h : mf.fresh ≤ sym)

theorem own_begin (mf : MachineFunction) (pad : Pad) :
    Own mf pad.beginLabels (labelled mf pad).2.1 := by
  rw [labelled]
  dsimp only
  match pad.beginLabels with
  | sym :: _ => exact .given rfl
  | [] => exact .new (Nat.le_refl _)

theorem own_end (mf : MachineFunction) (pad : Pad) :
    Own mf pad.endLabels (labelled mf pad).2.2 := by
  rw [labelled]
  dsimp only
  match pad.endLabels with
  | sym :: _ => exact .given rfl
  | [] =>
    refine .new ?_
    match pad.beginLabels with
    | _ :: _ => exact Nat.le_refl _
    | [] => exact Nat.le_succ _

theorem own_ne {mf : MachineFunction} (hwf : mf.WellFormed) {pad : Pad} (hpad : pad ∈ mf.pads) :
    (labelled mf pad).2.1 ≠ (labelled mf pad).2.2 := by
  have hnd : pad.labels.Nodup := (List.nodup_flatMap.mp hwf.distinct).1 pad hpad
  have hlt := hwf.pads_fresh pad hpad
  rw [labelled]
  dsimp only
  rw [Pad.labels] at hnd hlt
  match hb : pad.beginLabels, he : pad.endLabels with
  | b :: bs, e :: es =>
    rw [hb, he] at hnd
    exact (List.nodup_append.mp hnd).2.2 b (by simp) e (by simp)
  | b :: bs, [] =>
    have := hlt b (by simp [hb])
    exact Nat.ne_of_lt this
  | [], e :: es =>
    have := hlt e (by simp [he])
    exact Nat.ne_of_gt this
  | [], [] => exact Nat.ne_of_lt (Nat.lt_succ_self _)

section
variable {mf : MachineFunction} (hwf : mf.WellFormed) {pad : Pad} (hpad : pad ∈ mf.pads)
  {labels : List Sym} (hlabels : ∀ sym ∈ labels, sym ∈ pad.labels) {sym : Sym}
  (hown : Own mf labels sym) {x : Inst} (hx : x ∈ (labelled mf pad).1.insts) (hsym : sym ∈ x.syms)
include hwf hpad hlabels hown hx hsym

/-- The instruction that carries a label of the pad is an EH label. -/
theorem label_of_own : x.isLabel = true := by
  have hadds := adds_labelled mf pad
  rcases hadds.mem x hx with hmem | ⟨k, -, rfl⟩
  · cases hown with
    | given h =>
      exact hwf.refer pad hpad sym (hlabels sym (List.mem_of_mem_head? h)) x hmem hsym
    | new h => exact absurd ((hwf.insts_fresh x hmem).2 sym hsym) (Nat.not_lt.mpr h)
  · rfl

omit hpad hlabels in
/-- It is touched for the pad, or it is new. -/
theorem not_stays_of_own (htouch : labels.head? = some sym → touches pad x = true) {n : Nat}
    (hn : n ≤ mf.fresh) : stays [pad] n x = false := by
  rcases (adds_labelled mf pad).mem x hx with hmem | ⟨k, hk, rfl⟩
  · cases hown with
    | given h => simp [stays, htouch h]
    | new h => exact absurd ((hwf.insts_fresh x hmem).2 sym hsym) (Nat.not_lt.mpr h)
  · have hlt : ¬ k < n := by omega
    simp [stays, Inst.label, hlt]

end

theorem touches_begin {pad : Pad} {x : Inst} {sym : Sym} (hsym : sym ∈ x.syms)
    (h : pad.beginLabels.head? = some sym) : touches pad x = true := by
  simp [touches, h, hsym]

theorem touches_end {pad : Pad} {x : Inst} {sym : Sym} (hsym : sym ∈ x.syms)
    (h : pad.endLabels.head? = some sym) : touches pad x = true := by
  simp [touches, h, hsym]

theorem WellFormed_of_perm {mf : MachineFunction} (hwf : mf.WellFormed) {bs : List (List Inst)}
    (hp : bs.flatten.Perm mf.insts) : MachineFunction.WellFormed { mf with blocks := bs } := by
  have hmem : ∀ {x}, x ∈ bs.flatten → x ∈ mf.insts := fun hx => hp.mem_iff.mp hx
  exact ⟨hp.nodup_iff.mpr hwf.nodup, fun x hx => hwf.label x (hmem hx),
    fun x hx y hy => hwf.once x (hmem hx) y (hmem hy),
    fun pad hpad sym hsym x hx => hwf.refer pad hpad sym hsym x (hmem hx), hwf.distinct,
    fun x hx => hwf.insts_fresh x (hmem hx), hwf.pads_fresh⟩

/-- The instructions that carry the two labels of a pad. -/
structure Bounds (mf : MachineFunction) (labels : Sym × Sym) (b e : Inst) : Prop where
  first : findInst mf (·.syms.contains labels.1) = some b
  last : findInst mf (·.syms.contains labels.2) = some e

theorem findInst_mem {mf : MachineFunction} {sym : Sym} {x : Inst}
    (h : findInst mf (·.syms.contains sym) = some x) : x ∈ mf.insts ∧ sym ∈ x.syms := by
  have hs := List.find?_some h
  rw [List.contains_iff_mem] at hs
  exact ⟨List.mem_of_find?_eq_some h, hs⟩

/-- What a step does to the function, seen from the instructions that are
not touched for `qs`. -/
structure Stepped (qs : List Pad) (mf mf' : MachineFunction) : Prop where
  pads : mf'.pads = mf.pads
  fresh : mf.fresh ≤ mf'.fresh
  erase : erase mf'.blocks = erase mf.blocks
  wf : mf'.WellFormed
  others : ∀ p : Inst → Bool, (∀ x, p x = true → stays qs mf.fresh x = true) →
    mf'.insts.filter p = mf.insts.filter p
  mem : ∀ x ∈ mf'.insts, x ∈ mf.insts ∨ ∃ k, mf.fresh ≤ k ∧ x = .label k k

theorem Stepped.refl {mf : MachineFunction} (hwf : mf.WellFormed) (qs : List Pad) :
    Stepped qs mf mf :=
  ⟨rfl, Nat.le_refl _, rfl, hwf, fun _ _ => rfl, fun _ hx => .inl hx⟩

/-- The labels of a pad, in the function that has them. -/
theorem bounds_spec {mf : MachineFunction} (hwf : mf.WellFormed) {pad : Pad} (hpad : pad ∈ mf.pads)
    {b e : Inst} (h : Bounds (labelled mf pad).1 (labelled mf pad).2 b e) :
    b ∈ (labelled mf pad).1.insts ∧ e ∈ (labelled mf pad).1.insts ∧ b ≠ e ∧ b.isLabel = true ∧
      e.isLabel = true ∧ stays [pad] mf.fresh b = false ∧ stays [pad] mf.fresh e = false := by
  obtain ⟨hb, hbs⟩ := findInst_mem h.first
  obtain ⟨he, hes⟩ := findInst_mem h.last
  have hsub : ∀ sym ∈ pad.beginLabels, sym ∈ pad.labels := fun sym hs => List.mem_append_left _ hs
  have hsub' : ∀ sym ∈ pad.endLabels, sym ∈ pad.labels := fun sym hs => List.mem_append_right _ hs
  have hbl := label_of_own hwf hpad hsub (own_begin mf pad) hb hbs
  have hel := label_of_own hwf hpad hsub' (own_end mf pad) he hes
  refine ⟨hb, he, ?_, hbl, hel,
    not_stays_of_own hwf (own_begin mf pad) hb hbs (touches_begin hbs) (Nat.le_refl _),
    not_stays_of_own hwf (own_end mf pad) he hes (touches_end hes) (Nat.le_refl _)⟩
  rintro rfl
  -- One label has one operand, and the two symbols differ.
  have hone := (((adds_labelled mf pad).wf hwf).label b hb hbl).2.2.2
  obtain ⟨sym, hsym⟩ := List.length_eq_one_iff.mp hone
  rw [hsym, List.mem_singleton] at hbs hes
  exact own_ne hwf hpad (hbs.trans hes.symm)

theorem moveLabels_spec {mf mf' : MachineFunction} {labels : Sym × Sym} {f : Fn} {type : Ty}
    (h : moveLabels mf labels.1 labels.2 f type = some mf') :
    ∃ b e bs bs', Bounds mf labels b e ∧ moveBegin mf.blocks b e type = some bs ∧
      moveEnd bs e f = some bs' ∧ mf' = { mf with blocks := bs' } := by
  rw [moveLabels] at h
  split at h
  · rename_i b e hb he
    obtain ⟨bs', hmove, rfl⟩ := Option.map_eq_some_iff.mp h
    obtain ⟨bs, hbegin, hend⟩ := Option.bind_eq_some_iff.mp hmove
    exact ⟨b, e, bs, bs', ⟨hb, he⟩, hbegin, hend, rfl⟩
  · cases h

theorem step_spec {mf mf' : MachineFunction} (hwf : mf.WellFormed) {pad : Pad}
    (hpad : pad ∈ mf.pads) (h : processPad mf pad = some mf') :
    Stepped [pad] mf mf' ∧ ∀ f type, dropped mf pad = some (f, type) →
      ∃ b e, Bounds (labelled mf pad).1 (labelled mf pad).2 b e ∧
        PadMoved (labelled mf pad).1.blocks mf'.blocks b e f type := by
  rw [processPad] at h
  split at h
  · cases h
  · split at h
    · rename_i hnone
      cases h
      refine ⟨.refl hwf _, fun f type hd => ?_⟩
      rw [dropped, hnone] at hd
      cases hd
    · obtain ⟨⟨f, type⟩, hd, hmove⟩ := Option.bind_eq_some_iff.mp h
      obtain ⟨b, e, bs, bs', hbounds, hbegin, hend, rfl⟩ := moveLabels_spec hmove
      have hadds := adds_labelled mf pad
      have hwf₁ := hadds.wf hwf
      obtain ⟨hb, he, hbe, hbl, hel, hsb, hse⟩ := bounds_spec hwf hpad hbounds
      have hmoved := pad_moved hwf₁.nodup hb he hbe (hwf₁.label e he hel).1 hbegin hend
      refine ⟨⟨hadds.pads, hadds.fresh, (hmoved.erase hbl hel).trans hadds.erase,
        WellFormed_of_perm hwf₁ hmoved.perm, fun p hp => ?_,
        fun x hx => hadds.mem x (hmoved.perm.mem_iff.mp hx)⟩, fun f' type' hd' => ?_⟩
      · have hdrop : ∀ x, stays [pad] mf.fresh x = false → p x = false := by
          intro x hx
          by_contra hpx
          rw [hp x (by simpa using hpx)] at hx
          cases hx
        refine (hmoved.others p (hdrop b hsb) (hdrop e hse)).trans (hadds.others p fun k hk => ?_)
        refine hdrop _ ?_
        have hlt : ¬ k < mf.fresh := by omega
        simp [stays, Inst.label, hlt]
      · rw [hd] at hd'
        cases hd'
        exact ⟨b, e, hbounds, hmoved⟩

/-! ## The whole pass -/

theorem stays_cons {q : Pad} {qs : List Pad} {n : Nat} {x : Inst} :
    stays (q :: qs) n x = true ↔ stays [q] n x = true ∧ stays qs n x = true := by
  simp only [stays, List.all_cons, List.all_nil, Bool.and_true, Bool.and_eq_true]
  tauto

theorem stays_mono {qs : List Pad} {m n : Nat} (h : m ≤ n) {x : Inst} (hx : stays qs m x = true) :
    stays qs n x = true := by
  simp only [stays, Bool.and_eq_true, decide_eq_true_eq] at hx ⊢
  exact ⟨Nat.lt_of_lt_of_le hx.1 h, hx.2⟩

theorem Stepped.cons {q : Pad} {qs : List Pad} {mf m mf' : MachineFunction} (h : Stepped [q] mf m)
    (h' : Stepped qs m mf') : Stepped (q :: qs) mf mf' := by
  refine ⟨h'.pads.trans h.pads, Nat.le_trans h.fresh h'.fresh, h'.erase.trans h.erase, h'.wf,
    fun p hp => ?_, fun x hx => ?_⟩
  · rw [h'.others p fun x hx => stays_mono h.fresh (stays_cons.mp (hp x hx)).2,
      h.others p fun x hx => (stays_cons.mp (hp x hx)).1]
  · rcases h'.mem x hx with hx | ⟨k, hk, hx⟩
    · exact h.mem x hx
    · exact .inr ⟨k, Nat.le_trans h.fresh hk, hx⟩

theorem processPads_cons {mf mf' : MachineFunction} {q : Pad} {qs : List Pad}
    (h : processPads mf (q :: qs) = some mf') :
    ∃ m, processPad mf q = some m ∧ processPads m qs = some mf' := by
  rw [processPads, List.foldlM_cons] at h
  exact Option.bind_eq_some_iff.mp h

theorem processPads_append {mf mf' : MachineFunction} : ∀ {pre post : List Pad},
    processPads mf (pre ++ post) = some mf' →
      ∃ m, processPads mf pre = some m ∧ processPads m post = some mf' := by
  intro pre post h
  rw [processPads, List.foldlM_append] at h
  exact Option.bind_eq_some_iff.mp h

theorem run_spec : ∀ {qs : List Pad} {mf mf' : MachineFunction}, mf.WellFormed →
    (∀ q ∈ qs, q ∈ mf.pads) → processPads mf qs = some mf' → Stepped qs mf mf'
  | [], mf, mf', hwf, _, h => by
    cases h
    exact .refl hwf []
  | q :: qs, mf, mf', hwf, hqs, h => by
    obtain ⟨m, hstep, hrest⟩ := processPads_cons h
    have hs := (step_spec hwf (hqs q (by simp)) hstep).1
    refine hs.cons (run_spec hs.wf (fun p hp => ?_) hrest)
    rw [hs.pads]
    exact hqs p (by simp [hp])

/-- The order of two instructions that a run leaves alone. -/
theorem Stepped.before {qs : List Pad} {mf mf' : MachineFunction} (h : Stepped qs mf mf')
    {x y : Inst} (hx : stays qs mf.fresh x = true) (hy : stays qs mf.fresh y = true) :
    Before mf'.insts x y ↔ Before mf.insts x y :=
  before_of_filter_eq (h.others (stays qs mf.fresh) fun _ h => h) hx hy

theorem stays_of_mem {mf : MachineFunction} (hwf : mf.WellFormed) {qs : List Pad} {x : Inst}
    (hx : x ∈ mf.insts) (h : ∀ q ∈ qs, touches q x = false) : stays qs mf.fresh x = true := by
  simp only [stays, Bool.and_eq_true, decide_eq_true_eq, List.all_eq_true, Bool.not_eq_true']
  exact ⟨(hwf.insts_fresh x hx).1, h⟩

/-- A touched instruction is a label, so no call. -/
theorem not_call_of_touches {mf : MachineFunction} (hwf : mf.WellFormed) {q : Pad}
    (hq : q ∈ mf.pads) {x : Inst} (hx : x ∈ mf.insts) (h : touches q x = true) :
    x.isCall = false := by
  simp only [touches, Bool.or_eq_true, Option.any_eq_true, List.contains_iff_mem] at h
  refine (hwf.label x hx ?_).1
  rcases h with ⟨sym, hsym, hmem⟩ | ⟨sym, hsym, hmem⟩
  · exact hwf.refer q hq sym (List.mem_append_left _ (List.mem_of_mem_head? hsym)) x hx hmem
  · exact hwf.refer q hq sym (List.mem_append_right _ (List.mem_of_mem_head? hsym)) x hx hmem

/-! ### The drop call of a pad does not depend on the labels -/

theorem find?_of_eq {p q : Inst → Bool} : ∀ {l : List Inst}, (∀ x ∈ l, p x = q x) →
    l.find? p = l.find? q
  | [], _ => rfl
  | x :: l, h => by
    rw [List.find?_cons, List.find?_cons, h x (by simp),
      find?_of_eq fun y hy => h y (List.mem_cons_of_mem x hy)]

theorem dropCall_erase {mf : MachineFunction} (hwf : mf.WellFormed) (pad : Pad) :
    dropCall mf pad = (erase mf.blocks)[pad.block]?.bind fun block =>
      block.find? fun i => isCallTo i fun f => f.any fun f => namesDrop f.name := by
  rw [dropCall, erase, List.getElem?_map]
  match hb : mf.blocks[pad.block]? with
  | none => rfl
  | some block =>
    simp only [Option.bind_some, Option.map_some]
    rw [List.find?_filter]
    refine find?_of_eq fun x hx => ?_
    have hmem : x ∈ mf.insts := List.mem_flatten.mpr ⟨block, List.mem_of_getElem? hb, hx⟩
    cases hl : x.isLabel with
    | false => simp
    | true =>
      have hcall := (hwf.label x hmem hl).1
      rw [Inst.isCall, Option.isSome_eq_false_iff, Option.isNone_iff_eq_none] at hcall
      simp [isCallTo, hcall]

theorem dropped_eq {qs : List Pad} {mf mf' : MachineFunction} (hwf : mf.WellFormed)
    (h : Stepped qs mf mf') (pad : Pad) : dropped mf' pad = dropped mf pad := by
  rw [dropped, dropped, dropCall_erase h.wf, dropCall_erase hwf, h.erase]

/-! ### One pad among the others -/

/-- No pad but its own touches a label of `pad`. -/
theorem untouched_of_own {mf : MachineFunction} {pre post : List Pad} {pad : Pad}
    (hwf : mf.WellFormed) (hpads : mf.pads = pre ++ pad :: post) {labels : List Sym}
    (hlabels : ∀ sym ∈ labels, sym ∈ pad.labels) {sym : Sym} {m : MachineFunction}
    (hfresh : mf.fresh ≤ m.fresh) (hown : Own m labels sym) {x : Inst}
    (hx : x.syms = [sym]) {q : Pad} (hq : q ∈ pre ∨ q ∈ post) : touches q x = false := by
  have hmem : q ∈ mf.pads := by
    rw [hpads]
    rcases hq with hq | hq
    · exact List.mem_append_left _ hq
    · exact List.mem_append_right _ (List.mem_cons_of_mem _ hq)
  have hne : ∀ sym' ∈ q.labels, sym' ≠ sym := by
    intro sym' hsym' heq
    subst heq
    cases hown with
    | new h =>
      exact absurd (hwf.pads_fresh q hmem sym' hsym') (Nat.not_lt.mpr (Nat.le_trans hfresh h))
    | given h =>
      have hpad := hlabels sym' (List.mem_of_mem_head? h)
      have hd := hwf.distinct
      rw [hpads, List.flatMap_append, List.flatMap_cons, List.nodup_append] at hd
      rcases hq with hq | hq
      · exact hd.2.2 sym' (List.mem_flatMap.mpr ⟨q, hq, hsym'⟩) sym'
          (List.mem_append_left _ hpad) rfl
      · exact (List.nodup_append.mp hd.2.1).2.2 sym' hpad sym'
          (List.mem_flatMap.mpr ⟨q, hq, hsym'⟩) rfl
  simp only [touches, hx, Bool.or_eq_false_iff, Option.any_eq_false, List.contains_eq_mem,
    List.mem_singleton, decide_eq_false_iff_not]
  exact ⟨fun sym' h => hne sym' (List.mem_append_left _ (List.mem_of_mem_head? h)),
    fun sym' h => hne sym' (List.mem_append_right _ (List.mem_of_mem_head? h))⟩

/-- An instruction that no pad touches. -/
def Fixed (mf : MachineFunction) (x : Inst) : Prop := ∀ q ∈ mf.pads, touches q x = false

/-- The pads that come later leave the range alone. -/
theorem Widened.later {qs : List Pad} {l : List Inst} {m mf' : MachineFunction}
    {b e : Inst} {f : Fn} {type : Ty} {free : Prop} {fixed : Inst → Prop} (hs : Stepped qs m mf')
    (hwf : m.WellFormed) (hb : stays qs m.fresh b = true) (he : stays qs m.fresh e = true)
    (h : Widened (fun _ => True) l m.insts b e f type free)
    (hfixed : ∀ x, fixed x → ∀ q ∈ qs, touches q x = false) :
    Widened fixed l mf'.insts b e f type free := by
  refine ⟨(hs.before hb he).mpr h.order, fun x hx hbx hxe => ?_, fun x hx hex hstop => ?_⟩
  · refine (h.kept x trivial hbx hxe).imp_left fun ⟨h₁, h₂⟩ => ?_
    have hsx := stays_of_mem hwf h₁.mem.2 (hfixed x hx)
    exact ⟨(hs.before hb hsx).mpr h₁, (hs.before hsx he).mpr h₂⟩
  · have h₁ := h.stopped x trivial hex hstop
    exact (hs.before he (stays_of_mem hwf h₁.mem.2 (hfixed x hx))).mpr h₁

/-- The pads that came before have left the order of the input. -/
theorem Widened.earlier {qs : List Pad} {l' : List Inst} {mf m : MachineFunction}
    {b e : Inst} {f : Fn} {type : Ty} {free : Prop} (hs : Stepped qs mf m) (hwf : mf.WellFormed)
    (hqs : ∀ q ∈ qs, q ∈ mf.pads) (hb : stays qs mf.fresh b = true)
    (he : stays qs mf.fresh e = true) (h : Widened (Fixed mf) m.insts l' b e f type free) :
    Widened (Fixed mf) mf.insts l' b e f type free := by
  have hstay : ∀ x, x ∈ mf.insts → Fixed mf x → stays qs mf.fresh x = true :=
    fun x hx hf => stays_of_mem hwf hx fun q hq => hf q (hqs q hq)
  have hcall : ∀ x, x ∈ mf.insts → x.isCall = true → stays qs mf.fresh x = true := by
    intro x hx hc
    refine stays_of_mem hwf hx fun q hq => ?_
    by_contra ht
    rw [not_call_of_touches hwf (hqs q hq) hx (by simpa using ht)] at hc
    cases hc
  refine ⟨h.order, fun x hx hbx hxe => ?_, fun x hx hex hstop => ?_⟩
  · have hsx := hstay x hbx.mem.2 hx
    refine (h.kept x hx ((hs.before hb hsx).mpr hbx) ((hs.before hsx he).mpr hxe)).imp_right ?_
    rintro ⟨hfree, c, hc, hbc, hce, hfirst, hxc⟩
    have hcin : c ∈ mf.insts := by
      rcases hs.mem c hbc.mem.2 with hin | ⟨k, -, rfl⟩
      · exact hin
      · cases isCall_of_using hc
    have hsc := hcall c hcin (isCall_of_using hc)
    refine ⟨hfree, c, hc, (hs.before hb hsc).mp hbc, (hs.before hsc he).mp hce, fun z hbz hzc => ?_,
      hxc.imp_right fun h => (hs.before hsx hsc).mp h⟩
    by_contra hz
    have hzcall : z.isCall = true := by simpa using hz
    have hsz := hcall z hbz.mem.2 hzcall
    rw [hfirst z ((hs.before hb hsz).mpr hbz) ((hs.before hsz hsc).mpr hzc)] at hzcall
    cases hzcall
  · have hsx := hstay x hex.mem.2 hx
    exact h.stopped x hx ((hs.before he hsx).mpr hex) hstop

theorem Widened.all {l l' : List Inst} {b e : Inst} {f : Fn} {type : Ty} {free : Prop}
    (hnd : l.Nodup) (hbe : Before l b e)
    (h : Widened (fun x => x ≠ b ∧ x ≠ e) l l' b e f type free) :
    Widened (fun _ => True) l l' b e f type free := by
  refine ⟨h.order, fun x _ hbx hxe => ?_, fun x _ hex hstop => ?_⟩
  · exact h.kept x ⟨(hbx.ne hnd).symm, hxe.ne hnd⟩ hbx hxe
  · refine h.stopped x ⟨?_, (hex.ne hnd).symm⟩ hex hstop
    rintro rfl
    exact hbe.asymm hnd hex

theorem labelled_given (m : MachineFunction) {pad : Pad} (hb : pad.beginLabels ≠ [])
    (he : pad.endLabels ≠ []) :
    (labelled m pad).1 = m ∧ (labelled m pad).2.1 ∈ pad.labels ∧
      (labelled m pad).2.2 ∈ pad.labels := by
  rw [labelled, Pad.labels]
  dsimp only
  match hbl : pad.beginLabels, hel : pad.endLabels with
  | _ :: _, _ :: _ => exact ⟨rfl, by simp [getOrCreateLabel], by simp [getOrCreateLabel]⟩
  | [], _ => exact absurd hbl hb
  | _, [] => exact absurd hel he

theorem syms_of_label {mf : MachineFunction} (hwf : mf.WellFormed) {x : Inst} (hx : x ∈ mf.insts)
    (hl : x.isLabel = true) {sym : Sym} (hsym : sym ∈ x.syms) : x.syms = [sym] := by
  obtain ⟨s, hs⟩ := List.length_eq_one_iff.mp (hwf.label x hx hl).2.2.2
  rw [hs, List.mem_singleton] at hsym
  rw [hs, hsym]

/-- An EH label is found by its symbol. -/
theorem findInst_label {mf : MachineFunction} (hwf : mf.WellFormed) {pad : Pad}
    (hpad : pad ∈ mf.pads) {sym : Sym} (hsym : sym ∈ pad.labels) {x : Inst} (hx : x ∈ mf.insts)
    (hxs : sym ∈ x.syms) :
    findInst mf (·.syms.contains sym) = some x := by
  cases hfind : findInst mf (·.syms.contains sym) with
  | none =>
    have hno := List.find?_eq_none.mp hfind x hx
    rw [List.contains_iff_mem] at hno
    exact absurd hxs hno
  | some y =>
    obtain ⟨hy, hys⟩ := findInst_mem hfind
    have hlx := hwf.refer pad hpad sym hsym x hx hxs
    have hly := hwf.refer pad hpad sym hsym y hy hys
    rw [hwf.once y hy x hx hly hlx
      (by rw [syms_of_label hwf hy hly hys, syms_of_label hwf hx hlx hxs])]

/-- The instruction with a pad's label has had it from the start. -/
theorem findInst_earlier {qs : List Pad} {mf m : MachineFunction} (hs : Stepped qs mf m)
    (hwf : mf.WellFormed) {pad : Pad} (hpad : pad ∈ mf.pads) {sym : Sym} (hsym : sym ∈ pad.labels)
    {x : Inst} (h : findInst m (·.syms.contains sym) = some x) :
    findInst mf (·.syms.contains sym) = some x := by
  obtain ⟨hx, hxs⟩ := findInst_mem h
  have hin : x ∈ mf.insts := by
    rcases hs.mem x hx with hin | ⟨k, hk, rfl⟩
    · exact hin
    · have hlt := hwf.pads_fresh pad hpad sym hsym
      simp only [Inst.label, List.mem_singleton] at hxs
      exact absurd (hxs ▸ hlt) (Nat.not_lt.mpr hk)
  exact findInst_label hwf hpad hsym hin hxs

/-- **IngerCancel only widens protection.** When the pass runs to the end,
the function without its EH labels is as before. For every landing pad with a
drop call (`f` is the drop function, `type` the dropped type) let `m` be the
function when the pass comes to that pad, and `m₀` the input or, where the pad
has no labels yet, `m` with the new ones. If the pad's begin label `b` stood in
front of its end label `e`, it still does; an instruction that stood between them
still does, unless it is in the prefix up to and including the first call of the
range, that call uses the dropped type and the instruction in front of the label
at that time was no such call; and a call of the drop function, a return or a CFI
instruction that stood behind `e` still does. (The labels that the pass moves
for other pads are not counted as instructions here.) -/
theorem protection_widened (mf mf' : MachineFunction) (hwf : mf.WellFormed)
    (h : runOnMachineFunction mf = some mf') :
    erase mf'.blocks = erase mf.blocks ∧
    (namesDrop mf.name = true → mf' = mf) ∧
    (namesDrop mf.name = false →
      ∀ pre pad post f type, mf.pads = pre ++ pad :: post → dropped mf pad = some (f, type) →
        ∃ m m₀ b e, processPads mf pre = some m ∧
          (m₀ = mf ∨ (pad.beginLabels = [] ∨ pad.endLabels = []) ∧ m₀ = (labelled m pad).1) ∧
          Bounds m₀ (labelled m pad).2 b e ∧
          (Before m₀.insts b e → Widened (Fixed mf) m₀.insts mf'.insts b e f type
            (Unguarded (labelled m pad).1.blocks b type))) := by
  rw [runOnMachineFunction] at h
  split at h
  · rename_i hname
    cases h
    exact ⟨rfl, fun _ => rfl, fun hf => absurd hname (by simp [hf])⟩
  · rename_i hname
    refine ⟨(run_spec hwf (fun q hq => hq) h).erase, fun ht => absurd ht hname, ?_⟩
    intro _ pre pad post f type hpads hd
    have hpad : pad ∈ mf.pads := by simp [hpads]
    have hpre : ∀ q ∈ pre, q ∈ mf.pads := fun q hq => by simp [hpads, hq]
    rw [hpads] at h
    obtain ⟨m, hm, hrest⟩ := processPads_append h
    obtain ⟨m', hstep, hpost⟩ := processPads_cons hrest
    have hs := run_spec hwf hpre hm
    have hpad' : pad ∈ m.pads := hs.pads ▸ hpad
    obtain ⟨hs', hmoves⟩ := step_spec hs.wf hpad' hstep
    have hs'' : Stepped post m' mf' := run_spec hs'.wf
      (fun q hq => by rw [hs'.pads, hs.pads, hpads]; simp [hq]) hpost
    obtain ⟨b, e, hbounds, hmoved⟩ := hmoves f type (by rw [dropped_eq hwf hs, hd])
    obtain ⟨hb, he, -, hbl, hel, -, -⟩ := bounds_spec hs.wf hpad' hbounds
    have hwf₁ := (adds_labelled m pad).wf hs.wf
    have hbsyms := syms_of_label hwf₁ hb hbl (findInst_mem hbounds.first).2
    have hesyms := syms_of_label hwf₁ he hel (findInst_mem hbounds.last).2
    have hbfree : ∀ q, q ∈ pre ∨ q ∈ post → touches q b = false := fun q hq =>
      untouched_of_own hwf hpads (fun sym hs => List.mem_append_left _ hs) hs.fresh
        (own_begin m pad) hbsyms hq
    have hefree : ∀ q, q ∈ pre ∨ q ∈ post → touches q e = false := fun q hq =>
      untouched_of_own hwf hpads (fun sym hs => List.mem_append_right _ hs) hs.fresh (own_end m pad)
        hesyms hq
    -- The range when the pad is processed, followed to the end of the pass.
    have hlater : Before (labelled m pad).1.insts b e →
        Widened (Fixed mf) (labelled m pad).1.insts mf'.insts b e f type
          (Unguarded (labelled m pad).1.blocks b type) := by
      intro hbe
      refine ((hmoved.widened hbe).all hwf₁.nodup hbe).later hs'' hs'.wf
        (stays_of_mem hs'.wf (hmoved.perm.mem_iff.mpr hb) fun q hq => hbfree q (.inr hq))
        (stays_of_mem hs'.wf (hmoved.perm.mem_iff.mpr he) fun q hq => hefree q (.inr hq))
        fun x hx q hq => hx q (by simp [hpads, hq])
    by_cases hgiven : pad.beginLabels = [] ∨ pad.endLabels = []
    · exact ⟨m, (labelled m pad).1, b, e, hm, .inr ⟨hgiven, rfl⟩, hbounds, hlater⟩
    · obtain ⟨hbne, hene⟩ := not_or.mp hgiven
      obtain ⟨hm₁, hbmem, hemem⟩ := labelled_given m hbne hene
      have hfirst := hbounds.first
      have hlast := hbounds.last
      rw [hm₁] at hfirst hlast hlater
      have hbfind := findInst_earlier hs hwf hpad hbmem hfirst
      have hefind := findInst_earlier hs hwf hpad hemem hlast
      have hbs := stays_of_mem hwf (findInst_mem hbfind).1 fun q hq => hbfree q (.inl hq)
      have hes := stays_of_mem hwf (findInst_mem hefind).1 fun q hq => hefree q (.inl hq)
      refine ⟨m, mf, b, e, hm, .inl rfl, ⟨hbfind, hefind⟩, fun hbe => ?_⟩
      rw [hm₁]
      exact (hlater ((hs.before hbs hes).mpr hbe)).earlier hs hwf hpre hbs hes

/-- A function that makes a value of type 7 in its protected range and drops
it in its landing pad. -/
def maker : MachineFunction where
  name := "maker"
  blocks :=
    [[⟨0, none, false, false, false, []⟩, .label 1 1,
      ⟨2, some (some ⟨"make", 7, []⟩), false, false, false, []⟩,
      ⟨3, none, false, false, false, []⟩, .label 4 4, ⟨5, none, false, false, false, []⟩,
      ⟨6, none, true, false, false, []⟩],
     [⟨7, none, false, false, false, []⟩,
      ⟨8, some (some ⟨"drop_in_place", 0, [7]⟩), false, false, false, []⟩]]
  pads := [⟨1, [1], [4]⟩]
  fresh := 9

theorem maker_wellFormed : maker.WellFormed :=
  ⟨by decide, by decide, by decide, by decide, by decide, by decide, by decide⟩

/-- Its range begins behind the call and ends in front of the return, with
the rest as it was. -/
theorem protection_widened_maker :
    maker.WellFormed ∧ ∃ mf', runOnMachineFunction maker = some mf' ∧
      mf'.insts.map Inst.id = [0, 2, 1, 3, 5, 4, 6, 7, 8] ∧
        erase mf'.blocks = erase maker.blocks := by
  obtain ⟨mf', hrun, hids⟩ : ∃ mf', runOnMachineFunction maker = some mf' ∧
      mf'.insts.map Inst.id = [0, 2, 1, 3, 5, 4, 6, 7, 8] :=
    Option.map_eq_some_iff.mp (by decide :
      (runOnMachineFunction maker).map (·.insts.map Inst.id) = some [0, 2, 1, 3, 5, 4, 6, 7, 8])
  exact ⟨maker_wellFormed, mf', hrun, hids, (protection_widened maker mf' maker_wellFormed hrun).1⟩

end Inger.L6.Cancel
