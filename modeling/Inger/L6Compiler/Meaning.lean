import Inger.Core.Flow
import Inger.L6Compiler.Define

/-!
# What the instrumentation does to a function's meaning

`ingerc.ts` splits the block of every `ret`: the block now ends with an
invocation of the epilogue, which goes on to a new block with the `ret`, or to
`cleanup` if the epilogue unwinds. The semantics of the other lines is arbitrary
(`exec`); `Lawful` says what the lines mean that the rewriter adds or looks for,
and `WellFormed` what it takes for granted of the text of a function: that it ends
with the brace, that jumps have targets, that only the lines it takes for `ret`s
return, and that nobody else uses its labels.

`processDefine_meaning`: the new function returns and unwinds exactly when the old
one does, with the effect of one call of the epilogue between the last line of the
function and its return, and none when it unwinds. An epilogue that unwinds sends
the function through its own `cleanup` block, or through the one that is added,
which hands the exception on (`added_cleanup_unwinds`). With an epilogue that does
nothing, such as the default one, nothing changes: the function ends with the same
results, and gets stuck when it did (`donothing_preserves`).
-/
namespace Inger.L6.Ingerc

open Inger.Flow

/-! ## Lines as a program -/

/-- A character of an unquoted label. -/
def labelChar (c : Char) : Bool := wordChar c || "-$.".toList.contains c

/-- The block that a line starts: a name or a quoted name, and a colon. -/
def lineLabel : Line → Option (List Char)
  | '"' :: s =>
    match s.dropWhile (· != '"') with
    | '"' :: ':' :: _ => some (s.takeWhile (· != '"'))
    | _ => none
  | l =>
    match l.takeWhile labelChar, l.dropWhile labelChar with
    | c :: s, ':' :: _ => some (c :: s)
    | _, _ => none

def CLEANUPLABEL : List Char := "cleanup".toList
def LANDINGPAD : Line := "  %ingerc = landingpad \x7b i8*, i32 \x7d cleanup".toList
def RESUME : Line := "  resume \x7b i8*, i32 \x7d %ingerc".toList
def BRACE : Line := "\x7d".toList

/-- How a call of the epilogue ends. -/
inductive Called (μ : Type) where
  | returns (mem : μ)
  | unwinds (mem : μ)

variable {ρ μ V : Type}

/-- The invocation goes on behind the call or in the `cleanup` block. -/
def Called.out (target : List Char) (regs : ρ) : Called μ → Out (List Char) ρ μ V
  | .returns mem => .jump target regs mem
  | .unwinds mem => .jump CLEANUPLABEL regs mem

abbrev Exec (ρ μ V : Type) := Line → List Char → ρ → μ → Out (List Char) ρ μ V

def lang (exec : Exec ρ μ V) : Lang Line (List Char) ρ μ V := ⟨lineLabel, exec⟩

/-- The lines the rewriter adds or looks for mean what they say. -/
structure Lawful (epilogue : List Char) (exec : Exec ρ μ V) (call : μ → Called μ)
    (value : Line → ρ → V) :
    Prop where
  ret : ∀ l prev regs mem, isRet l = true → exec l prev regs mem = .ret (value l regs)
  invoke : ∀ n prev regs mem, exec (invokeLine epilogue n) prev regs mem =
    (call mem).out (label n) regs
  /-- The exception that is caught is thrown again. -/
  lands : ∀ prev regs mem, ∃ regs', exec LANDINGPAD prev regs mem = .next regs' mem ∧
    ∀ prev', exec RESUME prev' regs' mem = .throw mem
  brace : ∀ prev regs mem, exec BRACE prev regs mem = .stuck

/-- The lines of a function behind its first one. -/
structure WellFormed (exec : Exec ρ μ V) (body : List Line) : Prop where
  brace : body.getLast? = some BRACE
  block : body ≠ [BRACE]
  closed : (lang exec).Closed body
  returns : ∀ l ∈ body, ∀ prev regs mem v, exec l prev regs mem = .ret v → isRet l = true
  fresh : ∀ l ∈ body, ∀ n, lineLabel l ≠ some (label n)
  cleanup : ∀ l ∈ body, lineLabel l = some CLEANUPLABEL → isCleanup l = true

/-- What is made of the end of an activation. -/
def Finishes (exec : Exec ρ μ V) (call : μ → Called μ) (new : List Line) :
    End (List Char) ρ μ V → Result μ V → Prop
  | .unwound mem, o => o = .unwound mem
  | .returned v here regs mem, o =>
    match call mem with
    | .returns mem' => o = .returned v mem'
    | .unwinds mem' => ∃ pad, (lang exec).lookup CLEANUPLABEL new = some pad ∧
        (lang exec).Shows new ⟨pad, here, CLEANUPLABEL, regs, mem'⟩ o

/-! ## Labels -/

theorem lineLabel_indented (s : Line) : lineLabel (' ' :: s) = none := rfl

theorem lineLabel_of_isRet {l : Line} (h : isRet l = true) : lineLabel l = none := by
  cases l with
  | nil => rfl
  | cons c s =>
    rw [isRet, Bool.and_eq_true] at h
    have hc : (' ' == c) = true := (Bool.and_eq_true _ _ ▸ h.1).1
    rw [beq_iff_eq] at hc
    rw [← hc, lineLabel_indented]

theorem lineLabel_invokeLine (epilogue : List Char) (n : Nat) :
    lineLabel (invokeLine epilogue n) = none := rfl

theorem labelChar_label (n : Nat) : ∀ c ∈ label n, labelChar c = true := by
  intro c hc
  rcases List.mem_append.mp hc with hc | hc
  · have hname : "ingerc".toList.all labelChar = true := by decide
    exact List.all_eq_true.mp hname c hc
  · have hdigits : (toString n).toList = Nat.toDigits 10 n := Nat.toList_repr
    rw [hdigits] at hc
    have hdigit := Nat.isDigit_of_mem_toDigits (by decide) (by decide) hc
    rw [labelChar, wordChar, Char.isAlphanum, hdigit]
    simp

/-- An unquoted label. -/
theorem lineLabel_name {name : List Char} (hne : name ≠ []) (hname : ∀ c ∈ name, labelChar c = true)
    (s : List Char) : lineLabel (name ++ ':' :: s) = some name := by
  have htake : (name ++ ':' :: s).takeWhile labelChar = name := by
    rw [List.takeWhile_append_of_pos hname, List.takeWhile_cons_of_neg (by decide), List.append_nil]
  have hdrop : (name ++ ':' :: s).dropWhile labelChar = ':' :: s := by
    rw [List.dropWhile_append_of_pos hname, List.dropWhile_cons_of_neg (by decide)]
  cases name with
  | nil => exact absurd rfl hne
  | cons c name =>
    have hc : c ≠ '"' := by
      rintro rfl
      exact absurd (hname '"' List.mem_cons_self) (by decide)
    rw [List.cons_append] at htake hdrop ⊢
    unfold lineLabel
    split
    · rename_i heq
      exact absurd (List.cons.inj heq).1 hc
    · rw [htake, hdrop]
      rfl

theorem lineLabel_labelLine (n : Nat) : lineLabel (labelLine n) = some (label n) :=
  lineLabel_name (List.append_ne_nil_of_left_ne_nil (by decide) _) (labelChar_label n) []

theorem label_injective {m n : Nat} (h : label m = label n) : m = n :=
  labelLine_injective (congrArg (· ++ [':']) h)

theorem label_ne_cleanup (n : Nat) : label n ≠ CLEANUPLABEL := by
  intro h
  have hhead : (label n).head? = some 'i' := rfl
  rw [h] at hhead
  exact absurd hhead (by decide)

/-! ## The instrumented lines -/

/-- The added block goes in front of the last line. -/
def finish (added : Bool) (ls : List Line) : List Line :=
  if added then ls.dropLast ++ CLEANUP ++ ls.getLast?.toList else ls

theorem finish_cons {added : Bool} {l : Line} {ls : List Line} (h : ls ≠ []) :
    finish added (l :: ls) = l :: finish added ls := by
  cases added with
  | false => rfl
  | true =>
    obtain ⟨x, ls, rfl⟩ := List.exists_cons_of_ne_nil h
    simp only [finish, if_true, List.dropLast_cons_cons, List.getLast?_cons_cons, List.cons_append]

theorem finish_append {added : Bool} {a b : List Line} (h : b ≠ []) :
    finish added (a ++ b) = a ++ finish added b := by
  induction a with
  | nil => rfl
  | cons l a ih =>
    rw [List.cons_append, finish_cons (List.append_ne_nil_of_right_ne_nil a h), ih,
      List.cons_append]

section
variable {epilogue : List Char} {old new : List Line} {ns : List Nat}

theorem Instrumented.ne_nil (h : Instrumented epilogue old new ns) (hold : old ≠ []) :
    new ≠ [] := by
  cases h with
  | nil => exact hold
  | keep => exact List.cons_ne_nil _ _
  | ret => exact List.cons_ne_nil _ _

theorem Instrumented.concat (h : Instrumented epilogue old new ns) {l : Line}
    (hl : isRet l = false) :
    Instrumented epilogue (old ++ [l]) (new ++ [l]) ns := by
  induction h with
  | nil => exact .keep hl .nil
  | keep other rest ih => exact .keep other ih
  | ret n ret rest ih => exact .ret n ret ih

/-- At every cut of the old lines there is one of the new lines. -/
theorem Instrumented.cut {a b : List Line} (h : Instrumented epilogue (a ++ b) new ns) :
    ∃ a' b' ms ks, new = a' ++ b' ∧ ns = ms ++ ks ∧ Instrumented epilogue a a' ms ∧
      Instrumented epilogue b b' ks := by
  induction a generalizing new ns with
  | nil => exact ⟨[], new, [], ns, rfl, rfl, .nil, h⟩
  | cons l a ih =>
    cases h with
    | keep other rest =>
      obtain ⟨a', b', ms, ks, rfl, rfl, ha, hb⟩ := ih rest
      exact ⟨l :: a', b', ms, ks, rfl, rfl, .keep other ha, hb⟩
    | ret n ret rest =>
      obtain ⟨a', b', ms, ks, rfl, rfl, ha, hb⟩ := ih rest
      exact ⟨invokeLine epilogue n :: labelLine n :: l :: a', b', n :: ms, ks, rfl, rfl,
        .ret n ret ha, hb⟩

/-- The blocks of the new lines are those of the old ones and the added ones. -/
theorem lineLabel_instrumented (h : Instrumented epilogue old new ns) {l : Line} (hl : l ∈ new) :
    l ∈ old ∨ lineLabel l = none ∨ ∃ n ∈ ns, lineLabel l = some (label n) := by
  induction h with
  | nil => cases hl
  | keep other rest ih =>
    rcases List.mem_cons.mp hl with rfl | hl
    · exact .inl List.mem_cons_self
    · exact (ih hl).imp_left (List.mem_cons_of_mem _)
  | ret n ret rest ih =>
    rcases List.mem_cons.mp hl with rfl | hl
    · exact .inr (.inl (lineLabel_invokeLine epilogue n))
    rcases List.mem_cons.mp hl with rfl | hl
    · exact .inr (.inr ⟨n, List.mem_cons_self, lineLabel_labelLine n⟩)
    rcases List.mem_cons.mp hl with rfl | hl
    · exact .inl List.mem_cons_self
    · refine (ih hl).imp (List.mem_cons_of_mem _) (Or.imp_right ?_)
      rintro ⟨m, hm, hlabel⟩
      exact ⟨m, List.mem_cons_of_mem _ hm, hlabel⟩

end

/-! ## The simulation -/

/-- The lines `old` of a function and the lines `finish added body` that are
made of them; a block is added only if there is none. -/
structure Rewritten (epilogue : List Char) (exec : Exec ρ μ V) (added : Bool) (old body : List Line)
    (ns : List Nat) : Prop where
  wf : WellFormed exec old
  lines : Instrumented epilogue old body ns
  nodup : ns.Nodup
  missing : added = true → ∀ l ∈ old, isCleanup l = false

/-- The same place in the old and the new lines, in the same state. -/
def Same (epilogue : List Char) (added : Bool) (old body : List Line) (ns : List Nat)
    (c c' : Config Line (List Char) ρ μ) : Prop :=
  ∃ a a' ms rest' ks, old = a ++ c.rest ∧ c.rest ≠ [] ∧ body = a' ++ rest' ∧ ns = ms ++ ks ∧
    Instrumented epilogue a a' ms ∧ Instrumented epilogue c.rest rest' ks ∧
    c' = { c with rest := finish added rest' }

section
variable {epilogue : List Char} {exec : Exec ρ μ V} {call : μ → Called μ} {value : Line → ρ → V}
  {added : Bool} {old body : List Line} {ns : List Nat}

/-- Only the brace is the last line. -/
theorem Rewritten.rest_ne_nil (h : Rewritten epilogue exec added old body ns) {a rest : List Line}
    {l : Line} (hold : old = a ++ l :: rest) (hl : l ≠ BRACE) : rest ≠ [] := by
  rintro rfl
  have hlast := h.wf.brace
  rw [hold, List.getLast?_concat, Option.some.injEq] at hlast
  exact hl hlast

theorem Rewritten.same (h : Rewritten epilogue exec added old body ns) {a rest : List Line}
    (hold : old = a ++ rest) (hrest : rest ≠ []) :
    ∃ a' ms rest' ks, body = a' ++ rest' ∧ ns = ms ++ ks ∧ Instrumented epilogue a a' ms ∧
      Instrumented epilogue rest rest' ks ∧ ∀ (prev here : List Char) (regs : ρ) (mem : μ),
        Same epilogue added old body ns ⟨rest, prev, here, regs, mem⟩
          ⟨finish added rest', prev, here, regs, mem⟩ := by
  obtain ⟨a', rest', ms, ks, hbody, hns, ha, hr⟩ := (hold ▸ h.lines).cut
  exact ⟨a', ms, rest', ks, hbody, hns, ha, hr, fun _ _ _ _ =>
    ⟨a, a', ms, rest', ks, hold, hrest, hbody, hns, ha, hr, rfl⟩⟩

/-- A block of the old lines is found in the new ones. -/
theorem Rewritten.lookup (h : Rewritten epilogue exec added old body ns) {n : List Char}
    {t : List Line} (ht : (lang exec).lookup n old = some t) :
    ∃ t', (lang exec).lookup n (finish added body) = some t' ∧
      ∀ (prev here : List Char) (regs : ρ) (mem : μ),
        Same epilogue added old body ns ⟨t, prev, here, regs, mem⟩ ⟨t', prev, here, regs, mem⟩ := by
  obtain ⟨a, x, hold, hx, hfirst⟩ := Lang.lookup_eq_some ht
  have hx' : lineLabel x = some n := hx
  have hbrace : x ≠ BRACE := by
    rintro rfl
    rw [show lineLabel BRACE = none by decide] at hx'
    cases hx'
  have hne : t ≠ [] := h.rest_ne_nil hold hbrace
  have hcut : old = (a ++ [x]) ++ t := by
    rw [hold, List.append_assoc]
    rfl
  obtain ⟨a', ms, b', ks, hbody, hns, ha, hb, hsame⟩ := h.same hcut hne
  refine ⟨finish added b', ?_, hsame⟩
  have hret : isRet x = false := by
    by_contra hret
    rw [lineLabel_of_isRet (Bool.not_eq_false _ ▸ hret)] at hx'
    cases hx'
  -- The line with the label is kept.
  obtain ⟨a₁, b₁, ms₁, ks₁, rfl, -, ha₁, hb₁⟩ := ha.cut
  obtain rfl : b₁ = [x] := by
    cases hb₁ with
    | keep other rest =>
      cases rest
      rfl
    | ret n ret rest =>
      rw [hret] at ret
      cases ret
  have hmem : x ∈ old := by rw [hold]; simp
  rw [hbody, List.append_assoc, finish_append (by simp), Lang.lookup_append, List.singleton_append,
    finish_cons (hb.ne_nil hne), Lang.lookup_self hx]
  intro y hy hyn
  rcases lineLabel_instrumented ha₁ hy with hy' | hy' | ⟨m, -, hm⟩
  · exact hfirst y hy' hyn
  · exact absurd (hy'.symm.trans hyn) (Option.some_ne_none _).symm
  · exact h.wf.fresh x hmem m (hx'.trans (hyn.symm.trans hm))

/-- The block of a `ret` is found behind its label. -/
theorem Rewritten.lookup_label (h : Rewritten epilogue exec added old body ns)
    {a a' rest' : List Line} {ms ks : List Nat} {n : Nat} {l : Line}
    (ha : Instrumented epilogue a a' ms) (hold : ∀ x ∈ a, x ∈ old)
    (hbody : body = a' ++ invokeLine epilogue n :: labelLine n :: l :: rest')
    (hns : ns = ms ++ n :: ks) :
    (lang exec).lookup (label n) (finish added body) = some (finish added (l :: rest')) := by
  have hn : n ∉ ms := by
    have hnodup := h.nodup
    rw [hns, List.nodup_append] at hnodup
    exact fun hmem => hnodup.2.2 n hmem n List.mem_cons_self rfl
  rw [hbody, finish_append (by simp), finish_cons (by simp), finish_cons (by simp),
    Lang.lookup_append,
    ← List.singleton_append (l := labelLine n :: _), Lang.lookup_append,
    Lang.lookup_self (lineLabel_labelLine n)]
  · intro y hy
    rw [List.mem_singleton.mp hy]
    exact fun hnone => absurd ((lineLabel_invokeLine epilogue n).symm.trans hnone)
      (Option.some_ne_none _).symm
  · intro y hy hyn
    rcases lineLabel_instrumented ha hy with hy' | hy' | ⟨m, hm, hlabel⟩
    · exact h.wf.fresh y (hold y hy') n hyn
    · exact absurd (hy'.symm.trans hyn) (Option.some_ne_none _).symm
    · rw [label_injective (Option.some.inj (hlabel.symm.trans hyn))] at hm
      exact hn hm

/-- The last line of the old program is stuck, and so is the added block or the
brace that stands there. -/
theorem stuck_at_brace (hl : Lawful epilogue exec call value) (added : Bool) {prog : List Line}
    (prev here : List Char) (regs : ρ) (mem : μ) :
    (lang exec).step prog ⟨finish added [BRACE], prev, here, regs, mem⟩ = .stuck := by
  cases added with
  | false => exact Lang.step_stuck (show lineLabel BRACE = none by decide) (hl.brace prev regs mem)
  | true =>
    exact Lang.step_label (L := lang exec)
      (show (lineLabel "cleanup:".toList).isSome = true by decide)

/-- A `ret`: the epilogue is called in front of it. -/
theorem Rewritten.returns (h : Rewritten epilogue exec added old body ns)
    (hl : Lawful epilogue exec call value) {a a' rest rest' : List Line} {ms ks : List Nat}
    {n : Nat} {l : Line} (hold : old = a ++ l :: rest)
    (hbody : body = a' ++ invokeLine epilogue n :: labelLine n :: l :: rest')
    (hns : ns = ms ++ n :: ks) (ha : Instrumented epilogue a a' ms)
    (hr : Instrumented epilogue rest rest' ks) (hret : isRet l = true) (prev here : List Char)
    (regs : ρ) (mem : μ) (o : Result μ V) :
    (lang exec).Shows (finish added body)
        ⟨finish added (invokeLine epilogue n :: labelLine n :: l :: rest'),
          prev, here, regs, mem⟩ o ↔
      Finishes exec call (finish added body) (.returned (value l regs) here regs mem) o := by
  have hbrace : l ≠ BRACE := by
    rintro rfl
    exact absurd hret (by decide)
  have hrest := hr.ne_nil (h.rest_ne_nil hold hbrace)
  have hlabel : (lang exec).lookup (label n) (finish added body) =
      some (l :: finish added rest') := by
    rw [h.lookup_label ha (fun x hx => by rw [hold]; exact List.mem_append_left _ hx) hbody hns,
      finish_cons hrest]
  have hnone : (lang exec).label (invokeLine epilogue n) = none := lineLabel_invokeLine epilogue n
  have hinvoke := hl.invoke n prev regs mem
  rw [finish_cons (by simp)]
  cases hcall : call mem with
  | returns mem' =>
    rw [hcall] at hinvoke
    simp only [Finishes, hcall]
    rw [Lang.shows_goes (Lang.step_jump hnone hinvoke hlabel), Lang.shows_ends (Lang.step_ret
      (lineLabel_of_isRet hret) (hl.ret l here regs mem' hret))]
    rfl
  | unwinds mem' =>
    rw [hcall] at hinvoke
    simp only [Finishes, hcall]
    cases hpad : (lang exec).lookup CLEANUPLABEL (finish added body) with
    | some pad =>
      rw [Lang.shows_goes (Lang.step_jump hnone hinvoke hpad)]
      constructor
      · exact fun ho => ⟨pad, rfl, ho⟩
      · rintro ⟨_, heq, ho⟩
        cases heq
        exact ho
    | none =>
      refine ⟨fun ho => absurd ho (Lang.not_shows (Lang.step_lost hnone hinvoke hpad)), ?_⟩
      rintro ⟨_, hsome, -⟩
      cases hsome

/-- **The new program does what the old one does**, up to the call of the
epilogue. -/
theorem Rewritten.sim (h : Rewritten epilogue exec added old body ns)
    (hl : Lawful epilogue exec call value) :
    Sim ((lang exec).step old) (fun c => ((lang exec).step (finish added body) c).map End.result)
      (Same epilogue added old body ns) (Finishes exec call (finish added body)) := by
  rintro ⟨lines, prev, here, regs, mem⟩ _ ⟨a, a', ms, rest', ks, hold, hne, hbody, hns, ha, hr, rfl⟩
  -- From a step of the new program to one that is seen through its result.
  have seen {c' : Config Line (List Char) ρ μ}
      {x : Step (Config Line (List Char) ρ μ) (End (List Char) ρ μ V)}
      (hx : (lang exec).step (finish added body) c' = x) :
      ((lang exec).step (finish added body) c').map End.result = x.map End.result := by rw [hx]
  cases hr with
  | nil => exact absurd rfl hne
  | @ret l rest rest₁ ks n ret hr =>
    have hstep : (lang exec).step old ⟨l :: rest, prev, here, regs, mem⟩ =
        .ends (.returned (value l regs) here regs mem) :=
      Lang.step_ret (lineLabel_of_isRet ret) (hl.ret l prev regs mem ret)
    rw [hstep]
    exact fun o => h.returns hl hold hbody hns ha hr ret prev here regs mem o
  | @keep l rest rest₁ _ other hr =>
    by_cases hrest : rest = []
    · -- The brace.
      subst hrest
      cases hr
      have hlast := h.wf.brace
      rw [hold, List.getLast?_concat, Option.some.injEq] at hlast
      subst hlast
      have hstep : (lang exec).step old ⟨[BRACE], prev, here, regs, mem⟩ = .stuck :=
        stuck_at_brace hl false prev here regs mem
      rw [hstep]
      exact seen (stuck_at_brace hl added prev here regs mem)
    · have hmem : l ∈ old := by rw [hold]; simp
      rw [finish_cons (hr.ne_nil hrest)]
      cases hlabel : (lang exec).label l with
      | some n =>
        have hsome : ((lang exec).label l).isSome = true := by rw [hlabel]; rfl
        rw [Lang.step_label hsome]
        exact seen (Lang.step_label hsome)
      | none =>
        cases hx : exec l prev regs mem with
        | next regs' mem' =>
          rw [Lang.step_next hlabel hx]
          refine ⟨_, seen (Lang.step_next hlabel hx), a ++ [l], a' ++ [l], ms, rest₁, ks, ?_, hrest,
            ?_, hns, ?_, hr, rfl⟩
          · rw [hold, List.append_assoc]; rfl
          · rw [hbody, List.append_assoc]; rfl
          · exact ha.concat other
        | jump n regs' mem' =>
          obtain ⟨t, ht⟩ := Option.isSome_iff_exists.mp
            (h.wf.closed l hmem prev regs mem n regs' mem' hx)
          obtain ⟨t', ht', hsame⟩ := h.lookup ht
          rw [Lang.step_jump hlabel hx ht]
          exact ⟨_, seen (Lang.step_jump hlabel hx ht'), hsame here n regs' mem'⟩
        | ret v =>
          rw [h.wf.returns l hmem prev regs mem v hx] at other
          cases other
        | throw mem' =>
          rw [Lang.step_throw hlabel hx]
          exact fun o => Lang.shows_ends (Lang.step_throw hlabel hx)
        | stuck =>
          rw [Lang.step_stuck hlabel hx]
          exact seen (Lang.step_stuck hlabel hx)

/-- Both programs start at their first line. -/
theorem Rewritten.start (h : Rewritten epilogue exec added old body ns) (entry : List Char)
    (regs : ρ) (mem : μ) :
    Same epilogue added old body ns ((lang exec).start entry old regs mem)
      ((lang exec).start entry (finish added body) regs mem) := by
  cases hi : h.lines with
  | nil => exact absurd h.wf.brace (by rw [List.getLast?_nil]; exact (Option.some_ne_none _).symm)
  | @ret l rest rest₁ ks n ret hr =>
    have hlabel : (lang exec).label l = none := lineLabel_of_isRet ret
    have hinvoke : (lang exec).label (invokeLine epilogue n) = none :=
      lineLabel_invokeLine epilogue n
    have hfinish : finish added (invokeLine epilogue n :: labelLine n :: l :: rest₁) =
        invokeLine epilogue n :: finish added (labelLine n :: l :: rest₁) :=
          finish_cons (List.cons_ne_nil _ _)
    rw [hfinish]
    simp only [Lang.start, hlabel, hinvoke]
    rw [← hfinish]
    exact ⟨[], [], [], _, _, rfl, List.cons_ne_nil _ _, rfl, rfl, .nil, .ret n ret hr, rfl⟩
  | @keep l rest rest₁ _ other hr =>
    have hrest : rest ≠ [] := by
      rintro rfl
      have hbrace := h.wf.brace
      rw [List.getLast?_singleton, Option.some.injEq] at hbrace
      exact h.wf.block (by rw [hbrace])
    rw [finish_cons (hr.ne_nil hrest)]
    cases hlabel : (lang exec).label l with
    | some n =>
      simp only [Lang.start, hlabel]
      exact ⟨[l], [l], [], _, _, rfl, hrest, rfl, rfl, .keep other .nil, hr, rfl⟩
    | none =>
      simp only [Lang.start, hlabel]
      refine ⟨[], [], [], _, _, rfl, List.cons_ne_nil _ _, rfl, rfl, .nil, .keep other hr, ?_⟩
      rw [finish_cons (hr.ne_nil hrest)]

theorem Rewritten.means_iff (h : Rewritten epilogue exec added old body ns)
    (hl : Lawful epilogue exec call value) (entry : List Char) (regs : ρ) (mem : μ)
    (o : Result μ V) :
    (lang exec).Means entry (finish added body) regs mem o ↔
      ∃ e, (lang exec).Ends entry old regs mem e ∧ Finishes exec call (finish added body) e o :=
  (h.sim hl).runs_iff (h.start entry regs mem) o

/-- The added block is where the epilogue unwinds to, and it unwinds. -/
theorem Rewritten.unwinds (h : Rewritten epilogue exec true old body ns)
    (hl : Lawful epilogue exec call value) (here : List Char) (regs : ρ) (mem : μ)
    (o : Result μ V) :
    (∃ pad, (lang exec).lookup CLEANUPLABEL (finish true body) = some pad ∧
      (lang exec).Shows (finish true body) ⟨pad, here, CLEANUPLABEL, regs, mem⟩ o) ↔
        o = .unwound mem := by
  have hpad : (lang exec).lookup CLEANUPLABEL (finish true body) =
      some (LANDINGPAD :: RESUME :: body.getLast?.toList) := by
    have hblock : finish true body = body.dropLast ++ ("cleanup:".toList :: LANDINGPAD :: RESUME ::
        body.getLast?.toList) := by
      rw [finish, if_pos rfl, List.append_assoc]
      rfl
    have hcleanup : (lang exec).label "cleanup:".toList = some CLEANUPLABEL :=
      show lineLabel "cleanup:".toList = some CLEANUPLABEL by decide
    rw [hblock, Lang.lookup_append, Lang.lookup_self hcleanup]
    intro y hy hlabel
    rcases lineLabel_instrumented h.lines (List.mem_of_mem_dropLast hy) with hy' | hy' | ⟨n, -, hn⟩
    · have hcleanup := h.wf.cleanup y hy' hlabel
      rw [h.missing rfl y hy'] at hcleanup
      cases hcleanup
    · exact absurd (hy'.symm.trans hlabel) (Option.some_ne_none _).symm
    · exact label_ne_cleanup n (Option.some.inj (hn.symm.trans hlabel))
  obtain ⟨regs', hland, hresume⟩ := hl.lands here regs mem
  have hshows : (lang exec).Shows (finish true body)
      ⟨LANDINGPAD :: RESUME :: body.getLast?.toList, here, CLEANUPLABEL, regs, mem⟩ o ↔
        o = .unwound mem := by
    have hlandingpad : (lang exec).label LANDINGPAD = none :=
      show lineLabel LANDINGPAD = none by decide
    have hresumes : (lang exec).label RESUME = none := show lineLabel RESUME = none by decide
    rw [Lang.shows_goes (Lang.step_next hlandingpad hland),
      Lang.shows_ends (Lang.step_throw hresumes (hresume here))]
    rfl
  rw [← hshows]
  constructor
  · rintro ⟨pad, hp, ho⟩
    cases hpad.symm.trans hp
    exact ho
  · exact fun ho => ⟨_, hpad, ho⟩

end

/-! ## `processDefine` -/

section
variable {epilogue : List Char} {exec : Exec ρ μ V} {call : μ → Called μ} {value : Line → ρ → V}
  {first : Line} {rest : List Line}

/-- A block is added unless there is one, and the first line is not executed. -/
theorem rewritten_processDefine (epilogue : List Char) (hdefine : "define ".toList <+: first)
    (hwf : WellFormed exec rest) : ∃ body ns,
      (processDefine epilogue (first :: rest)).tail = finish (!rest.any isCleanup) body ∧
      Rewritten epilogue exec (!rest.any isCleanup) rest body ns := by
  obtain ⟨s, rfl⟩ : ∃ s, first = 'd' :: s := by
    obtain ⟨t, rfl⟩ := hdefine
    exact ⟨"efine ".toList ++ t, rfl⟩
  obtain ⟨s', hs'⟩ := withClause_define (s := s)
  obtain ⟨body, ns, hi, hlt, hends⟩ := processDefine_cases epilogue ('d' :: s) rest
  rw [hs'] at hi hends
  rw [List.any_cons, show isCleanup ('d' :: s') = false from rfl, Bool.false_or] at hends
  cases hi with
  | ret n ret hr => cases ret
  | @keep _ _ body _ other hr =>
    refine ⟨body, ns, ?_, hwf, hr, hlt.imp Nat.ne_of_lt, fun hadded l hl => ?_⟩
    · obtain ⟨hc, heq⟩ | ⟨hc, init, last, hbody, heq⟩ := hends
      · rw [heq, hc]
        rfl
      · have hne : body ≠ [] := hr.ne_nil fun hnil => by
          have hbrace := hwf.brace
          rw [hnil] at hbrace
          cases hbrace
        have hfinish : processDefine epilogue (('d' :: s) :: rest) =
            finish true (('d' :: s') :: body) := by
          rw [heq, hbody, finish, if_pos rfl, List.dropLast_concat, List.getLast?_concat]
          rfl
        rw [hfinish, hc, finish_cons hne]
        rfl
    · rw [Bool.not_eq_true'] at hadded
      exact Bool.not_eq_true _ ▸ List.any_eq_false.mp hadded l hl

end

/-- **The instrumented function ends as the old one does, with one call of the
epilogue in front of its return.** -/
theorem processDefine_meaning (epilogue : List Char) (exec : Exec ρ μ V) (call : μ → Called μ)
    (value : Line → ρ → V) (first : Line) (rest : List Line) (hdefine : "define ".toList <+: first)
    (hl : Lawful epilogue exec call value) (hwf : WellFormed exec rest) (entry : List Char)
    (regs : ρ) (mem : μ) (o : Result μ V) :
    (lang exec).Means entry (processDefine epilogue (first :: rest)).tail regs mem o ↔
      ∃ e, (lang exec).Ends entry rest regs mem e ∧
        Finishes exec call (processDefine epilogue (first :: rest)).tail e o := by
  obtain ⟨body, ns, hbody, hnew⟩ := rewritten_processDefine epilogue hdefine hwf
  rw [hbody]
  exact hnew.means_iff hl entry regs mem o

/-- A result behind a call of the epilogue. -/
def afterEpilogue (call : μ → Called μ) : Result μ V → Result μ V
  | .unwound mem => .unwound mem
  | .returned v mem =>
    match call mem with
    | .returns mem' => .returned v mem'
    | .unwinds mem' => .unwound mem'

/-- **An epilogue that unwinds makes the function unwind**, if it has no
`cleanup` block of its own. -/
theorem added_cleanup_unwinds (epilogue : List Char) (exec : Exec ρ μ V) (call : μ → Called μ)
    (value : Line → ρ → V) (first : Line) (rest : List Line) (hdefine : "define ".toList <+: first)
    (hl : Lawful epilogue exec call value) (hwf : WellFormed exec rest)
    (hnone : rest.any isCleanup = false) (entry : List Char) (regs : ρ) (mem : μ) (o : Result μ V) :
    (lang exec).Means entry (processDefine epilogue (first :: rest)).tail regs mem o ↔
      ∃ o₀, (lang exec).Means entry rest regs mem o₀ ∧ o = afterEpilogue call o₀ := by
  obtain ⟨body, ns, hbody, hnew⟩ := rewritten_processDefine epilogue hdefine hwf
  rw [hnone, Bool.not_false] at hbody hnew
  have hfinishes (e : End (List Char) ρ μ V) :
      Finishes exec call (finish true body) e o ↔ o = afterEpilogue call e.result := by
    cases e with
    | unwound mem => rfl
    | returned v here regs mem =>
      simp only [Finishes, End.result, afterEpilogue]
      cases hcall : call mem with
      | returns mem' => rfl
      | unwinds mem' => exact hnew.unwinds hl here regs mem' o
  rw [hbody, hnew.means_iff hl entry regs mem o]
  simp only [hfinishes, Lang.means_iff]
  constructor
  · rintro ⟨e, he, ho⟩
    exact ⟨e.result, ⟨e, he, rfl⟩, ho⟩
  · rintro ⟨_, ⟨e, he, rfl⟩, ho⟩
    exact ⟨e, he, ho⟩

/-- **An epilogue that does nothing changes nothing**, whether the function has
a `cleanup` block or not: it returns, unwinds and gets stuck as before. -/
theorem donothing_preserves (epilogue : List Char) (exec : Exec ρ μ V) (call : μ → Called μ)
    (value : Line → ρ → V) (first : Line) (rest : List Line) (hdefine : "define ".toList <+: first)
    (hl : Lawful epilogue exec call value) (hwf : WellFormed exec rest)
    (hcall : ∀ mem, call mem = .returns mem) (entry : List Char) (regs : ρ) (mem : μ) :
    (∀ o, (lang exec).Means entry (processDefine epilogue (first :: rest)).tail regs mem o ↔
      (lang exec).Means entry rest regs mem o) ∧
    ((lang exec).Sticks entry (processDefine epilogue (first :: rest)).tail regs mem ↔
      (lang exec).Sticks entry rest regs mem) := by
  obtain ⟨body, ns, hbody, hnew⟩ := rewritten_processDefine epilogue hdefine hwf
  have hfinishes (e : End (List Char) ρ μ V) (o : Result μ V) (new : List Line) :
      Finishes exec call new e o ↔ e.result = o := by
    cases e with
    | unwound mem => exact eq_comm
    | returned v here regs mem =>
      simp only [Finishes, End.result, hcall]
      exact eq_comm
  rw [hbody]
  constructor
  · intro o
    rw [hnew.means_iff hl entry regs mem o]
    simp only [hfinishes, Lang.means_iff]
  · have hends (e : End (List Char) ρ μ V) :
        ∃ o, Finishes exec call (finish (!rest.any isCleanup) body) e o :=
      ⟨e.result, (hfinishes e _ _).mpr rfl⟩
    rw [Lang.Sticks, ← Sticks.map_iff]
    exact (hnew.sim hl).sticks_iff hends (hnew.start entry regs mem)

/-! ## An example -/

def invokeHead (epilogue : List Char) : List Char :=
  "  invoke void @\"".toList ++ epilogue ++ "\"() to label %".toList

def invokeTail : List Char := " unwind label %cleanup".toList

def BRANCH : List Char := "  br label %".toList

/-- The call of a function that returns. -/
def CALL : Line := "  invoke void @g() to label %bb1 unwind label %cleanup".toList

/-- The function's own landing pad and what it ends with. -/
def OWNPAD : Line := "  %e = landingpad \x7b i8*, i32 \x7d cleanup".toList
def OWNRESUME : Line := "  resume \x7b i8*, i32 \x7d %e".toList

/-- Lines that return, call, jump and throw; the rest of the state is a number. -/
def sample (epilogue : List Char) (call : Nat → Called Nat) : Exec Unit Nat Line := fun l _ _ mem =>
  if isRet l then .ret l
  else if (invokeHead epilogue).isPrefixOf l then
    (call mem).out ((l.drop (invokeHead epilogue).length).take
      (l.length - (invokeHead epilogue).length - invokeTail.length)) ()
  else if l = CALL then .jump "bb1".toList () mem
  else if BRANCH.isPrefixOf l then .jump (l.drop BRANCH.length) () mem
  else if l = LANDINGPAD ∨ l = OWNPAD then .next () mem
  else if l = RESUME ∨ l = OWNRESUME then .throw mem
  else .stuck

theorem not_invokeHead {epilogue : List Char} {l : Line} (h : l[2]? ≠ some 'i') :
    (invokeHead epilogue).isPrefixOf l = false := by
  rw [← Bool.not_eq_true, List.isPrefixOf_iff_prefix]
  rintro ⟨t, rfl⟩
  exact h rfl

theorem sample_lawful (epilogue : List Char) (call : Nat → Called Nat) :
    Lawful epilogue (sample epilogue call) call fun l _ => l where
  ret l prev regs mem h := by simp only [sample, h, if_true]
  invoke n prev regs mem := by
    have hline : invokeLine epilogue n = invokeHead epilogue ++ (label n ++ invokeTail) :=
      List.append_assoc (invokeHead epilogue) (label n) invokeTail
    have hprefix : (invokeHead epilogue).isPrefixOf (invokeLine epilogue n) = true := by
      rw [List.isPrefixOf_iff_prefix, hline]
      exact List.prefix_append _ _
    have htarget : ((invokeLine epilogue n).drop (invokeHead epilogue).length).take
        ((invokeLine epilogue n).length - (invokeHead epilogue).length - invokeTail.length) =
          label n := by
      rw [hline, List.drop_left, List.length_append, List.length_append, Nat.add_sub_cancel_left,
        Nat.add_sub_cancel, List.take_left]
    simp only [sample, isRet_invokeLine, hprefix, htarget, Bool.false_eq_true, if_false, if_true]
  lands prev regs mem := by
    refine ⟨(), ?_, fun prev' => ?_⟩
    · rw [sample, if_neg (by decide),
        if_neg (by rw [not_invokeHead (by decide)]; exact Bool.false_ne_true),
        if_neg (by decide), if_neg (by decide), if_pos (.inl rfl)]
    · rw [sample, if_neg (by decide),
        if_neg (by rw [not_invokeHead (by decide)]; exact Bool.false_ne_true),
        if_neg (by decide), if_neg (by decide), if_neg (by decide), if_pos (.inl rfl)]
  brace prev regs mem := by
    rw [sample, if_neg (by decide), if_neg
      (by rw [not_invokeHead (by decide)]; exact Bool.false_ne_true),
      if_neg (by decide), if_neg (by decide), if_neg (by decide), if_neg (by decide)]

/-- A function with two blocks, one with a `cleanup` block, and one that does
not return. -/
def branching : List Line :=
  ["start:".toList, "  br label %bb1".toList, "bb1:".toList, "  ret void".toList, BRACE]

def cleaning : List Line :=
  ["start:".toList, CALL, "bb1:".toList, "  ret void".toList, "cleanup:".toList, OWNPAD,
   "  br label %bb2".toList, "bb2:".toList, OWNRESUME, BRACE]

def diverging : List Line := ["start:".toList, "  unreachable".toList, BRACE]

/-- What is to be checked of the text of such a function. -/
def sampled (epilogue : List Char) (body : List Line) : Bool :=
  body.getLast? == some BRACE && body != [BRACE] && body.all fun l =>
    !(invokeHead epilogue).isPrefixOf l && (lineLabel l).bind List.head? != some 'i' &&
      (lineLabel l != some CLEANUPLABEL || isCleanup l) &&
      (l != CALL || body.any (lineLabel · == some "bb1".toList)) &&
      (!BRANCH.isPrefixOf l || body.any (lineLabel · == some (l.drop BRANCH.length)))

theorem sample_wellFormed {epilogue : List Char} {call : Nat → Called Nat} {body : List Line}
    (h : sampled epilogue body = true) : WellFormed (sample epilogue call) body := by
  simp only [sampled, Bool.and_eq_true, List.all_eq_true, beq_iff_eq, bne_iff_ne, ne_eq,
    Bool.or_eq_true, Bool.not_eq_true', List.any_eq_true] at h
  obtain ⟨⟨hbrace, hblock⟩, hlines⟩ := h
  refine ⟨hbrace, hblock, fun l hl prev regs mem n regs' mem' hx => ?_,
    fun l hl prev regs mem v hx => ?_, fun l hl n hn => ?_, fun l hl hlabel => ?_⟩
  all_goals obtain ⟨⟨⟨⟨hi, hhead⟩, hcleanup⟩, hcalls⟩, hbranch⟩ := hlines l hl
  · change sample epilogue call l prev regs mem = _ at hx
    simp only [sample, hi, Bool.false_eq_true, if_false] at hx
    split at hx
    · cases hx
    split at hx
    · rename_i hc
      cases hx
      obtain ⟨x, hx, hlabel⟩ := hcalls.resolve_left fun hne => hne hc
      exact Lang.lookup_isSome.mpr ⟨x, hx, hlabel⟩
    split at hx
    · rename_i hb
      cases hx
      obtain ⟨x, hx, hlabel⟩ := hbranch.resolve_left (by rw [hb]; decide)
      exact Lang.lookup_isSome.mpr ⟨x, hx, hlabel⟩
    split at hx
    · cases hx
    split at hx <;> cases hx
  · by_contra hret
    simp only [sample, hi, hret, Bool.false_eq_true, if_false] at hx
    split at hx
    · cases hx
    split at hx
    · cases hx
    split at hx
    · cases hx
    split at hx <;> cases hx
  · rw [hn] at hhead
    exact hhead rfl
  · exact hcleanup.resolve_left fun hne => hne hlabel

/-- The epilogue unwinds through the function's own block. -/
theorem processDefine_meaning_cleaning :
    (lang (sample EPILOGUE fun n => .unwinds (n + 1))).Means []
      (processDefine EPILOGUE
        ("define void @f() personality i32 (...)* @rust_eh_personality \x7b".toList ::
          cleaning)).tail () 0 (.unwound 1) :=
  (processDefine_meaning EPILOGUE _ (fun n => .unwinds (n + 1)) (fun l _ => l) _ cleaning
    (by decide) (sample_lawful EPILOGUE _) (sample_wellFormed (by decide +kernel)) [] () 0 _).mpr
    ⟨.returned "  ret void".toList "bb1".toList () 0, ⟨2, by decide +kernel⟩,
      [OWNPAD, "  br label %bb2".toList, "bb2:".toList, OWNRESUME, BRACE], by decide +kernel,
      ⟨3, by decide +kernel⟩⟩

theorem added_cleanup_unwinds_branching :
    (lang (sample EPILOGUE fun n => .unwinds (n + 1))).Means []
    (processDefine EPILOGUE ("define void @f() \x7b".toList :: branching)).tail () 0 (.unwound 1) :=
  (added_cleanup_unwinds EPILOGUE _ (fun n => .unwinds (n + 1)) (fun l _ => l) _ branching
    (by decide) (sample_lawful EPILOGUE _) (sample_wellFormed (by decide +kernel)) (by decide) []
      () 0 _).mpr
    ⟨.returned "  ret void".toList 0, ⟨2, by decide +kernel⟩, rfl⟩

/-- One that returns, and one that is stuck. -/
theorem donothing_preserves_branching :
    (lang (sample EPILOGUE .returns)).Means []
      (processDefine EPILOGUE ("define void @f() \x7b".toList :: branching)).tail () 0
        (.returned "  ret void".toList 0) ∧
    (lang (sample EPILOGUE .returns)).Sticks []
      (processDefine EPILOGUE ("define void @f() \x7b".toList :: diverging)).tail () 0 :=
  ⟨((donothing_preserves EPILOGUE _ .returns (fun l _ => l) _ branching (by decide)
      (sample_lawful EPILOGUE _) (sample_wellFormed (by decide +kernel)) (fun _ => rfl) [] () 0).1
        _).mpr
      ⟨2, by decide +kernel⟩,
    (donothing_preserves EPILOGUE _ .returns (fun l _ => l) _ diverging (by decide)
      (sample_lawful EPILOGUE _) (sample_wellFormed (by decide +kernel)) (fun _ => rfl) []
        () 0).2.mpr
      (.here (by rfl))⟩

end Inger.L6.Ingerc
