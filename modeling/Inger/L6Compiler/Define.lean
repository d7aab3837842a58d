import Inger.L6Compiler.Ingerc

/-!
# One definition, instrumented (`processDefine`)

The loop of `processDefine` inserts lines into the array that it scans and names
each label after the index at which it inserts it. `Instrumented` says what comes
out, whatever the number and the places of the `ret`s; the labels are distinct
because the index grows (`instrumented_scan`).

The first line gets a personality clause unless it has the word `personality`
in it. The word need not be a clause: `define i32 @personality(i64 %0) {` is the
head of a function called `personality`, which is left without a clause. And the
clause is put in front of the first `!dbg` from which the rest of the line goes
on to the brace, or in front of the brace, even where that is within a quoted
name or joined to a word. `processDefine_iff` says that neither happening is all
that the rest of the specification needs.
-/
namespace Inger.L6.Ingerc

open Text

/-! ## Returns -/

/-- `new` is `old` with an invocation of the epilogue and a label in front of
every `ret`, and nothing else; `ns` are the numbers of the labels. -/
inductive Instrumented (epilogue : List Char) : List Line → List Line → List Nat → Prop
  | nil : Instrumented epilogue [] [] []
  | keep {l : Line} {old new : List Line} {ns : List Nat} (other : isRet l = false)
      (rest : Instrumented epilogue old new ns) : Instrumented epilogue (l :: old) (l :: new) ns
  | ret {l : Line} {old new : List Line} {ns : List Nat} (n : Nat) (ret : isRet l = true)
      (rest : Instrumented epilogue old new ns) :
      Instrumented epilogue (l :: old) (invokeLine epilogue n :: labelLine n :: l :: new) (n :: ns)

/-- The index at which a label is inserted is behind those of the labels
before. -/
theorem instrumented_scan (epilogue : List Char) (ls : List Line) (line : Nat) :
    ∃ ns, Instrumented epilogue ls (scan epilogue line ls).1 ns ∧ ns.Pairwise (· < ·) ∧
      ∀ n ∈ ns, line ≤ n := by
  induction ls generalizing line with
  | nil => exact ⟨[], .nil, .nil, by simp⟩
  | cons l ls ih =>
    rw [scan]
    by_cases hret : isRet l = true
    · rw [if_pos hret]
      obtain ⟨ns, hi, hlt, hle⟩ := ih (line + 3)
      refine ⟨line :: ns, .ret line hret hi, List.pairwise_cons.mpr ⟨fun n hn => ?_, hlt⟩,
        fun n hn => ?_⟩
      · have := hle n hn
        omega
      · rcases List.mem_cons.mp hn with rfl | hn
        · exact Nat.le_refl n
        · have := hle n hn
          omega
    · rw [if_neg hret]
      obtain ⟨ns, hi, hlt, hle⟩ := ih (line + 1)
      exact ⟨ns, .keep (Bool.not_eq_true _ ▸ hret) hi, hlt,
        fun n hn => Nat.le_of_succ_le (hle n hn)⟩

section
variable {epilogue : List Char} {old new : List Line} {ns : List Nat}

theorem isRet_invokeLine (n : Nat) : isRet (invokeLine epilogue n) = false := rfl

theorem isRet_labelLine (n : Nat) : isRet (labelLine n) = false := rfl

theorem isCleanup_invokeLine (n : Nat) : isCleanup (invokeLine epilogue n) = false := rfl

theorem isCleanup_labelLine (n : Nat) : isCleanup (labelLine n) = false := rfl

theorem labelLine_injective {m n : Nat} (h : labelLine m = labelLine n) : m = n := by
  have hlabel := List.append_cancel_left (List.append_cancel_right h)
  have hdigits : Nat.toDigits 10 m = Nat.toDigits 10 n := by
    rw [← Nat.toList_repr, ← Nat.toList_repr]
    exact hlabel
  rw [← Nat.ofDigitChars_ten_toDigits (n := m), hdigits, Nat.ofDigitChars_ten_toDigits]

/-- Every `ret` of `new` stands behind its label and that behind its
invocation. -/
def Guarded (epilogue : List Char) (new : List Line) : Prop :=
  ∀ front r back, new = front ++ r :: back → isRet r = true →
    ∃ n front', front = front' ++ [invokeLine epilogue n, labelLine n]

theorem Guarded.cons {l : Line} (hl : isRet l = false) (h : Guarded epilogue new) :
    Guarded epilogue (l :: new) := by
  intro front r back heq hr
  cases front with
  | nil =>
    cases heq
    rw [hl] at hr
    cases hr
  | cons x front =>
    rw [List.cons_append, List.cons.injEq] at heq
    obtain ⟨n, front', rfl⟩ := h front r back heq.2 hr
    exact ⟨n, x :: front', rfl⟩

theorem Instrumented.guarded (h : Instrumented epilogue old new ns) : Guarded epilogue new := by
  induction h with
  | nil =>
    intro front r back heq
    exact absurd heq (by simp)
  | keep other rest ih => exact ih.cons other
  | @ret l old new ns n ret rest ih =>
    intro front r back heq hr
    obtain _ | ⟨x, _ | ⟨y, _ | ⟨z, front⟩⟩⟩ := front
    · cases heq
      rw [isRet_invokeLine] at hr
      cases hr
    · cases heq
      rw [isRet_labelLine] at hr
      cases hr
    · simp only [List.cons_append, List.nil_append, List.cons.injEq] at heq
      exact ⟨n, [], by rw [← heq.1, ← heq.2.1]; rfl⟩
    · simp only [List.cons_append, List.cons.injEq] at heq
      obtain ⟨m, front', rfl⟩ := ih front r back heq.2.2.2 hr
      exact ⟨m, x :: y :: z :: front', rfl⟩

/-- A block without `ret`s in front of the last line. -/
theorem Guarded.splice {init block : List Line} {last : Line}
    (h : Guarded epilogue (init ++ [last])) (hblock : ∀ l ∈ block, isRet l = false)
    (hlast : isRet last = false) :
    Guarded epilogue (init ++ block ++ [last]) := by
  have hlines : ∀ l ∈ block ++ [last], isRet l = false := by
    intro l hl
    rcases List.mem_append.mp hl with hl | hl
    · exact hblock l hl
    · rw [List.mem_singleton.mp hl, hlast]
  intro front r back heq hr
  have hr' : r ∉ block ++ [last] := fun hmem => by
    rw [hlines r hmem] at hr
    cases hr
  rw [List.append_assoc] at heq
  obtain ⟨a, rfl, ha⟩ | ⟨a, rfl, ha⟩ := List.append_eq_append_iff.mp heq
  · exact absurd (by rw [ha]; simp) hr'
  · cases a with
    | nil => exact absurd (by rw [← List.nil_append (block ++ [last]), ← ha]; simp) hr'
    | cons x a =>
      rw [List.cons_append, List.cons.injEq] at ha
      exact h front r (a ++ [last]) (by rw [ha.1]; simp) hr

theorem Instrumented.filter_cleanup (h : Instrumented epilogue old new ns) :
    new.filter isCleanup = old.filter isCleanup := by
  induction h with
  | nil => rfl
  | @keep l _ _ _ other rest ih => rw [List.filter_cons, List.filter_cons, ih]
  | @ret l _ _ _ n ret rest ih =>
    rw [List.filter_cons_of_neg (by rw [isCleanup_invokeLine]; exact Bool.false_ne_true),
      List.filter_cons_of_neg (by rw [isCleanup_labelLine]; exact Bool.false_ne_true),
      List.filter_cons, List.filter_cons, ih]

/-- The labels in `new` are those of `old` and the added ones. -/
theorem Instrumented.label (h : Instrumented epilogue old new ns) {n : Nat}
    (hn : labelLine n ∈ new) :
    n ∈ ns ∨ labelLine n ∈ old := by
  induction h with
  | nil => cases hn
  | keep other rest ih =>
    rcases List.mem_cons.mp hn with rfl | hn
    · exact .inr List.mem_cons_self
    · exact (ih hn).imp_right (List.mem_cons_of_mem _)
  | ret m ret rest ih =>
    rcases List.mem_cons.mp hn with hn | hn
    · cases hn
    rcases List.mem_cons.mp hn with hn | hn
    · rw [labelLine_injective hn]
      exact .inl List.mem_cons_self
    rcases List.mem_cons.mp hn with rfl | hn
    · exact .inr List.mem_cons_self
    · exact (ih hn).imp (List.mem_cons_of_mem _) (List.mem_cons_of_mem _)

/-- The last line stays the last. -/
theorem Instrumented.last (h : Instrumented epilogue old new ns) : new.getLast? = old.getLast? := by
  induction h with
  | nil => rfl
  | keep other rest ih => rw [List.getLast?_cons, List.getLast?_cons, ih]
  | ret n ret rest ih =>
    rw [List.getLast?_cons, List.getLast?_cons, List.getLast?_cons, List.getLast?_cons, ih]
    rfl

end

theorem isCleanup_of_isRet {l : Line} (h : isRet l = true) : isCleanup l = false := by
  rw [isRet, Bool.and_eq_true] at h
  cases l with
  | nil => rfl
  | cons c l =>
    have hc : (' ' == c) = true := (Bool.and_eq_true _ _ ▸ h.1).1
    rw [beq_iff_eq] at hc
    subst hc
    rfl

theorem scan_cleanup (epilogue : List Char) (ls : List Line) (line : Nat) :
    (scan epilogue line ls).2 = ls.any isCleanup := by
  induction ls generalizing line with
  | nil => rfl
  | cons l ls ih =>
    rw [scan, List.any_cons]
    by_cases hret : isRet l = true
    · rw [if_pos hret, isCleanup_of_isRet hret, Bool.false_or, ← ih (line + 3)]
    · rw [if_neg hret, ← ih (line + 1)]

/-! ## The personality clause -/

/-- A character of a name of the LLVM assembly language, or the mark in front
of one. -/
def nameChar (c : Char) : Bool := wordChar c || "-$.@%!#^".toList.contains c

/-- The keyword `personality` stands in the line as a word of its own, outside
quoted text and comments; `quoted`: the line starts within quotes, `start`: no
name goes on at its start. -/
def clauseFrom : (quoted start : Bool) → Line → Bool
  | _, _, [] => false
  | true, _, c :: s => clauseFrom (c != '"') true s
  | false, start, c :: s =>
    c != ';' && (start && "personality".toList.isPrefixOf (c :: s) && wordEnd ((c :: s).drop 11) ||
      clauseFrom (c == '"') (!nameChar c) s)

/-- The first place where a clause can be put (`opens`) is outside quoted text
and comments, and no name ends there. -/
def readyFrom : (quoted start : Bool) → Line → Bool
  | _, _, [] => false
  | quoted, start, c :: s =>
    if opens (c :: s) then !quoted && start
    else if quoted then readyFrom (c != '"') true s
    else c != ';' && readyFrom (c == '"') (!nameChar c) s

/-- The word `personality` in the line is a clause, or there is no such word and
a place for the clause. -/
def clauseReady (first : Line) : Bool :=
  if hasPersonality true first then clauseFrom false true first else readyFrom false true first

/-- A clause is an occurrence of the word. -/
theorem clauseFrom_word {l : Line} {quoted start word : Bool} (hl : hasPersonality word l = false)
    (hw : quoted = false → start = true → word = true) : clauseFrom quoted start l = false := by
  induction l generalizing quoted start word with
  | nil => cases quoted <;> rfl
  | cons c s ih =>
    rw [hasPersonality, Bool.or_eq_false_iff] at hl
    cases quoted with
    | true =>
      refine ih hl.2 fun hc _ => ?_
      rw [bne_eq_false_iff_eq] at hc
      subst hc
      rfl
    | false =>
      have hrest : clauseFrom (c == '"') (!nameChar c) s = false := by
        refine ih hl.2 fun _ hc => ?_
        rw [Bool.not_eq_true', nameChar, Bool.or_eq_false_iff] at hc
        rw [hc.1]
        rfl
      cases start with
      | false => simp only [clauseFrom, hrest, Bool.false_and, Bool.or_false, Bool.and_false]
      | true =>
        have hword := hl.1
        rw [hw rfl rfl] at hword
        rw [clauseFrom, hword, hrest, Bool.or_false, Bool.and_false]

/-- The state behind a text in which no word starts with `p` and no comment
begins. -/
def passed : (quoted start : Bool) → List Char → Option (Bool × Bool)
  | quoted, start, [] => some (quoted, start)
  | true, _, c :: s => passed (c != '"') true s
  | false, start, c :: s =>
    if c == ';' || start && c == 'p' then none else passed (c == '"') (!nameChar c) s

theorem word_eq : "personality".toList = 'p' :: "ersonality".toList := by decide

theorem clauseFrom_passed {a : List Char} {quoted start quoted' start' : Bool}
    (h : passed quoted start a = some (quoted', start')) (b : Line) :
    clauseFrom quoted start (a ++ b) = clauseFrom quoted' start' b := by
  induction a generalizing quoted start with
  | nil =>
    cases h
    rfl
  | cons c a ih =>
    cases quoted with
    | true => exact ih h
    | false =>
      rw [passed] at h
      split at h
      · cases h
      · rename_i hc
        rw [Bool.not_eq_true, Bool.or_eq_false_iff, Bool.and_eq_false_imp] at hc
        have hword : (start && "personality".toList.isPrefixOf (c :: (a ++ b))) = false := by
          cases start with
          | false => rfl
          | true =>
            have hp : ('p' == c) = false := by
              rw [Bool.beq_comm]
              exact hc.2 rfl
            rw [word_eq, List.isPrefixOf_cons_cons, hp]
            rfl
        rw [List.cons_append, clauseFrom, hword, Bool.false_and, Bool.false_or, ih h, bne, hc.1]
        rfl

theorem clauseFrom_keyword (s : Line) :
    clauseFrom false true ("personality ".toList ++ s) = true := by
  have hchars : "personality ".toList = "personality".toList ++ [' '] := by decide
  have hcons : "personality ".toList ++ s = 'p' :: ("ersonality".toList ++ ' ' :: s) := by
    rw [hchars, word_eq]
    simp
  have hprefix : "personality".toList.isPrefixOf ("personality ".toList ++ s) = true := by
    rw [List.isPrefixOf_iff_prefix, hchars, List.append_assoc]
    exact List.prefix_append ..
  have hdrop : ("personality ".toList ++ s).drop 11 = ' ' :: s := by
    rw [hchars, List.append_assoc, List.drop_left' (by decide)]
    rfl
  rw [hcons] at hprefix hdrop ⊢
  rw [clauseFrom, hprefix, hdrop]
  rfl

theorem personality_passed : passed true true PERSONALITY = some (true, true) ∧
    passed false false PERSONALITY = some (false, true) ∧ "personality ".toList <+:
      PERSONALITY := by
  decide +kernel

/-- The clause put in front of `b`. -/
theorem clauseFrom_personality (quoted start : Bool) (b : Line) :
    clauseFrom quoted start (PERSONALITY ++ b) =
      (!quoted && start || clauseFrom quoted true b) := by
  obtain ⟨hquoted, hjoined, s, hkeyword⟩ := personality_passed
  cases quoted with
  | true =>
    rw [← clauseFrom_passed hquoted b]
    cases PERSONALITY ++ b <;> rfl
  | false =>
    cases start with
    | true =>
      rw [← hkeyword, List.append_assoc]
      generalize s ++ b = s
      exact clauseFrom_keyword s
    | false => exact clauseFrom_passed hjoined b

theorem opens_head {c : Char} {s : Line} (h : opens (c :: s) = true) : c = '\x7b' ∨ c = '!' := by
  rw [opens, Bool.or_eq_true] at h
  rcases h with h | h
  · have hb : "\x7b".toList = ['\x7b'] := by decide
    rw [hb, beq_iff_eq, List.cons.injEq] at h
    exact .inl h.1
  · have hd : "!dbg ".toList = '!' :: "dbg ".toList := by decide
    simp only [hd, List.isPrefixOf_cons_cons, Bool.and_eq_true, beq_iff_eq] at h
    exact .inr h.1.1.1.1.symm

/-- No word with the letter `p` in front only comes about by the clause. -/
theorem word_replaceOpen {w : List Char} (hw : 'p' ∉ w) {s : Line}
    (h : (w.isPrefixOf (replaceOpen s) && wordEnd ((replaceOpen s).drop w.length)) = true) :
    (w.isPrefixOf s && wordEnd (s.drop w.length)) = true := by
  have hp : ∀ b : Line, ∃ t, PERSONALITY ++ b = 'p' :: t := by
    intro b
    obtain ⟨t, ht⟩ := personality_passed.2.2
    refine ⟨"ersonality ".toList ++ t ++ b, ?_⟩
    rw [← ht, show "personality ".toList = 'p' :: "ersonality ".toList by decide]
    simp
  induction w generalizing s with
  | nil =>
    cases s with
    | nil => rfl
    | cons c s =>
      rw [replaceOpen] at h
      split at h
      · obtain ⟨t, ht⟩ := hp (c :: s)
        rw [ht] at h
        cases h
      · exact h
  | cons x w ih =>
    rw [List.mem_cons, not_or] at hw
    cases s with
    | nil => cases h
    | cons c s =>
      rw [replaceOpen] at h
      split at h
      · obtain ⟨t, ht⟩ := hp (c :: s)
        rw [ht, List.isPrefixOf_cons_cons, beq_false_of_ne (Ne.symm hw.1), Bool.false_and,
          Bool.false_and] at h
        cases h
      · rw [List.isPrefixOf_cons_cons, List.length_cons, List.drop_succ_cons, Bool.and_assoc,
          Bool.and_eq_true] at h ⊢
        exact ⟨h.1, ih hw.2 h.2⟩

/-- Where the first line lacks the word, the clause is found in the new line
exactly if there was a place for it. -/
theorem clauseFrom_replaceOpen {l : Line} {quoted start word : Bool}
    (hl : hasPersonality word l = false) (hw : quoted = false → start = true → word = true) :
    clauseFrom quoted start (replaceOpen l) = readyFrom quoted start l := by
  induction l generalizing quoted start word with
  | nil => cases quoted <;> rfl
  | cons c s ih =>
    have hl' := hl
    rw [hasPersonality, Bool.or_eq_false_iff] at hl
    rw [replaceOpen, readyFrom]
    split
    · rename_i hopens
      -- The line goes on with a brace or `!dbg`, not with the word.
      have hfree : hasPersonality true (c :: s) = false := by
        have hp : ('p' == c) = false := by
          rcases opens_head hopens with rfl | rfl <;> rfl
        rw [hasPersonality, hl.2, word_eq, List.isPrefixOf_cons_cons, hp]
        rfl
      rw [clauseFrom_personality, clauseFrom_word hfree fun _ _ => rfl, Bool.or_false]
    · cases quoted with
      | true =>
        refine ih hl.2 fun hc _ => ?_
        rw [bne_eq_false_iff_eq] at hc
        subst hc
        rfl
      | false =>
        have hrest : clauseFrom (c == '"') (!nameChar c) (replaceOpen s) = readyFrom (c == '"')
            (!nameChar c) s := by
          refine ih hl.2 fun _ hc => ?_
          rw [Bool.not_eq_true', nameChar, Bool.or_eq_false_iff] at hc
          rw [hc.1]
          rfl
        have hword : (start && "personality".toList.isPrefixOf (c :: replaceOpen s) &&
            wordEnd ((c :: replaceOpen s).drop 11)) = false := by
          have hlength : "ersonality".toList.length = 10 := by decide
          cases start with
          | false => rfl
          | true =>
            have hl₁ := hl.1
            rw [hw rfl rfl, Bool.true_and, word_eq, List.isPrefixOf_cons_cons, List.drop_succ_cons,
              Bool.and_assoc] at hl₁
            rw [Bool.true_and, word_eq, List.isPrefixOf_cons_cons, List.drop_succ_cons,
              Bool.and_assoc]
            refine Bool.and_eq_false_imp.mpr fun hc => ?_
            by_contra hne
            rw [Bool.not_eq_false, ← hlength] at hne
            have hold := word_replaceOpen (by decide) hne
            rw [hc, Bool.true_and, ← hlength, hold] at hl₁
            cases hl₁
        rw [clauseFrom, hword, hrest]
        rfl

/-! ## The whole definition -/

/-- What `processDefine` is for: every `ret` is guarded by its own label, there
is one `cleanup` block, the first line has a personality clause, and without the
added lines and the clause the definition is as before. -/
structure Processed (epilogue : List Char) (old new : List Line) : Prop where
  guarded : Guarded epilogue new
  cleanup : (new.filter isCleanup).length = 1
  clause : ∃ first rest, new = first :: rest ∧ clauseFrom false true first = true
  restored : ∃ first first' rest body ns, old = first :: rest ∧ Clause first first' ∧
    Instrumented epilogue (first' :: rest) body ns ∧ (ns.map labelLine).Nodup ∧
    (∀ n, labelLine n ∈ new → n ∈ ns) ∧
    (new = body ∨ ∃ init last, body = init ++ [last] ∧ new = init ++ CLEANUP ++ [last])

section
variable {epilogue : List Char} {first : Line} {rest : List Line}

theorem clauseFrom_withClause (first : Line) :
    clauseFrom false true (withClause first) = clauseReady first := by
  rw [withClause, clauseReady]
  split
  · rfl
  · rename_i hword
    exact clauseFrom_replaceOpen (Bool.not_eq_true _ ▸ hword) fun _ _ => rfl

theorem clause_withClause (first : Line) : Clause first (withClause first) := by
  rw [withClause]
  split
  · exact .inl rfl
  · exact clause_replaceOpen first

/-- The first line of a definition starts with "define". -/
theorem withClause_define {s : Line} : ∃ s', withClause ('d' :: s) = 'd' :: s' := by
  rw [withClause]
  split
  · exact ⟨s, rfl⟩
  · rw [replaceOpen, if_neg]
    · exact ⟨replaceOpen s, rfl⟩
    · intro h
      rcases opens_head h with h | h <;> cases h

/-- The two ends of `processDefine`: with a `cleanup` block of its own, and
with one that is added in front of the last line. -/
theorem processDefine_cases (epilogue : List Char) (first : Line) (rest : List Line) :
    ∃ body ns, Instrumented epilogue (withClause first :: rest) body ns ∧ ns.Pairwise (· < ·) ∧
      ((withClause first :: rest).any isCleanup = true ∧
        processDefine epilogue (first :: rest) = body ∨
        (withClause first :: rest).any isCleanup = false ∧ ∃ init last, body = init ++ [last] ∧
          processDefine epilogue (first :: rest) = init ++ CLEANUP ++ [last]) := by
  obtain ⟨ns, hi, hlt, -⟩ := instrumented_scan epilogue (withClause first :: rest) 0
  refine ⟨_, ns, hi, hlt, ?_⟩
  rw [← scan_cleanup epilogue (withClause first :: rest) 0, processDefine_eq]
  have hlast := hi.last
  generalize scan epilogue 0 (withClause first :: rest) = r at hlast ⊢
  cases hc : r.2 with
  | true => exact .inl ⟨rfl, by simp only [hc, if_true]⟩
  | false =>
    rw [List.getLast?_cons] at hlast
    obtain ⟨init, hinit⟩ := List.getLast?_eq_some_iff.mp hlast
    refine .inr ⟨rfl, init, _, hinit, ?_⟩
    dsimp only
    rw [hc, if_neg Bool.false_ne_true, hinit, splice, List.length_append, List.length_singleton,
      Nat.add_sub_cancel, List.take_left, List.drop_left]

theorem Instrumented.head {l : Line} {old new : List Line} {ns : List Nat}
    (h : Instrumented epilogue (l :: old) new ns) (hl : isRet l = false) (hold : old ≠ []) :
    ∃ new', new' ≠ [] ∧ new = l :: new' := by
  cases h with
  | ret n ret _ =>
    rw [hl] at ret
    cases ret
  | @keep _ _ new' _ _ tail =>
    refine ⟨new', fun hnil => hold ?_, rfl⟩
    have hlast := tail.last
    rw [hnil] at hlast
    exact List.getLast?_eq_none_iff.mp hlast.symm

/-- The first line is kept, with its clause. -/
theorem head_processDefine (epilogue : List Char) (hfirst : isRet (withClause first) = false)
    (hrest : rest ≠ []) :
    ∃ rest', processDefine epilogue (first :: rest) = withClause first :: rest' := by
  obtain ⟨body, ns, hi, -, ⟨-, heq⟩ | ⟨-, init, last, hbody, heq⟩⟩ :=
    processDefine_cases epilogue first rest
  · obtain ⟨new, -, rfl⟩ := hi.head hfirst hrest
    exact ⟨new, heq⟩
  · obtain ⟨new, hnew, rfl⟩ := hi.head hfirst hrest
    cases init with
    | nil => exact absurd (List.cons.inj hbody).2 hnew
    | cons x init => exact ⟨init ++ CLEANUP ++ [last], by rw [heq, (List.cons.inj hbody).1]; rfl⟩

/-- With one `cleanup` line at most, one that there is is the only one. -/
theorem length_filter_cleanup {ls : List Line} (hc : ls.any isCleanup = true)
    (hle : (ls.filter isCleanup).length ≤ 1) : (ls.filter isCleanup).length = 1 := by
  refine Nat.le_antisymm hle (List.length_pos_iff.mpr fun hnil => ?_)
  rw [List.filter_eq_nil_iff] at hnil
  obtain ⟨l, hl, hlc⟩ := List.any_eq_true.mp hc
  exact hnil l hl hlc

theorem filter_cleanup_eq_nil {ls : List Line} (hc : ls.any isCleanup = false) :
    ls.filter isCleanup = [] := by
  rw [List.filter_eq_nil_iff]
  intro l hl hlc
  rw [List.any_eq_false] at hc
  exact hc l hl hlc

/-- The block that is added has one `cleanup` line. -/
theorem length_filter_added {init : List Line} {last : Line}
    (h : (init ++ [last]).filter isCleanup = []) :
    ((init ++ CLEANUP ++ [last]).filter isCleanup).length = 1 := by
  rw [List.filter_append, List.append_eq_nil_iff] at h
  rw [List.filter_append, List.filter_append, h.1, h.2]
  decide

/-- The block that is added has no label of a `ret`. -/
theorem label_of_added {n : Nat} {init : List Line} {last : Line}
    (hn : labelLine n ∈ init ++ CLEANUP ++ [last]) : labelLine n ∈ init ++ [last] := by
  rw [List.mem_append, List.mem_append] at hn
  rcases hn with (hn | hn) | hn
  · exact List.mem_append_left _ hn
  · have hblock : ∀ l ∈ CLEANUP, l.head? ≠ some 'i' := by decide
    exact absurd rfl (hblock _ hn)
  · exact List.mem_append_right _ hn

end

/-- **`processDefine` does what it is for exactly when the first line allows
it**: the word `personality` in it is a clause, or there is no such word and the
clause gets a place of its own. -/
theorem processDefine_iff (epilogue : List Char) (first : Line) (rest : List Line)
    (hdefine : "define ".toList <+: first) (hclose : rest.getLast? = some "\x7d".toList)
    (hcleanup : ((first :: rest).filter isCleanup).length ≤ 1)
    (hlabels : ∀ l ∈ first :: rest, ∀ n, ¬labelLine n <+: l) :
    Processed epilogue (first :: rest) (processDefine epilogue (first :: rest)) ↔
      clauseReady first = true := by
  -- What is true of the first line holds because it starts with a `d`.
  obtain ⟨s, rfl⟩ : ∃ s, first = 'd' :: s := by
    obtain ⟨t, rfl⟩ := hdefine
    exact ⟨"efine ".toList ++ t, rfl⟩
  obtain ⟨s', hs'⟩ := withClause_define (s := s)
  have hret : isRet (withClause ('d' :: s)) = false := by rw [hs']; rfl
  have hfirst : isCleanup (withClause ('d' :: s)) = false := by rw [hs']; rfl
  have hrest : rest ≠ [] := by
    rintro rfl
    cases hclose
  obtain ⟨rest', hhead⟩ := head_processDefine epilogue hret hrest
  constructor
  · intro h
    obtain ⟨first', rest'', heq, hclause⟩ := h.clause
    rw [hhead, List.cons.injEq] at heq
    rw [← clauseFrom_withClause, heq.1]
    exact hclause
  · intro hready
    obtain ⟨body, ns, hi, hlt, hends⟩ := processDefine_cases epilogue ('d' :: s) rest
    have hold : ∀ n, labelLine n ∉ withClause ('d' :: s) :: rest := by
      intro n hn
      rcases List.mem_cons.mp hn with hn | hn
      · rw [hs'] at hn
        cases hn
      · exact hlabels _ (List.mem_cons_of_mem _ hn) n List.prefix_rfl
    have hdistinct : (ns.map labelLine).Nodup :=
      (hlt.imp Nat.ne_of_lt).map labelLine fun m n hne h => hne (labelLine_injective h)
    have hfilter : body.filter isCleanup = rest.filter isCleanup := by
      rw [hi.filter_cleanup, List.filter_cons_of_neg (by rw [hfirst]; exact Bool.false_ne_true)]
    have hany : (withClause ('d' :: s) :: rest).any isCleanup = rest.any isCleanup := by
      rw [List.any_cons, hfirst, Bool.false_or]
    rw [List.filter_cons_of_neg (by exact Bool.false_ne_true)] at hcleanup
    rw [hany] at hends
    have hclause : clauseFrom false true (withClause ('d' :: s)) = true := by
      rw [clauseFrom_withClause]
      exact hready
    obtain ⟨hc, heq⟩ | ⟨hc, init, last, rfl, heq⟩ := hends
    · refine ⟨?_, ?_, ⟨_, rest', hhead, hclause⟩,
        ⟨_, _, rest, body, ns, rfl, clause_withClause _, hi, hdistinct,
        fun n hn => ?_, .inl heq⟩⟩
      · rw [heq]
        exact hi.guarded
      · rw [heq, hfilter]
        exact length_filter_cleanup hc hcleanup
      · rw [heq] at hn
        exact (hi.label hn).resolve_right (hold n)
    · have hlast : last = "\x7d".toList := by
        have hgetLast := hi.last
        rw [List.getLast?_concat, List.getLast?_cons, hclose] at hgetLast
        exact Option.some.inj hgetLast
      have hnone : (init ++ [last]).filter isCleanup = [] :=
        hfilter.trans (filter_cleanup_eq_nil hc)
      refine ⟨?_, ?_, ⟨_, rest', hhead, hclause⟩,
        ⟨_, _, rest, _, ns, rfl, clause_withClause _, hi, hdistinct,
        fun n hn => ?_, .inr ⟨init, last, rfl, heq⟩⟩⟩
      · rw [heq]
        exact hi.guarded.splice (by decide) (by rw [hlast]; decide)
      · rw [heq]
        exact length_filter_added hnone
      · rw [heq] at hn
        exact (hi.label (label_of_added hn)).resolve_right (hold n)

/-- A function that returns. -/
def returning : List Line := ["define void @f() \x7b".toList, "  ret void".toList, "\x7d".toList]

/-- No line of a definition starts with the first letter of a label. -/
theorem no_labels {ls : List Line} (h : ∀ l ∈ ls, l.head? ≠ some 'i') :
    ∀ l ∈ ls, ∀ n, ¬labelLine n <+: l := by
  rintro l hl n ⟨t, rfl⟩
  exact h _ hl rfl

theorem processDefine_iff_returning :
    Processed EPILOGUE returning (processDefine EPILOGUE returning) :=
  (processDefine_iff EPILOGUE _ _ (by decide) (by decide) (by decide) (no_labels (by decide))).mpr
    (by decide)

/-- The wrapper of `personality(2)`: its name is taken for a clause. -/
def named : List Line :=
  ["define i32 @personality(i64 %0) \x7b".toList, "  ret i32 0".toList, "\x7d".toList]

theorem name_taken_for_clause : (named.head?.bind List.getLast?) = some '\x7b' ∧
    named.getLast? = some "\x7d".toList ∧ (∀ l ∈ named, isCleanup l = false) ∧
    (∀ l ∈ named, ∀ n, ¬labelLine n <+: l) ∧
      ¬Processed EPILOGUE named (processDefine EPILOGUE named) := by
  refine ⟨by decide, by decide, by decide, no_labels (by decide), fun h => ?_⟩
  obtain ⟨first, rest, heq, hclause⟩ := h.clause
  have hhead : (processDefine EPILOGUE named).head? =
      some "define i32 @personality(i64 %0) \x7b".toList := by
    rw [named, processDefine_eq]
    decide
  rw [heq, List.head?_cons, Option.some.injEq] at hhead
  rw [hhead] at hclause
  exact absurd hclause (by decide)

end Inger.L6.Ingerc
