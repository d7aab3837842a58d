import Inger.Core.Text
import Mathlib.Data.List.Infix

/-!
# The IR rewriter (`compiler/ingerc.ts`)

`ingerc.ts` gives every function of an LLVM module an exception table: it cuts
the text at each line that starts with "define ", cuts each part again at the
line "}" that closes the definition, adds a personality clause, an invocation
of the epilogue in front of each `ret` and a `cleanup` block (`processDefine`),
and joins the parts.

The cuts are `split('\ndefine ')` and `split('\n}\n')`. The second one is taken
apart as `[head, tail]` and tested by `if(tail)`, so
* an empty `tail` counts as no closing line at all: the word "define" and the
  closing line are lost. This is the case of a definition that is followed by
  exactly one blank line and another definition, or by the end of the file;
* a third and any later piece is lost;
* a closing line in the part in front of the first definition turns that part
  into a definition.

`text_kept_iff`: with `processDefine` left out the text is reproduced, and with
it only its insertions and the final declaration are added, exactly when none
of this happens.

Texts are lists of characters; the delimiters are ASCII, so cutting by
characters or by UTF-16 units is the same. `\x7b` and `\x7d` are braces.
-/
namespace Inger.L6.Ingerc

open Text

abbrev Line := List Char

/-! ## `processDefine` -/

/-- `\w` -/
def wordChar (c : Char) : Bool := c.isAlphanum || c == '_'

/-- `\b` behind a word: no word character follows. -/
def wordEnd : List Char → Bool
  | [] => true
  | c :: _ => !wordChar c

/-- `/\bpersonality\b/`; `start`: the character before is not a word
character. -/
def hasPersonality : (start : Bool) → Line → Bool
  | _, [] => false
  | start, c :: s =>
    start && "personality".toList.isPrefixOf (c :: s) && wordEnd ((c :: s).drop 11) ||
      hasPersonality (!wordChar c) s

/-- `/^  ret\b/` -/
def isRet (l : Line) : Bool := "  ret".toList.isPrefixOf l && wordEnd (l.drop 5)

/-- `/^cleanup:/` -/
def isCleanup (l : Line) : Bool := "cleanup:".toList.isPrefixOf l

/-- What `.` does not match. -/
def lineTerminator (c : Char) : Bool :=
  c == '\n' || c == '\r' || c == '\u2028' || c == '\u2029'

/-- `/(!dbg .+)?{$/` matches at the start. -/
def opens (s : List Char) : Bool :=
  s == "\x7b".toList ||
    "!dbg ".toList.isPrefixOf s && (s.drop 5).getLast? == some '\x7b' &&
      2 ≤ (s.drop 5).length && (s.drop 5).dropLast.all (!lineTerminator ·)

/-- The replacement, without the `$&` at its end.
mirrors compiler/ingerc.ts:10-16 -/
def PERSONALITY : List Char :=
  "personality i32 (i32, i32, i64, %\"unwind::libunwind::_Unwind_Exception\"*, %\"unwind::libunwind::_Unwind_Context\"*)* @rust_eh_personality ".toList

/-- `replace` at the leftmost match: what matches is kept (`$&`) and the
clause put in front.
mirrors compiler/ingerc.ts:8-17 -/
def replaceOpen : Line → Line
  | [] => []
  | c :: s => if opens (c :: s) then PERSONALITY ++ c :: s else c :: replaceOpen s

def label (line : Nat) : List Char := "ingerc".toList ++ (toString line).toList

/-- mirrors compiler/ingerc.ts:27-31 -/
def invokeLine (epilogue : List Char) (line : Nat) : Line :=
  "  invoke void @\"".toList ++ epilogue ++ "\"() to label %".toList ++ label line ++
    " unwind label %cleanup".toList

def labelLine (line : Nat) : Line := label line ++ [':']

/-- `fun.splice(index, 0, ...added)` -/
def splice (fn : List Line) (index : Nat) (added : List Line) : List Line :=
  fn.take index ++ added ++ fn.drop index

/-- The loop over the index `line`, which inserts into the array it runs over
and steps over what it has inserted.
mirrors compiler/ingerc.ts:19-36 -/
def loop (epilogue : List Char) (line : Nat) (fn : List Line) (cleanup : Bool) : List Line × Bool :=
  if h : line < fn.length then
    if isRet fn[line] then
      loop epilogue (line + 2 + 1) (splice fn line [invokeLine epilogue line, labelLine line])
        cleanup
    else if isCleanup fn[line] then loop epilogue (line + 1) fn true
    else loop epilogue (line + 1) fn cleanup
  else (fn, cleanup)
termination_by fn.length - line
decreasing_by
  · simp only [splice, List.length_append, List.length_take, List.length_drop, List.length_cons,
      List.length_nil]
    omega
  · omega
  · omega

/-- The same over the lines from index `line` on. -/
def scan (epilogue : List Char) : (line : Nat) → List Line → List Line × Bool
  | _, [] => ([], false)
  | line, l :: rest =>
    if isRet l then
      let r := scan epilogue (line + 3) rest
      (invokeLine epilogue line :: labelLine line :: l :: r.1, r.2)
    else
      let r := scan epilogue (line + 1) rest
      (l :: r.1, isCleanup l || r.2)

/-- mirrors compiler/ingerc.ts:42-44 -/
def CLEANUP : List Line :=
  ["cleanup:".toList, "  %ingerc = landingpad \x7b i8*, i32 \x7d cleanup".toList,
   "  resume \x7b i8*, i32 \x7d %ingerc".toList]

/-- mirrors compiler/ingerc.ts:5-47 -/
def processDefine (epilogue : List Char) : List Line → List Line
  | [] => []
  | first :: rest =>
    let first' := if hasPersonality true first then first else replaceOpen first
    let (lines, cleanup) := loop epilogue 0 (first' :: rest) false
    if cleanup then lines else splice lines (lines.length - 1) CLEANUP

/-! ## The pipeline -/

def DEFINE : List Char := "\ndefine ".toList
def CLOSE : List Char := "\n\x7d\n".toList

/-- An element of `funs`: a string, or the array of a definition's lines. -/
inductive Elem where
  | text (s : List Char)
  | define (lines : List Line)
  deriving DecidableEq

/-- The lines of a definition: the word and the closing line that the cuts
have taken away are put back. -/
def definition (head : List Char) : List Line :=
  split ['\n'] ("define ".toList ++ head ++ "\n\x7d".toList)

/-- mirrors compiler/ingerc.ts:74-80 -/
def parse (elem : List Char) : List Elem :=
  match split CLOSE elem with
  | head :: tail :: _ =>
    -- `if(tail)`: the empty string is falsy.
    if tail ≠ [] then [.define (definition head), .text tail] else [.text head]
  | [head] => [.text head]
  | [] => []

def funs (ll : List Char) : List Elem := (split DEFINE ll).flatMap parse

/-- mirrors compiler/ingerc.ts:82-87 -/
def render (process : List Line → List Line) : Elem → List Char
  | .text s => s
  | .define lines => ['\n'] ++ List.intercalate ['\n'] (process lines) ++ ['\n']

/-- `split`, `map` and `join` with `process` for `processDefine`. -/
def pipeline (process : List Line → List Line) (ll : List Char) : List Char :=
  (funs ll).flatMap (render process)

def declare (epilogue : List Char) : List Char :=
  "\ndeclare void @\"".toList ++ epilogue ++ "\"()".toList

def EPILOGUE : List Char := "llvm.donothing".toList

/-- How the program ends: with the usage text, with the file left alone, or
with the file overwritten. -/
inductive Outcome where
  | usage
  | unchanged
  | written (ll : List Char)
  deriving DecidableEq

/-- The program: its arguments and the text of the file.
mirrors compiler/ingerc.ts:49-89 -/
def main (args : List (List Char)) (ll : List Char) : Outcome :=
  let rewrite (epilogue : List Char) : Outcome :=
    if declare epilogue <:+: ll then .unchanged
    else .written (pipeline (processDefine epilogue) ll ++ declare epilogue)
  match args with
  | [_] => rewrite EPILOGUE
  | [_, epilogue] => rewrite epilogue
  | _ => .usage

/-! ## `processDefine` only inserts -/

/-- What the loop does from `line` on is what `scan` does to the lines from
there on. -/
theorem loop_eq_scan (epilogue : List Char) (done rest : List Line) (cleanup : Bool) :
    loop epilogue done.length (done ++ rest) cleanup =
      (done ++ (scan epilogue done.length rest).1,
        cleanup || (scan epilogue done.length rest).2) := by
  induction rest generalizing done cleanup with
  | nil => rw [loop, dif_neg (by simp), scan, List.append_nil, Bool.or_false]
  | cons l rest ih =>
    have hlt : done.length < (done ++ l :: rest).length := by simp
    have hl : (done ++ l :: rest)[done.length] = l := by simp
    rw [loop, dif_pos hlt, hl, scan]
    by_cases hret : isRet l = true
    · -- The two new lines and the `ret` are done.
      have hsplice : splice (done ++ l :: rest) done.length
          [invokeLine epilogue done.length, labelLine done.length] =
          (done ++ [invokeLine epilogue done.length, labelLine done.length, l]) ++ rest := by
        simp [splice]
      have hnext := ih (done ++ [invokeLine epilogue done.length, labelLine done.length, l]) cleanup
      rw [List.length_append] at hnext
      rw [if_pos hret, if_pos hret, hsplice]
      simpa using hnext
    · have hnext (cleanup : Bool) := ih (done ++ [l]) cleanup
      simp only [List.length_append, List.append_assoc, List.singleton_append] at hnext
      rw [if_neg hret, if_neg hret]
      cases hc : isCleanup l with
      | true => simpa using hnext true
      | false => simpa using hnext cleanup

/-- The first line with its clause. -/
def withClause (first : Line) : Line :=
  if hasPersonality true first then first else replaceOpen first

theorem processDefine_eq (epilogue : List Char) (first : Line) (rest : List Line) :
    processDefine epilogue (first :: rest) =
      let r := scan epilogue 0 (withClause first :: rest)
      if r.2 then r.1 else splice r.1 (r.1.length - 1) CLEANUP := by
  have h := loop_eq_scan epilogue [] (withClause first :: rest) false
  simp only [List.nil_append, List.length_nil, Bool.false_or] at h
  change (let (lines, cleanup) := loop epilogue 0 (withClause first :: rest) false
    if cleanup then lines else splice lines (lines.length - 1) CLEANUP) = _
  rw [h]

/-- The lines `processDefine` inserts. -/
def Added (epilogue : List Char) (l : Line) : Prop :=
  (∃ line, l = invokeLine epilogue line ∨ l = labelLine line) ∨ l ∈ CLEANUP

/-- A personality clause may be inserted somewhere in the first line. -/
def Clause (first first' : Line) : Prop :=
  first' = first ∨ ∃ a b, first = a ++ b ∧ first' = a ++ PERSONALITY ++ b

theorem clause_replaceOpen : ∀ l : Line, Clause l (replaceOpen l)
  | [] => .inl rfl
  | c :: s => by
    rw [replaceOpen]
    split
    · exact .inr ⟨[], c :: s, rfl, by rw [List.nil_append]⟩
    · rcases clause_replaceOpen s with h | ⟨a, b, hs, h⟩
      · exact .inl (by rw [h])
      · refine .inr ⟨c :: a, b, ?_, ?_⟩
        · rw [hs, List.cons_append]
        · rw [h, List.cons_append, List.cons_append]

theorem inserted_scan (epilogue : List Char) :
    ∀ (line : Nat) (ls : List Line), Inserted (Added epilogue) ls (scan epilogue line ls).1
  | _, [] => .nil
  | line, l :: ls => by
    rw [scan]
    split
    · exact .add (.inl ⟨line, .inl rfl⟩) (.add (.inl ⟨line, .inr rfl⟩)
        (.keep l (inserted_scan epilogue (line + 3) ls)))
    · exact .keep l (inserted_scan epilogue (line + 1) ls)

/-- A block put in front of the last line. -/
theorem inserted_splice (epilogue : List Char) (ls : List Line) (n : Nat) :
    Inserted (Added epilogue) ls (splice ls n CLEANUP) := by
  have h : Inserted (Added epilogue) (ls.take n ++ [] ++ ls.drop n)
      (ls.take n ++ CLEANUP ++ ls.drop n) :=
    ((Inserted.refl _ _).append (.all fun _ hl => .inr hl)).append (.refl _ _)
  rwa [List.append_nil, List.take_append_drop] at h

/-- What `processDefine` makes of the lines of a definition. -/
def Edited (epilogue : List Char) (old new : List Line) : Prop :=
  ∃ first first' rest, old = first :: rest ∧ Clause first first' ∧
    Inserted (Added epilogue) (first' :: rest) new

theorem edited_processDefine (epilogue : List Char) {old : List Line} (h : old ≠ []) :
    Edited epilogue old (processDefine epilogue old) := by
  match old, h with
  | first :: rest, _ =>
    refine ⟨first, if hasPersonality true first then first else replaceOpen first, rest,
      rfl, ?_, ?_⟩
    · split
      · exact .inl rfl
      · exact clause_replaceOpen first
    · rw [processDefine_eq, withClause]
      generalize (if hasPersonality true first then first else replaceOpen first) = first'
      dsimp only
      split
      · exact inserted_scan epilogue 0 _
      · exact (inserted_scan epilogue 0 _).trans (inserted_splice epilogue _ _)

/-! ## What the pipeline makes of one part -/

/-- A part has no closing line, or a definition and a text behind it (any
further pieces are dropped), or an empty text behind its first closing line. -/
inductive Part (elem : List Char) : Prop
  | plain (h : split CLOSE elem = [elem])
  | definition (head tail : List Char) (rest : List (List Char))
      (h : split CLOSE elem = head :: tail :: rest) (ht : tail ≠ [])
  | lost (head : List Char) (rest : List (List Char)) (h : split CLOSE elem = head :: [] :: rest)

theorem part_cases (elem : List Char) : Part elem := by
  match h : split CLOSE elem with
  | [] => exact absurd h (split_ne_nil _ _)
  | [head] =>
    have he := split_spread (by decide) h
    rw [List.flatMap_nil, List.append_nil] at he
    exact .plain (by rw [h, he])
  | head :: [] :: rest => exact .lost head rest h
  | head :: (c :: tail) :: rest => exact .definition head (c :: tail) rest h (by simp)

/-- What is left of a part when `processDefine` is left out. -/
def kept (elem : List Char) : List Char := (parse elem).flatMap (render id)

theorem pipeline_id (ll : List Char) : pipeline id ll = (split DEFINE ll).flatMap kept := by
  simp only [pipeline, funs, List.flatMap_assoc]
  rfl

theorem render_definition (head : List Char) :
    render id (.define (definition head)) = DEFINE ++ head ++ CLOSE := by
  have hd : DEFINE = ['\n'] ++ "define ".toList := by decide
  have hc : CLOSE = "\n\x7d".toList ++ ['\n'] := by decide
  rw [render, id, definition, intercalate_split (List.cons_ne_nil _ _), hd, hc]
  simp only [List.append_assoc]

theorem parse_plain {elem : List Char} (h : split CLOSE elem = [elem]) :
    parse elem = [.text elem] := by
  simp only [parse, h]

theorem parse_definition {elem head tail : List Char} {rest : List (List Char)}
    (h : split CLOSE elem = head :: tail :: rest) (ht : tail ≠ []) :
    parse elem = [.define (definition head), .text tail] := by
  simp only [parse, h, if_pos ht]

theorem kept_plain {elem : List Char} (h : split CLOSE elem = [elem]) : kept elem = elem := by
  rw [kept, parse_plain h, List.flatMap_singleton]
  rfl

theorem kept_lost {elem head : List Char} {rest : List (List Char)}
    (h : split CLOSE elem = head :: [] :: rest) : kept elem = head := by
  simp [kept, parse, h, render]

theorem kept_definition {elem head tail : List Char} {rest : List (List Char)}
    (h : split CLOSE elem = head :: tail :: rest) (ht : tail ≠ []) :
    kept elem = DEFINE ++ head ++ CLOSE ++ tail := by
  rw [kept, parse_definition h ht, List.flatMap_cons, List.flatMap_singleton, render_definition]
  rfl

/-- Behind a "define", exactly one closing line with something after it. -/
def closesOnce (elem : List Char) : Bool :=
  match split CLOSE elem with
  | [_, tail] => !tail.isEmpty
  | _ => false

theorem closesOnce_iff {elem : List Char} :
    closesOnce elem = true ↔ ∃ head tail, split CLOSE elem = [head, tail] ∧ tail ≠ [] := by
  constructor
  · intro h
    simp only [closesOnce] at h
    split at h
    · rename_i head tail hs
      exact ⟨head, tail, hs, by simpa using h⟩
    · cases h
  · rintro ⟨head, tail, hs, ht⟩
    simpa [closesOnce, hs] using ht

theorem kept_of_closesOnce {elem : List Char} (h : closesOnce elem = true) :
    kept elem = DEFINE ++ elem := by
  obtain ⟨head, tail, hs, ht⟩ := closesOnce_iff.mp h
  rw [kept_definition hs ht, split_spread (by decide) hs]
  simp

/-- A part never grows by more than its "define", and when it does not shrink
it closes once. -/
theorem length_kept (elem : List Char) :
    (kept elem).length ≤ (DEFINE ++ elem).length ∧
      ((kept elem).length = (DEFINE ++ elem).length → closesOnce elem = true) := by
  have hd : DEFINE.length = 8 := by decide
  have hc : CLOSE.length = 3 := by decide
  cases part_cases elem with
  | plain h =>
    rw [kept_plain h]
    simp only [List.length_append]
    exact ⟨by omega, by omega⟩
  | lost head rest h =>
    have he := congrArg List.length (split_spread (by decide) h)
    rw [kept_lost h]
    simp only [List.length_append, List.flatMap_cons] at he ⊢
    exact ⟨by omega, by omega⟩
  | definition head tail rest h ht =>
    have he := congrArg List.length (split_spread (by decide) h)
    rw [kept_definition h ht]
    simp only [List.length_append, List.flatMap_cons] at he ⊢
    refine ⟨by omega, fun heq => ?_⟩
    -- No piece is left over: each would be three characters and more.
    match rest with
    | [] => exact closesOnce_iff.mpr ⟨head, tail, h, ht⟩
    | p :: rest =>
      simp only [List.flatMap_cons, List.length_append] at he
      omega

/-! ## The whole text -/

/-- The part in front of the first definition has no closing line, and every
definition has exactly one, with something between it and the next definition
or the end of the file. -/
def Lossless (ll : List Char) : Prop :=
  match split DEFINE ll with
  | [] => False
  | header :: defs => split CLOSE header = [header] ∧ ∀ elem ∈ defs, closesOnce elem = true

instance (ll : List Char) : Decidable (Lossless ll) := by
  unfold Lossless
  split <;> infer_instance

theorem lossless_iff {ll header : List Char} {defs : List (List Char)}
    (h : split DEFINE ll = header :: defs) :
    Lossless ll ↔ split CLOSE header = [header] ∧ ∀ elem ∈ defs, closesOnce elem = true := by
  simp only [Lossless, h]

theorem pipeline_of_lossless {ll : List Char} (h : Lossless ll) : pipeline id ll = ll := by
  match hs : split DEFINE ll with
  | [] => exact absurd hs (split_ne_nil _ _)
  | header :: defs =>
    obtain ⟨hh, hd⟩ := (lossless_iff hs).mp h
    have hmap : defs.flatMap kept = defs.flatMap (DEFINE ++ ·) :=
      List.flatMap_congr fun elem he => kept_of_closesOnce (hd elem he)
    rw [pipeline_id, hs, List.flatMap_cons, kept_plain hh, hmap, ← split_spread (by decide) hs]

/-- The part in front of the first definition is not taken for one: the
output would start with a "define" that the text does not start with. -/
theorem header_not_definition {ll header head tail : List Char} {defs rest : List (List Char)}
    (h : pipeline id ll = ll) (hs : split DEFINE ll = header :: defs)
    (hc : split CLOSE header = head :: tail :: rest) : tail = [] := by
  by_contra ht
  rw [pipeline_id, hs, List.flatMap_cons, kept_definition hc ht] at h
  have hp : DEFINE <+: ll := by
    rw [← h]
    exact ⟨head ++ CLOSE ++ tail ++ defs.flatMap kept, by simp⟩
  have hne : ll ≠ [] := by
    intro hnil
    rw [hnil] at hp
    exact absurd (List.prefix_nil.mp hp) (by decide)
  have hempty := split_of_prefix hne hp
  rw [hs, List.head?_cons, Option.some.injEq] at hempty
  rw [hempty] at hc
  simp [split, splitFrom] at hc

theorem lossless_of_pipeline {ll : List Char} (h : pipeline id ll = ll) : Lossless ll := by
  match hs : split DEFINE ll with
  | [] => exact absurd hs (split_ne_nil _ _)
  | header :: defs =>
    have hlen := congrArg List.length h
    rw [pipeline_id, hs, List.flatMap_cons, List.length_append] at hlen
    have htext := congrArg List.length (split_spread (by decide) hs)
    rw [List.length_append] at htext
    have hle : (defs.flatMap kept).length ≤ (defs.flatMap (DEFINE ++ ·)).length :=
      length_flatMap_le fun elem _ => (length_kept elem).1
    rw [lossless_iff hs]
    cases part_cases header with
    | definition head tail rest hc ht => exact absurd (header_not_definition h hs hc) ht
    | lost head rest hc =>
      have he := congrArg List.length (split_spread (by decide) hc)
      rw [kept_lost hc] at hlen
      simp only [List.length_append, List.flatMap_cons, show CLOSE.length = 3 by decide] at he
      omega
    | plain hc =>
      rw [kept_plain hc] at hlen
      refine ⟨hc, fun elem hmem => (length_kept elem).2 ?_⟩
      exact length_eq_of_flatMap (g := (DEFINE ++ ·)) (fun elem _ => (length_kept elem).1)
        (by omega) elem hmem

/-- `out` is the text with its definitions edited and the declaration added:
`defs` holds each definition's lines, the edited lines and the text behind it. -/
def Expands (epilogue ll out : List Char) : Prop :=
  ∃ (header : List Char) (defs : List (List Line × List Line × List Char)),
    ll = header ++ defs.flatMap (fun d => render id (.define d.1) ++ d.2.2) ∧
    out = header ++ defs.flatMap (fun d => render id (.define d.2.1) ++ d.2.2) ++ declare epilogue ∧
    ∀ d ∈ defs, Edited epilogue d.1 d.2.1

theorem expands_defs (epilogue : List Char) :
    ∀ elems : List (List Char), (∀ elem ∈ elems, closesOnce elem = true) →
      ∃ defs : List (List Line × List Line × List Char),
        elems.flatMap (DEFINE ++ ·) = defs.flatMap (fun d => render id (.define d.1) ++ d.2.2) ∧
        (elems.flatMap parse).flatMap (render (processDefine epilogue)) =
          defs.flatMap (fun d => render id (.define d.2.1) ++ d.2.2) ∧
        ∀ d ∈ defs, Edited epilogue d.1 d.2.1
  | [], _ => ⟨[], rfl, rfl, by simp⟩
  | elem :: elems, h => by
    obtain ⟨defs, hold, hnew, hedit⟩ := expands_defs epilogue elems fun x hx =>
      h x (by simp [hx])
    obtain ⟨head, tail, hs, ht⟩ := closesOnce_iff.mp (h elem (by simp))
    refine ⟨(definition head, processDefine epilogue (definition head), tail) :: defs, ?_, ?_, ?_⟩
    · rw [List.flatMap_cons, List.flatMap_cons, hold, render_definition,
        split_spread (by decide) hs]
      simp
    · rw [List.flatMap_cons, List.flatMap_append, hnew, parse_definition hs ht, List.flatMap_cons,
        List.flatMap_singleton, List.flatMap_cons]
      rfl
    · intro d hd
      rcases List.mem_cons.mp hd with rfl | hd
      · exact edited_processDefine epilogue (split_ne_nil _ _)
      · exact hedit d hd

theorem expands_of_lossless (epilogue : List Char) {ll : List Char} (h : Lossless ll) :
    Expands epilogue ll (pipeline (processDefine epilogue) ll ++ declare epilogue) := by
  match hs : split DEFINE ll with
  | [] => exact absurd hs (split_ne_nil _ _)
  | header :: elems =>
    obtain ⟨hh, hd⟩ := (lossless_iff hs).mp h
    obtain ⟨defs, hold, hnew, hedit⟩ := expands_defs epilogue elems hd
    refine ⟨header, defs, ?_, ?_, hedit⟩
    · rw [← hold, ← split_spread (by decide) hs]
    · rw [pipeline, funs, hs, List.flatMap_cons, List.flatMap_append, hnew, parse_plain hh,
        List.flatMap_singleton]
      rfl

/-- **The rewriter loses no text** exactly when the part in front of the
first definition has no closing line and every definition has one with some
text behind it and no other: then joining the parts gives the text back, and
the program's output differs from it by the insertions of `processDefine` and
the final declaration. -/
theorem text_kept_iff (epilogue ll : List Char) :
    (pipeline id ll = ll ∧
        Expands epilogue ll (pipeline (processDefine epilogue) ll ++ declare epilogue)) ↔
      Lossless ll := by
  constructor
  · rintro ⟨h, _⟩
    exact lossless_of_pipeline h
  · intro h
    exact ⟨pipeline_of_lossless h, expands_of_lossless epilogue h⟩

/-- Two definitions with a blank line between them, the second at the end of
the file. -/
def twoDefinitions : List Char :=
  "; ModuleID\n\ndefine void @f() \x7b\n  ret void\n\x7d\n\ndefine void @g() \x7b\n  ret void\n\x7d\n".toList

/-- Of both, "define" and the closing line are lost. -/
theorem blank_line_lost :
    pipeline id twoDefinitions =
        "; ModuleID\nvoid @f() \x7b\n  ret voidvoid @g() \x7b\n  ret void".toList ∧
      pipeline id twoDefinitions ≠ twoDefinitions := by
  have h : pipeline id twoDefinitions =
      "; ModuleID\nvoid @f() \x7b\n  ret voidvoid @g() \x7b\n  ret void".toList := by decide
  refine ⟨h, ?_⟩
  rw [h]
  decide

end Inger.L6.Ingerc
