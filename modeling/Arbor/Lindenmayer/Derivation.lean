import Arbor.Lindenmayer.Productions

/-!
# Derivations

One pass replaces all symbols of a word at once; a derivation is a number of passes from an axiom.
The length of the next word is counted before the word is built, so a word above the limit never
comes into being.
-/

namespace Arbor

/-- How far a derivation may go. -/
structure Limits where
  maxSymbols : Nat
  maxPasses : Nat
  deriving DecidableEq

namespace Limits

/-- The limit on symbols that no request can raise. -/
def ceiling : Nat := 16000000

/-- The limit on symbols unless another one is asked for. -/
def usualSymbols : Nat := 4000000

/-- The limit on passes. -/
def usualPasses : Nat := 12

/-- The limits unless others are asked for. -/
def usual : Limits := ⟨usualSymbols, usualPasses⟩

/-- The longest word that a derivation may reach. -/
def longest (l : Limits) : Nat := min l.maxSymbols ceiling

end Limits

/-! ## Counting

A count of symbols is a 64-bit number and stays at the largest one instead of passing it. -/

/-- The largest count of symbols that is told apart. -/
def mostCounted : Nat := UInt64.size - 1

/-- The sum of two counts. -/
def countedSum (m n : Nat) : Nat := min (m + n) mostCounted

/-- The length of a word as a count. -/
def countedLength (w : Word) : Nat := min w.length mostCounted

namespace Productions

/-- What a symbol becomes in one pass: its replacement, or itself. -/
def image (p : Productions) (s : Symbol) : Word := (p.get? s).getD [s]

/-- One pass over a word. -/
def nextWord (p : Productions) (w : Word) : Word := w.flatMap p.image

/-- The length of a word after one more pass, as far as it can be counted. -/
def nextLength (p : Productions) (w : Word) : Nat :=
  w.foldl (fun n s => countedSum n ((p.get? s).elim 1 List.length)) 0

/-- One pass with the number `iteration`, if the length after it does not pass the limit. -/
def pass (p : Productions) (limit iteration : Nat) (w : Word) : Except Failure Word :=
  let required := p.nextLength w
  if limit < required then .error (.overflow limit required iteration)
  else .ok (p.nextWord w)

/-- `passes` passes on a word, the first of which has the number `iteration`, unless one of them
passes the limit. -/
def deriveFrom (p : Productions) (limit : Nat) (iteration : Nat) :
    (passes : Nat) → Word → Except Failure Word
  | 0, w => .ok w
  | passes + 1, w =>
    match p.pass limit iteration w with
    | .ok next => deriveFrom p limit (iteration + 1) passes next
    | .error e => .error e

/-- The word that `passes` passes make of an axiom. -/
def derive (p : Productions) (start : Word) (passes : Nat) (limits : Limits) :
    Except Failure Word :=
  if limits.maxPasses < passes then .error (.tooManyPasses passes limits.maxPasses)
  else if limits.longest < countedLength start then
    .error (.overflow limits.longest (countedLength start) 0)
  else p.deriveFrom limits.longest 1 passes start

end Productions

end Arbor
