import Arbor.Failure

/-!
# Productions

A set of productions has at most one replacement word for each symbol.  It is built one rule at a
time, where a later rule takes the place of an earlier one, or read from lines of text, where a
repeated symbol is a failure.
-/

namespace Arbor

/-- Replacement words for symbols, no symbol twice. -/
structure Productions where
  rules : List (Symbol × Word)
  nodup : (rules.map Prod.fst).Nodup

namespace Productions

/-- No replacements. -/
def empty : Productions := ⟨[], List.nodup_nil⟩

/-- The replacement of a symbol. -/
def get? (p : Productions) (s : Symbol) : Option Word := p.rules.lookup s

/-- The number of rules. -/
def size (p : Productions) : Nat := p.rules.length

/-- Whether there are no rules. -/
def isEmpty (p : Productions) : Bool := p.rules.isEmpty

/-- The productions with the replacement of one symbol set. -/
def insert (p : Productions) (s : Symbol) (w : Word) : Productions where
  rules := (s, w) :: p.rules.filter fun r => r.1 != s
  nodup := by
    rw [List.map_cons, List.nodup_cons]
    refine ⟨?_, ?_⟩
    · simp
    · exact p.nodup.sublist (List.filter_sublist.map _)

/-- Adds the rule of one line, `X:word` with white space anywhere.  A line without text has no
rule. -/
def addLine (p : Productions) (raw : List Char) : Except RuleFault Productions :=
  let line := Text.trim raw
  if line.isEmpty then .ok p
  else match Text.splitAt? ':' line with
    | none => .error (.noColon line)
    | some (before, replacement) =>
      match Text.trim before with
      | [c] =>
        let s := Symbol.ofChar c
        if (p.get? s).isSome then .error (.repeated s)
        else .ok (p.insert s (Word.ofChars replacement))
      | key => .error (.badKey key)

/-- Adds the rules of lines, of which the first has the number `n`. -/
def addLines (p : Productions) (n : Nat) : List (List Char) → Except Failure Productions
  | [] => .ok p
  | line :: rest =>
    match p.addLine line with
    | .ok p => addLines p (n + 1) rest
    | .error fault => .error (.invalidRule n fault)

/-- Reads rules, one on each line; the first faulty line is reported. -/
def ofText (text : String) : Except Failure Productions :=
  empty.addLines 1 (Text.lines text.toList)

end Productions

end Arbor
