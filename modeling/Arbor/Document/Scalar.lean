import Arbor.Document.Cursor

/-!
# Scalars

The five ways to write a text in a document: plain, in single or double quotes, and as a literal or
folded block.  Each reader takes a cursor at the start of the scalar and gives the text and the
cursor behind it, or nothing if the scalar is malformed.
-/

namespace Arbor.Document

/-- How a scalar is written. -/
inductive Style where
  | plain
  | singleQuoted
  | doubleQuoted
  | literal
  | folded
  deriving DecidableEq

namespace Scalar

/-! ## Gaps between words -/

/-- White space and line breaks inside of a scalar. -/
structure Gap where
  /-- The white space before the first line break. -/
  whites : List Char
  broken : Bool
  /-- What the first line break stands for. -/
  first : List Char
  /-- What the other line breaks stand for. -/
  more : List Char

/-- The text of a gap.  A single line break folds to a space and further ones remain, unless the
first is a separator, which remains too. -/
def Gap.text (g : Gap) : List Char :=
  if !g.broken then g.whites
  else if g.first == ['\n'] then (if g.more.isEmpty then [' '] else g.more)
  else g.first ++ g.more

/-- Reads blank lines and the white space of the next line; `breaks` are the line breaks so far, in
reverse.  No tab may stand before the column `margin`. -/
def blankLines (margin : Nat) : (fuel : Nat) → (breaks : List Char) → Cursor →
    Option (List Char × Cursor)
  | 0, _, _ => none
  | fuel + 1, breaks, c =>
    let whites := c.rest.takeWhile isWhite
    if (whites.take (margin - c.column)).contains '\t' then none
    else
      let c := c.skip whites.length
      if c.at? isBreak then blankLines margin fuel (c.breakText ++ breaks) c.skipBreak
      else some (breaks, c)

/-- The gap at a cursor; `broken` if a line break has been read already. -/
def gapAt (margin : Nat) (broken : Bool) (c : Cursor) : Option (Gap × Cursor) := do
  let whites := c.rest.takeWhile isWhite
  let next := c.skip whites.length
  if !broken && !next.at? isBreak then some (⟨whites, false, [], []⟩, next)
  else
    let (first, c) := if broken then ([], c) else (next.breakText, next.skipBreak)
    let (more, c) ← blankLines margin (c.left + 1) [] c
    some (⟨[], true, first, more.reverse⟩, c)

/-! ## Plain scalars -/

/-- Whether a plain scalar ends before this text: at a colon with nothing behind it, and between
flow brackets at any of their marks. -/
def plainEnds (flow : Bool) (text : List Char) : Bool :=
  match text with
  | [] => true
  | ch :: rest => (ch == ':' && endsWord rest) || (flow && ",[]\x7b\x7d".toList.contains ch)

/-- Reads the characters of a word, in reverse.  Between flow brackets a colon before one of their
marks is an error. -/
def plainWord (flow : Bool) : (fuel : Nat) → (word : List Char) → Cursor →
    Option (List Char × Cursor)
  | 0, _, _ => none
  | fuel + 1, word, c =>
    match c.rest with
    | [] => some (word, c)
    | ch :: rest =>
      if isWhite ch || isBreak ch then some (word, c)
      else if flow && ch == ':' && startsWithAny ",?[]\x7b\x7d".toList rest then none
      else if plainEnds flow c.rest then some (word, c)
      else plainWord flow fuel (ch :: word) (c.skip 1)

/-- A plain scalar: its text, whether a line break follows it, and the cursor behind the gap that
follows it. -/
structure Plain where
  text : List Char
  broken : Bool
  after : Cursor

/-- Reads words on from a gap; `text` is what is read so far, in reverse. -/
def plainFrom (flow : Bool) (margin : Nat) :
    (fuel : Nat) → (text : List Char) → Gap → Cursor → Option Plain
  | 0, _, _, _ => none
  | fuel + 1, text, g, c =>
    if c.atMarker || c.at? (· == '#') then some ⟨text.reverse, g.broken, c⟩
    else do
      let (word, c) ← plainWord flow (c.left + 1) [] c
      let (text, broken) :=
        if word.isEmpty then (text, g.broken) else (word ++ (g.text.reverse ++ text), false)
      if !c.at? (fun ch => isWhite ch || isBreak ch) then some ⟨text.reverse, broken, c⟩
      else
        let (h, c) ← gapAt margin broken c
        if !flow && c.column < margin then some ⟨text.reverse, h.broken, c⟩
        else plainFrom flow margin fuel text h c

/-- The plain scalar at a cursor, whose further lines start at the column `margin` or behind. -/
def plain (flow : Bool) (margin : Nat) (c : Cursor) : Option Plain :=
  plainFrom flow margin (c.left + 1) [] ⟨[], false, [], []⟩ c

/-! ## Quoted scalars -/

/-- The value of hexadecimal digits, if they are all such. -/
def hexValue? (ds : List Char) : Option Nat :=
  ds.foldl (fun n d => do
    let n ← n
    if d.isDigit then some (16 * n + (d.toNat - '0'.toNat))
    else if 'a' ≤ d ∧ d ≤ 'f' then some (16 * n + (d.toNat - 'a'.toNat + 10))
    else if 'A' ≤ d ∧ d ≤ 'F' then some (16 * n + (d.toNat - 'A'.toNat + 10))
    else none) (some 0)

/-- A character given by the hexadecimal digits that follow. -/
def hexEscape? (width : Nat) (text : List Char) : Option (Char × Nat) := do
  let ds := text.take width
  if ds.length < width then none
  else
    let n ← hexValue? ds
    if h : n.isValidChar then some (Char.ofNatAux n h, width + 2) else none

/-- The characters that a backslash and one more character stand for. -/
def shortEscapes : List (Char × Nat) :=
  [('0', 0x00), ('a', 0x07), ('b', 0x08), ('t', 0x09), ('\t', 0x09), ('n', 0x0A), ('v', 0x0B),
    ('f', 0x0C), ('r', 0x0D), ('e', 0x1B), (' ', 0x20), ('"', 0x22), ('/', 0x2F), ('\\', 0x5C),
    ('N', 0x85), ('_', 0xA0), ('L', 0x2028), ('P', 0x2029)]

/-- The character of an escape, given the text behind the backslash, and the length of the escape
with its backslash. -/
def escape? : List Char → Option (Char × Nat)
  | [] => none
  | 'x' :: rest => hexEscape? 2 rest
  | 'u' :: rest => hexEscape? 4 rest
  | 'U' :: rest => hexEscape? 8 rest
  | c :: _ => (shortEscapes.lookup c).map fun n => (Char.ofNat n, 2)

/-- Reads on in a quoted scalar up to white space, a line break or the closing quote, in reverse;
also whether an escaped line break has been read. -/
def quotedWord (double : Bool) : (fuel : Nat) → (word : List Char) → Cursor →
    Option (List Char × Bool × Cursor)
  | 0, _, _ => none
  | fuel + 1, word, c =>
    match c.rest with
    | [] => some (word, false, c)
    | ch :: rest =>
      if isWhite ch || isBreak ch then some (word, false, c)
      else if double then
        if ch == '"' then some (word, false, c)
        else if ch == '\\' then
          if rest.head?.any isBreak then some (word, true, (c.skip 1).skipBreak)
          else do
            let (e, n) ← escape? rest
            quotedWord double fuel (e :: word) (c.skip n)
        else quotedWord double fuel (ch :: word) (c.skip 1)
      else if ch == '\'' then
        if rest.head? == some '\'' then quotedWord double fuel ('\'' :: word) (c.skip 2)
        else some (word, false, c)
      else quotedWord double fuel (ch :: word) (c.skip 1)

/-- Reads words and gaps up to the closing quote; `text` is what is read so far, in reverse.  A
document marker or the end of the text inside of quotes is an error. -/
def quotedFrom (double : Bool) : (fuel : Nat) → (text : List Char) → Cursor →
    Option (List Char × Cursor)
  | 0, _, _ => none
  | fuel + 1, text, c =>
    if c.atMarker || c.rest.isEmpty then none
    else do
      let (word, broken, c) ← quotedWord double (c.left + 1) [] c
      let text := word ++ text
      if c.at? (· == if double then '"' else '\'') then some (text.reverse, c.skip 1)
      else
        let (g, c) ← gapAt 0 broken c
        quotedFrom double fuel (g.text.reverse ++ text) c

/-- The quoted scalar at a cursor, which is at its opening quote. -/
def quoted (double : Bool) (c : Cursor) : Option (List Char × Cursor) :=
  quotedFrom double (c.left + 1) [] (c.skip 1)

/-! ## Block scalars -/

/-- What becomes of the line breaks at the end of a block. -/
inductive Chomp where
  | strip
  | clip
  | keep
  deriving DecidableEq

/-- Blank lines and indentation before a line of a block: the indentation, which is found here unless
it is known (zero stands for unknown), and the breaks, in reverse. -/
def blockMargin (parent : Int) : (fuel indent deepest : Nat) → (breaks : List Char) → Cursor →
    Option (Nat × List Char × Cursor)
  | 0, _, _, _, _ => none
  | fuel + 1, indent, deepest, breaks, c =>
    let spaces := (c.rest.takeWhile (· == ' ')).length
    let c := c.skip (if indent = 0 then spaces else min spaces (indent - c.column))
    let deepest := max deepest c.column
    if (indent = 0 ∨ c.column < indent) ∧ c.at? (· == '\t') then none
    else if c.at? isBreak then
      blockMargin parent fuel indent deepest (c.breakText ++ breaks) c.skipBreak
    else
      let found := max (max deepest (parent + 1).toNat) 1
      some (if indent = 0 then found else indent, breaks, c)

/-- Reads the lines of a block.  `text` is what is read so far and `breaks` are the breaks of blank
lines since, both in reverse; `leading` is the break behind the line before, and `blank` says whether
that line started with white space. -/
def blockLines (literal : Bool) (parent : Int) (indent : Nat) :
    (fuel : Nat) → (text leading breaks : List Char) → (blank : Bool) → Cursor →
    Option (List Char × List Char × List Char × Cursor)
  | 0, _, _, _, _, _ => none
  | fuel + 1, text, leading, breaks, blank, c =>
    if c.column = indent ∧ ¬ c.rest.isEmpty then do
      let white := c.at? isWhite
      let folds := !literal && leading.head? == some '\n' && !blank && !white
      let join := if folds then (if breaks.isEmpty then [' '] else []) else leading
      let line := c.rest.takeWhile fun ch => !isBreak ch
      let c := c.skip line.length
      let leading := c.breakText
      let (_, following, c) ← blockMargin parent (c.left + 1) indent 0 [] c.skipBreak
      blockLines literal parent indent fuel (line.reverse ++ (breaks ++ (join ++ text))) leading
        following white c
    else some (text, leading, breaks, c)

/-- The chomping of an indicator. -/
def chompOf? (c : Char) : Option Chomp :=
  if c == '+' then some .keep else if c == '-' then some .strip else none

/-- The indicators behind the mark of a block, in either order: the chomping, and the indentation
relative to the parent, which is not zero. -/
def blockHeader (c : Cursor) : Option (Chomp × Nat × Cursor) := do
  let digit? (c : Cursor) : Option (Nat × Cursor) :=
    match c.rest with
    | ch :: _ =>
      if ch.isDigit then (if ch == '0' then none else some (ch.toNat - '0'.toNat, c.skip 1))
      else some (0, c)
    | [] => some (0, c)
  match c.rest.head?.bind chompOf? with
  | some chomp =>
    let (n, c) ← digit? (c.skip 1)
    return (chomp, n, c)
  | none =>
    let (n, c) ← digit? c
    match (if n = 0 then none else c.rest.head?.bind chompOf?) with
    | some chomp => return (chomp, n, c.skip 1)
    | none => return (.clip, n, c)

/-- The block scalar at a cursor, which is at its mark.  `parent` is the indentation of what it
belongs to. -/
def block (literal : Bool) (parent : Int) (c : Cursor) : Option (List Char × Cursor) := do
  let (chomp, increment, c) ← blockHeader (c.skip 1)
  let c := c.skipWhile isWhite
  let c := if c.at? (· == '#') then c.skipWhile (fun ch => !isBreak ch) else c
  if !c.rest.isEmpty && !c.at? isBreak then none
  else
    let c := c.skipBreak
    let indent := if increment = 0 then 0 else (max parent 0 + increment).toNat
    let (indent, breaks, c) ← blockMargin parent (c.left + 1) indent 0 [] c
    let (text, leading, breaks, c) ←
      blockLines literal parent indent (c.left + 1) [] [] breaks false c
    let tail := match chomp with
      | .strip => []
      | .clip => leading
      | .keep => breaks ++ leading
    return ((tail ++ text).reverse, c)

end Scalar

end Arbor.Document
