/-!
# Places in a document

A parameter document is written in YAML.  A cursor is the rest of the text together with the place
it starts at: layout in YAML depends on columns, and on lines where keys are concerned.
-/

namespace Arbor.Document

/-! ## Classes of characters -/

/-- The characters that a document may hold. -/
def isAllowed (c : Char) : Bool :=
  let n := c.toNat
  n == 0x09 || n == 0x0A || n == 0x0D || (0x20 ≤ n && n ≤ 0x7E) || n == 0x85
    || (0xA0 ≤ n && n ≤ 0xFFFD) || 0x10000 ≤ n

/-- The characters that end a line. -/
def isBreak (c : Char) : Bool :=
  let n := c.toNat
  n == 0x0A || n == 0x0D || n == 0x85 || n == 0x2028 || n == 0x2029

/-- A space or a tab. -/
def isWhite (c : Char) : Bool := c == ' ' || c == '\t'

/-- The characters of names: of anchors, directives and tag handles. -/
def isName (c : Char) : Bool := c.isAlphanum || c == '_' || c == '-'

/-- Whether a text starts with white space or a line break, or is at its end. -/
def endsWord : List Char → Bool
  | [] => true
  | c :: _ => isWhite c || isBreak c

/-- Whether a text starts with one of the given characters. -/
def startsWithAny (cs : List Char) : List Char → Bool
  | [] => false
  | c :: _ => cs.contains c

/-- The number of octets that a text takes. -/
def octetCount (cs : List Char) : Nat := cs.foldl (fun n c => n + c.utf8Size) 0

/-! ## Cursors -/

/-- The rest of a text and its place.  Columns count characters and offsets count octets. -/
structure Cursor where
  rest : List Char
  /-- How many characters are left, which bounds what there is to do. -/
  left : Nat
  left_eq : left = rest.length
  /-- How many octets are before it. -/
  offset : Nat
  line : Nat
  column : Nat
  deriving DecidableEq

namespace Cursor

/-- The start of a text. -/
def start (text : List Char) : Cursor := ⟨text, text.length, rfl, 0, 0, 0⟩

/-- Past `n` characters of the line. -/
def skip (c : Cursor) (n : Nat) : Cursor where
  rest := c.rest.drop n
  left := c.left - n
  left_eq := by rw [c.left_eq, List.length_drop]
  offset := c.offset + octetCount (c.rest.take n)
  line := c.line
  column := c.column + n

/-- Past the characters of a class, none of which ends a line. -/
def skipWhile (c : Cursor) (p : Char → Bool) : Cursor := c.skip (c.rest.takeWhile p).length

/-- Whether the next character is of a class. -/
def at? (c : Cursor) (p : Char → Bool) : Bool := c.rest.head?.any p

/-- How many characters the line break at the cursor has; a carriage return and a line feed are
one break.  Zero where there is none. -/
def breakLength (c : Cursor) : Nat :=
  match c.rest with
  | '\r' :: '\n' :: _ => 2
  | ch :: _ => if isBreak ch then 1 else 0
  | [] => 0

/-- Past one line break, if there is one. -/
def skipBreak (c : Cursor) : Cursor :=
  if c.breakLength = 0 then c
  else { c.skip c.breakLength with line := c.line + 1, column := 0 }

/-- What the line break at the cursor stands for: a line feed, or one of the two separators, which
stand for themselves.  Nothing where there is no break. -/
def breakText (c : Cursor) : List Char :=
  match c.rest with
  | ch :: _ =>
    if ch == '\u2028' || ch == '\u2029' then [ch] else if isBreak ch then ['\n'] else []
  | [] => []

/-- Whether the cursor is at a line that starts or ends a document. -/
def atMarker (c : Cursor) : Bool :=
  c.column == 0 && (c.rest.take 3 == "---".toList || c.rest.take 3 == "...".toList)
    && endsWord (c.rest.drop 3)

end Cursor

end Arbor.Document
