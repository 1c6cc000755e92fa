import Arbor.Document.Scalar

/-!
# Tokens of a document

Layout becomes brackets here: where indentation opens and closes a collection there are tokens that
say so, and a scalar that turns out to be a key gets a token in front.  What may be such a key is
kept, at most one for each level of flow brackets, until its colon comes or it is too late for one.
Tags are octets, as percent escapes may write any of them.
-/

namespace Arbor.Document

/-- The octets of a tag. -/
abbrev Octets := List UInt8

/-- The octets of a text of ASCII characters. -/
def Octets.ofAscii (text : List Char) : Octets := text.map fun c => c.toNat.toUInt8

/-- The octets before the first zero, which ends a tag. -/
def Octets.untilZero (octets : Octets) : Octets := octets.takeWhile (· != 0)

/-- A piece of a document. -/
inductive Token where
  | versionDirective
  | tagDirective (handle : List Char) (uri : Octets)
  | documentStart
  | documentEnd
  | blockSequenceStart
  | blockMappingStart
  | blockEnd
  | flowSequenceStart
  | flowSequenceEnd
  | flowMappingStart
  | flowMappingEnd
  | blockEntry
  | flowEntry
  | key
  | value
  | alias (name : List Char)
  | anchor (name : List Char)
  | tag (handle : List Char) (suffix : Octets)
  | scalar (style : Style) (text : List Char)
  | streamEnd
  deriving DecidableEq

/-! ## Tags, anchors and directives -/

/-- The characters of a tag besides those of names. -/
def isTag (verbatim : Bool) (c : Char) : Bool :=
  isName c || ";/?:@&=+$.!~*'()%".toList.contains c || (verbatim && ",[]".toList.contains c)

/-- The octets of percent escapes at the start of a text. -/
def percentOctets : List Char → Octets
  | '%' :: a :: b :: rest =>
    match Scalar.hexValue? [a, b] with
    | some n => n.toUInt8 :: percentOctets rest
    | none => []
  | _ => []

/-- How many octets a character has that starts with the given one; zero if none does. -/
def octetWidth (octet : UInt8) : Nat :=
  if octet < 0x80 then 1
  else if 0xC0 ≤ octet ∧ octet < 0xE0 then 2
  else if 0xE0 ≤ octet ∧ octet < 0xF0 then 3
  else if 0xF0 ≤ octet ∧ octet < 0xF8 then 4
  else 0

/-- The octets of the character at the start of the given ones.  Only the leading bits are looked
at, so a character may be written in more octets than it needs. -/
def leadingOctets? : Octets → Option Octets
  | [] => none
  | octet :: rest =>
    let width := octetWidth octet
    let more := rest.take (width - 1)
    if width = 0 ∨ more.length + 1 < width ∨ ¬ more.all (fun m => 0x80 ≤ m ∧ m < 0xC0) then none
    else some (octet :: more)

/-- Reads the text of a tag, with percent escapes decoded. -/
def tagText (verbatim : Bool) : (fuel : Nat) → (text : Octets) → Cursor →
    Option (Octets × Cursor)
  | 0, _, _ => none
  | fuel + 1, text, c =>
    match c.rest with
    | [] => some (text, c)
    | ch :: _ =>
      if ch == '%' then do
        let octets ← leadingOctets? (percentOctets c.rest)
        tagText verbatim fuel (text ++ octets) (c.skip (3 * octets.length))
      else if isTag verbatim ch then
        tagText verbatim fuel (text ++ .ofAscii [ch]) (c.skip 1)
      else some (text, c)

/-- A tag text behind a head, which together are not empty.  The mark of the head is dropped. -/
def tagUri (verbatim : Bool) (head : List Char) (c : Cursor) : Option (Octets × Cursor) := do
  let (text, after) ← tagText verbatim (c.left + 1) (.ofAscii head.tail) c
  if head.isEmpty && text.isEmpty then none else some (text.untilZero, after)

/-- A tag handle: an exclamation mark, perhaps a name and a second one. -/
def tagHandle (directive : Bool) (c : Cursor) : Option (List Char × Cursor) :=
  if !c.at? (· == '!') then none
  else
    let name := (c.rest.drop 1).takeWhile isName
    let c := c.skip (name.length + 1)
    if c.at? (· == '!') then some ('!' :: name ++ ['!'], c.skip 1)
    else if directive && !name.isEmpty then none
    else some ('!' :: name, c)

/-- A tag: verbatim in angle brackets, with a handle, or local to the document.  A lone exclamation
mark has no handle. -/
def readTag (flow : Bool) (c : Cursor) : Option (Token × Cursor) := do
  let (handle, suffix, c) ←
    if c.rest.drop 1 |>.head? |>.any (· == '<') then do
      let (suffix, c) ← tagUri true [] (c.skip 2)
      if c.at? (· == '>') then some ([], suffix, c.skip 1) else none
    else do
      let (handle, after) ← tagHandle false c
      if 1 < handle.length && handle.getLast? == some '!' then
        let (suffix, c) ← tagUri false [] after
        some (handle, suffix, c)
      else
        let (suffix, c) ← tagUri false handle after
        if suffix.isEmpty then some ([], .ofAscii ['!'], c) else some (['!'], suffix, c)
  if endsWord c.rest || (flow && c.at? (· == ',')) then some (.tag handle suffix, c) else none

/-- The name of an anchor or an alias behind its mark. -/
def readName (c : Cursor) : Option (List Char × Cursor) :=
  let name := (c.rest.drop 1).takeWhile isName
  let c := c.skip (name.length + 1)
  if name.isEmpty then none
  else if endsWord c.rest || startsWithAny "?:,]\x7d%@`".toList c.rest then some (name, c)
  else none

/-- The rest of a line without content: white space, perhaps a comment, and the break. -/
def lineEnd (c : Cursor) : Option Cursor :=
  let c := c.skipWhile isWhite
  let c := if c.at? (· == '#') then c.skipWhile (fun ch => !isBreak ch) else c
  if c.rest.isEmpty || c.at? isBreak then some c.skipBreak else none

/-- A number of at most nine digits in a version. -/
def versionNumber (c : Cursor) : Option (Nat × Cursor) :=
  let ds := c.rest.takeWhile Char.isDigit
  if ds.isEmpty ∨ 9 < ds.length then none
  else some (ds.foldl (fun n d => 10 * n + (d.toNat - '0'.toNat)) 0, c.skip ds.length)

/-- A directive.  The version of the document has to be 1.1 or 1.2. -/
def readDirective (c : Cursor) : Option (Token × Cursor) := do
  let name := (c.rest.drop 1).takeWhile isName
  let c := c.skip (name.length + 1)
  if !endsWord c.rest then none
  else if name == "YAML".toList then
    let (major, c) ← versionNumber (c.skipWhile isWhite)
    if !c.at? (· == '.') then none
    else
      let (minor, c) ← versionNumber (c.skip 1)
      if major = 1 ∧ (minor = 1 ∨ minor = 2) then
        return (.versionDirective, ← lineEnd c)
      else none
  else if name == "TAG".toList then
    let (handle, c) ← tagHandle true (c.skipWhile isWhite)
    if !c.at? isWhite then none
    else
      let (uri, c) ← tagUri true [] (c.skipWhile isWhite)
      if endsWord c.rest then return (.tagDirective handle uri, ← lineEnd c) else none
  else none

/-! ## The scanner -/

/-- A token that would be a key if a colon followed it. -/
structure PossibleKey where
  /-- How many flow brackets are open around it. -/
  level : Nat
  /-- Whether nothing else is allowed in its place. -/
  required : Bool
  /-- How many tokens are before it. -/
  place : Nat
  offset : Nat
  line : Nat
  column : Nat

/-- What has been read, and what the rest depends on. -/
structure Scanner where
  cursor : Cursor
  tokens : Array Token
  /-- The number of open flow brackets. -/
  flow : Nat
  /-- The column of the innermost block collection, minus one outside of all. -/
  indent : Int
  /-- The columns of the collections around it. -/
  outer : List Int
  /-- Whether a key may start here. -/
  keyAllowed : Bool
  /-- The possible keys, at most one for each level of flow brackets, the innermost first. -/
  keys : List PossibleKey

namespace Scanner

/-- Before a text. -/
def start (text : List Char) : Scanner :=
  ⟨.start text, #[], 0, -1, [], true, []⟩

def push (s : Scanner) (t : Token) : Scanner := { s with tokens := s.tokens.push t }

/-- The possible key of this level, and the others. -/
def splitKey (s : Scanner) : Option PossibleKey × List PossibleKey :=
  match s.keys with
  | k :: rest => if k.level = s.flow then (some k, rest) else (none, k :: rest)
  | [] => (none, [])

/-- Gives up the possible key of this level. -/
def removeKey (s : Scanner) : Option Scanner :=
  let (key, others) := s.splitKey
  if key.any PossibleKey.required then none else some { s with keys := others }

/-- Keeps the token that comes next as a possible key. -/
def saveKey (s : Scanner) : Option Scanner :=
  if !s.keyAllowed then some s
  else do
    let s ← s.removeKey
    let key : PossibleKey :=
      ⟨s.flow, s.flow = 0 ∧ s.indent = s.cursor.column, s.tokens.size, s.cursor.offset,
        s.cursor.line, s.cursor.column⟩
    return { s with keys := key :: s.keys }

/-- Whether it is too late for a colon: on a later line, or more than 1024 octets on. -/
def isStale (c : Cursor) (k : PossibleKey) : Bool :=
  k.line < c.line || k.offset + 1024 < c.offset

/-- Gives up the possible keys that are too old. -/
def dropStale (s : Scanner) : Option Scanner :=
  if s.keys.any fun k => isStale s.cursor k && k.required then none
  else some { s with keys := s.keys.filter fun k => !isStale s.cursor k }

/-- Closes the block collections to the right of a column; there are none between flow brackets. -/
def unroll (s : Scanner) (column : Int) : Scanner :=
  if s.flow ≠ 0 then s
  else
    let rec close (indent : Int) (tokens : Array Token) : List Int → Int × List Int × Array Token
      | [] => (indent, [], tokens)
      | o :: outer =>
        if column < indent then close o (tokens.push .blockEnd) outer
        else (indent, o :: outer, tokens)
    let (indent, outer, tokens) := close s.indent s.tokens s.outer
    { s with indent := indent, outer := outer, tokens := tokens }

/-- Opens a block collection at a column, unless there is one, with its token at a given place. -/
def roll (s : Scanner) (column : Nat) (place : Nat) (t : Token) : Scanner :=
  if s.flow = 0 ∧ s.indent < column then
    { s with
      outer := s.indent :: s.outer
      indent := column
      tokens := s.tokens.insertIdxIfInBounds place t }
  else s

/-- Skips white space, comments and line breaks.  A tab is no white space where a key may start.  A
new line in a block may start a key.  A byte order mark may start any line. -/
def toToken (s : Scanner) : Scanner :=
  let rec go : (fuel : Nat) → Bool → Cursor → Bool × Cursor
    | 0, allowed, c => (allowed, c)
    | fuel + 1, allowed, c =>
      let c := if c.column = 0 ∧ c.at? (· == '\ufeff') then c.skip 1 else c
      let c := c.skipWhile fun ch => ch == ' ' || ((s.flow != 0 || !allowed) && ch == '\t')
      let c := if c.at? (· == '#') then c.skipWhile (fun ch => !isBreak ch) else c
      if c.at? isBreak then go fuel (allowed || s.flow == 0) c.skipBreak else (allowed, c)
  let (allowed, c) := go (s.cursor.left + 1) s.keyAllowed s.cursor
  { s with keyAllowed := allowed, cursor := c }

/-- A token of one or three characters, after which keys are allowed or not. -/
def mark (s : Scanner) (t : Token) (width : Nat) (allowed : Bool) : Scanner :=
  { s.push t with cursor := s.cursor.skip width, keyAllowed := allowed }

/-- The colon of a value.  The possible key of this level becomes a key, and opens a mapping if it
is the first of one. -/
def value (s : Scanner) : Option Scanner :=
  match s.splitKey with
  | (some k, others) =>
    let s := { s with keys := others, tokens := s.tokens.insertIdxIfInBounds k.place .key }
    some ((s.roll k.column k.place .blockMappingStart).mark .value 1 false)
  | (none, _) =>
    if s.flow = 0 then
      if !s.keyAllowed then none
      else
        let s := s.roll s.cursor.column s.tokens.size .blockMappingStart
        some (s.mark .value 1 true)
    else some (s.mark .value 1 false)

/-- The mark of a collection item or of an explicit key, which may open a block collection. -/
def entry (s : Scanner) (opening t : Token) : Option Scanner := do
  let s ←
    if s.flow = 0 then
      if !s.keyAllowed then none
      else some (s.roll s.cursor.column s.tokens.size opening)
    else some s
  let s ← s.removeKey
  return s.mark t 1 (t == .blockEntry || s.flow = 0)

/-- A scalar that has been read. -/
def scalar (s : Scanner) (style : Style) (read : List Char × Cursor) (allowed : Bool) : Scanner :=
  { s.push (.scalar style read.1) with cursor := read.2, keyAllowed := allowed }

/-- Whether a plain scalar starts with this text. -/
def startsPlain (flow : Bool) : List Char → Bool
  | [] => false
  | ch :: rest =>
    if "-?:".toList.contains ch then
      if ch == '-' then !startsWithAny [' ', '\t'] rest else !flow && !endsWord rest
    else !(isWhite ch || isBreak ch || ",[]\x7b\x7d#&*!|>'\"%@`".toList.contains ch)

/-- Reads the token at the cursor, which is not at white space. -/
def read (s : Scanner) : Option Scanner := do
  let c := s.cursor
  let flow := s.flow != 0
  match c.rest with
  | [] =>
    let s := s.unroll (-1)
    let s ← s.removeKey
    return s.push .streamEnd
  | ch :: rest =>
    if c.column = 0 ∧ ch = '%' then
      let s := s.unroll (-1)
      let s ← s.removeKey
      let (t, c) ← readDirective c
      return { s.push t with cursor := c, keyAllowed := false }
    else if c.atMarker then
      let s := s.unroll (-1)
      let s ← s.removeKey
      return s.mark (if ch = '-' then .documentStart else .documentEnd) 3 false
    else if ch = '[' ∨ ch = '{' then
      let s ← s.saveKey
      let s := { s with flow := s.flow + 1 }
      return s.mark (if ch = '[' then .flowSequenceStart else .flowMappingStart) 1 true
    else if ch = ']' ∨ ch = '}' then
      let s ← s.removeKey
      let s := { s with flow := s.flow - 1 }
      return s.mark (if ch = ']' then .flowSequenceEnd else .flowMappingEnd) 1 false
    else if ch = ',' then
      let s ← s.removeKey
      return s.mark .flowEntry 1 true
    else if ch = '-' ∧ endsWord rest then
      s.entry .blockSequenceStart .blockEntry
    else if ch = '?' ∧ (flow ∨ endsWord rest) then
      s.entry .blockMappingStart .key
    else if ch = ':' ∧ (flow ∨ endsWord rest) then
      s.value
    else if ch = '*' ∨ ch = '&' then
      let s ← s.saveKey
      let (name, c) ← readName c
      let t := if ch = '*' then Token.alias name else .anchor name
      return { s.push t with cursor := c, keyAllowed := false }
    else if ch = '!' then
      let s ← s.saveKey
      let (t, c) ← readTag flow c
      return { s.push t with cursor := c, keyAllowed := false }
    else if (ch = '|' ∨ ch = '>') ∧ ¬ flow then
      let s ← s.removeKey
      let text ← Scalar.block (ch == '|') s.indent c
      return s.scalar (if ch = '|' then .literal else .folded) text true
    else if ch = '\'' ∨ ch = '"' then
      let s ← s.saveKey
      let text ← Scalar.quoted (ch == '"') c
      return s.scalar (if ch = '"' then .doubleQuoted else .singleQuoted) text false
    else if startsPlain flow c.rest then
      let s ← s.saveKey
      let p ← Scalar.plain flow (s.indent + 1).toNat c
      return s.scalar .plain (p.text, p.after) p.broken
    else none

/-- Reads on to the end of the text. -/
def run : (fuel : Nat) → Scanner → Option (List Token)
  | 0, _ => none
  | fuel + 1, s => do
    let s ← s.toToken.dropStale
    let s ← (s.unroll s.cursor.column).read
    if s.tokens.back? == some .streamEnd then return s.tokens.toList else run fuel s

end Scanner

/-- The tokens of a text; nothing if the text is malformed.  Every token but the last takes a
character at least. -/
def tokens? (text : List Char) : Option (List Token) :=
  if text.all isAllowed then (Scanner.start text).run (text.length + 1) else none

end Arbor.Document
