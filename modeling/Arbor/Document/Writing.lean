import Arbor.Document.Value

/-!
# Writing documents

Groups of named fields, one field on a line.  A text is written plainly if it then reads back as a
text; a text of several lines becomes a literal block.  Where white space or unprintable characters
stand in the way, quotes are used, double ones if escapes are needed.
-/

namespace Arbor.Document

/-- The characters that are written as they are. -/
def isPrintable (c : Char) : Bool :=
  let n := c.toNat
  n == 0x0A || (0x20 ≤ n && n ≤ 0x7E) || (0xA0 ≤ n && n ≤ 0xFFFD && n != 0xFEFF) || 0x10000 ≤ n

/-! ## Which styles a text admits -/

/-- The characters before and behind the place of a character. -/
structure Place where
  before : Option Char
  here : Char
  after : Option Char

/-- The places of a text. -/
def places (text : List Char) : List Place :=
  let before := none :: text.map some
  let after := text.tail.map some ++ [none]
  (text.zip (before.zip after)).map fun (c, a, b) => ⟨a, c, b⟩

/-- No word goes on here: at white space, a line break or an end of the text. -/
def isGap (c : Option Char) : Bool := c.all fun c => isWhite c || isBreak c || c == '\x00'

/-- Whether a character means something other than itself where it stands. -/
def isIndicator (p : Place) : Bool :=
  (p.before.isNone &&
    ("#,[]\x7b\x7d&*!|>'\"%@`".toList.contains p.here || ("?-".toList.contains p.here && isGap p.after)))
  || (p.here == ':' && isGap p.after)
  || (p.here == '#' && isGap p.before)

/-- A line break with a space right behind it. -/
def isBreakSpace (p : Place) : Bool := isBreak p.here && p.after == some ' '

/-- A space with a line break right behind it. -/
def isSpaceBreak (p : Place) : Bool := p.here == ' ' && p.after.any isBreak

/-- A space or a line break. -/
def isEdge (c : Char) : Bool := c == ' ' || isBreak c

/-- Whether a text has a form in single quotes. -/
def admitsSingle (text : List Char) : Bool :=
  text.all isPrintable && !(places text).any fun p => isBreakSpace p || isSpaceBreak p

/-- Whether a text can do without quotes. -/
def admitsPlain (text : List Char) : Bool :=
  admitsSingle text && !text.any isBreak && !text.head?.any isEdge && !text.getLast?.any isEdge
    && !(places text).any isIndicator && text.take 3 != "---".toList && text.take 3 != "...".toList

/-- Whether a text has a form as a literal block. -/
def admitsBlock (text : List Char) : Bool :=
  !text.isEmpty && text.all isPrintable && text.getLast? != some ' '
    && !(places text).any isSpaceBreak

/-- Whether a plain text would read as something else than a text, or as a number to some. -/
def isAmbiguous (text : List Char) : Bool :=
  isNull text || (truth? text).isSome || (unsigned? (Nat.pow 2 128) text).isSome || isZeroLed text
    || isNegative text || (float? text).isSome
where
  /-- A minus sign and a number in a named base. -/
  isNegative : List Char → Bool
    | '-' :: rest =>
      match baseOf? rest with
      | some (base, ds) => (inBase? base (Nat.pow 2 127 + 1) ds).isSome
      | none => (inBase? 10 (Nat.pow 2 127 + 1) rest).isSome
    | _ => false

/-! ## Forms of a text -/

/-- A text with `indent` spaces behind each run of line breaks, and `broken` at a line start. -/
def indented (indent : Nat) (broken : Bool) : List Char → List Char
  | [] => []
  | c :: rest =>
    if isBreak c then c :: indented indent true rest
    else (if broken then List.replicate indent ' ' else []) ++ c :: indented indent false rest

/-- A text in single quotes, each quote in it twice. -/
def singleQuoted (indent : Nat) (text : List Char) : List Char :=
  let close := if text.getLast?.any isBreak then List.replicate indent ' ' else []
  '\'' :: indented indent false (text.flatMap fun c => if c == '\'' then [c, c] else [c]) ++
    close ++ ['\'']

/-- `n` in `width` hexadecimal digits. -/
def hexDigits (width n : Nat) : List Char :=
  let ds := (Nat.toDigits 16 n).map Char.toUpper
  List.replicate (width - ds.length) '0' ++ ds

/-- The escape of a character. -/
def escapeOf (c : Char) : List Char :=
  let n := c.toNat
  match Scalar.shortEscapes.find? fun e => e.2 == n && e.1 != '\t' with
  | some (e, _) => ['\\', e]
  | none =>
    if n ≤ 0xFF then '\\' :: 'x' :: hexDigits 2 n
    else if n ≤ 0xFFFF then '\\' :: 'u' :: hexDigits 4 n
    else '\\' :: 'U' :: hexDigits 8 n

/-- A text in double quotes. -/
def doubleQuoted (text : List Char) : List Char :=
  '"' :: text.flatMap (fun c =>
    if !isPrintable c || isBreak c || c == '"' || c == '\\' then escapeOf c else [c]) ++ ['"']

/-- A literal block.  A space or a break in front of the text makes the indentation unclear, so it
is given; the chomping tells how many breaks are at the end. -/
def literalBlock (indent : Nat) (text : List Char) : List Char :=
  let hint := if text.head?.any isEdge then ['2'] else []
  let chomp :=
    if !text.getLast?.any isBreak then ['-']
    else if text.length = 1 ∨ text.dropLast.getLast?.any isBreak then ['+']
    else []
  '|' :: hint ++ chomp ++ '\n' :: indented indent true text

/-- A text as a value, together with the end of its line. -/
def textValue (indent : Nat) (text : List Char) : List Char :=
  if text.contains '\n' then
    if admitsBlock text then
      literalBlock indent text ++ (if text.getLast?.any isBreak then [] else ['\n'])
    else doubleQuoted text ++ ['\n']
  else if !isAmbiguous text && admitsPlain text then text ++ ['\n']
  else if admitsSingle text then singleQuoted indent text ++ ['\n']
  else doubleQuoted text ++ ['\n']

/-! ## Fields -/

/-- A value to write. -/
inductive Written where
  | text (text : List Char)
  /-- A text that needs no quotes, such as a number. -/
  | plain (text : List Char)
  | group (fields : List (List Char × List Char))

/-- A field at the start of a line. -/
def Written.line (key : List Char) : Written → List Char
  | text t => key ++ ": ".toList ++ textValue 2 t
  | plain t => key ++ ": ".toList ++ t ++ ['\n']
  | group fields =>
    key ++ ":\n".toList ++ fields.flatMap fun (k, v) =>
      "  ".toList ++ k ++ ": ".toList ++ v ++ ['\n']

/-- A document of fields. -/
def document (fields : List (String × Written)) : List Char :=
  fields.flatMap fun (key, v) => v.line key.toList

end Arbor.Document
