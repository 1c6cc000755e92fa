import Arbor.Text.Blank

/-!
# Symbols and words

A symbol is a command of the turtle or a letter, which only the grammar reads.  Each is written
as one character, and a word is written without white space: `Word.ofText` drops it.
-/

namespace Arbor

/-- A letter of the grammar. -/
inductive Symbol where
  /-- `F`: move and draw. -/
  | forward
  /-- `f`: move without drawing. -/
  | skip
  /-- `+` -/
  | turnLeft
  /-- `-` -/
  | turnRight
  /-- `&` -/
  | pitchDown
  /-- `^` -/
  | pitchUp
  /-- `\` -/
  | rollLeft
  /-- `/` -/
  | rollRight
  /-- `|` -/
  | turnAround
  /-- `[`: open a branch. -/
  | push
  /-- `]`: close a branch. -/
  | pop
  /-- Any other character. -/
  | letter (c : Char)
  deriving DecidableEq

namespace Symbol

/-- The symbol that a character writes. -/
def ofChar (c : Char) : Symbol :=
  match c with
  | 'F' => forward
  | 'f' => skip
  | '+' => turnLeft
  | '-' => turnRight
  | '&' => pitchDown
  | '^' => pitchUp
  | '\\' => rollLeft
  | '/' => rollRight
  | '|' => turnAround
  | '[' => push
  | ']' => pop
  | c => letter c

/-- The character that writes a symbol. -/
def toChar : Symbol → Char
  | forward => 'F'
  | skip => 'f'
  | turnLeft => '+'
  | turnRight => '-'
  | pitchDown => '&'
  | pitchUp => '^'
  | rollLeft => '\\'
  | rollRight => '/'
  | turnAround => '|'
  | push => '['
  | pop => ']'
  | letter c => c

/-- Whether the turtle passes over the symbol. -/
def isLetter : Symbol → Bool
  | letter _ => true
  | _ => false

end Symbol

/-- A string of symbols. -/
abbrev Word := List Symbol

namespace Word

/-- The word that a text writes; white space is no part of it. -/
def ofChars (text : List Char) : Word :=
  (text.filter fun c => !Text.isBlank c).map Symbol.ofChar

@[inherit_doc ofChars]
def ofText (text : String) : Word := ofChars text.toList

/-- The characters that write a word. -/
def toChars (w : Word) : List Char := w.map Symbol.toChar

/-- The text that writes a word. -/
def toText (w : Word) : String := String.ofList w.toChars

end Word

end Arbor
