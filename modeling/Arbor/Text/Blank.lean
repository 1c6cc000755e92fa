/-!
# White space and lines

`isBlank` is the Unicode property `White_Space`.  Texts are cut into lines and trimmed as lists of
characters.
-/

namespace Arbor.Text

/-- The first and last character of each run of `White_Space`. -/
def blankRuns : List (Nat × Nat) :=
  [(0x09, 0x0D), (0x20, 0x20), (0x85, 0x85), (0xA0, 0xA0), (0x1680, 0x1680), (0x2000, 0x200A),
    (0x2028, 0x2029), (0x202F, 0x202F), (0x205F, 0x205F), (0x3000, 0x3000)]

/-- Whether a character is white space. -/
def isBlank (c : Char) : Bool :=
  blankRuns.any fun (first, last) => first ≤ c.toNat && c.toNat ≤ last

/-- A text without the white space in front of it. -/
def trimStart (text : List Char) : List Char := text.dropWhile isBlank

/-- A text without the white space behind it. -/
def trimEnd (text : List Char) : List Char := (text.reverse.dropWhile isBlank).reverse

/-- A text without the white space around it. -/
def trim (text : List Char) : List Char := trimEnd (trimStart text)

/-- The pieces of a text between its line feeds, one more than there are line feeds. -/
def pieces (text : List Char) : List (List Char) :=
  text.foldr (fun c ps =>
    if c = '\n' then [] :: ps
    else match ps with
      | [] => [[c]]
      | p :: rest => (c :: p) :: rest) [[]]

/-- A line that a line feed ended, without a carriage return before it. -/
def withoutReturn (line : List Char) : List Char :=
  if line.getLast? = some '\r' then line.dropLast else line

/-- The lines of a text.  A line feed ends a line, together with a carriage return before it; the
rest behind the last line feed is a line unless it is empty. -/
def lines (text : List Char) : List (List Char) :=
  let ps := pieces text
  let last := (ps.getLast?).getD []
  ps.dropLast.map withoutReturn ++ (if last.isEmpty then [] else [last])

/-- The part of a text before the first `mark` and the part behind it, if there is one. -/
def splitAt? (mark : Char) (text : List Char) : Option (List Char × List Char) :=
  match text.dropWhile (· != mark) with
  | [] => none
  | _ :: rest => some (text.takeWhile (· != mark), rest)

end Arbor.Text
