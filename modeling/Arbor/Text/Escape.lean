/-!
# Escapes in quoted text

Inside of quotes a backslash, a quote, a line feed, a carriage return and a tab are written with a
backslash.  `escape` replaces them one after another in the whole text, the backslash first.
-/

namespace Arbor.Text

/-- A text with each occurrence of a character replaced. -/
def replace (c : Char) (new : List Char) (text : List Char) : List Char :=
  text.flatMap fun d => if d = c then new else [d]

/-- A text as it stands inside of quotes. -/
def escape (text : List Char) : List Char :=
  replace '\t' ['\\', 't'] <| replace '\r' ['\\', 'r'] <| replace '\n' ['\\', 'n'] <|
    replace '"' ['\\', '"'] <| replace '\\' ['\\', '\\'] text

end Arbor.Text
