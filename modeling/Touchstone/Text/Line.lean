/-!
# Lines of a text

A line ends after a line feed, after a carriage return with a line feed, or after a carriage return
that stands alone; its ending belongs to it.  What follows the last ending is a line of its own if
it is not empty.

## Main definitions

* `Touchstone.Text.lines` : the lines of a text with their endings.
* `Touchstone.Text.complete` : the text with a line feed behind its last line.
-/

namespace Touchstone.Text

/-- The lines of the remaining text, where `line` holds the characters of the open line and `done`
the lines before it, both in reverse. -/
def linesOnto (done : List (List Char)) (line : List Char) : List Char → List (List Char)
  | [] => (if line.isEmpty then done else line.reverse :: done).reverse
  | '\r' :: '\n' :: rest => linesOnto (('\n' :: '\r' :: line).reverse :: done) [] rest
  | c :: rest =>
    if c = '\n' ∨ c = '\r' then linesOnto ((c :: line).reverse :: done) [] rest
    else linesOnto done (c :: line) rest

/-- The lines of a text, each with its ending. -/
def lines (text : List Char) : List (List Char) :=
  linesOnto [] [] text

/-- The text with a line feed at its end; a text that is empty or has one stays as it is. -/
def complete (text : List Char) : List Char :=
  if text.isEmpty ∨ text.getLast? = some '\n' then text else text ++ ['\n']

end Touchstone.Text
