import Descent.Parser.Combinator
/-!
Blank text: spaces, tabs and line endings. A carriage return with the line feed after it is one
line ending and one piece.
-/
namespace Descent.Blank
open Descent.Parser (choice many1 literal)

def eol : Parser String :=
  choice [literal "\n", literal "\r\n", literal "\r"]

def spaces : Parser String :=
  many1 (choice [literal " ", literal "\t"])

def whitespace : Parser String :=
  many1 (choice [spaces, eol])

end Descent.Blank
