import Nasm64.Text.Blank

/-! Text in lines of bounded width. Widths count bytes. -/
namespace Nasm64.Text

/-- Adds words to the current line as long as they fit, and starts another line otherwise. -/
def fill (width : Nat) (current : String) : List String → List String
  | [] => if current.isEmpty then [] else [current]
  | word :: rest =>
    if current.isEmpty then fill width word rest
    else if width < current.utf8ByteSize + word.utf8ByteSize + 1 then
      current :: fill width word rest
    else fill width (current ++ " " ++ word) rest

def wrap (width : Nat) (text : String) : List String :=
  if width == 0 then [text] else fill width "" ((words text.toList).map String.ofList)

def padRight (width : Nat) (text : String) : String :=
  text ++ String.ofList (List.replicate (width - text.length) ' ')

end Nasm64.Text
