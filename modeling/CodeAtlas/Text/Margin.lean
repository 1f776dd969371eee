import CodeAtlas.Text.Character
import CodeAtlas.Text.Lines

/-! The margin of a text: the longest run of spaces and tabs with which all its lines start, lines
of spaces and tabs only left aside. -/

namespace CodeAtlas.Text

def isPadding (line : Points) : Bool := line.all CodePoint.isPad

def commonStart : Points → Points → Points
  | a :: as, b :: bs => if a = b then a :: commonStart as bs else []
  | _, _ => []

def indent (line : Points) : Points := line.takeWhile CodePoint.isPad

def commonIndent : List Points → Points
  | [] => []
  | [line] => indent line
  | line :: lines => commonStart (indent line) (commonIndent lines)

def margin (lines : List Points) : Points :=
  commonIndent (lines.filter fun line => !isPadding line)

def dedentLines (lines : List Points) : List Points :=
  let width := (margin lines).length
  lines.map fun line => if isPadding line then [] else line.drop width

def dedent (ps : Points) : Points := joinLines (dedentLines (splitLines ps))

end CodeAtlas.Text
