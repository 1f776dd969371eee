/-! Words of a command as a shell separates them: at spaces, tabs, carriage returns and line feeds
outside quotes. Single quotes keep everything; in double quotes a backslash escapes a double quote
or a backslash; elsewhere it escapes any character. There are no comments. -/

namespace CodeAtlas.Text.ShellWords

inductive Mode
  | between
  | word
  | quote (mark : Char)
  | escape (quoted : Bool)
  deriving DecidableEq, Repr

def isSeparator (c : Char) : Bool := c = ' ' || c = '\t' || c = '\r' || c = '\n'

/-- The words from here on, where `word` is what has been read of the present one, last character
first. There are none if a quotation or an escape is left open. -/
def wordsFrom : Mode → List Char → List Char → Option (List (List Char))
  | .between, _, [] => some []
  | .between, _, c :: cs =>
    if isSeparator c then wordsFrom .between [] cs
    else if c = '\\' then wordsFrom (.escape false) [] cs
    else if c = '\'' || c = '"' then wordsFrom (.quote c) [] cs
    else wordsFrom .word [c] cs
  | .word, word, [] => some [word.reverse]
  | .word, word, c :: cs =>
    if isSeparator c then (wordsFrom .between [] cs).map (word.reverse :: ·)
    else if c = '\\' then wordsFrom (.escape false) word cs
    else if c = '\'' || c = '"' then wordsFrom (.quote c) word cs
    else wordsFrom .word (c :: word) cs
  | .quote _, _, [] => none
  | .quote mark, word, c :: cs =>
    if c = mark then wordsFrom .word word cs
    else if c = '\\' ∧ mark = '"' then wordsFrom (.escape true) word cs
    else wordsFrom (.quote mark) (c :: word) cs
  | .escape _, _, [] => none
  | .escape false, word, c :: cs => wordsFrom .word (c :: word) cs
  | .escape true, word, c :: cs =>
    if c = '"' || c = '\\' then wordsFrom (.quote '"') (c :: word) cs
    else wordsFrom (.quote '"') (c :: '\\' :: word) cs

def split? (s : String) : Option (List String) :=
  (wordsFrom .between [] s.toList).map fun words => words.map String.ofList

end CodeAtlas.Text.ShellWords
