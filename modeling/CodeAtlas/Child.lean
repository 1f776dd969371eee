import CodeAtlas.Disk.Basic
import CodeAtlas.Json.Display

/-! Child processes. What children do is laid down beforehand, one outcome for each that is
launched; a child may take things away from the disk and leave others there before it ends. -/

namespace CodeAtlas.Child

/-- A command is a list of words, or one line for a shell. Words are shown as values, and so is
anything else that is given as a command. -/
inductive Command
  | words (words : List Json)
  | line (text : String)
  | other (value : Json)
  deriving Repr

namespace Command

def ofWords (ws : List String) : Command := words (ws.map fun (w : String) => .str w)

def shown : Command → String
  | words ws => " ".intercalate (ws.map fun w => w.display.replaced)
  | line text => text
  | other value => value.display.replaced

def isLine : Command → Bool
  | line _ => true
  | _ => false

end Command

inductive Manner
  | plain
  | captured
  | capturedIn (folder : String)
  | probe (folder : String) (seconds : Nat)
  | stage (folder : Option String)
  deriving DecidableEq, Repr

structure Launch where
  command : Command
  manner : Manner
  deriving Repr

/-- How a launch ends: with a code and what was written, if anything, or with a failure. The child
could not be started then, or what it wrote is no text. -/
inductive Ending
  | ended (code : Int) (out err : Option String)
  | refused (message : String)
  deriving DecidableEq, Repr

structure Outcome where
  removes : List String
  ending : Ending
  leaves : List (String × FileTree) := []
  deriving Repr

namespace Outcome

def quiet : Outcome := { removes := [], ending := .ended 0 (some "") (some "") }

def change (o : Outcome) (d : Disk) : Disk :=
  o.leaves.foldl (fun d left => d.putAll left.1 left.2) (o.removes.foldl Disk.removeAll d)

end Outcome

structure Scene where
  disk : Disk
  script : List Outcome
  launches : List Launch

namespace Scene

def start (disk : Disk) (script : List Outcome) : Scene := ⟨disk, script, []⟩

/-- Launches a child. When all outcomes are used up, children are quiet. -/
def launch (s : Scene) (l : Launch) : Ending × Scene :=
  let outcome := s.script.headD .quiet
  (outcome.ending,
    { disk := outcome.change s.disk
      script := s.script.tail
      launches := s.launches ++ [l] })

end Scene

def written (text : Option String) : Option String := text.filter (· ≠ "")

def shownText (text : Option String) : String := text.getD "None"

end CodeAtlas.Child
