/-! Requests to a window toolkit: making widgets and telling them what to do. -/

namespace CodeAtlas.Desktop

inductive Widget
  | window
  | backdrop
  | panel
  | title
  | subtitle
  | folderLabel
  | buttonRow
  | selectButton
  | runButton
  | console
  deriving DecidableEq, Repr

def Widget.number : Widget → Nat
  | window => 1
  | backdrop => 2
  | panel => 3
  | title => 4
  | subtitle => 5
  | folderLabel => 6
  | buttonRow => 7
  | selectButton => 8
  | runButton => 9
  | console => 10

inductive Value
  | number (q : Rat)
  | text (s : String)
  | flag (b : Bool)
  | widget (w : Widget)
  | list (values : List Value)
  deriving Repr

structure Request where
  widget : Option Widget
  verb : String
  arguments : List Value
  options : List (String × Value)
  deriving Repr

namespace Request

def make (widget : Widget) (kind : String) (parent : Option Widget)
    (options : List (String × Value)) : Request :=
  ⟨some widget, s!"new {kind}", parent.toList.map .widget, options⟩

def call (widget : Widget) (verb : String) (arguments : List Value) : Request :=
  ⟨some widget, verb, arguments, []⟩

def set (widget : Widget) (verb : String) (options : List (String × Value)) : Request :=
  ⟨some widget, verb, [], options⟩

def general (verb : String) (arguments : List Value) : Request := ⟨none, verb, arguments, []⟩

end Request

def numbers (qs : List Rat) : List Value := qs.map .number

def font (family : String) (size : Nat) (weight : List String) : Value :=
  .list (.text family :: .number size :: weight.map .text)

end CodeAtlas.Desktop
