/-! A button with a pulse. While the pointer is on it, a circle swells and starts again, each time
drawn anew; a click makes its face flash. What the button wants done is given as a list of acts. -/

namespace CodeAtlas.Desktop

inductive Timer
  | pulse
  | fill (colour : String)
  deriving DecidableEq, Repr

structure Button where
  face : Nat
  background : String
  foreground : String
  hover : String
  isRunning : Bool
  radius : Nat
  pulse : Option Nat
  nextItem : Nat
  deriving DecidableEq, Repr

inductive Act
  | fill (item : Nat) (colour : String)
  | delete (item : Nat)
  | oval (item : Nat) (left top right bottom : Int) (colour : String)
  | after (milliseconds : Nat) (timer : Timer)
  | command
  deriving DecidableEq, Repr

inductive Signal
  | enter
  | leave
  | click
  | startPulse
  | stopPulse
  | drawPulse
  | flash
  deriving DecidableEq, Repr

namespace Button

def rest (face nextItem : Nat) (background foreground hover : String) : Button :=
  { face, background, foreground, hover, nextItem
    isRunning := false
    radius := 0
    pulse := none }

def flashColour : String := "#58a6ff"

def pulseStep : Nat := 2
def pulseLimit : Nat := 20
def pulseDelay : Nat := 50

def deletePulse (b : Button) : List Act := b.pulse.toList.map .delete

def drawPulse (width height : Int) (b : Button) : Button × List Act :=
  if b.isRunning then
    let radius := (b.radius + pulseStep) % pulseLimit
    let x := width / 2
    let y := height / 2
    ({ b with radius, pulse := some b.nextItem, nextItem := b.nextItem + 1 },
      b.deletePulse ++
        [.oval b.nextItem (x - radius) (y - radius) (x + radius) (y + radius) b.foreground,
          .after pulseDelay .pulse])
  else (b, [])

def startPulse (width height : Int) (b : Button) : Button × List Act :=
  if b.isRunning then (b, []) else { b with isRunning := true }.drawPulse width height

def stopPulse (b : Button) : Button × List Act :=
  ({ b with isRunning := false, pulse := none }, b.deletePulse)

/-- Three times the face takes the flash colour and then the hover colour. -/
def flash (b : Button) : List Act :=
  [0, 1, 2].flatMap fun i =>
    [.after (100 * i) (.fill flashColour), .after (100 * i + 50) (.fill b.hover)]

def handle (width height : Int) (b : Button) : Signal → Button × List Act
  | .enter =>
    let (next, acts) := b.startPulse width height
    (next, .fill b.face b.hover :: acts)
  | .leave =>
    let (next, acts) := b.stopPulse
    (next, .fill b.face b.background :: acts)
  | .click => (b, b.flash ++ [.command])
  | .startPulse => b.startPulse width height
  | .stopPulse => b.stopPulse
  | .drawPulse => b.drawPulse width height
  | .flash => (b, b.flash)

def fire (width height : Int) (b : Button) : Timer → Button × List Act
  | .pulse => b.drawPulse width height
  | .fill colour => (b, [.fill b.face colour])

end Button

def Act.timer? : Act → Option Timer
  | .after _ timer => some timer
  | _ => none

structure Bench where
  button : Button
  pending : List Timer
  deriving DecidableEq, Repr

namespace Bench

def settle (pending : List Timer) (result : Button × List Act) : Bench × List Act :=
  (⟨result.1, pending ++ result.2.filterMap Act.timer?⟩, result.2)

def signal (width height : Int) (b : Bench) (s : Signal) : Bench × List Act :=
  settle b.pending (b.button.handle width height s)

def fireAt (width height : Int) (b : Bench) (i : Nat) : Bench × List Act :=
  match b.pending[i]? with
  | some timer => settle (b.pending.eraseIdx i) (b.button.fire width height timer)
  | none => (b, [])

def tick (width height : Int) (b : Bench) : Bench × List Act := b.fireAt width height 0

end Bench

end CodeAtlas.Desktop
