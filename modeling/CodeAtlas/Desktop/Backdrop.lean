/-! Circles that drift over the screen and turn back at its edges. -/

namespace CodeAtlas.Desktop

structure Box where
  left : Rat
  top : Rat
  right : Rat
  bottom : Rat
  deriving DecidableEq, Repr

def Box.move (b : Box) (dx dy : Rat) : Box := ⟨b.left + dx, b.top + dy, b.right + dx, b.bottom + dy⟩

def Box.around (x y radius : Rat) : Box := ⟨x - radius, y - radius, x + radius, y + radius⟩

structure Drifter where
  box : Box
  speedX : Rat
  speedY : Rat
  deriving DecidableEq, Repr

/-- Moves by the speed, and turns round in each direction in which an edge is reached. -/
def Drifter.drift (width height : Rat) (d : Drifter) : Drifter :=
  let box := d.box.move d.speedX d.speedY
  { box
    speedX := if box.left ≤ 0 ∨ width ≤ box.right then -d.speedX else d.speedX
    speedY := if box.top ≤ 0 ∨ height ≤ box.bottom then -d.speedY else d.speedY }

def driftAll (width height : Rat) : Nat → List Drifter → List (List Drifter)
  | 0, _ => []
  | n + 1, drifters =>
    let next := drifters.map (Drifter.drift width height)
    next :: driftAll width height n next

structure Circle where
  item : Nat
  x : Rat
  y : Rat
  radius : Rat
  drifter : Drifter
  deriving DecidableEq, Repr

def Circle.draw (item : Nat) (x y radius speedX speedY : Rat) : Circle :=
  ⟨item, x, y, radius, Box.around x y radius, speedX, speedY⟩

def Circle.drift (width height : Rat) (c : Circle) : Circle :=
  { c with drifter := c.drifter.drift width height }

end CodeAtlas.Desktop
