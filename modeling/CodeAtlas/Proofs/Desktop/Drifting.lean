import CodeAtlas.Desktop.App
import CodeAtlas.Proofs.Upshot
import Mathlib.Algebra.Order.Field.Rat
import Mathlib.Tactic.Linarith

/-! Where the circles of the backdrop can drift. A circle turns round whenever it touches an edge,
whichever way it is heading, and it may touch one from the start and turn at every step. Its centre
stays on the screen all the same: when it turns it goes back to where it was, and when it does not
it is a radius away from the edges, and no circle moves by more than its radius. -/

namespace CodeAtlas.Desktop

def Box.centreX (b : Box) : Rat := (b.left + b.right) / 2

def Box.centreY (b : Box) : Rat := (b.top + b.bottom) / 2

structure Box.IsOnScreen (width height : Rat) (b : Box) : Prop where
  left : 0 < b.centreX
  right : b.centreX < width
  top : 0 < b.centreY
  bottom : b.centreY < height

/-! One direction -/

/-- The course of a circle in one direction: its centre is inside the screen, and so will it be
after the next step, which is no longer than the radius. -/
structure OnCourse (size radius centre speed : Rat) : Prop where
  pos : 0 < centre
  lt : centre < size
  next_pos : 0 < centre + speed
  next_lt : centre + speed < size
  neg_le_speed : -radius ≤ speed
  speed_le : speed ≤ radius

theorem OnCourse.step {size radius centre speed : Rat} (h : OnCourse size radius centre speed) :
    OnCourse size radius (centre + speed)
      (if centre + speed - radius ≤ 0 ∨ size ≤ centre + speed + radius then -speed else speed) := by
  obtain ⟨hpos, hlt, hnextPos, hnextLt, hback, hforth⟩ := h
  split
  · have hreturn : centre + speed + -speed = centre := add_neg_cancel_right centre speed
    exact ⟨hnextPos, hnextLt, hreturn.symm ▸ hpos, hreturn.symm ▸ hlt, neg_le_neg hforth,
      neg_le.1 hback⟩
  · next haway =>
    rw [not_or, not_le, not_le] at haway
    obtain ⟨hleft, hright⟩ := haway
    exact ⟨hnextPos, hnextLt, by linarith, by linarith, hback, hforth⟩

/-! A circle -/

theorem move_around (x y radius dx dy : Rat) :
    (Box.around x y radius).move dx dy = Box.around (x + dx) (y + dy) radius := by
  rw [Box.around, Box.move, Box.around, sub_add_eq_add_sub, sub_add_eq_add_sub, add_right_comm,
    add_right_comm y]

theorem isOnScreen_around {width height x y radius : Rat} (hx : 0 < x) (hwidth : x < width)
    (hy : 0 < y) (hheight : y < height) : (Box.around x y radius).IsOnScreen width height := by
  have hcentreX : (Box.around x y radius).centreX = x := by
    rw [Box.centreX, Box.around]
    linarith
  have hcentreY : (Box.around x y radius).centreY = y := by
    rw [Box.centreY, Box.around]
    linarith
  constructor <;> simpa only [hcentreX, hcentreY]

namespace Circle

variable {width height : Rat} {c : Circle}

structure IsDrawn (width height : Rat) (c : Circle) : Prop where
  box_eq : c.drifter.box = Box.around c.x c.y c.radius
  x : 50 ≤ c.x ∧ c.x ≤ width - 50
  y : 50 ≤ c.y ∧ c.y ≤ height - 50
  radius : 30 ≤ c.radius ∧ c.radius ≤ 100
  speedX : 1 / 2 ≤ c.drifter.speedX ∧ c.drifter.speedX ≤ 2
  speedY : 1 / 2 ≤ c.drifter.speedY ∧ c.drifter.speedY ≤ 2

def IsOnCourse (width height : Rat) (c : Circle) : Prop :=
  ∃ x y, c.drifter.box = Box.around x y c.radius ∧
    OnCourse width c.radius x c.drifter.speedX ∧ OnCourse height c.radius y c.drifter.speedY

theorem IsDrawn.isOnCourse (h : c.IsDrawn width height) : c.IsOnCourse width height := by
  have hcourse {size place speed : Rat} (hplace : 50 ≤ place ∧ place ≤ size - 50)
      (hspeed : 1 / 2 ≤ speed ∧ speed ≤ 2) : OnCourse size c.radius place speed := by
    have hradius := h.radius
    constructor <;> linarith
  exact ⟨c.x, c.y, h.box_eq, hcourse h.x h.speedX, hcourse h.y h.speedY⟩

theorem IsOnCourse.drift (h : c.IsOnCourse width height) :
    (c.drift width height).IsOnCourse width height := by
  obtain ⟨x, y, hbox, hx, hy⟩ := h
  have hmove : c.drifter.box.move c.drifter.speedX c.drifter.speedY =
      Box.around (x + c.drifter.speedX) (y + c.drifter.speedY) c.radius := by
    rw [hbox, move_around]
  refine ⟨x + c.drifter.speedX, y + c.drifter.speedY, hmove, ?_, ?_⟩
  · rw [Circle.drift, Drifter.drift, hmove]
    exact hx.step
  · rw [Circle.drift, Drifter.drift, hmove]
    exact hy.step

theorem IsOnCourse.isOnScreen (h : c.IsOnCourse width height) :
    c.drifter.box.IsOnScreen width height := by
  obtain ⟨x, y, hbox, hx, hy⟩ := h
  rw [hbox]
  exact isOnScreen_around hx.pos hx.lt hy.pos hy.lt

theorem IsDrawn.isOnScreen_drift (h : c.IsDrawn width height) (n : Nat) :
    ((Circle.drift width height)^[n] c).drifter.box.IsOnScreen width height := by
  have hcourse : ((Circle.drift width height)^[n] c).IsOnCourse width height :=
    Function.Iterate.rec (IsOnCourse width height) h.isOnCourse (fun _ hc => hc.drift) n
  exact hcourse.isOnScreen

end Circle

/-! The application -/

structure Chance.IsFair (c : Chance) : Prop where
  between : ∀ n low high, low ≤ high → low ≤ c.between n low high ∧ c.between n low high ≤ high
  speed : ∀ n, 1 / 2 ≤ c.speed n ∧ c.speed n ≤ 2

def nextCircle (s : Surroundings) (a : App) : Circle :=
  .draw (a.circles.length + 1) (s.chance.between a.draws 50 (s.width - 50))
    (s.chance.between (a.draws + 1) 50 (s.height - 50)) (s.chance.between (a.draws + 2) 30 100)
    (s.chance.speed (a.draws + 3)) (s.chance.speed (a.draws + 4))

def driftTimes (s : Surroundings) : Nat → Run Unit
  | 0 => return ()
  | n + 1 => do
    driftCircles s
    driftTimes s n

section

variable {s : Surroundings}

theorem upshot_addCircle (s : Surroundings) (a : App) :
    ∃ later, upshot (addCircle s) a = (.ok (), later) ∧
      later.circles = a.circles ++ [nextCircle s a] := ⟨_, rfl, rfl⟩

theorem isDrawn_nextCircle (hfair : s.chance.IsFair) (hwidth : 100 ≤ s.width)
    (hheight : 100 ≤ s.height) (a : App) : (nextCircle s a).IsDrawn s.width s.height := by
  have hcentre (n : Nat) (size : Int) (hsize : 100 ≤ size) :
      50 ≤ (s.chance.between n 50 (size - 50) : Rat) ∧
        (s.chance.between n 50 (size - 50) : Rat) ≤ size - 50 := by
    exact_mod_cast hfair.between n 50 (size - 50) (by omega)
  have hradius : 30 ≤ (s.chance.between (a.draws + 2) 30 100 : Rat) ∧
      (s.chance.between (a.draws + 2) 30 100 : Rat) ≤ 100 := by
    exact_mod_cast hfair.between (a.draws + 2) 30 100 (by decide)
  exact ⟨rfl, hcentre _ _ hwidth, hcentre _ _ hheight, hradius, hfair.speed _, hfair.speed _⟩

theorem upshot_addCircles (hfair : s.chance.IsFair) (hwidth : 100 ≤ s.width)
    (hheight : 100 ≤ s.height) (n : Nat) (a : App) :
    ∃ later drawn, upshot (addCircles s n) a = (.ok (), later) ∧
      later.circles = a.circles ++ drawn ∧ drawn.length = n ∧
      ∀ c ∈ drawn, c.IsDrawn s.width s.height := by
  induction n generalizing a with
  | zero =>
    exact ⟨a, [], rfl, (List.append_nil _).symm, rfl, fun _ hc => absurd hc List.not_mem_nil⟩
  | succ n ih =>
    obtain ⟨next, hadd, hnext⟩ := upshot_addCircle s a
    have hfirst := isDrawn_nextCircle hfair hwidth hheight a
    obtain ⟨later, drawn, hrest, hlater, hlength, hdrawn⟩ := ih next
    refine ⟨later, nextCircle s a :: drawn, ?_, ?_, congrArg (· + 1) hlength,
      List.forall_mem_cons.2 ⟨hfirst, hdrawn⟩⟩
    · rw [addCircles, upshot_bind_ok hadd, hrest]
    · rw [hlater, hnext, List.append_assoc, List.singleton_append]

theorem upshot_driftCircles (s : Surroundings) (a : App) :
    ∃ later, upshot (driftCircles s) a = (.ok (), later) ∧
      later.circles = a.circles.map (Circle.drift s.width s.height) := ⟨_, rfl, rfl⟩

theorem upshot_driftTimes (s : Surroundings) (n : Nat) (a : App) :
    ∃ later, upshot (driftTimes s n) a = (.ok (), later) ∧
      later.circles = a.circles.map (Circle.drift s.width s.height)^[n] := by
  induction n generalizing a with
  | zero => exact ⟨a, rfl, (List.map_id _).symm⟩
  | succ n ih =>
    obtain ⟨next, hdrift, hnext⟩ := upshot_driftCircles s a
    obtain ⟨later, hrest, hlater⟩ := ih next
    refine ⟨later, ?_, ?_⟩
    · rw [driftTimes, upshot_bind_ok hdrift, hrest]
    · rw [hlater, hnext, List.map_map, Function.iterate_succ]

end

/-- The centre of a circle stays on the screen, however often it drifts; so do the centres of all
circles of the application, from when its backdrop is set up. -/
theorem circles_stay_on_screen :
    (∀ (width height : Rat) (c : Circle), c.IsDrawn width height → ∀ n,
      ((Circle.drift width height)^[n] c).drifter.box.IsOnScreen width height) ∧
    ∀ s : Surroundings, s.chance.IsFair → 100 ≤ s.width → 100 ≤ s.height →
      ∀ a : App, a.circles = [] → ∀ n, ∃ later,
        upshot (do setUpBackdrop s; driftTimes s n) a = (.ok (), later) ∧
          later.circles.length = circleCount ∧
          ∀ c ∈ later.circles, c.drifter.box.IsOnScreen s.width s.height := by
  refine ⟨fun _ _ _ hdrawn => hdrawn.isOnScreen_drift, ?_⟩
  intro s hfair hwidth hheight a hnone n
  obtain ⟨full, drawn, hadd, hfull, hlength, hdrawn⟩ :=
    upshot_addCircles hfair hwidth hheight circleCount a
  rw [hnone, List.nil_append] at hfull
  -- The last thing in setting up is a step, so all in all there are `n + 1`.
  obtain ⟨later, hdrift, hlater⟩ := upshot_driftTimes s (n + 1) full
  rw [hfull] at hlater
  refine ⟨later, ?_, ?_, ?_⟩
  · rw [setUpBackdrop, bind_assoc, upshot_bind_ok hadd]
    exact hdrift
  · rw [hlater, List.length_map, hlength]
  · rw [hlater]
    refine List.forall_mem_map.2 fun c hc => ?_
    exact (hdrawn c hc).isOnScreen_drift (n + 1)

def wideCircle : Circle := .draw 1 (151 / 3) 60 100 (1 / 2) 2

theorem isDrawn_wideCircle : wideCircle.IsDrawn 101 120 := by
  refine ⟨rfl, ?_, ?_, ?_, ?_, ?_⟩ <;> norm_num [wideCircle, Circle.draw]

def smallScreen : Surroundings :=
  ⟨100, 120, 200, 50, ⟨fun _ _ high => high, fun _ => 2, fun _ _ => 0⟩, ⟨"/w", "PY"⟩⟩

theorem isFair_smallScreen : smallScreen.chance.IsFair where
  between _ _ high hle := ⟨hle, le_refl high⟩
  speed _ := by norm_num [smallScreen]

theorem wide_circles_stay :
    ((Circle.drift 101 120)^[40] wideCircle).drifter.box.IsOnScreen 101 120 ∧
      ∃ later, upshot (do setUpBackdrop smallScreen; driftTimes smallScreen 40)
          (.start (.start ⟨.folder [], []⟩ []) []) = (.ok (), later) ∧
        later.circles.length = circleCount ∧
        ∀ c ∈ later.circles, c.drifter.box.IsOnScreen smallScreen.width smallScreen.height :=
  ⟨circles_stay_on_screen.1 101 120 wideCircle isDrawn_wideCircle 40,
    circles_stay_on_screen.2 smallScreen isFair_smallScreen (by decide) (by decide) _ rfl 40⟩

end CodeAtlas.Desktop
