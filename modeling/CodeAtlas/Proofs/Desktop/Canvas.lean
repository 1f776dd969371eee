import CodeAtlas.Proofs.Desktop.Timers

/-! What is on the canvas of a button. A pulse that goes off deletes the oval of the one before and
draws its own. It may belong to an animation that has ended, and there may be several rows of pulses
that go off in turn; whichever does, the oval that the button remembers is the only one. -/

namespace CodeAtlas.Desktop

inductive Shape
  | rectangle
  | text
  | oval (left top right bottom : Int)
  deriving DecidableEq, Repr

def Shape.isOval : Shape → Bool
  | oval .. => true
  | _ => false

structure Item where
  number : Nat
  shape : Shape
  fill : String
  outline : String
  deriving DecidableEq, Repr

def Item.filled (colour : String) (i : Item) : Item := { i with fill := colour }

def paint (items : List Item) : Act → List Item
  | .fill item colour => items.map fun i => if i.number = item then i.filled colour else i
  | .delete item => items.filter fun i => i.number ≠ item
  | .oval item left top right bottom colour =>
    items ++ [⟨item, .oval left top right bottom, "", colour⟩]
  | _ => items

def paintAll (items : List Item) (acts : List Act) : List Item := acts.foldl paint items

theorem paintAll_append (items : List Item) (acts more : List Act) :
    paintAll items (acts ++ more) = paintAll (paintAll items acts) more := List.foldl_append

namespace Button

variable (b : Button)

def faceItem (colour : String) : Item := ⟨b.face, .rectangle, colour, b.foreground⟩

def captionItem : Item := ⟨b.face + 1, .text, b.foreground, ""⟩

def pulseItem (x y : Int) (number : Nat) : Item :=
  ⟨number, .oval (x - b.radius) (y - b.radius) (x + b.radius) (y + b.radius), "", b.foreground⟩

/-- What is on a canvas is what the button knows of: its face in some colour, its caption and the
pulse, if there is one. There is none without an animation, and it has one of the radii that it
grows through. -/
structure IsShown (items : List Item) : Prop where
  items_eq : ∃ colour x y,
    items = [b.faceItem colour, b.captionItem] ++ b.pulse.toList.map (b.pulseItem x y)
  lt_pulse : ∀ number ∈ b.pulse, b.face + 1 < number
  lt_nextItem : b.face + 1 < b.nextItem
  pulse_eq_none : b.isRunning = false → b.pulse = none
  dvd_radius : pulseStep ∣ b.radius
  radius_lt : b.radius < pulseLimit

/-- Besides, the pulse is drawn if there is an animation. In the midst of a start it is not. -/
structure IsSettled (items : List Item) : Prop extends b.IsShown items where
  isSome_pulse : b.isRunning → b.pulse.isSome

variable {b} {items : List Item} (width height : Int)

theorem IsShown.fill (h : b.IsShown items) (colour : String) :
    b.IsShown (paint items (.fill b.face colour)) := by
  obtain ⟨old, x, y, rfl⟩ := h.items_eq
  refine { h with items_eq := ⟨colour, x, y, ?_⟩ }
  -- No other item has the number of the face.
  cases hnumber : b.pulse with
  | none => simp [paint, faceItem, captionItem, Item.filled]
  | some number =>
    have hlt := h.lt_pulse number hnumber
    have hface : number ≠ b.face := by omega
    simp [paint, faceItem, captionItem, pulseItem, Item.filled, hface]

theorem IsSettled.fill (h : b.IsSettled items) (colour : String) :
    b.IsSettled (paint items (.fill b.face colour)) :=
  ⟨h.toIsShown.fill colour, h.isSome_pulse⟩

theorem IsShown.deletePulse (h : b.IsShown items) :
    ∃ colour, paintAll items b.deletePulse = [b.faceItem colour, b.captionItem] := by
  obtain ⟨colour, x, y, rfl⟩ := h.items_eq
  refine ⟨colour, ?_⟩
  cases hnumber : b.pulse with
  | none => simp [Button.deletePulse, paintAll, hnumber]
  | some number =>
    have hlt := h.lt_pulse number hnumber
    have hface : b.face ≠ number := by omega
    have hcaption : b.face + 1 ≠ number := by omega
    simp [Button.deletePulse, paintAll, paint, hnumber, faceItem, captionItem, pulseItem, hface,
      hcaption]

theorem IsShown.drawPulse (h : b.IsShown items) :
    (b.drawPulse width height).1.IsSettled (paintAll items (b.drawPulse width height).2) := by
  unfold Button.drawPulse
  split
  · next hrunning =>
    obtain ⟨colour, hdelete⟩ := h.deletePulse
    have hdvd : pulseStep ∣ pulseLimit := by decide
    refine
      { items_eq := ⟨colour, width / 2, height / 2, ?_⟩
        lt_pulse := ?_
        lt_nextItem := Nat.lt_succ_of_lt h.lt_nextItem
        pulse_eq_none := fun hrest => absurd (hrest.symm.trans hrunning) Bool.false_ne_true
        dvd_radius := (Nat.dvd_mod_iff hdvd).2 (Nat.dvd_add h.dvd_radius (Nat.dvd_refl _))
        radius_lt := Nat.mod_lt _ (by decide)
        isSome_pulse := fun _ => rfl }
    · rw [paintAll_append, hdelete]
      rfl
    · intro number hnumber
      cases hnumber
      exact h.lt_nextItem
  · next hrest => exact ⟨h, fun hrunning => absurd hrunning hrest⟩

theorem IsSettled.startPulse (h : b.IsSettled items) :
    (b.startPulse width height).1.IsSettled (paintAll items (b.startPulse width height).2) := by
  unfold Button.startPulse
  split
  · exact h
  · have hstart : { b with isRunning := true }.IsShown items :=
      { h with pulse_eq_none := fun hrest => absurd hrest.symm Bool.false_ne_true }
    exact hstart.drawPulse width height

theorem IsShown.stopPulse (h : b.IsShown items) :
    b.stopPulse.1.IsSettled (paintAll items b.stopPulse.2) := by
  obtain ⟨colour, hdelete⟩ := h.deletePulse
  exact
    { h with
      items_eq := ⟨colour, 0, 0, hdelete⟩
      lt_pulse := fun _ hnumber => absurd hnumber (Option.not_mem_none _)
      pulse_eq_none := fun _ => rfl
      isSome_pulse := fun hrunning => absurd hrunning Bool.false_ne_true }

end Button

def Bench.acts (width height : Int) (b : Bench) : Event → List Act
  | .enter => (b.signal width height .enter).2
  | .leave => (b.signal width height .leave).2
  | .click => (b.signal width height .click).2
  | .fire place => (b.fireAt width height place).2

structure Moment where
  event : Event
  width : Int
  height : Int
  deriving DecidableEq, Repr

structure Display where
  bench : Bench
  items : List Item
  deriving DecidableEq, Repr

namespace Display

def fresh (first : Nat) (background foreground hover : String) : Display where
  bench := .fresh first (first + 2) background foreground hover
  items := [⟨first, .rectangle, background, foreground⟩, ⟨first + 1, .text, foreground, ""⟩]

def button (d : Display) : Button := d.bench.button

def ovals (d : Display) : List Item := d.items.filter fun i => i.shape.isOval

def others (d : Display) : List Item := d.items.filter fun i => !i.shape.isOval

def handle (d : Display) (m : Moment) : Display where
  bench := d.bench.handle m.width m.height m.event
  items := paintAll d.items (d.bench.acts m.width m.height m.event)

def run (d : Display) (moments : List Moment) : Display := moments.foldl handle d

/-- The ovals on the canvas are the pulse: there is none without an animation, and with one just the
oval that the button remembers, as large as the radius tells. All else is the face and the
caption. -/
structure IsTidy (d : Display) : Prop where
  resting : d.button.isRunning = false → d.button.pulse = none ∧ d.ovals = []
  running : d.button.isRunning = true →
    ∃ number x y, d.button.pulse = some number ∧ d.ovals = [d.button.pulseItem x y number]
  even_radius : 2 ∣ d.button.radius
  radius_le : d.button.radius ≤ 18
  others : ∃ colour, d.others = [d.button.faceItem colour, d.button.captionItem]

theorem isTidy_of_isSettled {d : Display} (h : d.button.IsSettled d.items) : d.IsTidy := by
  obtain ⟨colour, x, y, hitems⟩ := h.items_eq
  have hovals : d.ovals = d.button.pulse.toList.map (d.button.pulseItem x y) := by
    rw [ovals, hitems]
    cases d.button.pulse <;> rfl
  refine ⟨fun hrest => ?_, fun hrunning => ?_, h.dvd_radius, ?_, colour, ?_⟩
  · rw [hovals, h.pulse_eq_none hrest]
    exact ⟨rfl, rfl⟩
  · obtain ⟨number, hnumber⟩ := Option.isSome_iff_exists.1 (h.isSome_pulse hrunning)
    refine ⟨number, x, y, hnumber, ?_⟩
    rw [hovals, hnumber]
    rfl
  · have hlt := h.radius_lt
    have hdvd := h.dvd_radius
    rw [Button.pulseLimit] at hlt
    rw [Button.pulseStep] at hdvd
    omega
  · rw [Display.others, hitems]
    cases d.button.pulse <;> rfl

theorem isSettled_fresh (first : Nat) (background foreground hover : String) :
    (fresh first background foreground hover).button.IsSettled
      (fresh first background foreground hover).items where
  items_eq := ⟨background, 0, 0, rfl⟩
  lt_pulse := fun _ hnumber => absurd hnumber (Option.not_mem_none _)
  lt_nextItem := Nat.lt_succ_self _
  pulse_eq_none := fun _ => rfl
  dvd_radius := Nat.dvd_zero _
  radius_lt := Nat.zero_lt_succ _
  isSome_pulse := fun hrunning => absurd hrunning Bool.false_ne_true

theorem isSettled_handle {d : Display} (h : d.button.IsSettled d.items) (m : Moment) :
    (d.handle m).button.IsSettled (d.handle m).items := by
  obtain ⟨event, width, height⟩ := m
  cases event with
  | enter => exact (h.fill _).startPulse width height
  | leave => exact (h.fill _).stopPulse
  | click => exact h  -- The flash is left to timers.
  | fire place =>
    change (d.bench.fireAt width height place).1.button.IsSettled
      (paintAll d.items (d.bench.fireAt width height place).2)
    rw [Bench.fireAt]
    cases d.bench.pending[place]? with
    | none => exact h
    | some timer =>
      cases timer with
      | pulse => exact h.drawPulse width height
      | fill colour => exact h.fill colour

theorem isSettled_run {d : Display} (h : d.button.IsSettled d.items) (moments : List Moment) :
    (d.run moments).button.IsSettled (d.run moments).items := by
  induction moments generalizing d with
  | nil => exact h
  | cons m moments ih => exact ih (isSettled_handle h m)

theorem run_concat (d : Display) (moments : List Moment) (m : Moment) :
    d.run (moments ++ [m]) = (d.run moments).handle m := by
  rw [run, List.foldl_append]
  rfl

theorem isRunning_run {d : Display} (h : d.button.isRunning = false) (moments : List Moment) :
    (d.run moments).button.isRunning = isInside (moments.map Moment.event) := by
  induction moments using List.reverseRecOn with
  | nil => exact h
  | append_singleton moments m ih =>
    rw [run_concat, List.map_append, List.map_singleton, isInside_concat, ← ih]
    exact Bench.isRunning_handle m.width m.height _ m.event

end Display

/-- Whatever happens to a button, and in whatever order its timers go off: there is no oval on its
canvas while the pointer is away, and while it is there just one, which is the pulse that the button
remembers. The radius of the pulse is even and at most 18. -/
theorem no_stray_ovals (first : Nat) (background foreground hover : String)
    (moments : List Moment) :
    ((Display.fresh first background foreground hover).run moments).IsTidy ∧
      ((Display.fresh first background foreground hover).run moments).button.isRunning =
        isInside (moments.map Moment.event) :=
  have hfresh := Display.isSettled_fresh first background foreground hover
  ⟨Display.isTidy_of_isSettled (Display.isSettled_run hfresh moments),
    Display.isRunning_run rfl moments⟩

-- The pulse of the first animation goes off in the second, after that of the second itself.
example :
    ((Display.fresh 1 "bg" "fg" "hover").run
      ([.enter, .leave, .enter, .fire 1, .fire 0].map fun e => ⟨e, 200, 50⟩)).ovals =
      [⟨6, .oval 92 17 108 33, "", "fg"⟩] := by decide

end CodeAtlas.Desktop
