import CodeAtlas.Desktop.Button
import Mathlib.Data.List.Induction
import Mathlib.Data.List.Perm.Basic

/-! The timers of a button. Each time the pointer comes, a pulse is set going, and from then on
every pulse that goes off sets the next one, as long as the pointer stays. A pulse that goes off
while the pointer is away is the last of its row. The pointer may come back before that, and then
there are two rows. -/

namespace CodeAtlas.Desktop

inductive Event
  | enter
  | leave
  | click
  | fire (place : Nat)
  deriving DecidableEq, Repr

def Event.moves? : Event → Option Bool
  | enter => some true
  | leave => some false
  | _ => none

def isInside (events : List Event) : Bool := (events.filterMap Event.moves?).getLast?.getD false

theorem isInside_concat (events : List Event) (e : Event) :
    isInside (events ++ [e]) = e.moves?.getD (isInside events) := by
  rw [isInside, List.filterMap_append, List.getLast?_append, isInside]
  cases e <;> rfl

def setPulses (acts : List Act) : Nat := (acts.filterMap Act.timer?).count .pulse

namespace Button

variable (width height : Int) (b : Button)

theorem filterMap_timer?_deletePulse : b.deletePulse.filterMap Act.timer? = [] := by
  rw [deletePulse]
  cases b.pulse <;> rfl

theorem isRunning_drawPulse : (b.drawPulse width height).1.isRunning = b.isRunning := by
  unfold drawPulse
  split <;> rfl

theorem setPulses_drawPulse : setPulses (b.drawPulse width height).2 = b.isRunning.toNat := by
  unfold drawPulse
  split
  · next hrunning =>
    rw [setPulses, List.filterMap_append, filterMap_timer?_deletePulse, hrunning]
    rfl
  · next hrunning =>
    rw [Bool.not_eq_true] at hrunning
    rw [hrunning]
    rfl

theorem isRunning_startPulse : (b.startPulse width height).1.isRunning = true := by
  unfold startPulse
  split
  · assumption
  · rw [isRunning_drawPulse]

theorem setPulses_startPulse : setPulses (b.startPulse width height).2 = (!b.isRunning).toNat := by
  unfold startPulse
  split
  · next hrunning =>
    rw [hrunning]
    rfl
  · next hrunning =>
    rw [Bool.not_eq_true] at hrunning
    rw [setPulses_drawPulse, hrunning]
    rfl

theorem setPulses_stopPulse : setPulses b.stopPulse.2 = 0 := by
  rw [setPulses, stopPulse, filterMap_timer?_deletePulse]
  rfl

theorem setPulses_click : setPulses (b.flash ++ [.command]) = 0 := rfl

end Button

namespace Bench

def fresh (face nextItem : Nat) (background foreground hover : String) : Bench :=
  ⟨.rest face nextItem background foreground hover, []⟩

def pulses (b : Bench) : Nat := b.pending.count .pulse

structure IsIdle (b : Bench) : Prop where
  isRunning : b.button.isRunning = false
  pulses : b.pulses = 0

theorem isIdle_fresh (face nextItem : Nat) (background foreground hover : String) :
    (fresh face nextItem background foreground hover).IsIdle := ⟨rfl, rfl⟩

variable (width height : Int)

def handle (b : Bench) : Event → Bench
  | .enter => (b.signal width height .enter).1
  | .leave => (b.signal width height .leave).1
  | .click => (b.signal width height .click).1
  | .fire place => (b.fireAt width height place).1

def run (b : Bench) (events : List Event) : Bench := events.foldl (handle width height) b

def isStart (b : Bench) (e : Event) : Bool := e = .enter && !b.button.isRunning

def isWaste (b : Bench) : Event → Bool
  | .fire place => b.pending[place]? = some .pulse && !b.button.isRunning
  | _ => false

def starts (b : Bench) : List Event → Nat
  | [] => 0
  | e :: events => (b.isStart e).toNat + starts (b.handle width height e) events

def wastes (b : Bench) : List Event → Nat
  | [] => 0
  | e :: events => (b.isWaste e).toNat + wastes (b.handle width height e) events

/-! One event -/

theorem pulses_settle (pending : List Timer) (result : Button × List Act) :
    (settle pending result).1.pulses = pending.count .pulse + setPulses result.2 :=
  List.count_append

theorem isRunning_handle (b : Bench) (e : Event) :
    (b.handle width height e).button.isRunning = e.moves?.getD b.button.isRunning := by
  cases e with
  | enter => exact b.button.isRunning_startPulse width height
  | leave => rfl
  | click => rfl
  | fire place =>
    rw [handle, fireAt]
    cases b.pending[place]? with
    | none => rfl
    | some timer =>
      cases timer with
      | pulse => exact b.button.isRunning_drawPulse width height
      | fill colour => rfl

theorem count_eraseIdx {pending : List Timer} {place : Nat} {timer : Timer}
    (h : pending[place]? = some timer) :
    (pending.eraseIdx place).count .pulse + [timer].count .pulse = pending.count .pulse := by
  obtain ⟨hlt, rfl⟩ := List.getElem?_eq_some_iff.1 h
  rw [← (List.getElem_cons_eraseIdx_perm hlt).count_eq, Nat.add_comm, ← List.count_append]
  rfl

/-- An event changes the number of pulses just by a start or a waste. -/
theorem pulses_handle (b : Bench) (e : Event) :
    (b.handle width height e).pulses + (b.isWaste e).toNat = b.pulses + (b.isStart e).toNat := by
  cases e with
  | enter =>
    rw [handle, signal, pulses_settle]
    exact congrArg (b.pulses + ·) (b.button.setPulses_startPulse width height)
  | leave =>
    rw [handle, signal, pulses_settle]
    exact congrArg (b.pulses + ·) b.button.setPulses_stopPulse
  | click =>
    rw [handle, signal, pulses_settle]
    exact congrArg (b.pulses + ·) b.button.setPulses_click
  | fire place =>
    rw [handle, fireAt, isWaste]
    cases hpending : b.pending[place]? with
    | none => rfl
    | some timer =>
      have hcount := count_eraseIdx hpending
      dsimp only
      rw [pulses_settle]
      cases timer with
      | pulse =>
        have hset : setPulses (b.button.fire width height .pulse).2 = b.button.isRunning.toNat :=
          b.button.setPulses_drawPulse width height
        rw [hset]
        cases b.button.isRunning <;> exact hcount
      | fill colour => exact hcount

/-! Any number of events -/

theorem run_concat (b : Bench) (events : List Event) (e : Event) :
    b.run width height (events ++ [e]) = (b.run width height events).handle width height e := by
  rw [run, List.foldl_append]
  rfl

theorem pulses_run (b : Bench) (events : List Event) :
    (b.run width height events).pulses + b.wastes width height events =
      b.pulses + b.starts width height events := by
  induction events generalizing b with
  | nil => rfl
  | cons e events ih =>
    have hstep := b.pulses_handle width height e
    have hrest := ih (b.handle width height e)
    rw [wastes, starts, run, List.foldl_cons]
    rw [run] at hrest
    omega

theorem isRunning_run {b : Bench} (h : b.button.isRunning = false) (events : List Event) :
    (b.run width height events).button.isRunning = isInside events := by
  induction events using List.reverseRecOn with
  | nil => exact h
  | append_singleton events e ih => rw [run_concat, isRunning_handle, ih, isInside_concat]

theorem pulses_le_one_iff {b : Bench} (hrest : b.button.isRunning = false) (hnone : b.pulses = 0)
    (events : List Event) :
    (∀ before, before <+: events → (b.run width height before).pulses ≤ 1) ↔
      ∀ before, before ++ [.enter] <+: events → isInside before = false →
        (b.run width height before).pulses = 0 := by
  have hstart (before : List Event) (e : Event) :
      (b.run width height before).isStart e = (e = .enter && !isInside before) := by
    rw [isStart, isRunning_run width height hrest]
  have hstep (before : List Event) (e : Event) :=
    (b.run width height before).pulses_handle width height e
  constructor
  · intro hone before hbefore hinside
    have hle := hone _ hbefore
    rw [run_concat] at hle
    have henter := hstep before .enter
    rw [hstart, hinside] at henter
    change _ + 0 = _ + 1 at henter
    omega
  · intro hzero before hbefore
    induction before using List.reverseRecOn with
    | nil => exact Nat.le_trans (Nat.le_of_eq hnone) (Nat.zero_le 1)
    | append_singleton before e ih =>
      have hle := ih ((List.prefix_append before [e]).trans hbefore)
      have hevent := hstep before e
      rw [run_concat]
      by_cases hcomes : e = .enter ∧ isInside before = false
      · obtain ⟨rfl, hinside⟩ := hcomes
        have hnow := hzero before hbefore hinside
        have hone := Bool.toNat_le ((b.run width height before).isStart .enter)
        omega
      · have hno : (b.run width height before).isStart e = false := by
          rw [hstart]
          simpa using hcomes
        rw [hno] at hevent
        change _ + _ = _ + 0 at hevent
        omega

theorem pulses_coming_and_going {b : Bench} (hrest : b.button.isRunning = false) (n : Nat) :
    (b.run width height (List.replicate n [.enter, .leave]).flatten).pulses = b.pulses + n := by
  induction n generalizing b with
  | zero => rfl
  | succ n ih =>
    have hround : b.run width height (List.replicate (n + 1) [.enter, .leave]).flatten =
        ((b.handle width height .enter).handle width height .leave).run width height
          (List.replicate n [.enter, .leave]).flatten := rfl
    have henter := b.pulses_handle width height .enter
    have hleave := (b.handle width height .enter).pulses_handle width height .leave
    have hstart : b.isStart .enter = true := by
      rw [isStart, hrest]
      rfl
    rw [hstart] at henter
    change _ + 0 = _ + 1 at henter
    change _ + 0 = _ + 0 at hleave
    rw [hround, ih (isRunning_handle width height _ .leave)]
    omega

end Bench

/-- How many pulses of an idle button are set, whatever has happened to it since: those that were
set going by the pointer, less those that went off while it was away. There is never more than one
just if the pointer never comes back before the last one has gone off; else there can be any
number. -/
theorem one_pulse_iff {b : Bench} (hidle : b.IsIdle) (width height : Int) :
    (∀ events, (b.run width height events).pulses + b.wastes width height events =
        b.starts width height events) ∧
      (∀ events, (∀ before, before <+: events → (b.run width height before).pulses ≤ 1) ↔
        ∀ before, before ++ [.enter] <+: events → isInside before = false →
          (b.run width height before).pulses = 0) ∧
      ∀ n, (b.run width height (List.replicate n [.enter, .leave]).flatten).pulses = n := by
  obtain ⟨hrest, hnone⟩ := hidle
  refine ⟨fun events => ?_, Bench.pulses_le_one_iff width height hrest hnone, fun n => ?_⟩
  · have hcount := b.pulses_run width height events
    rwa [hnone, Nat.zero_add] at hcount
  · rw [Bench.pulses_coming_and_going width height hrest, hnone, Nat.zero_add]

def quickReturn : List Event := [.enter, .leave, .enter]

theorem quickReturn_doubles_pulse :
    ((Bench.fresh 1 2 "bg" "fg" "hover").run 200 50 quickReturn).pulses = 2 ∧
      ¬ ∀ before, before <+: quickReturn →
        ((Bench.fresh 1 2 "bg" "fg" "hover").run 200 50 before).pulses ≤ 1 := by
  refine ⟨by decide, fun hone => ?_⟩
  have hpulse := (one_pulse_iff (Bench.isIdle_fresh 1 2 "bg" "fg" "hover") 200 50).2.1 quickReturn
  have hnone := hpulse.1 hone [.enter, .leave] List.prefix_rfl (by decide)
  exact absurd hnone (by decide)

end CodeAtlas.Desktop
