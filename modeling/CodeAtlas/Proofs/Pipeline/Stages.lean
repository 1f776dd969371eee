import CodeAtlas.Child
import CodeAtlas.Pipeline.Stage
import CodeAtlas.Proofs.Upshot

/-! Which stages of the pipeline are started, given what comes of each: all up to the first that
fails. The page is a stage only if the converter is there once the README is written. -/

namespace CodeAtlas.Pipeline

open Child (Outcome Ending Launch)

/-- Whether a child is launched as a stage, and not to probe a module or to show the page. -/
def isStage : Child.Manner → Bool
  | .stage _ => true
  | .captured => true
  | _ => false

def stageCommands (launches : List Launch) : List Child.Command :=
  (launches.filter fun l => isStage l.manner).map Launch.command

inductive Fault
  | code (code : Int)
  | refused (message : String)
  deriving DecidableEq, Repr

def fault? : Ending → Option Fault
  | .refused message => some (.refused message)
  | .ended code _ _ => if code = 0 then none else some (.code code)

section

variable (outcomes : Stage → Outcome)

/-- The stages up to the first that fails, with that one. -/
def started : List Stage → List Stage
  | [] => []
  | stage :: stages =>
    stage :: if (fault? (outcomes stage).ending).isNone then started stages else []

def firstFault? (stages : List Stage) : Option Fault :=
  stages.findSome? fun stage => fault? (outcomes stage).ending

def diskAfter (d : Disk) (stages : List Stage) : Disk :=
  stages.foldl (fun d stage => (outcomes stage).change d) d

def textStages : List Stage := [.grammars, .survey, .readme]

/-- The stages of a run in which no stage fails. -/
def plan (l : Layout) (d : Disk) : List Stage :=
  textStages ++
    if (diskAfter outcomes d textStages).contains (l.root ++ "/tools/md_to_html.py") then [.page]
    else []

end

variable {outcomes : Stage → Outcome}

theorem plan_eq (l : Layout) (d : Disk) :
    plan outcomes l d = textStages ++
      if (diskAfter outcomes d textStages).contains l.converter then [.page] else [] := rfl

theorem started_cons_of_none {stage : Stage} (h : fault? (outcomes stage).ending = none)
    (stages : List Stage) :
    started outcomes (stage :: stages) = stage :: started outcomes stages := by
  rw [started, h]
  rfl

theorem started_cons_of_some {stage : Stage} {fault : Fault}
    (h : fault? (outcomes stage).ending = some fault) (stages : List Stage) :
    started outcomes (stage :: stages) = [stage] := by
  rw [started, h]
  rfl

theorem firstFault?_cons_of_none {stage : Stage} (h : fault? (outcomes stage).ending = none)
    (stages : List Stage) :
    firstFault? outcomes (stage :: stages) = firstFault? outcomes stages := by
  rw [firstFault?, List.findSome?_cons, h]
  rfl

theorem firstFault?_cons_of_some {stage : Stage} {fault : Fault}
    (h : fault? (outcomes stage).ending = some fault) (stages : List Stage) :
    firstFault? outcomes (stage :: stages) = some fault := by
  rw [firstFault?, List.findSome?_cons, h]

theorem started_append_of_none {stages : List Stage} (h : firstFault? outcomes stages = none)
    (more : List Stage) : started outcomes (stages ++ more) = stages ++ started outcomes more := by
  induction stages with
  | nil => rfl
  | cons stage stages ih =>
    obtain ⟨hstage, hstages⟩ := List.forall_mem_cons.1 (List.findSome?_eq_none_iff.1 h)
    rw [List.cons_append, started_cons_of_none hstage, ih (List.findSome?_eq_none_iff.2 hstages)]
    rfl

theorem started_append_of_some {stages : List Stage} {fault : Fault}
    (h : firstFault? outcomes stages = some fault) (more : List Stage) :
    started outcomes (stages ++ more) = started outcomes stages := by
  induction stages with
  | nil => cases h
  | cons stage stages ih =>
    rw [List.cons_append]
    cases hstage : fault? (outcomes stage).ending with
    | some _ => rw [started_cons_of_some hstage, started_cons_of_some hstage]
    | none =>
      rw [firstFault?_cons_of_none hstage] at h
      rw [started_cons_of_none hstage, started_cons_of_none hstage, ih h]

theorem started_of_none {stages : List Stage} (h : firstFault? outcomes stages = none) :
    started outcomes stages = stages := by
  simpa [started] using started_append_of_none h []

theorem started_first (stages : List Stage) : started outcomes stages <+: stages := by
  induction stages with
  | nil => exact List.prefix_refl []
  | cons stage stages ih =>
    cases hstage : fault? (outcomes stage).ending with
    | some _ =>
      rw [started_cons_of_some hstage]
      exact List.prefix_append [stage] stages
    | none =>
      rw [started_cons_of_none hstage]
      exact (List.prefix_cons_inj stage).2 ih

theorem map_started_plan {α : Type} (command : Stage → α) (l : Layout) (d : Disk) :
    (started outcomes (plan outcomes l d)).map command =
      [command .grammars, command .survey, command .readme, command .page].take
        (started outcomes (plan outcomes l d)).length := by
  have hplan : plan outcomes l d <+: [.grammars, .survey, .readme, .page] := by
    refine (List.prefix_append_right_inj textStages).2 ?_
    split
    · exact List.prefix_refl _
    · exact List.nil_prefix
  have hfirst : started outcomes (plan outcomes l d) <+: [.grammars, .survey, .readme, .page] :=
    (started_first _).trans hplan
  exact (congrArg (List.map command) (List.prefix_iff_eq_take.1 hfirst)).trans (List.map_take ..)

theorem firstFault?_append_of_some {stages : List Stage} {fault : Fault}
    (h : firstFault? outcomes stages = some fault) (more : List Stage) :
    firstFault? outcomes (stages ++ more) = some fault := by
  rw [firstFault?, List.findSome?_append, ← firstFault?, h]
  rfl

theorem firstFault?_append_of_none {stages : List Stage} (h : firstFault? outcomes stages = none)
    (more : List Stage) : firstFault? outcomes (stages ++ more) = firstFault? outcomes more := by
  rw [firstFault?, List.findSome?_append, ← firstFault?, h]
  rfl

theorem stageCommands_append (before after : List Launch) :
    stageCommands (before ++ after) = stageCommands before ++ stageCommands after := by
  rw [stageCommands, List.filter_append, List.map_append]
  rfl

theorem stageCommands_flatMap {launches : Stage → List Launch} {command : Stage → Child.Command}
    (h : ∀ stage, stageCommands (launches stage) = [command stage]) (stages : List Stage) :
    stageCommands (stages.flatMap launches) = stages.map command := by
  induction stages with
  | nil => rfl
  | cons stage stages ih => rw [List.flatMap_cons, stageCommands_append, h, ih]; rfl

end CodeAtlas.Pipeline
