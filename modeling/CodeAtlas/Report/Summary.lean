import CodeAtlas.Report.Node

/-! How many files a report speaks of. -/

namespace CodeAtlas.Report

open Json (Fault)

structure Counts where
  files : Nat
  metta : Nat
  other : Nat
  errors : Nat
  deriving DecidableEq, Repr

namespace Counts

def zero : Counts := ⟨0, 0, 0, 0⟩

def add (a b : Counts) : Counts :=
  ⟨a.files + b.files, a.metta + b.metta, a.other + b.other, a.errors + b.errors⟩

instance : Add Counts := ⟨add⟩

def ofFile (members : List (Text.Points × Json)) : Counts :=
  let isMetta := ((Json.member? members "language").getD .null).isStr "metta"
  { files := 1
    metta := if isMetta then 1 else 0
    other := if isMetta then 0 else 1
    errors := if Json.hasKey members "parse_error" then 1 else 0 }

def lines (c : Counts) : List String :=
  ["\n📊 Summary:", s!"   Total files: {c.files}", s!"   MeTTa files: {c.metta}",
    s!"   Other files: {c.other}", s!"   Parse errors: {c.errors}"]

end Counts

mutual

def countNode : Node → Except Fault Counts
  | .value j => do
    let _ ← j.require "type"
    return .zero
  | .object members children => do
    let type ← (Json.obj members).require "type"
    if type.isStr "file" then return .ofFile members
    else if type.isStr "folder" then
      checkChildren members
      countNodes children
    else return .zero

def countNodes : List Node → Except Fault Counts
  | [] => return .zero
  | node :: nodes => do
    let first ← countNode node
    let rest ← countNodes nodes
    return first + rest

end

def count (report : Json) : Except Fault Counts := countNode (.ofJson report)

end CodeAtlas.Report
