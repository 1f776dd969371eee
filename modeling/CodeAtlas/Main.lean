import CodeAtlas.Command.Survey

/-! The survey command on the files of this machine. The part of the disk that the command looks at
is read beforehand, and the files it saves are written afterwards. No grammars are built in and no
model is trained, so only MeTTa sources have definitions and no node has a vector. -/

namespace CodeAtlas.Console

/-- Reads what stands at a path. A folder that has its true place elsewhere is a link, and so is
whatever cannot be read. -/
partial def readTree (path : String) : IO FileTree := do
  try
    let place ← IO.FS.realPath path
    if ← place.isDir then
      if place.toString ≠ path then return .link place.toString
      let entries ← place.readDir
      return .folder (← entries.toList.mapM fun e => do
        return (e.fileName, ← readTree (Path.join path e.fileName)))
    else return .file (← IO.FS.readBinFile place).toList
  catch _ => return .link path

def addTree (d : Disk) (path : String) : IO Disk := do
  try
    let place := (← IO.FS.realPath path).toString
    return { d with root := .put (← readTree place) (Path.parts place) d.root }
  catch _ => return d

def addFolder (d : Disk) (path : String) : IO Disk := do
  let folder := Path.dirName path
  try
    if (← (← IO.FS.realPath folder).isDir) && !d.contains folder then
      return { d with root := .put (.folder []) (Path.parts folder) d.root }
    else return d
  catch _ => return d

def writeBack (before after : Disk) (path : String) : IO Unit := do
  match after.read path with
  | .ok bytes =>
    if (before.read path).toOption ≠ some bytes then
      IO.FS.createDirAll (Path.dirName path)
      IO.FS.writeBinFile path (ByteArray.mk bytes.toArray)
  | .error _ => return ()

def library : Grammar.Library :=
  ⟨"build/my-languages.so", false, [], [], fun _ _ => .error "no grammar"⟩

def model : Embedding.Model := ⟨fun _ => false, fun _ _ => .null⟩

def survey (settings : Command.Survey.Settings) : IO UInt32 := do
  let cwd := (← IO.currentDir).toString
  let saved := [settings.output, settings.graphOutput, settings.vectorOutput].filterMap fun path =>
    path.map (Path.absolute cwd)
  let empty : Disk := ⟨.put (.folder []) (Path.parts cwd) (.folder []), Path.parts cwd⟩
  let d ← addTree empty (Path.absolute cwd (settings.root.getD ""))
  let d ← saved.foldlM addFolder d
  let run := Command.Survey.run library model Language.sortedNames settings
  let (result, session) := run.run.run (.start d)
  session.printed.forM IO.println
  session.logged.forM IO.eprintln
  saved.forM (writeBack d session.disk)
  match result with
  | .ok () => return 0
  | .error e =>
    IO.eprintln e.message
    return 1

end CodeAtlas.Console

def main (args : List String) : IO UInt32 :=
  match CodeAtlas.CommandLine.parse CodeAtlas.Command.Survey.options args with
  | .ok s => CodeAtlas.Console.survey (.ofCommandLine s)
  | .error stop => return UInt32.ofNat stop.exitCode.toNat
