import StatementForest.Command.Run

/-!
# The program

Takes a picture of the files that a command may look at, runs the command on it,
and carries out what it prints and writes.

Current gaps:

- The picture of the files is taken once, before the command runs.
-/

namespace StatementForest
namespace Program

/-- Take an existing file or directory, with all it holds, into a workspace. -/
partial def takeIn (w : Workspace) (path : String) : IO Workspace := do
  match ← (IO.FS.realPath path).toBaseIO with
  | .error _ => return w
  | .ok target =>
    let l := w.lexicalLocation path
    if ← target.isDir then
      let mut w := w.insert l .directory
      for entry in ← target.readDir do
        w ← takeIn w (Path.child path entry.fileName)
      return w
    else
      let text ← try some <$> IO.FS.readFile target catch _ => pure none
      return w.insert l (.file text)

/-- Take a directory, without what it holds, into a workspace. -/
def takeDirectory (w : Workspace) (path : String) : IO Workspace := do
  match ← (IO.FS.realPath path).toBaseIO with
  | .error _ => return w
  | .ok target =>
    if ← target.isDir then return w.insert (w.lexicalLocation path) .directory else return w

/-- Take what a path leads to, and the directories on the way, into a workspace. -/
def takePath (w : Workspace) (path : String) : IO Workspace := do
  takeIn (← (Path.leading path).foldlM takeDirectory w) path

/-- The configuration files that may hold for a command. -/
def configurationPaths (home : Location) : List String :=
  home.chain.flatMap fun directory =>
    Workspace.configurationNames.map fun name => Location.render (directory ++ [name])

/-- Take a picture of the files that a command may look at. -/
def workspace (o : Option Options) : IO Workspace := do
  let home := (Path.parts (← IO.currentDir).toString).filterMap fun
    | .name text => some text
    | _ => none
  let w := ({ home : Workspace }).insert home .directory
  let documents := (o.map (·.command.paths)).getD []
  let configuration := (o.bind (·.configuration)).toList
  (documents ++ configuration ++ configurationPaths home).foldlM takePath w

/-- Write the files that a command wrote in its workspace. -/
def writeFiles (before after : Workspace) : IO Unit :=
  after.entries.entries.forM fun (l, entry) =>
    match entry with
    | .file (some text) =>
      if before.entryAt? l = some entry then pure ()
      else IO.FS.writeFile l.render text
    | _ => pure ()

end Program
end StatementForest

open StatementForest in
/-- Run a command line.  The environment may ask for output without colours. -/
def main (args : List String) : IO UInt32 := do
  let args := if (← IO.getEnv "NO_COLOR").isSome then "--no-color" :: args else args
  let w ← Program.workspace (Options.parse args)
  let outcome := Command.run w args
  IO.print outcome.output
  IO.eprint outcome.complaint
  Program.writeFiles w outcome.workspace
  return outcome.code.toUInt32
