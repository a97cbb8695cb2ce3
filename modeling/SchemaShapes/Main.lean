import SchemaShapes.Command.Line

/-! The program. Commands are run on the files that have been read so far; when one comes to a path
that has not been tried, the file there is read and the command is run again. -/
namespace SchemaShapes.Program

open File (Found Path System)

/-- A path that has been tried, and the file that it leads to. -/
abbrev Attempt := Path × Option Found

/-- The files of the attempts that succeeded. -/
def systemOf (attempts : List Attempt) : System :=
  .ofEntries (attempts.filterMap fun (path, found) => found.map (path, ·))

/-- Read the file that a path leads to. -/
def attempt (path : Path) : IO Attempt := do
  try
    let text ← IO.FS.readFile path.text
    let location ← IO.FS.realPath path.text
    return (path, some ⟨⟨location.toString⟩, text⟩)
  catch _ =>
    return (path, none)

/-- Run a command, reading files as it comes to them. -/
partial def runWith (command : Command) (attempts : List Attempt) : IO (Outcome (List String)) := do
  let outcome := command.run (systemOf attempts)
  match outcome with
  | .ok _ => return outcome
  | .error e =>
    match e.missing? with
    | none => return outcome
    | some path =>
      if attempts.any (·.1 = path) then
        return outcome
      else
        runWith command ((← attempt path) :: attempts)

/-- How the program is called. -/
def usage : String :=
  "usage: schema-shapes infer|schema FILE [-e NAME] [-n NAMESPACE] [-r FOLDER]\n" ++
  "       schema-shapes elements FILE [-r FOLDER]\n" ++
  "       schema-shapes manifest FILE"

end SchemaShapes.Program

open SchemaShapes SchemaShapes.Program in
/-- Run the command that the arguments give, and show what it answers. -/
def main (args : List String) : IO UInt32 := do
  match CommandLine.parse args with
  | none =>
    IO.eprintln usage
    return 2
  | some command =>
    match ← runWith command [] with
    | .ok texts =>
      texts.forM fun text => IO.println text
      return 0
    | .error e =>
      IO.eprintln ("Error: " ++ e.message)
      return 1
