import BundleHook.Console.Command

/-!
# The program

The files that the command may use are listed on standard input, one path a line. They are read
before the command runs, and those that it has changed are written behind it. Events go to standard
error.
-/

namespace BundleHook.Program

def settings : IO Environment := do
  let names :=
    ["STALLION_PROJECT_ID", "STALLION_APP_TOKEN", "STALLION_LOG_LEVEL", "STALLION_JSON_LOGS",
     "STALLION_PATCH_ANDROID", "STALLION_PATCH_IOS", "STALLION_DRY_RUN"]
  return (← names.mapM fun name => return (← IO.getEnv name).map (name, ·)).reduceOption

def listedTree (directory : Path) : IO Tree := do
  let lines ← IO.FS.lines "/dev/stdin"
  lines.foldlM (fun tree line => do
    let path := directory.ofText line.toList
    let octets ← IO.FS.readBinFile (String.ofList path.text)
    let above := (tree.addDirectories path.parent).2
    return (above.write path octets.toList).toOption.getD above)
    (Tree.addDirectories ⟨[]⟩ directory).2

def writeChanges (before after : Tree) : IO Unit :=
  after.files.forM fun (path, contents) => do
    if before.files.lookup path ≠ some contents then
      IO.FS.createDirAll (String.ofList path.parent.text)
      IO.FS.writeBinFile (String.ofList path.text) (ByteArray.mk contents.toArray)

/-- What is told about an ending, and the exit code. -/
def conclude : Ending → IO UInt32
  | .exit code => return UInt32.ofNat code
  | .hindered hindrance => do
    IO.eprintln hindrance.message
    return 1
  | .invalid complaints => do
    IO.eprintln (toString complaints.length ++ " settings do not fit")
    return 1
  | .badTag fault => do
    IO.eprintln fault.message
    return 1

end BundleHook.Program

open BundleHook Program in
def main (given : List String) : IO UInt32 := do
  let directory := Path.top.ofText (← IO.currentDir).toString.toList
  let tree ← listedTree directory
  let (ending, session) := Command.runLine ⟨← settings, directory⟩ given ⟨tree, []⟩
  writeChanges tree session.world.tree
  let logging : Logging := ⟨session.level.getD .info, false⟩
  (logging.lines session.world.events).forM fun
    | .record event | .console event => IO.eprintln event.line
  (session.output.flatMap Block.drawn).forM fun line => IO.println (String.ofList line)
  conclude ending
