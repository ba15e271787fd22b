import KeepBlame.CommandLine.Session

/-!
The program. It reads the tree below the working directory, lets the command line work on it, prints what there is to
say and writes back the files that have changed. It starts no other program: which formatters there are, and which
repository, is for its caller to say.
-/
namespace KeepBlame.Main

def placeOf (path : String) : Place :=
  (Path.mk path).components.filterMap fun c =>
    match c with
    | .name s => some s
    | _ => none

partial def readTree (disk : Disk) (directory : String) : IO Disk := do
  let mut disk := disk.add (placeOf directory) .directory
  for entry in ← (← IO.FS.realPath directory).readDir do
    let path := entry.path.toString
    match (← entry.path.symlinkMetadata).type with
    | .dir => disk ← readTree disk path
    | .file => disk := disk.add (placeOf path) (.file (← IO.FS.readBinFile path).toList)
    | _ => pure ()
  return disk

def writeChanges (before after : Disk) : IO Unit := do
  for (place, node) in after.nodes do
    match node with
    | .file bytes =>
      if before.node? place != some node then
        IO.FS.writeBinFile (Disk.pathOf place).text ⟨bytes.toArray⟩
    | _ => pure ()

def seconds (ms : Nat) : String :=
  let hundredths := ms / 10 % 100
  s!"{ms / 1000}.{hundredths / 10}{hundredths % 10}"

def runFlags (store : Option Git.Store) (tools : Toolbox) (flags : CommandLine.Flags) : IO UInt32 := do
  let started ← IO.monoMsNow
  let directory := (← IO.currentDir).toString
  let disk ← readTree {} directory
  let host : CommandLine.Host := { disk, directory := ⟨directory⟩, store, tools }
  let ending := host.session flags
  let format := Log.Format.ofSetting (← IO.getEnv "BLAMEFMT_LOG")
  for record in Log.shown flags.quiet ending.records do
    IO.eprintln (record.render format)
  writeChanges disk ending.disk
  for line in ending.output (seconds ((← IO.monoMsNow) - started)) do
    IO.println line
  for report in ending.errorReport? do
    IO.eprintln report
  return ending.exitCode.toUInt32

def program (store : Option Git.Store) (tools : Toolbox) (args : List String) : IO UInt32 := do
  match CommandLine.parse args with
  | .error e =>
    IO.eprintln s!"error: {e.message}"
    return 2
  | .ok .version =>
    IO.println CommandLine.programVersion
    return 0
  | .ok (.run flags) => runFlags store tools flags

end KeepBlame.Main

def main (args : List String) : IO UInt32 :=
  KeepBlame.Main.program none { names := [], version := {}, reply := fun _ => {} } args
