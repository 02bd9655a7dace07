import Piet.Cli.Session
import Piet.Image.Folder

/-!
# The program

Reads the arguments, carries out the command on the files of the system and prints what there
is to print.
-/

namespace Piet

/-- Whether an action succeeds, and with what. -/
def attempt? {α : Type} (action : IO α) : IO (Option α) := do
  try
    return some (← action)
  catch _ =>
    return none

/-- The files of the system, with PNG and BMP for images. -/
def systemDisk : Disk IO where
  formats := .standard
  contains path := do
    return (← attempt? (IO.FS.Handle.mk path .read)).isSome
  read? path := do
    return (← attempt? (IO.FS.readBinFile path)).map ByteArray.data
  write path bytes := do
    let keep : IO Unit := do
      let file ← IO.FS.Handle.mk path .write
      file.write ⟨bytes⟩
      file.flush
    return (← attempt? keep).isSome

/-- What is printed when the arguments are not well formed. -/
def usage : String :=
  "Usage: [--debug] generate [--cols N] [--input KEY]... [--recurse N] [--step-limit N] " ++
    "INPUT OUTPUT\n" ++
    "       [--debug] run [--input TEXT] [--step-limit N] [--speed N] [--codel-size N] " ++
    "[--lenient] IMAGE [OUTPUT]\n"

end Piet

/-- Carries out the command that the arguments ask for. -/
def main (args : List String) : IO UInt32 := do
  match Piet.Invocation.ofArgs? args with
  | none =>
    (← IO.getStderr).putStr Piet.usage
    return 2
  | some invocation =>
    let report ← invocation.perform Piet.systemDisk
    let stdout ← IO.getStdout
    stdout.write ⟨report.stdout⟩
    stdout.flush
    for line in report.stderr do
      (← IO.getStderr).putStrLn line
    return UInt32.ofNat report.exitCode
