/-
This file is the program: it reads the files that the arguments name, writes
what there is to write, and ends with the status of the run.
-/

import ProtoSchema.Frontend.CommandLine

open ProtoSchema

/-- The contents of a file, or the reason why it cannot be opened. -/
def readContents (path : String) : IO (Except String Bytes) := do
  try
    return .ok (← IO.FS.readBinFile path).toList
  catch failure => return .error failure.toString

/-- Reads the files, runs the command line over them, and writes what the run says. -/
def main (arguments : List String) : IO UInt32 := do
  let files :=
    match CommandLine.Invocation.ofArguments arguments with
    | .run request => request.files
    | _ => []
  let contents ← files.mapM fun path => return (path, ← readContents path)
  let transcript := CommandLine.run arguments fun path =>
    (contents.lookup path).getD (.error "not read")
  IO.print transcript.output
  for line in transcript.errors do
    IO.eprintln line
  return UInt32.ofNat transcript.status
