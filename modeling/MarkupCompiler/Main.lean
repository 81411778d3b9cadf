import MarkupCompiler.CommandLine.Console
import MarkupCompiler.CommandLine.Run

/-!
The command.
-/

namespace MarkupCompiler.CommandLine

partial def readAll (input : IO.FS.Stream) (read : ByteArray) : IO ByteArray := do
  let more ← input.read 65536
  if more.isEmpty then return read
  readAll input (read ++ more)

def world : World IO where
  workingDirectory := return (← IO.currentDir).toString.toList
  content? path := do
    try
      return some (← IO.FS.readBinFile (String.ofList path))
    catch _ =>
      return none
  input := do
    readAll (← IO.getStdin) .empty

end MarkupCompiler.CommandLine

open MarkupCompiler.CommandLine in
def main (args : List String) : IO UInt32 := do
  let outcome ← run console world (args.map String.toList)
  IO.print (String.ofList outcome.output)
  for line in outcome.errors do
    IO.eprintln line
  return outcome.exitCode.toUInt32
