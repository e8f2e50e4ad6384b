import PassHash.CommandLine.Outcome

/-!
# The Program

Reads what the request depends on, prints its outcome and exits with its code.
-/

namespace PassHash

namespace Program

/-- A short description of the usage. -/
def usage : String :=
  "Usage: crypt-tool [--config <PATH>] <COMMAND>\n\n" ++
  "Commands:\n" ++
  "  hash [SETTING] [--phrase <PHRASE>]\n" ++
  "  verify <HASH> [--phrase <PHRASE>]\n" ++
  "  gensalt [--prefix <PREFIX>] [--count <COUNT>]\n" ++
  "  checksalt <SETTING> [--json]\n" ++
  "  methods [--json]\n"

/-- What a file holds. -/
def readContent (file : IO.FS.Handle) : IO CommandLine.Source :=
  try
    let bytes ← file.readBinToEnd
    return .content bytes.toList
  catch _ => return .unreadable

/-- What stands at a path. -/
def readSource (path : String) : IO CommandLine.Source := do
  try
    readContent (← IO.FS.Handle.mk path .read)
  catch e =>
    match e with
    | .permissionDenied .. => return .closed
    | _ => return .absent

/-- Input up to the end of a line or of the stream. -/
partial def readLine (stream : IO.FS.Stream) (read : ByteArray) : IO ByteArray := do
  let more ← stream.read 4096
  let read := read ++ more
  if more.isEmpty || more.toList.contains 0x0a then return read
  readLine stream read

/-- The files, the input and the random bytes that a request depends on. -/
def surroundings (r : CommandLine.Invocation) : IO CommandLine.Surroundings := do
  let source ← match r.config? with
    | some path => readSource path
    | none => pure .absent
  let input ← if r.command.readsInput then readLine (← IO.getStdin) .empty else pure .empty
  let random ← try some <$> IO.getRandomBytes 256 catch _ => pure none
  return ⟨fun _ => source, input.toList, fun n => random.map fun b => b.toList.take n⟩

/-- Prints an outcome. -/
def present (o : CommandLine.Outcome) : IO Unit := do
  let stdout ← IO.getStdout
  stdout.write ⟨o.output.toArray⟩
  stdout.flush
  match o with
  | .refused .help => stdout.putStr usage
  | .refused .version => stdout.putStr "crypt-tool 0.1.0\n"
  | .refused r => IO.eprint ("error: " ++ r.message ++ "\n\n" ++ usage)
  | _ => if let some e := o.error? then IO.eprintln ("Error: " ++ e)

/-- Carries out a command line. -/
def run (words : List String) : IO UInt32 := do
  let o ← match CommandLine.Invocation.ofWords words with
    | .ok r => do pure (r.outcome (← surroundings r))
    | .error refusal => pure (.refused refusal)
  present o
  return UInt32.ofNat o.exitCode

end Program

end PassHash

def main (words : List String) : IO UInt32 := PassHash.Program.run words
