import SchemaExpr.Command.Run

/-!
# The program

The command line over the file system, the standard streams and the exit code of the process.
-/
namespace SchemaExpr.Host

def readFault : IO.Error → ReadFault
  | .noFileOrDirectory .. => .missing
  | .inappropriateType _ code details =>
    if code == 20 then .notDirectory
    else if code == 21 then .isDirectory
    else .stated (details ++ " (os error " ++ toString code.toNat ++ ")")
  | e => .stated (toString e)

/-- Whether an action comes to an end. -/
def succeeds (action : IO Unit) : IO Bool := do
  try
    action
    pure true
  catch _ => pure false

/-- Access to the files of the system. Directories can be opened but not read. -/
def files : Files IO where
  isFile path := succeeds do
    let handle ← IO.FS.Handle.mk path .read
    discard (handle.read 1)
  isPresent path := succeeds (discard (IO.FS.Handle.mk path .read))
  read path := do
    try
      let handle ← IO.FS.Handle.mk path .read
      let bytes ← handle.readBinToEnd
      match String.fromUTF8? bytes with
      | some text => pure (.ok text)
      | none => pure (.error .notText)
    catch e => pure (.error (readFault e))

/-- All that is left in a stream, after what was read already. -/
partial def drain (stream : IO.FS.Stream) (bytes : ByteArray) : IO ByteArray := do
  let more ← stream.read 65536
  if more.isEmpty then pure bytes else drain stream (bytes ++ more)

end SchemaExpr.Host

open SchemaExpr in
def main (args : List String) : IO UInt32 := do
  let directory ← IO.currentDir
  let world : Command.World IO :=
    ⟨Host.files, directory.toString, do Host.drain (← IO.getStdin) ByteArray.empty⟩
  let outcome ← Command.run world args
  (← IO.getStderr).putStr outcome.err
  (← IO.getStdout).putStr outcome.out
  pure outcome.code.toUInt32
