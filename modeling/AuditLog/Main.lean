import AuditLog.Command

/-! The command line. Events go to standard output, log entries to standard error. -/
namespace AuditLog

def readEntry (path : String) : IO FileEntry := do
  try
    let bytes ← IO.FS.readBinFile path
    pure (.content bytes.toList)
  catch
    | .noFileOrDirectory .. => pure .missing
    | .inappropriateType .. => pure .directory
    | other => throw other

def writeLine (stream : IO.FS.Stream) (line : Text) : IO Unit :=
  stream.write (ByteArray.mk (Utf8.encode (line ++ [0x0A])).toArray)

def reported (stdout stderr : IO.FS.Stream) : Except (List Issue) Command.Report → IO UInt32
  | .error issues => do
      writeLine stderr (Text.of "Fatal: failed to start decoder " ++ Settings.refusal issues)
      pure 1
  | .ok report => do
      report.lines.forM (writeLine stdout)
      report.entries.forM (fun e => writeLine stderr e.toJson.compact)
      pure report.exitCode.toUInt32

end AuditLog

open AuditLog in
def main (paths : List String) : IO UInt32 := do
  let environment ← Settings.variableNames.mapM (fun name => do
    pure (Text.of name,(← IO.getEnv name).map Text.of))
  let entries ← paths.mapM (fun path => do
    pure (Text.of path,← readEntry path))
  let report := Command.start (fun name => (environment.lookup name).join)
    (fun path => (entries.lookup path).getD .missing) (paths.map Text.of)
  reported (← IO.getStdout) (← IO.getStderr) report
