import AuditLog.Settings

/-! The command: every log file becomes lines of output, one an event, and a summary among the log
entries. A file that fails keeps the lines it gave and does not stop the others. -/
namespace AuditLog

structure LogEntry where
  level : Level
  logName : Option Text
  fields : List (Text × Json)
  message : Text

namespace LogEntry

def toJson (e : LogEntry) : Json :=
  .object ([(Text.of "level",Json.ofNat e.level.number),(Text.of "name",.string (Text.of "audit-trail-decoder"))] ++
    optional "logName" .string e.logName ++ e.fields ++ [(Text.of "msg",.string e.message)])

def ofNotice (logName : Text) (n : Notice) : LogEntry := ⟨n.level,some logName,n.fields,n.message⟩

end LogEntry

namespace TimeFlaw

def report (flaw : TimeFlaw) : Text :=
  let kind := match flaw with
    | .shape => "    \"validation\": \"regex\",\n    \"code\": \"invalid_string\",\n"
    | .calendar => "    \"code\": \"custom\",\n"
  Text.of "[\n  \x7b\n" ++ Text.of kind ++ Text.of "    \"message\": \"" ++ flaw.message ++
    Text.of "\",\n    \"path\": []\n  \x7d\n]"

end TimeFlaw

namespace Fault

def report (fault : Fault) : Text :=
  match fault with
  | .time _ flaw _ => fault.message ++ Text.of ": " ++ flaw.report
  | _ => fault.message

def textDetail : Fault → List (Text × Json)
  | .time text _ _ => [(Text.of "text",.string text)]
  | .identifier text _ => [(Text.of "text",(text.map Json.string).getD .null)]
  | _ => []

def codeDetail : Fault → List (Text × Json)
  | .file flaw => [(Text.of "code",.string flaw.code)]
  | _ => []

def toJson (fault : Fault) : Json :=
  .object ([(Text.of "type",.string fault.name),(Text.of "message",.string fault.report)] ++
    fault.codeDetail ++ optional "offset" Place.toJson fault.place? ++ fault.textDetail)

end Fault

namespace Command

def usage : Text := Text.of "Usage: audit-trail-decode <log-file> [log-file...]"

def decodeFile (settings : Settings) (path : Text) (entry : FileEntry) : Decoding :=
  let options : Options := ⟨some path,settings.recordsField,settings.ceiling,settings.chunkSize⟩
  if settings.rawEvents then
    match entry with
    | .missing => ⟨[],some (.file (.missing path)),[],[]⟩
    | .directory => ⟨[],some (.file .directory),[],[]⟩
    | .content bytes => Decoding.ofText options true (Utf8.decode bytes)
  else Decoding.ofFile options none path entry

def summary (path : Text) (d : Decoding) : LogEntry :=
  let decoded := (Text.of "decoded",Json.ofNat d.events.length)
  match d.failure with
  | none => ⟨.info,some path,[decoded],Text.of "Log decoded"⟩
  | some fault => ⟨.error,some path,[(Text.of "err",fault.toJson),decoded],Text.of "Failed to decode log"⟩

structure Report where
  exitCode : Nat
  lines : List Text
  entries : List LogEntry

def logged (level : Level) (entries : List LogEntry) : List LogEntry :=
  entries.filter (fun e => level.number ≤ e.level.number)

def run (settings : Settings) (files : Text → FileEntry) (paths : List Text) : Report :=
  if paths.isEmpty then ⟨2,[],logged settings.level [⟨.error,none,[],usage⟩]⟩
  else
    let decoded := paths.map (fun path => (path,decodeFile settings path (files path)))
    ⟨if decoded.any (fun d => d.2.failure.isSome) then 1 else 0,
      decoded.flatMap (fun d => d.2.events.map Event.line),
      logged settings.level (decoded.flatMap (fun d =>
        d.2.notices.map (LogEntry.ofNotice d.1) ++ [summary d.1 d.2]))⟩

def start (environment : Text → Option Text) (files : Text → FileEntry) (paths : List Text) :
    Except (List Issue) Report :=
  (Settings.load environment).map (fun settings => run settings files paths)

end Command
end AuditLog
