import AuditLog.Decimal
import AuditLog.Json
import AuditLog.Numeral
import AuditLog.Uuid

/-! What decoding has to say beside its events. Notices are never read back by the decoder. -/
namespace AuditLog

inductive Level where
  | trace
  | debug
  | info
  | warn
  | error
  | fatal
  | silent
  deriving DecidableEq, Repr

namespace Level

def number : Level → Nat
  | .trace => 10
  | .debug => 20
  | .info => 30
  | .warn => 40
  | .error => 50
  | .fatal => 60
  | .silent => 100

def label : Level → Text
  | .trace => Text.of "trace"
  | .debug => Text.of "debug"
  | .info => Text.of "info"
  | .warn => Text.of "warn"
  | .error => Text.of "error"
  | .fatal => Text.of "fatal"
  | .silent => Text.of "silent"

end Level

inductive Notice where
  | versionNotDecimal (version : Text)
  | versionNewer (version : Text) (ceiling : Float)
  | decoded (start stop : Nat) (identifier : Option Uuid)

namespace Notice

def level : Notice → Level
  | .decoded .. => .debug
  | _ => .warn

def message : Notice → Text
  | .versionNotDecimal _ => Text.of "eventVersion is not a decimal number"
  | .versionNewer version ceiling =>
      Text.of "eventVersion " ++ version ++ Text.of " is newer than " ++ Decimal.text ceiling ++
        Text.of " and may use unrecognized semantics"
  | .decoded .. => Text.of "Event decoded"

def fields : Notice → List (Text × Json)
  | .versionNotDecimal version => [(Text.of "eventVersion",.string version)]
  | .versionNewer version ceiling =>
      [(Text.of "eventVersion",.string version),
        (Text.of "supportedEventVersion",.string (Decimal.text ceiling))]
  | .decoded start stop identifier =>
      [(Text.of "charStart",Json.ofNat start),(Text.of "charEnd",Json.ofNat stop)] ++
        (identifier.map (fun id => (Text.of "eventID",Json.string id.text))).toList

def ofVersion? (ceiling : Float) (version : Text) : Option Notice :=
  if (Blank.trim version).isEmpty then some (.versionNotDecimal version)
  else
    match Numeral.ofText? version with
    | none => some (.versionNotDecimal version)
    | some n => if ceiling < n.toFloat then some (.versionNewer version ceiling) else none

end Notice
end AuditLog
