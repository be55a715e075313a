import AuditLog.Place
import AuditLog.Value

/-! Decoded events and where they came from: the span of the record in the document and, for a
delivered log, its name and the source text of the record. -/
namespace AuditLog

inductive Provenance where
  | span
  | delivery (logName : Text) (document : Option (Array CodeUnit))
  deriving DecidableEq, Repr

structure Metadata where
  start : Place
  stop : Place
  logName : Option Text
  rawEvent : Option Text
  deriving DecidableEq, Repr

def Provenance.metadata (start stop : Place) : Provenance → Metadata
  | .span => ⟨start,stop,none,none⟩
  | .delivery logName document => ⟨start,stop,some logName,document.map (fun t => Place.slice t start stop)⟩

def optional {α : Type} (name : String) (encode : α → Json) (value : Option α) : List (Text × Json) :=
  (value.map (fun v => (Text.of name,encode v))).toList

def Metadata.toJson (m : Metadata) : Json :=
  .object (optional "logName" .string m.logName ++
    [(Text.of "charStart",m.start.toJson),(Text.of "charEnd",m.stop.toJson)] ++
    optional "rawEvent" .string m.rawEvent)

structure Event where
  data : Value
  metadata : Metadata

def Event.line (e : Event) : Text :=
  (Json.object [(Text.of "metadata",e.metadata.toJson),(Text.of "event",e.data.toJson)]).compact

end AuditLog
