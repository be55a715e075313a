import AuditLog.Trail

/-! Decoding of whole logs, held in memory or in a file. The source is released on every way out,
also when the envelope is refused or the events wanted are there before the list ends. -/
namespace AuditLog

structure Options where
  logName : Option Text
  recordsField : Text
  ceiling : Float
  chunkSize : ChunkSize

def Options.standard : Options := ⟨none,Terms.standardField,Terms.standardCeiling,ChunkSize.standard⟩

structure Decoding where
  events : List Event
  failure : Option Fault
  notices : List Notice
  accesses : List Access

namespace Decoding

def finish (harvest : Harvest) (trail : Trail) : Decoding :=
  let session := trail.close.session
  ⟨harvest.events,harvest.failure,session.notices,session.cursor.input.source.history.reverse⟩

def ofSource (terms : Terms) (limit : Option Nat) (source : Source) : Decoding :=
  match (Trail.ofSource terms source).enter with
  | (.error fault,trail) => finish ⟨[],some fault⟩ trail
  | (.ok _,trail) =>
      let (harvest,trail) := trail.collect limit
      finish harvest trail

def asks (terms : Terms) (limit : Option Nat) (source : Source) : Nat :=
  let envelope := Trail.envelope terms.recordsField
  envelope.asks (.ofSource source) +
    match envelope.run (.ofSource source) with
    | (.error _,_) => 0
    | (.ok _,session) => Trail.collectAsks terms limit session

def ofText (options : Options) (rawEvents : Bool) (t : Text) : Decoding :=
  let name := options.logName.getD (Text.of "<text>")
  ofSource ⟨options.recordsField,options.ceiling,.delivery name (if rawEvents then some t.toArray else none)⟩ none
    (Source.ofText options.chunkSize t)

def ofFile (options : Options) (limit : Option Nat) (path : Text) (entry : FileEntry) : Decoding :=
  match Source.ofFile options.chunkSize path entry with
  | .error flaw => ⟨[],some (.file flaw),[],[]⟩
  | .ok source =>
      ofSource ⟨options.recordsField,options.ceiling,.delivery (options.logName.getD path) none⟩ limit source

end Decoding
end AuditLog
