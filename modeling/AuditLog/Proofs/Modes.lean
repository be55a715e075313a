import AuditLog.Command
import AuditLog.Proofs.Lines
import AuditLog.Proofs.Pieces
import AuditLog.Proofs.Tiling
import AuditLog.Proofs.Twins

/-! The two modes of the command. A file is decoded from a stream of pieces or, for the sake of raw
events, from its whole text; nothing but the raw events tells the two apart. -/
namespace AuditLog
open Grammar

namespace Json

def without (name : Text) : Json → Json
  | .object members => .object (members.filter (fun m => m.1 != name))
  | j => j

def within (name : Text) (change : Json → Json) : Json → Json
  | .object members => .object (members.map (fun m => if m.1 = name then (m.1,change m.2) else m))
  | j => j

end Json

namespace Command
open Trail Decoding

def withoutRaw (line : Json) : Json := line.within (Text.of "metadata") (Json.without (Text.of "rawEvent"))

/-- A line in raw mode: its raw event is what stands at its place in the text of its file. -/
def RawLine (files : Text → FileEntry) (paths : List Text) (line : Json) : Prop :=
  ∃ path ∈ paths, ∃ bytes start stop data, files path = .content bytes ∧
    line = .object [(Text.of "metadata",.object [(Text.of "logName",.string path),
      (Text.of "charStart",Json.ofNat start),(Text.of "charEnd",Json.ofNat stop),
      (Text.of "rawEvent",.string ((Utf8.decode bytes).between start stop))]),(Text.of "event",data)]

def origin (settings : Settings) (path document : Text) : Provenance :=
  .delivery path (if settings.rawEvents then some document.toArray else none)

def termsOf (settings : Settings) (path document : Text) : Terms :=
  ⟨settings.recordsField,settings.ceiling,origin settings path document⟩

theorem rawRun {settings : Settings} (raw : settings.rawEvents = true) (path : Text) (bytes : Utf8.Bytes) :
    ∃ chunks, chunks.flatten = Utf8.decode bytes ∧ decodeFile settings path (.content bytes) =
      ofSource (termsOf settings path (Utf8.decode bytes)) none (.ofChunks chunks) := by
  refine ⟨_,settings.chunkSize.cutFlatten (Utf8.decode bytes),?_⟩
  simp only [decodeFile,termsOf,origin,raw,if_true]
  rfl

theorem streamedRun {settings : Settings} (streamed : settings.rawEvents = false) {path : Text} {entry : FileEntry}
    {source : Source} (opened : Source.ofFile settings.chunkSize path entry = .ok source) (document : Text) :
    decodeFile settings path entry = ofSource (termsOf settings path document) none source := by
  simp only [decodeFile,termsOf,origin,streamed,Bool.false_eq_true,if_false,Decoding.ofFile,opened]
  rfl

theorem streamedChunks {settings : Settings} (streamed : settings.rawEvents = false) (above : 0 < settings.chunkSize.asked)
    (path : Text) (bytes : Utf8.Bytes) :
    ∃ chunks, chunks.flatten = Utf8.decode bytes ∧ decodeFile settings path (.content bytes) =
      ofSource (termsOf settings path (Utf8.decode bytes)) none (.ofChunks chunks) := by
  obtain ⟨length,served⟩ := Source.askingAbove (fun length => .ofChunks (Source.assemble [] (length.cut bytes))) above
  refine ⟨_,Source.cutWhole length bytes,streamedRun streamed ?_ (Utf8.decode bytes)⟩
  rw [Source.ofFile,Source.ofBytes,served]

theorem bareDecoded (terms : Terms) (broken : Option FileFlaw) :
    ofSource terms none ⟨[],broken,[]⟩ =
      ⟨[],some ((broken.map Fault.file).getD (.envelope .notObject 0)),[],[.read,.close]⟩ := by
  cases broken <;> rfl

theorem directoryStreamed {settings : Settings} (streamed : settings.rawEvents = false)
    (above : 0 < settings.chunkSize.asked) (path : Text) :
    decodeFile settings path .directory = ⟨[],some (.file .directory),[],[.read,.close]⟩ := by
  obtain ⟨length,served⟩ := Source.askingAbove (fun _ => ⟨[],some .directory,[]⟩) above
  have opened : Source.ofFile settings.chunkSize path .directory = .ok ⟨[],some .directory,[]⟩ := by
    rw [Source.ofFile,served]
  rw [streamedRun streamed opened [],bareDecoded]
  rfl

def unread (length : Int) : Fault := if length < 0 then .file (.length length) else .envelope .notObject 0

/-- Why nothing comes of a file of which no read gets at a byte. -/
def withheld (length : Int) (path : Text) : FileEntry → Fault
  | .missing => .file (.missing path)
  | .directory => unread length
  | .content _ => unread length

section
variable {settings : Settings} (streamed : settings.rawEvents = false) (none' : settings.chunkSize.asked ≤ 0)
include streamed none'

theorem streamedUnread {path : Text} {entry : FileEntry} {served : ChunkSize → Source}
    (opened : Source.ofFile settings.chunkSize path entry = .ok (Source.asking settings.chunkSize.asked served)) :
    decodeFile settings path entry = ⟨[],some (unread settings.chunkSize.asked),[],[.read,.close]⟩ := by
  rw [Source.askingBare served none'] at opened
  rw [streamedRun streamed opened [],bareDecoded,unread]
  split <;> rfl

theorem streamedWithheld (path : Text) (entry : FileEntry) :
    ∃ accesses, decodeFile settings path entry =
      ⟨[],some (withheld settings.chunkSize.asked path entry),[],accesses⟩ := by
  cases entry with
  | missing =>
      refine ⟨[],?_⟩
      simp only [decodeFile,streamed,Bool.false_eq_true,if_false]
      rfl
  | directory => exact ⟨_,streamedUnread streamed none' rfl⟩
  | content bytes => exact ⟨_,streamedUnread streamed none' rfl⟩

end

theorem rawLine {files : Text → FileEntry} {paths : List Text} {path : Text} {bytes : Utf8.Bytes}
    (among : path ∈ paths) (content : files path = .content bytes) (told : Told) :
    RawLine files paths (told.event (.delivery path (some (Utf8.decode bytes).toArray))).toJson := by
  refine ⟨path,among,bytes,told.start,told.stop,told.data.toJson,content,?_⟩
  rw [← Place.sliceBetween]
  rfl

theorem withoutRawTold (path : Text) (document : Array CodeUnit) (told : Told) :
    withoutRaw (told.event (.delivery path (some document))).toJson =
      (told.event (.delivery path none)).toJson := rfl

theorem fileModes (settings : Settings) {size : ChunkSize} (above : 0 < size.asked) (files : Text → FileEntry)
    (path : Text) :
    ∃ (found : List Told) (failure : Option Fault) (notices : List Notice) (accesses accesses' : List Access)
      (document : Text),
      decodeFile { settings with rawEvents := true } path (files path) =
          ⟨found.map (Told.event (.delivery path (some document.toArray))),failure,notices,accesses⟩ ∧
        decodeFile { settings with rawEvents := false, chunkSize := size } path (files path) =
          ⟨found.map (Told.event (.delivery path none)),failure,notices,accesses'⟩ ∧
        (found ≠ [] → ∃ bytes, files path = .content bytes ∧ document = Utf8.decode bytes) := by
  cases files path with
  | missing => exact ⟨[],_,_,_,_,[],rfl,rfl,nofun⟩
  | directory =>
      have streamed := @directoryStreamed { settings with rawEvents := false, chunkSize := size } rfl above path
      exact ⟨[],_,_,_,_,[],rfl,streamed,nofun⟩
  | content bytes =>
      obtain ⟨chunks,same,whole⟩ := @rawRun { settings with rawEvents := true } rfl path bytes
      obtain ⟨chunks',same',streamed⟩ :=
        @streamedChunks { settings with rawEvents := false, chunkSize := size } rfl above path bytes
      obtain ⟨found,failure,notices,accesses,accesses',left,right⟩ :=
        @ofChunksAgree (termsOf { settings with rawEvents := true } path (Utf8.decode bytes))
          (termsOf { settings with rawEvents := false, chunkSize := size } path (Utf8.decode bytes))
          rfl rfl none chunks chunks' (same.trans same'.symm)
      exact ⟨found,failure,notices,accesses,accesses',Utf8.decode bytes,whole.trans left,streamed.trans right,
        fun _ => ⟨bytes,rfl,rfl⟩⟩

structure Modes (files : Text → FileEntry) (path : Text) (raw streamed : Decoding) : Prop where
  failure : raw.failure = streamed.failure
  notices : raw.notices = streamed.notices
  lines : streamed.events.map Event.toJson = raw.events.map (fun e => withoutRaw e.toJson)
  spelt : ∀ e ∈ raw.events, Spelt (.value e.toJson) e.toJson.compact ∧
    Spelt (.value (withoutRaw e.toJson)) (withoutRaw e.toJson).compact
  source : ∀ e ∈ raw.events, ∀ paths, path ∈ paths → RawLine files paths e.toJson

theorem modesOf (settings : Settings) {size : ChunkSize} (above : 0 < size.asked) (files : Text → FileEntry)
    (path : Text) :
    Modes files path (decodeFile { settings with rawEvents := true } path (files path))
      (decodeFile { settings with rawEvents := false, chunkSize := size } path (files path)) := by
  obtain ⟨found,failure,notices,accesses,accesses',document,raw,streamed,content⟩ := fileModes settings above files path
  rw [raw,streamed]
  refine ⟨rfl,rfl,?_,fun e member => ?_,fun e member paths among => ?_⟩
  · rw [List.map_map,List.map_map]
    exact List.map_congr_left (fun told _ => (withoutRawTold path document.toArray told).symm)
  · obtain ⟨told,_,rfl⟩ := List.mem_map.mp member
    exact ⟨lineSpelt _ told,lineSpelt (.delivery path none) told⟩
  · obtain ⟨told,inside,rfl⟩ := List.mem_map.mp member
    obtain ⟨bytes,file,rfl⟩ := content (List.ne_nil_of_mem inside)
    exact rawLine among file told

theorem summaryModes {files : Text → FileEntry} {path : Text} {raw streamed : Decoding}
    (modes : Modes files path raw streamed) : summary path raw = summary path streamed := by
  have size : streamed.events.length = raw.events.length := by
    have counted := congrArg List.length modes.lines
    rwa [List.length_map,List.length_map] at counted
  rw [summary,summary,modes.failure,size]

def report (level : Level) (decoded : Text → Decoding) (paths : List Text) : Report :=
  ⟨if paths.any (fun path => (decoded path).failure.isSome) then 1 else 0,
    paths.flatMap (fun path => (decoded path).events.map Event.line),
    logged level (paths.flatMap (fun path =>
      (decoded path).notices.map (LogEntry.ofNotice path) ++ [summary path (decoded path)]))⟩

theorem runNothing (settings : Settings) (files : Text → FileEntry) :
    run settings files [] = ⟨2,[],logged settings.level [⟨.error,none,[],usage⟩]⟩ := rfl

theorem runReport (settings : Settings) (files : Text → FileEntry) {paths : List Text} (some : paths ≠ []) :
    run settings files paths =
      report settings.level (fun path => decodeFile settings path (files path)) paths := by
  have filled : paths.isEmpty = false := by rwa [List.isEmpty_eq_false_iff]
  simp only [run,filled,Bool.false_eq_true,if_false,List.any_map,List.flatMap_map]
  rfl

section
variable {files : Text → FileEntry} {raw streamed : Text → Decoding}

theorem reportModes (level : Level) (modes : ∀ path, Modes files path (raw path) (streamed path))
    (paths : List Text) :
    (report level raw paths).exitCode = (report level streamed paths).exitCode ∧
      (report level raw paths).entries = (report level streamed paths).entries := by
  have failures : (fun path => (raw path).failure.isSome) = fun path => (streamed path).failure.isSome :=
    funext (fun path => by rw [(modes path).failure])
  have entries : (fun path => (raw path).notices.map (LogEntry.ofNotice path) ++ [summary path (raw path)]) =
      fun path => (streamed path).notices.map (LogEntry.ofNotice path) ++ [summary path (streamed path)] :=
    funext (fun path => by rw [(modes path).notices,summaryModes (modes path)])
  exact ⟨by rw [report,report,failures],by rw [report,report,entries]⟩

def rawLines (raw : Text → Decoding) (paths : List Text) : List Json :=
  paths.flatMap (fun path => (raw path).events.map Event.toJson)

theorem reportLines (level : Level) (raw : Text → Decoding) (paths : List Text) :
    (report level raw paths).lines = (rawLines raw paths).map Json.compact := by
  simp only [report,rawLines,List.map_flatMap,List.map_map]
  rfl

theorem linesModes (level : Level) (modes : ∀ path, Modes files path (raw path) (streamed path))
    (paths : List Text) :
    (report level streamed paths).lines = (rawLines raw paths).map (fun line => (withoutRaw line).compact) := by
  have compact (path : Text) : (streamed path).events.map Event.line =
      ((raw path).events.map Event.toJson).map (fun line => (withoutRaw line).compact) := by
    have same := congrArg (List.map Json.compact) (modes path).lines
    rw [List.map_map,List.map_map] at same
    rw [List.map_map]
    exact same
  simp only [report,rawLines,List.map_flatMap,compact]

theorem rawLinesTold (modes : ∀ path, Modes files path (raw path) (streamed path)) {paths : List Text} {line : Json}
    (member : line ∈ rawLines raw paths) :
    Spelt (.value line) line.compact ∧ Spelt (.value (withoutRaw line)) (withoutRaw line).compact ∧
      RawLine files paths line := by
  obtain ⟨path,among,told⟩ := List.mem_flatMap.mp member
  obtain ⟨e,inside,rfl⟩ := List.mem_map.mp told
  obtain ⟨whole,reduced⟩ := (modes path).spelt e inside
  exact ⟨whole,reduced,(modes path).source e inside paths among⟩

end

theorem reportWithheld {level : Level} {decoded : Text → Decoding} {fault : Text → Fault}
    (withheld : ∀ path, ∃ accesses, decoded path = ⟨[],some (fault path),[],accesses⟩) {paths : List Text}
    (some : paths ≠ []) :
    report level decoded paths =
      ⟨1,[],logged level (paths.map (fun path => summary path ⟨[],.some (fault path),[],[]⟩))⟩ := by
  have failed (path : Text) : (decoded path).failure = .some (fault path) := by
    obtain ⟨_,is⟩ := withheld path
    rw [is]
  have barren (path : Text) : (decoded path).events = [] ∧ (decoded path).notices = [] := by
    obtain ⟨_,is⟩ := withheld path
    rw [is]
    exact ⟨rfl,rfl⟩
  have entry (path : Text) : summary path (decoded path) = summary path ⟨[],.some (fault path),[],[]⟩ := by
    rw [summary,summary,failed,(barren path).1]
  have any : paths.any (fun path => (decoded path).failure.isSome) = true := by
    obtain ⟨path,member⟩ := List.exists_mem_of_ne_nil paths some
    exact List.any_eq_true.mpr ⟨path,member,by rw [failed]; rfl⟩
  rw [report,any]
  simp only [barren,entry,List.map_nil,List.nil_append,if_true]
  congr 1
  · exact List.flatMap_eq_nil_iff.mpr (fun _ _ => rfl)
  · rw [List.map_eq_flatMap]

/-- In raw mode each line has the raw event, which is what stands at the place of the event in the text of its
file. Streamed by reads of any length above zero, the same files come to the same exit code and log entries and
to the lines of raw mode but for what it adds. Where reads ask for no byte, or for a length below zero, every file
that is streamed fails and gives no line, whatever raw mode makes of it. -/
theorem modesAgree (settings : Settings) (files : Text → FileEntry) (paths : List Text) :
    (∃ lines : List Json,
      (run { settings with rawEvents := true } files paths).lines = lines.map Json.compact ∧
        (∀ line ∈ lines, Spelt (.value line) line.compact ∧
          Spelt (.value (withoutRaw line)) (withoutRaw line).compact ∧ RawLine files paths line) ∧
        ∀ size : ChunkSize, 0 < size.asked →
          (run { settings with rawEvents := true } files paths).exitCode =
              (run { settings with rawEvents := false, chunkSize := size } files paths).exitCode ∧
            (run { settings with rawEvents := true } files paths).entries =
              (run { settings with rawEvents := false, chunkSize := size } files paths).entries ∧
            (run { settings with rawEvents := false, chunkSize := size } files paths).lines =
              lines.map (fun line => (withoutRaw line).compact)) ∧
      ∀ size : ChunkSize, size.asked ≤ 0 → paths ≠ [] →
        run { settings with rawEvents := false, chunkSize := size } files paths =
          ⟨1,[],logged settings.level
            (paths.map (fun path => summary path ⟨[],some (withheld size.asked path (files path)),[],[]⟩))⟩ := by
  refine ⟨?_,fun size none' some => ?_⟩
  · by_cases some : paths = []
    · subst some
      simp only [runNothing]
      exact ⟨[],rfl,List.forall_mem_nil _,fun _ _ => ⟨trivial,trivial,rfl⟩⟩
    · rw [runReport _ files some]
      have modes {size : ChunkSize} (above : 0 < size.asked) := modesOf settings above files
      refine ⟨_,reportLines _ _ paths,fun line member => ?_,fun size above => ?_⟩
      · exact rawLinesTold (@modes ChunkSize.standard (ChunkSize.askedAbove (by decide))) member
      · rw [runReport _ files some]
        obtain ⟨exitCode,entries⟩ := reportModes settings.level (modes above) paths
        exact ⟨exitCode,entries,linesModes settings.level (modes above) paths⟩
  · rw [runReport _ files some]
    exact reportWithheld (fun path => streamedWithheld rfl none' path (files path)) some

/-- Of this chunk size a read asks for no byte: streamed, the log fails that raw mode decodes. -/
theorem wrappedSizeParts :
    let settings : Settings := ⟨.info,1.06,⟨4294967296,by decide⟩,true,Terms.standardField⟩
    let files : Text → FileEntry := fun _ =>
      .content ((Text.of "\x7b\"Records\":[\x7b\x7d]\x7d").map (fun u => UInt8.ofNat u.toNat))
    let raw := run settings files [Text.of "a.json"]
    let streamed := run { settings with rawEvents := false } files [Text.of "a.json"]
    raw.exitCode = 0 ∧ raw.lines.length = 1 ∧ streamed.exitCode = 1 ∧ streamed.lines = [] := by
  decide +kernel

end Command
end AuditLog
