import AuditLog.ChunkSize
import AuditLog.Utf8

/-! Suppliers of text, one chunk a read. A file is read in pieces of bytes, and the bytes of an
unfinished character wait for the next piece; a directory opens but cannot be read. A buffer of any
size is there for the asking, but a read of no length finds nothing, whatever is left, and a length
below zero is refused. Chunks may be empty. The history lets a reader account for every read and
every release. -/
namespace AuditLog

inductive FileFlaw where
  | missing (path : Text)
  | directory
  | length (asked : Int)
  deriving DecidableEq, Repr

namespace FileFlaw

def code : FileFlaw → Text
  | .missing _ => Text.of "ENOENT"
  | .directory => Text.of "EISDIR"
  | .length _ => Text.of "ERR_OUT_OF_RANGE"

def message : FileFlaw → Text
  | .missing path => Text.of "ENOENT: no such file or directory, open '" ++ path ++ Text.of "'"
  | .directory => Text.of "EISDIR: illegal operation on a directory, read"
  | .length asked => Text.of "The value of \"length\" is out of range. It must be >= 0. Received " ++
      (if asked < 0 then [0x2D] else []) ++ Text.ofNat asked.natAbs

end FileFlaw

inductive FileEntry where
  | missing
  | directory
  | content (bytes : Utf8.Bytes)
  deriving DecidableEq, Repr

inductive Access where
  | read
  | close
  deriving DecidableEq, Repr

/-- `broken` is what reads report once the chunks are used up; `history` has the latest first. -/
structure Source where
  pending : List Text
  broken : Option FileFlaw
  history : List Access
  deriving DecidableEq, Repr

namespace Source

def ofChunks (chunks : List Text) : Source := ⟨chunks,none,[]⟩

def ofText (size : ChunkSize) (t : Text) : Source := ofChunks (size.cut t)

def assemble : (kept : Utf8.Bytes) → List Utf8.Bytes → List Text
  | kept, [] => if kept.isEmpty then [] else [Utf8.decode kept]
  | kept, piece :: rest =>
      let joined := kept ++ piece
      let t := Utf8.decode (Utf8.complete joined)
      if t.isEmpty then assemble (Utf8.held joined) rest
      else t :: assemble (Utf8.held joined) rest

/-- Only reads of a length above zero get to what is served. -/
def asking (length : Int) (served : ChunkSize → Source) : Source :=
  match length with
  | .ofNat (n + 1) => served ⟨n + 1,Nat.succ_pos n⟩
  | .ofNat 0 => ofChunks []
  | .negSucc n => ⟨[],some (.length (.negSucc n)),[]⟩

def ofBytes (size : ChunkSize) (bytes : Utf8.Bytes) : Source :=
  asking size.asked (fun length => ofChunks (assemble [] (length.cut bytes)))

def ofFile (size : ChunkSize) (path : Text) : FileEntry → Except FileFlaw Source
  | .missing => .error (.missing path)
  | .directory => .ok (asking size.asked (fun _ => ⟨[],some .directory,[]⟩))
  | .content bytes => .ok (ofBytes size bytes)

def read (s : Source) : Except FileFlaw (Option Text) × Source :=
  match s.pending, s.broken with
  | chunk :: rest, _ => (.ok (some chunk),⟨rest,s.broken,.read :: s.history⟩)
  | [], some flaw => (.error flaw,⟨[],s.broken,.read :: s.history⟩)
  | [], none => (.ok none,⟨[],none,.read :: s.history⟩)

def close (s : Source) : Source := ⟨[],none,.close :: s.history⟩

def closes (s : Source) : Nat := s.history.count .close

section
variable {length : Int} (served : ChunkSize → Source)

theorem askingAbove (above : 0 < length) : ∃ size, asking length served = served size := by
  match length,above with
  | .ofNat (_ + 1),_ => exact ⟨_,rfl⟩

theorem askingBare (none' : length ≤ 0) :
    asking length served = ⟨[],if length < 0 then some (.length length) else none,[]⟩ := by
  match length,none' with
  | .ofNat 0,_ => rfl
  | .negSucc n,_ => rw [if_pos (Int.negSucc_lt_zero n)]; rfl

theorem askingFresh {served : ChunkSize → Source} (fresh : ∀ size, (served size).history = []) :
    (asking length served).history = [] := by
  match length with
  | .ofNat (_ + 1) => exact fresh _
  | .ofNat 0 => rfl
  | .negSucc _ => rfl

end

theorem ofFileFresh {size : ChunkSize} {path : Text} {entry : FileEntry} {source : Source}
    (opened : ofFile size path entry = .ok source) : source.history = [] := by
  cases entry with
  | missing => cases opened
  | directory => cases opened; exact askingFresh (fun _ => rfl)
  | content bytes => cases opened; exact askingFresh (fun _ => rfl)

theorem ofTextWhole (size : ChunkSize) (t : Text) : (ofText size t).pending.flatten = t :=
  size.cutFlatten t

end Source
end AuditLog
