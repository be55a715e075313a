import AuditLog.Proofs.Quotation
import AuditLog.Proofs.Record
import AuditLog.Proofs.Tiling
import AuditLog.Proofs.Tokens

/-! Compact containers. What a container is read back as is a document of the same tokens, with nothing
but separators between them, and reading that document back gives it again. -/
namespace AuditLog
open Reading Grammar

namespace Reader
open Cursor

def colon : Token → Text
  | .field _ => [0x3A]
  | _ => []

def parting (last token : Token) : Text := if last.endsValue && !token.closes then [0x2C] else []

def spelling : Token → Text
  | .field name => Quoted.quote name
  | .scalar (.string value) => Quoted.quote value
  | token => token.text

theorem pieceParts (last token : Token) : piece last token = parting last token ++ (spelling token ++ colon token) := by
  cases token with
  | field name => simp [piece,parting,spelling,colon]
  | scalar scalar => cases scalar <;> simp [piece,parting,spelling,colon]
  | _ => simp [piece,parting,spelling,colon]

def written : (last : Token) → List Token → Text
  | _, [] => []
  | last, token :: ts => piece last token ++ written token ts

theorem keepsWritten {so after : Subtree} {ts : List Token} (keeps : so.Keeps ts after) :
    after.text = so.text ++ written so.previous ts := by
  induction keeps with
  | nil => simp [written]
  | @cons so token ts after inside _ ih => rw [ih,Subtree.textPush,List.append_assoc]; rfl

theorem writtenClosing (last : Token) (ts : List Token) (container : Container) :
    written last (ts ++ [.closing container]) = written last ts ++ (Token.closing container).text := by
  induction ts generalizing last with
  | nil => simp [written,pieceClosing]
  | cons token ts ih => rw [List.cons_append,written,ih,written,List.append_assoc]

theorem compactWritten {j : Json} {container : Container} (first : j.first = .opening container) :
    j.compact = (Token.opening container).text ++ written (.opening container) j.others := by
  obtain ⟨ts,middle,others,keeps,_,whole⟩ := Subtree.keepsInside first
  rw [← whole,keepsWritten keeps,others,writtenClosing,List.append_assoc,Subtree.openedText]
  rfl

end Reader

namespace Grammar

def Bare (_ : Nat) (separator : Option CodeUnit) (gap : Text) : Prop := gap = separator.toList

theorem bareGap (position : Nat) (separator : Option CodeUnit) : Gap position separator separator.toList := by
  cases separator with
  | none => exact .blank (.inl blankNil)
  | some u => exact .separated (w := []) (.inl blankNil) blankNil

theorem dueParts {around : List Container} {last token : Token} {separator : Option CodeUnit}
    (due : Due around (some last) token separator) :
    separator.toList = Reader.colon last ++ Reader.parting last token := by
  have noField (ended : last.endsValue = true) : Reader.colon last = [] := by
    cases last with
    | field name => cases ended
    | _ => rfl
  cases due with
  | entry => rfl
  | value => rfl
  | item ended starts =>
      have opens : token.closes = false := by
        cases token with
        | closing container => cases starts
        | _ => rfl
      simp [noField ended,Reader.parting,ended,opens]
  | member ended => simp [noField ended,Reader.parting,ended,Token.closes]
  | close ended => simp [noField ended,Reader.parting,Token.closes]

theorem openingLexeme (container : Container) : Lexeme (.opening container) (Token.opening container).text := by
  cases container
  · exact .openObject
  · exact .openArray

theorem spellingLexeme {token : Token} {source : Text} (lexeme : Lexeme token source) :
    Lexeme token (Reader.spelling token) := by
  cases lexeme with
  | openObject => exact .openObject
  | openArray => exact .openArray
  | closeObject => exact .closeObject
  | closeArray => exact .closeArray
  | field quotation => exact .field (Quoted.quoteSpells _)
  | string quotation => exact .string (Quoted.quoteSpells _)
  | number number => exact .number number
  | yes => exact .yes
  | no => exact .no
  | null => exact .null

theorem writtenDelimited {last : Token} (ended : last.endsValue = true) (ts : List Token) :
    Delimited (Reader.written last ts) := by
  cases ts with
  | nil => exact nofun
  | cons token ts =>
      rw [Reader.written,Reader.pieceParts]
      intro u rest same
      cases token with
      | closing container =>
          simp only [Reader.parting,Token.closes,Bool.not_true,Bool.and_false,Bool.false_eq_true,if_false,
            List.nil_append] at same
          cases container <;> (cases same; decide)
      | _ =>
          simp only [Reader.parting,ended,Token.closes,Bool.not_false,Bool.and_true,if_true] at same
          cases same
          decide

theorem spellingStops (token : Token) (ts : List Token) :
    Stops token (Reader.colon token ++ Reader.written token ts) := by
  unfold Stops
  split
  · exact writtenDelimited rfl ts
  · trivial

end Grammar

namespace Cursor
open Reader

theorem tightStep {t : Text} {c d : Cursor} {around : List Container} {last token : Token} {place : Nat}
    {ts : List Token} (reaches : Reaches t c around (some last) place)
    (rest : c.input.rest = colon last ++ written last (token :: ts)) (stepped : c.next = (.ok (some token),d)) :
    Tile Bare t around (some last) place token d ∧ d.token = some token ∧
      d.input.rest = colon token ++ written token ts := by
  obtain ⟨_,_,taken⟩ := nextTaken reaches.ready stepped
  obtain ⟨separator,fits,_⟩ := taken.before
  have same : c.input.rest = separator.toList ++ spelling token ++ (colon token ++ written token ts) := by
    rw [rest,dueParts (fitsDue reaches fits),written,pieceParts]
    simp
  obtain ⟨d',stepped',taken',left⟩ := takenNext reaches.ready same fits (bareGap _ separator)
    (spellingLexeme taken.lexeme) (spellingStops token ts)
  rw [stepped] at stepped'
  cases stepped'
  exact ⟨takenTile reaches taken' ⟨separator,fits,rfl⟩,taken'.token,left⟩

theorem colonEnds {c d : Cursor} {last : Token} (ready : c.Ready) (rest : c.input.rest = colon last)
    (stepped : c.next = (.ok none,d)) : c.input.rest = [] := by
  have margin := (nextEnd ready stepped).2
  rw [rest] at margin ⊢
  cases last with
  | field name =>
      rcases margin with blank | ⟨_,w,same,_⟩
      · exact absurd (blank 0x3A (by simp [colon])) (by decide)
      · cases same
  | _ => rfl

end Cursor

namespace Operation
open Cursor Reader

theorem endedTiles {t : Text} (n : Nat) {s : Session} (reaches : Reaches t s.cursor [] none t.length)
    (expecting : s.cursor.expecting = .nothing) (rest : s.cursor.input.rest = []) :
    Tiles Bare t [] none t.length (transcript (List.replicate n .next) s) := by
  induction n generalizing s with
  | zero => exact .nil
  | succ n ih =>
      have margin : Margin s.cursor.input.position s.cursor.input.rest := by rw [rest]; exact .inl blankNil
      obtain ⟨d,stepped⟩ := endNext reaches.ready (.inl expecting) margin
      have ended := nextEnded reaches.ready stepped
      have reaches' := (endedReaches reaches ended).2.2.2
      exact tilesEnded stepped reaches rest (ih reaches' ended.expecting ended.rest)

theorem tightTiles {t : Text} (n : Nat) {s : Session} {d e : Cursor} {around : List Container} {last : Token}
    {place : Nat} {ts : List Token} (reaches : Reaches t s.cursor around (some last) place)
    (rest : s.cursor.input.rest = colon last ++ written last ts) (walk : Walk s.cursor ts d)
    (ended : d.next = (.ok none,e)) :
    Tiles Bare t around (some last) place (transcript (List.replicate n .next) s) := by
  induction n generalizing s around last place ts with
  | zero => exact .nil
  | succ n ih =>
      cases walk with
      | nil =>
          rw [written,List.append_nil] at rest
          have none := colonEnds reaches.ready rest ended
          have last := nextEnded reaches.ready ended
          have reaches' := (endedReaches reaches last).2.2.2
          exact tilesEnded ended reaches none (endedTiles n reaches' last.expecting last.rest)
      | cons stepped others =>
          obtain ⟨tile,shown,left⟩ := tightStep reaches rest stepped
          exact tilesTaken stepped tile shown (ih tile.reaches left others)

theorem compactTiles {j : Json} {container : Container} {cut : List Text} {d e : Cursor}
    (first : j.first = .opening container) (same : cut.flatten = j.compact)
    (walk : Walk (ofSource (.ofChunks cut)) j.tokens d) (ended : d.next = (.ok none,e)) (n : Nat) :
    Tiles Bare j.compact [] none 0 (transcript (List.replicate n .next) (.ofSource (.ofChunks cut))) := by
  cases n with
  | zero => exact .nil
  | succ n =>
      rw [← same]
      rw [j.tokensParts,first] at walk
      have reaches := reachesStart cut
      have fits : Fits .root none (.opening container) none := .root trivial
      have rest : (ofSource (.ofChunks cut)).input.rest =
          [] ++ (Token.opening container).text ++ written (.opening container) j.others :=
        same.trans (compactWritten first)
      obtain ⟨c,stepped,taken,left⟩ := takenNext reaches.ready rest fits (bareGap 0 none)
        (openingLexeme container) trivial
      have tile : Tile Bare _ _ _ _ _ _ := takenTile reaches taken ⟨none,fits,rfl⟩
      cases walk with
      | cons stepped' others =>
          rw [stepped] at stepped'
          cases stepped'
          exact tilesTaken stepped tile taken.token (tightTiles n tile.reaches left others ended)

end Operation

namespace Sighting

theorem ofTokensTold (held : Option Text) (ts : List Token) :
    (ofTokens held ts).map (fun g => (g.kind,g.text)) = ts.map (fun t => (t.label,t.text)) := by
  induction ts generalizing held with
  | nil => rfl
  | cons token ts ih => rw [ofTokens,List.map_cons,List.map_cons,ih]

end Sighting

namespace Reader
open Cursor

theorem drainTold {cut : List Text} {ts : List Token} {d e : Cursor} (walk : Walk (ofSource (.ofChunks cut)) ts d)
    (ended : d.next = (.ok none,e)) :
    (drain.run (.ofSource (.ofChunks cut))).1 = .ok (Sighting.ofTokens none ts) := by
  have stuck (token : Token) (f : Cursor) : d.next ≠ (.ok (some token),f) := fun h => by rw [ended] at h; cases h
  obtain ⟨ts',d',walk',_,out⟩ := drainWalks (s := .ofSource (.ofChunks cut)) [] (readyOfChunks cut)
  rcases out with ⟨e',ended',ran⟩ | ⟨what,e',failed,_⟩
  · obtain ⟨rfl,_⟩ := walkUnique walk walk' stuck (fun token f h => by rw [ended'] at h; cases h)
    exact ran
  · obtain ⟨_,rfl⟩ := walkUnique walk walk' stuck (fun token f h => by rw [failed] at h; cases h)
    rw [ended] at failed
    cases failed

theorem walkLast {c d : Cursor} {ts : List Token} {token : Token} (walk : Walk c (ts ++ [token]) d) :
    d.current = some token := by
  obtain ⟨_,_,last⟩ := walkSplit walk
  cases last with
  | cons stepped rest => cases rest; exact nextCurrent stepped

theorem lexemeOpening {token : Token} {lead rest body : Text} {container : Container} (lexeme : Lexeme token lead)
    (starts : StartsValue token) (same : lead ++ rest = (Token.opening container).text ++ body) :
    token = .opening container ∧ rest = body := by
  cases lexeme with
  | openObject => cases container <;> cases same; exact ⟨rfl,rfl⟩
  | openArray => cases container <;> cases same; exact ⟨rfl,rfl⟩
  | closeObject => cases starts
  | closeArray => cases starts
  | field quotation => cases starts
  | string quotation => cases quotation; cases container <;> cases same
  | number number =>
      cases lead with
      | nil => exact absurd number Lexer.numberNotNil
      | cons u s =>
          obtain ⟨leads,_⟩ := Lexer.numberCons.mp number
          cases container <;> (cases same; exact absurd leads (by decide))
  | yes => cases container <;> cases same
  | no => cases container <;> cases same
  | null => cases container <;> cases same

theorem containerWalk {s : Session} {container : Container} {j : Json} {body more : Text}
    (settled : s.cursor.Settled) (stands : s.cursor.current = some (.opening container))
    (spelt : Spelt (.value j) ((Token.opening container).text ++ body)) (rest : s.cursor.input.rest = body ++ more) :
    j.first = .opening container ∧ ∃ d, Walk s.cursor j.others d ∧ d.input.rest = more ∧
      d.current = some (.closing container) ∧ s.cursor.nesting = container :: d.nesting := by
  obtain ⟨lead,behind,same,lexeme,_,goes⟩ := speltWalkable spelt
  obtain ⟨first,rfl⟩ := lexemeOpening lexeme j.firstStarts same.symm
  have on := settledOn settled stands
  obtain ⟨d,walk,beyond,left,_⟩ := goes s.cursor _ more (first ▸ on) rest
  refine ⟨first,d,walk,left,?_,?_⟩
  · obtain ⟨ts,_,others,_⟩ := Subtree.keepsInside first
    rw [others] at walk
    exact walkLast walk
  · rw [beyond.nesting,on.nesting]; rfl

theorem compactWalk {j : Json} (numeric : Numeric j.tokens) {cut : List Text} (same : cut.flatten = j.compact) :
    ∃ d e, Walk (ofSource (.ofChunks cut)) j.tokens d ∧ d.next = (.ok none,e) := by
  have document := Document.value (.inl rfl) blankNil (Json.compactSpelt j numeric) blankNil
  rw [List.append_nil,List.nil_append,List.nil_append,← same] at document
  exact documentWalk document

theorem compactReread {j : Json} {container : Container} {cut : List Text} {d : Cursor}
    (first : j.first = .opening container) (walk : Walk (ofSource (.ofChunks cut)) j.tokens d) :
    (subtree.run (Operation.after [.next] (.ofSource (.ofChunks cut)))).1 = .ok j.compact := by
  rw [j.tokensParts,first] at walk
  cases walk with
  | cons stepped others =>
      have after := (Operation.nextRan (s := .ofSource (.ofChunks cut)) stepped).2
      simp only [Operation.after,after]
      rw [subtreeRead (s := ⟨_,_⟩) first (nextCurrent stepped) others]

/-- A container is read back as a text without anything but separators between its tokens. Read as a
document of its own, however it is cut, that text has the tokens of the container in order, each of
the same kind and text, and as a container it is read back unchanged. The reader is left on the token
that closes the container. -/
theorem containerReadCanonically (chunks : List Text) (ops : List Operation) (s : Session)
    (reached : s = Operation.after ops (.ofSource (.ofChunks chunks))) (container : Container)
    (stands : s.cursor.current = some (.opening container)) (j : Json) (body more : Text)
    (spelt : Spelt (.value j) ((Token.opening container).text ++ body)) (rest : s.cursor.input.rest = body ++ more) :
    ∃ out s' ts, subtree.run s = (.ok out,s') ∧
      (j.tokens = .opening container :: ts ∧ Walk s.cursor ts s'.cursor ∧ s'.cursor.input.rest = more ∧
        s'.cursor.current = some (.closing container) ∧ s.cursor.nesting = container :: s'.cursor.nesting) ∧
      ∀ cut : List Text, cut.flatten = out →
        (∃ seen, (drain.run (.ofSource (.ofChunks cut))).1 = .ok seen ∧
          seen.map (fun g => (g.kind,g.text)) = j.tokens.map (fun t => (t.label,t.text))) ∧
        (∀ n, Tiles Bare out [] none 0
          (Operation.transcript (List.replicate n .next) (.ofSource (.ofChunks cut)))) ∧
        (subtree.run (Operation.after [.next] (.ofSource (.ofChunks cut)))).1 = .ok out := by
  subst reached
  obtain ⟨first,d,walk,left,closing,nesting⟩ := containerWalk (Session.settledAfter chunks ops) stands spelt rest
  have tokens : j.tokens = .opening container :: j.others := by rw [j.tokensParts,first]
  refine ⟨j.compact,_,j.others,subtreeRead first stands walk,⟨tokens,walk,left,closing,nesting⟩,?_⟩
  intro cut same
  obtain ⟨e,f,walk',ended⟩ := compactWalk (speltNumeric spelt) same
  have told := drainTold walk' ended
  exact ⟨⟨_,told,Sighting.ofTokensTold none j.tokens⟩,Operation.compactTiles first same walk' ended,
    compactReread first walk'⟩

theorem nestedListsReadCanonically :
    ∃ out s', subtree.run (Operation.after [.next,.next]
        (.ofSource (.ofChunks [Text.of "[ [ 0",Text.of " ,\t[]] ]"]))) = (.ok out,s') ∧
      (subtree.run (Operation.after [.next] (.ofSource (.ofChunks [out])))).1 = .ok out := by
  have spelt : Spelt (.value (.array [.number [0x30],.array []])) (0x5B :: Text.of " 0 ,\t[]]") := by
    have zero := Spelt.number (.positive .zero .none .none)
    have space : Blank [0x20] := blankCons.mpr ⟨by decide,blankNil⟩
    have tab : Blank [0x09] := blankCons.mpr ⟨by decide,blankNil⟩
    have whole := Spelt.array space zero (.item space tab (.emptyArray blankNil) (.noItem blankNil))
    exact whole
  obtain ⟨out,s',_,ran,_,reread⟩ := containerReadCanonically [Text.of "[ [ 0",Text.of " ,\t[]] ]"]
    [.next,.next] _ rfl .array (by decide) _ _ (Text.of " ]") spelt (by decide)
  exact ⟨out,s',ran,(reread [out] (List.append_nil out)).2.2⟩

end Reader
end AuditLog
