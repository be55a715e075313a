import AuditLog.Proofs.Climb

/-! The tokens of a document. A cursor that is moved on to the end tells every token of the one value
of the document, in order and under the names it stands under; on a text that is no document it
stops with a syntax fault. -/
namespace AuditLog

structure Sighting where
  kind : Text
  text : Text
  name : Option Text
  deriving DecidableEq, Repr

def Cursor.sighting (c : Cursor) : Sighting := ⟨tokenLabel c.current,c.text,c.name⟩

namespace Json

/-! A tree as it is come upon. A name is told with its field and with the token after it. -/

mutual
def sightings (under : Option Text) : Json → List Sighting
  | .null => [⟨Text.of "VALUE_NULL",Text.of "null",under⟩]
  | .flag true => [⟨Text.of "VALUE_TRUE",Text.of "true",under⟩]
  | .flag false => [⟨Text.of "VALUE_FALSE",Text.of "false",under⟩]
  | .number spelling => [⟨Text.of "VALUE_NUMBER",spelling,under⟩]
  | .string value => [⟨Text.of "VALUE_STRING",value,under⟩]
  | .array items =>
      ⟨Text.of "START_ARRAY",Text.of "[",under⟩ ::
        (itemSightings items ++ [⟨Text.of "END_ARRAY",Text.of "]",none⟩])
  | .object members =>
      ⟨Text.of "START_OBJECT",[0x7B],under⟩ ::
        (memberSightings members ++ [⟨Text.of "END_OBJECT",[0x7D],none⟩])

def itemSightings : List Json → List Sighting
  | [] => []
  | item :: rest => sightings none item ++ itemSightings rest

def memberSightings : List (Text × Json) → List Sighting
  | [] => []
  | (name,value) :: rest =>
      ⟨Text.of "FIELD_NAME",name,some name⟩ :: (sightings (some name) value ++ memberSightings rest)
end

end Json

def Sighting.ofDocument : Option Json → List Sighting
  | none => []
  | some j => j.sightings none

namespace Reader
open Reading

def drainStep (seen : List Sighting) (_ : Token) : Reader (List Sighting ⊕ List Sighting) := do
  let s ← state
  pure (.inl (seen ++ [s.cursor.sighting]))

def drain : Reader (List Sighting) := loop drainStep (fun seen => pure seen) []

end Reader

namespace Sighting

def heldBy : Token → Option Text
  | .field name => some name
  | _ => none

def ofTokens (held : Option Text) : List Token → List Sighting
  | [] => []
  | token :: ts => ⟨token.label,token.text,(heldBy token).or held⟩ :: ofTokens (heldBy token) ts

mutual
theorem ofValue (held : Option Text) (ts : List Token) : (j : Json) →
    ofTokens held (j.tokens ++ ts) = j.sightings held ++ ofTokens none ts
  | .null => rfl
  | .flag true => rfl
  | .flag false => rfl
  | .number _ => rfl
  | .string _ => rfl
  | .array items => by
      have inside := ofItems (.closing .array :: ts) items
      simp only [Json.tokens,Json.sightings,List.cons_append,List.append_assoc,ofTokens]
      exact congrArg (List.cons _) inside
  | .object members => by
      have inside := ofMembers (.closing .object :: ts) members
      simp only [Json.tokens,Json.sightings,List.cons_append,List.append_assoc,ofTokens]
      exact congrArg (List.cons _) inside

theorem ofItems (ts : List Token) : (items : List Json) →
    ofTokens none (Json.itemTokens items ++ ts) = Json.itemSightings items ++ ofTokens none ts
  | [] => rfl
  | item :: rest => by
      rw [Json.itemTokens,Json.itemSightings,List.append_assoc,List.append_assoc,ofValue none _ item,ofItems ts rest]

theorem ofMembers (ts : List Token) : (members : List (Text × Json)) →
    ofTokens none (Json.memberTokens members ++ ts) = Json.memberSightings members ++ ofTokens none ts
  | [] => rfl
  | (name,value) :: rest => by
      simp only [Json.memberTokens,Json.memberSightings,List.cons_append,List.append_assoc,ofTokens]
      rw [heldBy,ofValue (some name) _ value,ofMembers ts rest]; rfl
end

end Sighting

namespace Cursor
open Grammar

def held (c : Cursor) : Option Text := c.token.bind Sighting.heldBy

theorem takenSighting {c d : Cursor} {gap source : Text} {token : Token} (taken : Taken c gap token source d) :
    d.sighting = ⟨token.label,token.text,(Sighting.heldBy token).or c.held⟩ ∧ d.held = Sighting.heldBy token := by
  constructor
  · have name : nameAfter c.token (some token) = (Sighting.heldBy token).or c.held := by
      unfold held
      cases token <;> cases was : c.token with
      | none => rfl
      | some last => cases last <;> rfl
    simp only [sighting,current,text,taken.ready.opened,taken.token,taken.name,name]
    rfl
  · simp only [held,taken.token]; rfl

end Cursor

namespace Reader
open Reading Cursor

theorem drainWalks {s : Session} (seen : List Sighting) (ready : s.cursor.Ready) :
    ∃ ts d, Walk s.cursor ts d ∧ d.Ready ∧
      ((∃ e, d.next = (.ok none,e) ∧
          (loopFrom drainStep (fun seen => pure seen) seen s).1 =
            .ok (seen ++ Sighting.ofTokens s.cursor.held ts)) ∨
        ∃ what e, d.next = (.error (.malformed what),e) ∧
          (loopFrom drainStep (fun seen => pure seen) seen s).1 = .error (.malformed what)) := by
  induction size : s.unread using Nat.strongRecOn generalizing s seen with
  | _ size ih =>
      subst size
      rw [loopUnfold]
      cases stepped : s.cursor.next with
      | mk result d =>
          have read := nextRun stepped
          rw [read]
          cases result with
          | error fault =>
              obtain ⟨what,rfl,_⟩ := nextFault ready stepped
              exact ⟨[],s.cursor,.nil,ready,.inr ⟨what,d,stepped,rfl⟩⟩
          | ok token =>
              cases token with
              | none => exact ⟨[],s.cursor,.nil,ready,.inl ⟨d,stepped,by simp [Sighting.ofTokens,runPure]⟩⟩
              | some token =>
                  obtain ⟨gap,source,taken⟩ := nextTaken ready stepped
                  obtain ⟨sighted,held⟩ := takenSighting taken
                  have shorter := nextTakes read
                  obtain ⟨ts,e,walk,ready',out⟩ := ih _ shorter (seen ++ [d.sighting]) taken.ready rfl
                  refine ⟨token :: ts,e,.cons stepped walk,ready',?_⟩
                  rcases out with ⟨f,ended,ran⟩ | ⟨what,f,failed,ran⟩
                  · refine .inl ⟨f,ended,ran.trans ?_⟩
                    simp only [held,sighted,Sighting.ofTokens,List.append_assoc,List.singleton_append]
                  · exact .inr ⟨what,f,failed,ran⟩

end Reader

namespace Cursor
open Grammar

theorem walkUnique {c d e : Cursor} {ts ts' : List Token} (walk : Walk c ts d) (walk' : Walk c ts' e)
    (last : ∀ token f, d.next ≠ (.ok (some token),f)) (last' : ∀ token f, e.next ≠ (.ok (some token),f)) :
    ts = ts' ∧ d = e := by
  induction walk generalizing ts' with
  | nil =>
      cases walk' with
      | nil => exact ⟨rfl,rfl⟩
      | cons stepped _ => exact absurd stepped (last _ _)
  | cons stepped _ ih =>
      cases walk' with
      | nil => exact absurd stepped (last' _ _)
      | cons stepped' rest' =>
          rw [stepped] at stepped'
          cases stepped'
          obtain ⟨rfl,rfl⟩ := ih rest' last
          exact ⟨rfl,rfl⟩

def Nested (c : Cursor) : Prop := c.expecting = .nothing ∨ c.expecting = .root ∨ 0 < c.nesting.length

theorem takenNested {c d : Cursor} {gap source : Text} {token : Token} (taken : Taken c gap token source d)
    (nested : Nested c) : Nested d := by
  have behind (expecting : d.expecting = if d.nesting.isEmpty then .nothing else .commaOrEnd) : Nested d := by
    cases same : d.nesting with
    | nil => exact .inl (by rw [expecting,same]; rfl)
    | cons _ _ => exact .inr (.inr (by rw [same]; exact Nat.succ_pos _))
  have expecting := taken.expecting
  cases token with
  | opening container => exact .inr (.inr (by rw [taken.nesting]; exact Nat.succ_pos _))
  | closing container => exact behind expecting
  | scalar scalar => exact behind expecting
  | field name =>
      have same : d.nesting = c.nesting := taken.nesting
      obtain ⟨separator,fits,_⟩ := taken.before
      refine .inr (.inr ?_)
      rw [same]
      rcases nested with beyond | first | deep
      · rw [beyond] at fits; cases fits
      · rw [first] at fits; cases fits with | root starts => cases starts
      · exact deep

theorem onNotRoot {c : Cursor} {last : Token} {around : List Container} (on : On c last around) :
    c.expecting ≠ .root := by
  intro first
  have expecting := on.expecting.symm.trans first
  cases last with
  | opening container => cases container <;> cases expecting
  | field name => cases expecting
  | closing container => simp only [expectingAfter] at expecting; split at expecting <;> cases expecting
  | scalar scalar => simp only [expectingAfter] at expecting; split at expecting <;> cases expecting

theorem onNothing {c : Cursor} {last : Token} {around : List Container} (on : On c last around)
    (beyond : c.expecting = .nothing) : Over c [] := by
  have outside : c.nesting = [] := by
    have expecting := on.expecting.symm.trans beyond
    cases last with
    | opening container => cases container <;> cases expecting
    | field name => cases expecting
    | closing container =>
        simp only [expectingAfter] at expecting
        split at expecting
        · rename_i empty; exact List.isEmpty_iff.mp empty
        · cases expecting
    | scalar scalar =>
        simp only [expectingAfter] at expecting
        split at expecting
        · rename_i empty; exact List.isEmpty_iff.mp empty
        · cases expecting
  exact ⟨on.ready,outside,beyond⟩

theorem walkClimbs {c d e : Cursor} {ts : List Token} {last : Token} {around : List Container}
    (walk : Walk c ts d) (on : On c last around) (nested : Nested c) (ended : d.next = (.ok none,e)) :
    Climb [] c ts d := by
  induction walk generalizing last around with
  | nil =>
      rcases (nextEnd on.ready ended).1 with beyond | first
      · exact .stop (onNothing on beyond)
      · exact absurd first (onNotRoot on)
  | cons stepped _ ih =>
      obtain ⟨gap,source,taken⟩ := nextTaken on.ready stepped
      obtain ⟨separator,fits,_⟩ := taken.before
      refine .step ?_ stepped (ih (takenOn taken) (takenNested taken nested) ended)
      rcases nested with beyond | first | deep
      · rw [beyond] at fits; cases fits
      · exact absurd first (onNotRoot on)
      · exact deep

theorem walkDocument {chunks : List Text} {ts : List Token} {d e : Cursor}
    (walk : Walk (ofSource (.ofChunks chunks)) ts d) (ended : d.next = (.ok none,e)) :
    ∃ doc, Document doc chunks.flatten ∧ ts = (doc.map Json.tokens).getD [] := by
  have ready := readyOfChunks chunks
  cases walk with
  | nil =>
      obtain ⟨b,w,same,mark,blank⟩ := marginMark.mp (nextEnd ready ended).2
      have document := Document.empty mark blank
      rw [← same] at document
      exact ⟨none,document,rfl⟩
  | @cons _ c _ token ts stepped walk =>
      obtain ⟨gap,lead,taken⟩ := nextTaken ready stepped
      obtain ⟨separator,fits,before⟩ := taken.before
      cases fits with
      | root starts =>
          cases before with
          | blank margin =>
              obtain ⟨b,w,rfl,mark,blank⟩ := marginMark.mp margin
              have climb := walkClimbs walk (takenOn taken) (takenNested taken (.inr (.inl rfl))) ended
              obtain ⟨j,r,rfl,rfl,spelt,rest,_⟩ :=
                climbValue climb starts (takenOn taken) (takenPositive taken) taken.lexeme
              have past := walkPast walk taken.ready (takenPast taken)
              have beyond := climbOver climb
              have behind := marginInside (nextEnd beyond.ready ended).2 past.inside
              refine ⟨some j,?_,j.tokensParts.symm⟩
              have all : chunks.flatten = b ++ w ++ lead ++ c.input.rest := taken.rest
              have same : chunks.flatten = b ++ w ++ (lead ++ r) ++ d.input.rest := by
                rw [all,rest]; simp
              rw [same]
              exact .value mark blank spelt behind

theorem blankDelimited {w : Text} (blank : Blank w) : Delimited w := by
  intro u rest same
  subst same
  have space := (blankCons.mp blank).1
  simp only [spaces,List.mem_cons,List.not_mem_nil,or_false] at space
  rcases space with rfl | rfl | rfl | rfl <;> decide

theorem documentWalk {chunks : List Text} {doc : Option Json} (document : Document doc chunks.flatten) :
    ∃ d e, Walk (ofSource (.ofChunks chunks)) ((doc.map Json.tokens).getD []) d ∧ d.next = (.ok none,e) := by
  have ready := readyOfChunks chunks
  generalize same : chunks.flatten = t at document
  have all : (ofSource (.ofChunks chunks)).input.rest = t := same
  cases document with
  | empty mark blank =>
      have margin := marginMark.mpr ⟨_,_,all,mark,blank⟩
      obtain ⟨e,ended⟩ := endNext ready (.inr rfl) margin
      exact ⟨_,e,.nil,ended⟩
  | @value b w j s w' mark before value behind =>
      have margin := marginMark.mpr ⟨b,w,rfl,mark,before⟩
      obtain ⟨d,walk,beyond,rest,_⟩ := valueArrives w' (speltWalkable value) ready all (.root j.firstStarts)
        (.blank margin) (stopsDelimited (blankDelimited behind))
      obtain ⟨e,ended⟩ := endNext beyond.ready (.inl beyond.expecting) (.inl (by rw [rest]; exact behind))
      exact ⟨d,e,walk,ended⟩

end Cursor

namespace Reader
open Cursor Grammar

theorem sightingsOfDocument (doc : Option Json) :
    Sighting.ofTokens none ((doc.map Json.tokens).getD []) = Sighting.ofDocument doc := by
  cases doc with
  | none => rfl
  | some j =>
      have told := Sighting.ofValue none [] j
      rw [List.append_nil] at told
      exact told.trans (List.append_nil _)

/-- The end of the tokens is reached exactly on documents, and what is told on the way is the value
of the document in order; on every other text a step fails, and what it objects to is the syntax. -/
theorem drainsDocuments (chunks : List Text) :
    (∀ seen, (drain.run (.ofSource (.ofChunks chunks))).1 = .ok seen ↔
        ∃ doc, Document doc chunks.flatten ∧ seen = Sighting.ofDocument doc) ∧
      ((¬ ∃ doc, Document doc chunks.flatten) →
        ∃ what, (drain.run (.ofSource (.ofChunks chunks))).1 = .error (.malformed what)) := by
  have opened : (Session.ofSource (.ofChunks chunks)).cursor.Ready := readyOfChunks chunks
  obtain ⟨ts,d,walk,ready,out⟩ := drainWalks [] opened
  have meets {doc : Option Json} (document : Document doc chunks.flatten)
      (stuck : ∀ token f, d.next ≠ (.ok (some token),f)) :
      ts = (doc.map Json.tokens).getD [] ∧ ∃ e, d.next = (.ok none,e) := by
    obtain ⟨d',e,walk',ended⟩ := documentWalk document
    obtain ⟨same,rfl⟩ := walkUnique walk walk' stuck (fun token f h => by rw [ended] at h; cases h)
    exact ⟨same,e,ended⟩
  rcases out with ⟨e,ended,ran⟩ | ⟨what,e,failed,ran⟩
  · have stuck (token : Token) (f : Cursor) : d.next ≠ (.ok (some token),f) := fun h => by rw [ended] at h; cases h
    obtain ⟨doc,document,same⟩ := walkDocument walk ended
    have told : (drain.run (.ofSource (.ofChunks chunks))).1 = .ok (Sighting.ofDocument doc) := by
      rw [← sightingsOfDocument,← same]; exact ran
    refine ⟨fun seen => ⟨fun h => ⟨doc,document,?_⟩,?_⟩,fun none => absurd ⟨doc,document⟩ none⟩
    · rw [told] at h
      cases h; rfl
    · intro found
      obtain ⟨doc',document',rfl⟩ := found
      rw [← sightingsOfDocument,← (meets document' stuck).1,same,sightingsOfDocument]
      exact told
  · have stuck (token : Token) (f : Cursor) : d.next ≠ (.ok (some token),f) := fun h => by rw [failed] at h; cases h
    have broken : (drain.run (.ofSource (.ofChunks chunks))).1 = .error (.malformed what) := ran
    refine ⟨fun seen => ⟨fun h => ?_,?_⟩,fun _ => ⟨what,broken⟩⟩
    · rw [broken] at h; cases h
    · intro found
      obtain ⟨doc,document,_⟩ := found
      obtain ⟨_,e',ended⟩ := meets document stuck
      rw [failed] at ended; cases ended

end Reader
end AuditLog
