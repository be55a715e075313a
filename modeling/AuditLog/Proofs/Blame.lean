import AuditLog.Proofs.Containment
import AuditLog.Proofs.Flaws
import AuditLog.Proofs.Harvest
import AuditLog.Proofs.Lookahead
import AuditLog.Proofs.Refusals

/-! Rules blame the value that they refuse. Where a rule fails, either the text is malformed there or the fault tells
of the first value that the rule cannot take, with the place at which that value begins. -/
namespace AuditLog
open Reading Reader Grammar

def Input.extent (i : Input) : Nat := i.position + i.rest.length

theorem Input.aheadExtent {i j : Input} (ahead : i.Ahead j) : j.extent = i.extent := by
  obtain ⟨taken,rest,position⟩ := ahead
  rw [extent,extent,rest,position,List.length_append,Nat.add_assoc]

def Fault.BreaksBy (extent : Nat) (fault : Fault) : Prop := ∃ what, fault = .malformed what ∧ what.offset ≤ extent

theorem Fault.breaksBehind {place : Nat} {front rest : Text} {fault : Fault}
    (breaks : fault.BreaksBy (place + front.length + rest.length)) :
    fault.BreaksBy (place + (front ++ rest).length) := by
  rwa [List.length_append,← Nat.add_assoc]

namespace Cursor

theorem nextBounded {c d : Cursor} {fault : Fault} (ready : c.Ready) (stepped : c.next = (.error fault,d)) :
    fault.BreaksBy c.input.extent := by
  obtain ⟨what,rfl,_⟩ := nextFault ready stepped
  refine ⟨what,rfl,?_⟩
  have within {g more : Text} (whole : c.input.rest = g ++ more) : c.input.position + g.length ≤ c.input.extent := by
    rw [Input.extent,whole,List.length_append]
    omega
  cases nextBlames ready stepped with
  | met whole _ _ => exact within whole
  | begun whole _ _ => exact within whole

theorem fitsOther {expecting : Lexer.Expecting} {inside : Option Container} {token token' : Token}
    {separator : Option CodeUnit} (fits : Fits expecting inside token separator) (starts : StartsValue token)
    (starts' : StartsValue token') : Fits expecting inside token' separator := by
  cases fits with
  | root => exact .root starts'
  | firstItem => exact .firstItem starts'
  | value => exact .value starts'
  | item => exact .item starts'
  | loose => exact .loose starts'
  | _ => cases starts

theorem takenLongest {c d : Cursor} {gap source : Text} {token : Token} (ready : c.Ready)
    (stepped : c.next = (.ok (some token),d)) (taken : Taken c gap token source d) :
    Longest token source d.input.rest := by
  cases token with
  | scalar scalar =>
      cases scalar with
      | number t =>
          intro u left e met number
          obtain ⟨front,rest,_,near⟩ := nextNear ready stepped
          have same : gap ++ source = front := List.append_cancel_right (taken.rest.symm.trans rest)
          subst same
          let c' : Cursor := { c with input := ⟨gap ++ (source ++ u :: e),c.input.position,⟨[],none,[]⟩,true⟩ }
          have ready' : c'.Ready := ⟨ready.opened,rfl,fun _ => rfl⟩
          have rest' : c'.input.rest = gap ++ (source ++ u :: e) ++ [] := rfl
          obtain ⟨_,stepped',_⟩ := near c' (u :: e) ⟨ready,ready',rfl,rfl,rfl,rfl⟩ (by rw [rest']; simp)
            (by rw [met]; rfl)
          obtain ⟨separator,fits,before⟩ := taken.before
          have fits' : Fits c.expecting c.nesting.head? (.scalar (.number (source ++ u :: e))) separator :=
            fitsOther fits trivial trivial
          obtain ⟨_,longer,_⟩ := takenNext ready' rest' fits' before (.number number) (stopsDelimited nofun)
          rw [stepped'] at longer
          have lexeme := taken.lexeme
          cases longer
          generalize same : source ++ u :: e = t at lexeme
          cases lexeme
          have length := congrArg List.length same
          simp at length
      | _ => trivial
  | _ => trivial

structure AtValue (c : Cursor) (token : Token) (lead : Text) (around : List Container) : Prop where
  starts : StartsValue token
  on : On c token around
  past : Past c
  told : c.token = some token
  lexeme : Lexeme token lead
  longest : Longest token lead c.input.rest
  place : c.input.position = c.start + lead.length

theorem valueCurrent {c : Cursor} {token : Token} {lead : Text} {around : List Container}
    (value : AtValue c token lead around) : c.current = some token :=
  (currentOpen value.on.ready.opened).trans value.told

theorem valueBegins {c : Cursor} {token : Token} {lead : Text} {around : List Container}
    (value : AtValue c token lead around) : Begins (lead ++ c.input.rest) token :=
  .mk value.lexeme value.starts value.longest

theorem valueExtent {c : Cursor} {token : Token} {lead : Text} {around : List Container}
    (value : AtValue c token lead around) : c.input.extent = c.start + (lead ++ c.input.rest).length := by
  rw [Input.extent,value.place,List.length_append,Nat.add_assoc]

theorem takenValue {c d : Cursor} {token : Token} (ready : c.Ready) (stepped : c.next = (.ok (some token),d))
    (starts : StartsValue token) :
    ∃ gap lead, Taken c gap token lead d ∧ AtValue d token lead c.nesting ∧ d.name = c.held := by
  obtain ⟨gap,lead,taken⟩ := nextTaken ready stepped
  refine ⟨gap,lead,taken,⟨starts,takenOn taken,takenPast taken,taken.token,taken.lexeme,?_,?_⟩,?_⟩
  · exact takenLongest ready stepped taken
  · rw [taken.position,taken.stop]
  · rw [taken.name,held]
    cases token with
    | field name => cases starts
    | _ => cases c.token with
      | none => rfl
      | some last => cases last <;> rfl

def Stated (c : Cursor) : Prop := c.expecting = expectingAfter c.nesting c.token

theorem walkStated {c d : Cursor} {ts : List Token} (walk : Walk c ts d) (ready : c.Ready) (stated : c.Stated) :
    d.Stated := by
  induction walk with
  | nil => exact stated
  | cons stepped _ ih =>
      obtain ⟨gap,source,taken⟩ := nextTaken ready stepped
      refine ih taken.ready ?_
      rw [Stated,taken.token]
      exact taken.expecting

theorem overHeld {c : Cursor} {around : List Container} (beyond : Over c around) (stated : c.Stated) :
    c.held = none := by
  have state := stated.symm.trans beyond.expecting
  rw [held]
  cases same : c.token with
  | none => rfl
  | some token =>
      cases token with
      | field name =>
          rw [same] at state
          simp only [expectingAfter] at state
          split at state <;> cases state
      | _ => rfl

end Cursor

namespace Rule
open Cursor

theorem readTold {rule : Rule} {token : Token} {lead : Text} {around : List Container} {s s' : Session} {v : Value}
    (value : AtValue s.cursor token lead around) (ran : (rule.read (some token)).run s = (.ok v,s')) :
    ∃ j r, Spelt (.value j) (lead ++ r) ∧ (rule.decode? j).isSome = true ∧
      s.cursor.input.rest = r ++ s'.cursor.input.rest ∧
      s'.cursor.input.position = s.cursor.input.position + r.length ∧ Over s'.cursor around ∧ Past s'.cursor ∧
      s'.cursor.held = none := by
  obtain ⟨ts,climb⟩ := rule.readWhole token around v s s' ran (valueCurrent value) value.starts value.on
  obtain ⟨j,r,rfl,rfl,spelt,rest,position⟩ := climbValue climb value.starts value.on value.past.inside value.lexeme
  have walk := climbWalk climb
  have beyond := climbOver climb
  have stated : s.cursor.Stated := by rw [Stated,value.told]; exact value.on.expecting
  have answers := rule.readAnswers j s s'.cursor (valueCurrent value) walk
  have decoded := (answers.iff v).mp (by rw [ran])
  exact ⟨j,r,spelt,by rw [decoded]; rfl,rest,position,beyond,walkPast walk value.on.ready value.past,
    overHeld beyond (walkStated walk value.on.ready stated)⟩

end Rule

namespace Cursor

def Awaiting (container : Container) (c : Cursor) (lead : Text) (around : List Container) : Prop :=
  lead = [] ∧ On c (.opening container) around ∨ lead = [0x2C] ∧ Over c (container :: around)

structure Amid (container : Container) (entry : Text → Prop) (around : List Container) (place : Nat) (t : Text)
    (c : Cursor) : Prop where
  been : ∃ r lead, t = (Token.opening container).text ++ r ++ c.input.rest ∧
    c.input.position = place + ((Token.opening container).text ++ r).length ∧ Entries entry [] r lead ∧
    Awaiting container c lead around
  past : Past c
  held : c.held = none

section
variable {container : Container} {entry : Text → Prop} {around : List Container} {place : Nat} {t : Text}
  {c d e : Cursor} {token : Token} {lead : Text}

theorem amidEntry (amid : Amid container entry around place t c) : Entry c container around := by
  obtain ⟨_,_,_,_,_,⟨_,on⟩ | ⟨_,beyond⟩⟩ := amid.been
  · exact onEntry on
  · exact overEntry beyond

theorem amidExtent (amid : Amid container entry around place t c) : c.input.extent = place + t.length := by
  obtain ⟨r,_,whole,position,_⟩ := amid.been
  rw [Input.extent,position,whole]
  simp only [List.length_append]
  omega

theorem amidFirst (value : AtValue c (.opening container) lead around) :
    Amid container entry around c.start (lead ++ c.input.rest) c := by
  have spelt : lead = (Token.opening container).text ++ [] := by
    have lexeme := value.lexeme
    cases container <;> cases lexeme <;> rfl
  refine ⟨⟨[],[],by rw [← spelt],by rw [← spelt]; exact value.place,.none,.inl ⟨rfl,value.on⟩⟩,value.past,?_⟩
  rw [held,value.told]
  rfl

theorem amidThen {front s r : Text} (whole : t = front ++ s ++ d.input.rest)
    (parts : front ++ s = (Token.opening container).text ++ r)
    (position : d.input.position = place + (front ++ s).length) (entries : Entries entry [] r [0x2C])
    (beyond : Over d (container :: around)) (past : Past d) (held : d.held = none) :
    Amid container entry around place t d :=
  ⟨⟨r,[0x2C],by rw [whole,parts],by rw [position,parts],entries,.inr ⟨rfl,beyond⟩⟩,past,held⟩

theorem itemFront {item : Rule} (amid : Amid .array item.Accepts around place t c)
    (stepped : c.next = (.ok (some token),d)) (starts : StartsValue token) :
    ∃ front lead, item.ItemFront front ∧ t = front ++ (lead ++ d.input.rest) ∧ d.start = place + front.length ∧
      AtValue d token lead (.array :: around) ∧ d.name = none := by
  have entry := amidEntry amid
  obtain ⟨r,lead,whole,position,entries,awaits⟩ := amid.been
  obtain ⟨gap,source,taken,value,name⟩ := takenValue entry.ready stepped starts
  rw [entry.nesting] at value
  rcases awaitsGap awaits amid.past taken with ⟨rfl,_⟩ | ⟨_,w,w',rfl,before,behind⟩
  · cases starts
  refine ⟨_,source,.mk entries before behind,?_,?_,value,name.trans amid.held⟩
  · rw [whole,taken.rest]
    simp [Token.text]
  · rw [taken.start,position]
    simp only [Token.text,List.length_append,List.length_cons,List.length_nil]
    omega

theorem fieldGoes {name : Text} {found : Option Token} (on : On c (.field name) (container :: around))
    (stepped : c.next = (.ok found,d)) : ∃ token, found = some token := by
  cases found with
  | none => exact absurd stepped (onGoes on (fun outside => List.cons_ne_nil _ _ (on.nesting.symm.trans outside)))
  | some token => exact ⟨token,rfl⟩

theorem memberGap {gap source name : Text} (awaits : Awaiting .object c lead around) (past : Past c)
    (taken : Taken c gap (.field name) source d) :
    ∃ w w', gap = w ++ lead ++ w' ∧ Blank w ∧ Blank w' := by
  obtain ⟨separator,fits,before⟩ := taken.before
  rcases awaits with ⟨rfl,on⟩ | ⟨rfl,beyond⟩
  · rw [on.expecting] at fits
    cases fits with
    | firstMember =>
        cases before with
        | blank margin => exact ⟨gap,[],by simp,marginInside margin past.inside,blankNil⟩
  · rw [(commaFits beyond).1,(commaFits beyond).2] at fits
    cases fits with
    | member =>
        cases before with
        | @separated w _ w' margin behind => exact ⟨w,w',by simp,marginInside margin past.inside,behind⟩

theorem colonGap {gap source name : Text} (on : On c (.field name) around) (past : Past c)
    (taken : Taken c gap token source d) :
    ∃ w w', gap = w ++ 0x3A :: w' ∧ Blank w ∧ Blank w' := by
  obtain ⟨separator,fits,before⟩ := taken.before
  rw [on.expecting] at fits
  cases fits with
  | value =>
      cases before with
      | @separated w _ w' margin behind => exact ⟨w,w',rfl,marginInside margin past.inside,behind⟩

theorem memberFront {field : Text → Rule} {name : Text}
    (amid : Amid .object (Rule.AcceptsMember field) around place t c)
    (named : c.next = (.ok (some (.field name)),d)) (stepped : d.next = (.ok (some token),e)) :
    ∃ front lead, Rule.MemberFront field name front ∧ t = front ++ (lead ++ e.input.rest) ∧
      e.start = place + front.length ∧ AtValue e token lead (.object :: around) ∧ e.name = some name := by
  have entry := amidEntry amid
  obtain ⟨r,lead,whole,position,entries,awaits⟩ := amid.been
  obtain ⟨on,_⟩ := objectEntry entry named
  obtain ⟨_,starts⟩ := fieldValue on stepped
  obtain ⟨gap,q,taken⟩ := nextTaken entry.ready named
  obtain ⟨gap',source,taken',value,name'⟩ := takenValue on.ready stepped starts
  have nesting : d.nesting = .object :: around := on.nesting
  rw [nesting] at value
  obtain ⟨w,w',rfl,before,behind⟩ := memberGap awaits amid.past taken
  obtain ⟨w₁,w₂,rfl,inside,inside'⟩ := colonGap on (takenPast taken) taken'
  refine ⟨_,source,.mk entries before behind (Lexer.fieldQuotation taken.lexeme) inside inside',?_,?_,value,?_⟩
  · rw [whole,taken.rest,taken'.rest]
    simp [Token.text]
  · rw [taken'.start,takenPlace taken,position]
    simp only [Token.text,List.length_append,List.length_cons,List.length_nil]
    omega
  · rw [name',held,taken.token]
    rfl

end

end Cursor

namespace Rule
open Cursor

def Refusal (rule : Rule) (name : Option Text) (place : Nat) (t : Text) (fault : Fault) : Prop :=
  fault.BreaksBy (place + t.length) ∨ Refuses rule name place t fault

def Blamed (rule : Rule) : Prop :=
  ∀ {token : Token} {lead : Text} {around : List Container} {s s' : Session} {fault : Fault},
    AtValue s.cursor token lead around → (rule.read (some token)).run s = (.error fault,s') →
      rule.Refusal s.cursor.name s.cursor.start (lead ++ s.cursor.input.rest) fault

section
variable {place : Nat} {t lead : Text} {around : List Container} {token : Token} {s s' : Session} {fault : Fault}

theorem nextRefused {rule : Rule} {name : Option Text} (ready : s.cursor.Ready)
    (extent : s.cursor.input.extent = place + t.length) (read : next.run s = (.error fault,s')) :
    rule.Refusal name place t fault :=
  .inl (extent ▸ nextBounded ready (nextFails read).1)

theorem looseBlamed : Blamed .anything := by
  intro token lead around s s' fault value ran
  cases token with
  | opening container =>
      have ran := errorMap ran
      rw [subtreeEntered (valueCurrent value)] at ran
      refine loopFailed
        (fun so u => Within around so u ∧ (∃ token near, On u.cursor token near) ∧
          u.cursor.input.extent = s.cursor.start + (lead ++ s.cursor.input.rest).length)
        (Rule.anything.Refusal s.cursor.name s.cursor.start (lead ++ s.cursor.input.rest)) ?_ ?_ ?_ ?_
        ⟨onWithin value.on,⟨_,_,value.on⟩,valueExtent value⟩ ran
      · intro so u fault t invariant read
        exact nextRefused invariant.1.ready invariant.2.2 read
      · intro so u t fault v invariant read _
        obtain ⟨within,⟨token,near,on⟩,_⟩ := invariant
        have deep := withinDeep within
        refine absurd (Reader.readNext read) (onGoes on (fun outside => ?_))
        rw [outside] at deep
        cases deep
      · intro so token u t fault v _ _ went
        cases went
      · intro so token u t after v invariant read went
        have stepped := Reader.readNext read
        obtain ⟨_,_,taken⟩ := nextTaken invariant.1.ready stepped
        obtain ⟨rfl,within,_⟩ := subtreeGoes invariant.1 stepped went
        have onward := (nextOnward invariant.1.ready stepped).2.moved
        exact ⟨within,⟨_,_,takenOn taken⟩,(Input.aheadExtent onward).trans invariant.2.2⟩
  | scalar scalar => cases ran
  | closing container => cases value.starts
  | field name => cases value.starts

theorem scalarTextTold {text : Option Text} (ran : (scalarText (some token)).run s = (.ok text,s')) :
    s' = s ∧ ∃ scalar, token = .scalar scalar ∧ text = if scalar = .null then none else some scalar.text := by
  cases token with
  | scalar scalar => cases scalar <;> cases ran <;> exact ⟨rfl,_,rfl,rfl⟩
  | _ => cases ran

theorem leafBlamed {rule : Rule} {f : Option Text → Reader Value} (textual : rule.Textual)
    (value : AtValue s.cursor token lead around) (ran : (scalarText (some token) >>= f).run s = (.error fault,s'))
    (refused : ∀ scalar, token = .scalar scalar →
      (f (if scalar = .null then none else some scalar.text)).run s = (.error fault,s') →
        rule.Refusal s.cursor.name s.cursor.start (lead ++ s.cursor.input.rest) fault) :
    rule.Refusal s.cursor.name s.cursor.start (lead ++ s.cursor.input.rest) fault := by
  have begins := valueBegins value
  rcases errorBind ran with read | ⟨text,m,read,rest⟩
  · cases token with
    | opening container =>
        cases read
        exact .inr (.container textual begins)
    | scalar scalar => cases scalar <;> cases read
    | closing container => cases value.starts
    | field name => cases value.starts
  · obtain ⟨rfl,scalar,same,rfl⟩ := scalarTextTold read
    exact refused scalar same rest

theorem timeBlamed : Blamed .time := by
  intro token lead around s s' fault value ran
  refine leafBlamed trivial value ran (fun scalar same rest => ?_)
  subst same
  rcases errorBind rest with looked | ⟨_,_,looked,lifted⟩
  · cases looked
  cases looked
  have failed := liftFailed lifted
  split at failed
  · cases failed
  · rename_i given
    simp only [timeOf] at failed
    split at failed
    · cases failed
    · rename_i bad
      cases failed
      exact .inr (.time (valueBegins value) given bad)

theorem identifierBlamed : Blamed .identifier := by
  intro token lead around s s' fault value ran
  refine leafBlamed trivial value ran (fun scalar same rest => ?_)
  subst same
  rcases errorBind rest with looked | ⟨_,_,looked,lifted⟩
  · cases looked
  cases looked
  have failed := liftFailed lifted
  split at failed
  · rename_i null
    cases failed
    subst null
    exact .inr (.noIdentifier (valueBegins value))
  · rename_i given
    cases found : Uuid.ofText? scalar.text <;> simp [identifierValue,identifierOf,found,Except.map] at failed
    subst failed
    exact .inr (.identifier (valueBegins value) given found)

theorem flagBlamed : Blamed .flag := by
  intro token lead around s s' fault value ran
  have begins := valueBegins value
  cases token with
  | scalar scalar =>
      cases scalar with
      | string value' => cases ran; exact .inr (.flag begins ⟨nofun,nofun,nofun⟩)
      | number spelling => cases ran; exact .inr (.flag begins ⟨nofun,nofun,nofun⟩)
      | _ => cases ran
  | opening container => cases ran; exact .inr (.flag begins ⟨nofun,nofun,nofun⟩)
  | closing container => cases value.starts
  | field name => cases value.starts

theorem entryTold {container : Container} {entry : Text → Prop} {rule : Rule} {v : Value} {front : Text}
    (whole : t = front ++ (lead ++ s.cursor.input.rest)) (start : s.cursor.start = place + front.length)
    (value : AtValue s.cursor token lead (container :: around)) (ran : (rule.read (some token)).run s = (.ok v,s'))
    (taken : ∀ j r, Spelt (.value j) r → (rule.decode? j).isSome = true →
      ∃ r', front ++ r = (Token.opening container).text ++ r' ∧ Entries entry [] r' [0x2C]) :
    Amid container entry around place t s'.cursor := by
  obtain ⟨j,r,spelt,accepted,rest,position,beyond,past,held⟩ := readTold value ran
  obtain ⟨r',parts,entries⟩ := taken j _ spelt accepted
  refine amidThen (s := lead ++ r) ?_ parts ?_ entries beyond past held
  · rw [whole,rest]
    simp
  · rw [position,value.place,start]
    simp only [List.length_append]
    omega

theorem membersBlamed {noun : Text} {field : Text → Rule} (blamed : ∀ name, Blamed (field name)) {outer : Option Text}
    {fields : Fields} (amid : Amid .object (AcceptsMember field) around place t s.cursor)
    (ran : loopFrom (fieldStep (fun name => (field name).read)) (fun _ => refuse .notFieldName) fields s =
      (.error fault,s')) : (Rule.object noun field).Refusal outer place t fault := by
  refine loopFailed (fun _ s => Amid .object (AcceptsMember field) around place t s.cursor) _ ?_ ?_ ?_ ?_ amid ran
  · intro a s fault t' amid read
    exact nextRefused (amidEntry amid).ready (amidExtent amid) read
  · intro a s t' fault u amid read _
    exact absurd (Reader.readNext read) (entryGoes (amidEntry amid))
  · intro a token s m fault u amid read went
    have named := Reader.readNext read
    obtain ⟨on,rfl | ⟨name,rfl⟩⟩ := objectEntry (amidEntry amid) named
    · cases went
    · rw [fieldStepRun] at went
      have extent : m.cursor.input.extent = place + t.length :=
        (Input.aheadExtent (nextOnward (amidEntry amid).ready named).2.moved).trans (amidExtent amid)
      rcases errorBind (errorMap went) with read' | ⟨token',m',read',ran⟩
      · exact nextRefused on.ready extent read'
      · have stepped := Reader.readNext read'
        obtain ⟨found,rfl⟩ := fieldGoes on stepped
        obtain ⟨front,lead,is,rfl,start,value,name'⟩ := memberFront amid named stepped
        have refusal := blamed name value ran
        rw [start,name'] at refusal
        exact refusal.imp Fault.breaksBehind (.member is)
  · intro a token s m so u amid read went
    have named := Reader.readNext read
    obtain ⟨on,rfl | ⟨name,rfl⟩⟩ := objectEntry (amidEntry amid) named
    · cases went
    · rw [fieldStepRun] at went
      obtain ⟨v,m',ran,done⟩ := okBind went
      cases done
      obtain ⟨token',k,read',ran⟩ := okBind ran
      have stepped := Reader.readNext read'
      obtain ⟨found,rfl⟩ := fieldGoes on stepped
      obtain ⟨front,lead,is,whole,start,value,_⟩ := memberFront amid named stepped
      exact entryTold whole start value ran (fun j r spelt accepted => memberTaken is spelt accepted)

theorem itemRefused {noun : Text} {item : Rule} {name outer : Option Text} {front rest : Text}
    (is : item.ItemFront front) (none' : name = none) (refusal : item.Refusal name (place + front.length) rest fault) :
    (Rule.list noun item).Refusal outer place (front ++ rest) fault := by
  subst none'
  exact refusal.imp Fault.breaksBehind (.item is)

theorem itemsBlamed {noun : Text} {item : Rule} (blamed : item.Blamed) {outer : Option Text} {items : List Value}
    (amid : Amid .array item.Accepts around place t s.cursor)
    (ran : loopFrom (itemStep item.read) (fun _ => refuse (.notShape item.noun)) items s = (.error fault,s')) :
    (Rule.list noun item).Refusal outer place t fault := by
  refine loopFailed (fun _ s => Amid .array item.Accepts around place t s.cursor) _ ?_ ?_ ?_ ?_ amid ran
  · intro a s fault t' amid read
    exact nextRefused (amidEntry amid).ready (amidExtent amid) read
  · intro a s t' fault u amid read _
    exact absurd (Reader.readNext read) (entryGoes (amidEntry amid))
  · intro a token s m fault u amid read went
    have stepped := Reader.readNext read
    obtain ⟨on,rfl | starts⟩ := arrayEntry (amidEntry amid) stepped
    · cases went
    · rw [itemStepStarts starts] at went
      obtain ⟨front,lead,is,rfl,start,value,name⟩ := itemFront amid stepped starts
      have refusal := blamed value (errorMap went)
      rw [start] at refusal
      exact itemRefused is name refusal
  · intro a token s m so u amid read went
    have stepped := Reader.readNext read
    obtain ⟨on,rfl | starts⟩ := arrayEntry (amidEntry amid) stepped
    · cases went
    · rw [itemStepStarts starts] at went
      obtain ⟨v,m',ran,done⟩ := okBind went
      cases done
      obtain ⟨front,lead,is,whole,start,value,_⟩ := itemFront amid stepped starts
      exact entryTold whole start value ran (fun j r spelt accepted => itemTaken is ⟨j,spelt,accepted⟩)

theorem readBlamed (rule : Rule) : rule.Blamed := by
  induction rule with
  | anything => exact looseBlamed
  | text =>
      intro token lead around s s' fault value ran
      exact leafBlamed trivial value ran (fun scalar _ rest => by cases rest)
  | flag => exact flagBlamed
  | version ceiling =>
      intro token lead around s s' fault value ran
      refine leafBlamed trivial value ran (fun scalar _ rest => ?_)
      rcases errorBind rest with noted | ⟨_,_,_,done⟩
      · generalize Option.bind _ (Notice.ofVersion? ceiling) = notice at noted
        cases notice <;> cases noted
      · cases done
  | time => exact timeBlamed
  | identifier => exact identifierBlamed
  | object noun field ih =>
      intro token lead around s s' fault value ran
      by_cases opens : token = .opening .object
      · subst opens
        exact membersBlamed ih (amidFirst value) (errorMap ran)
      · unfold Rule.read at ran
        split at ran
        · rename_i same
          cases same
          exact absurd rfl opens
        · cases ran
          exact .inr (.object (valueBegins value) opens)
  | list noun item ih =>
      intro token lead around s s' fault value ran
      by_cases opens : token = .opening .array
      · subst opens
        exact itemsBlamed ih (amidFirst value) (errorMap ran)
      · unfold Rule.read at ran
        split at ran
        · rename_i same
          cases same
          exact absurd rfl opens
        · cases ran
          exact .inr (.list (valueBegins value) opens)
  | nullable rule ih =>
      intro token lead around s s' fault value ran
      unfold Rule.read at ran
      split at ran
      · cases ran
      · rename_i given
        exact (ih value ran).imp id (.nullable (valueBegins value) (fun same => given (by rw [same])))

end
end Rule
end AuditLog
