import AuditLog.Proofs.Blame
import AuditLog.Proofs.Decode

/-! Places of faults. What a decoding blames lies in its text: where the text is malformed, where the envelope is not
the one due, or where in the list of records the first value begins that the schema cannot take. -/
namespace AuditLog
open Reading Reader Grammar

/-- In this list of records, which opens at this place, the first value that cannot be taken is the one this fault
tells of: a scalar in place of a record, or a value refused inside an element. -/
inductive RefusesRecords (ceiling : Float) (place : Nat) : Text → Fault → Prop where
  | scalar {front t scalar} (is : (Schema.record ceiling).ItemFront front) (begins : Begins t (.scalar scalar)) :
      RefusesRecords ceiling place (front ++ t) (.record .notRecord (place + front.length))
  | inside {front t fault} (is : (Schema.record ceiling).ItemFront front)
      (refuses : (Schema.record ceiling).Refuses none (place + front.length) t fault) :
      RefusesRecords ceiling place (front ++ t) fault

theorem refusesRecordsValue {ceiling : Float} {place : Nat} {t : Text} {fault : Fault}
    (refuses : RefusesRecords ceiling place t fault) :
    ∃ front t' token, t = front ++ t' ∧ fault.place? = some (.counted (place + front.length)) ∧ Begins t' token ∧
      fault.Tells token := by
  cases refuses with
  | @scalar front t scalar _ begins => exact ⟨front,t,_,rfl,rfl,begins,scalar,rfl⟩
  | @inside front _ _ _ refuses =>
      obtain ⟨front',t',token,rfl,told,begins,tells⟩ := Rule.refusesValue refuses
      refine ⟨front ++ front',t',token,(List.append_assoc ..).symm,?_,begins,tells⟩
      rw [told,List.length_append,Nat.add_assoc]

namespace Fault

def UpTo (extent : Nat) (fault : Fault) : Prop :=
  fault.BreaksBy extent ∨ ∃ flaw offset, fault = .envelope flaw offset ∧ offset ≤ extent

theorem upToPlaced {extent : Nat} {fault : Fault} (bounded : fault.UpTo extent) :
    fault.aboutDocument = true ∧ (∃ o, fault.place? = some (.counted o) ∧ o ≤ extent) ∧ ¬ fault.OfRecord := by
  rcases bounded with ⟨what,rfl,bounded⟩ | ⟨_,offset,rfl,bounded⟩
  · exact ⟨rfl,⟨what.offset,rfl,bounded⟩,id⟩
  · exact ⟨rfl,⟨offset,rfl,bounded⟩,id⟩

theorem tellsDocument {fault : Fault} {token : Token} (tells : fault.Tells token) : fault.aboutDocument = true := by
  cases fault with
  | record flaw offset => rfl
  | time text flaw place => rfl
  | identifier text place => rfl
  | _ => cases tells

end Fault

namespace Trail
open Cursor

section
variable {terms : Terms} {place : Nat} {t : Text} {s u : Session} {fault : Fault}

theorem moreRefused (amid : Amid .array (Schema.record terms.ceiling).Accepts [.object] place t s.cursor)
    (ran : more.run s = (.error fault,u)) :
    fault.UpTo (place + t.length) ∨ RefusesRecords terms.ceiling place t fault := by
  rcases errorBind ran with read | ⟨token,m,read,ran⟩
  · exact .inl (.inl (amidExtent amid ▸ nextBounded (amidEntry amid).ready (nextFails read).1))
  · cases token with
    | none => cases ran
    | some token =>
        cases token with
        | scalar scalar =>
            cases ran
            obtain ⟨front,lead,is,rfl,start,value,_⟩ := itemFront amid (readNext read) trivial
            rw [start]
            exact .inr (.scalar is (valueBegins value))
        | _ => cases ran

theorem eventFails {token : Token} (ran : (event terms).run s = (.error fault,u))
    (stands : s.cursor.current = some token) :
    ((Schema.record terms.ceiling).read (some token)).run s = (.error fault,u) := by
  rcases errorBind ran with looked | ⟨_,_,looked,ran⟩
  · cases looked
  cases looked
  rcases errorBind ran with failed | ⟨v,m,_,ran⟩
  · rcases errorBind failed with looked | ⟨_,_,looked,failed⟩
    · cases looked
    · cases looked
      rwa [stands] at failed
  · -- what comes behind a record that has been read cannot fail
    rcases errorBind ran with looked | ⟨_,_,_,ran⟩
    · cases looked
    · rcases errorBind ran with noted | ⟨_,_,_,done⟩
      · cases noted
      · cases done

theorem collectRefused {found : List Event}
    (amid : Amid .array (Schema.record terms.ceiling).Accepts [.object] place t s.cursor)
    (failed : (collectFrom terms none found s).1.failure = some fault) :
    fault.UpTo (place + t.length) ∨ RefusesRecords terms.ceiling place t fault := by
  induction size : s.unread using Nat.strongRecOn generalizing found s with
  | _ size ih =>
      subst size
      rw [collectUnfold] at failed
      cases asked : more.run s with
      | mk result m =>
          rw [asked] at failed
          cases result with
          | error other =>
              cases failed
              exact moreRefused amid asked
          | ok another =>
              cases another with
              | false => cases failed
              | true =>
                  obtain ⟨container,stepped⟩ := moreTrue asked
                  obtain ⟨front,lead,is,whole,start,value,name⟩ := itemFront amid stepped trivial
                  cases made : (event terms).run m with
                  | mk result u =>
                      simp only [made] at failed
                      cases result with
                      | error other =>
                          cases failed
                          have refusal := Rule.readBlamed _ value (eventFails made (nextCurrent stepped))
                          rw [start,name] at refusal
                          subst whole
                          exact refusal.imp (fun breaks => .inl (Fault.breaksBehind breaks)) (.inside is)
                      | ok event =>
                          obtain ⟨v,u',read,same⟩ := eventRead made (nextCurrent stepped)
                          have shorter := Nat.lt_of_le_of_lt ((Trail.event terms).forwardTo made) (moreTakes asked)
                          refine ih _ shorter (same ▸ Rule.entryTold whole start value read ?_) failed rfl
                          exact fun j r spelt accepted => Rule.itemTaken is ⟨j,spelt,accepted⟩

end

section
variable {field : Text} {wanted : Token} {flaw : EnvelopeFlaw} {s s' : Session} {fault : Fault}

theorem demandRefused (ready : s.cursor.Ready) (inside : s.cursor.Inside)
    (ran : (demand wanted flaw).run s = (.error fault,s')) : fault.UpTo s.cursor.input.extent := by
  rcases errorBind ran with read | ⟨token,m,read,_⟩
  · exact .inl (nextBounded ready (nextFails read).1)
  · have stepped := readNext read
    rw [demandRun read] at ran
    split at ran
    · cases ran
    · cases ran
      have onward := (nextOnward ready stepped).2.moved
      refine .inr ⟨_,_,rfl,Nat.le_trans (insideNext inside stepped).start ?_⟩
      rw [← Input.aheadExtent onward]
      exact Nat.le_add_right _ _

theorem demandKeeps (ready : s.cursor.Ready) (inside : s.cursor.Inside)
    (ran : (demand wanted flaw).run s = (.ok (),s')) :
    s'.cursor.Ready ∧ s'.cursor.Inside ∧ s'.cursor.input.extent = s.cursor.input.extent := by
  have stepped := demandOk ran
  have onward := nextOnward ready stepped
  exact ⟨onward.1,insideNext inside stepped,Input.aheadExtent onward.2.moved⟩

theorem envelopeRefused (ready : s.cursor.Ready) (inside : s.cursor.Inside)
    (ran : (envelope field).run s = (.error fault,s')) : fault.UpTo s.cursor.input.extent := by
  rcases errorBind ran with failed | ⟨_,s₁,first,ran⟩
  · exact demandRefused ready inside failed
  obtain ⟨ready₁,inside₁,extent₁⟩ := demandKeeps ready inside first
  rcases errorBind ran with failed | ⟨_,s₂,second,third⟩
  · exact extent₁ ▸ demandRefused ready₁ inside₁ failed
  obtain ⟨ready₂,inside₂,extent₂⟩ := demandKeeps ready₁ inside₁ second
  exact extent₁ ▸ extent₂ ▸ demandRefused ready₂ inside₂ third

theorem listAmid {entry : Text → Prop} {place : Nat} {t : Text} (stands : AtList s (place + 1) t) :
    Amid .array entry [.object] place (0x5B :: t) s.cursor := by
  refine ⟨⟨[],[],?_,stands.position,.none,.inl ⟨rfl,stands.on⟩⟩,stands.past,?_⟩
  · rw [stands.rest]
    rfl
  · rw [held,← currentOpen stands.on.ready.opened,stands.stands]
    rfl

end
end Trail

namespace Decoding
open Trail

theorem failureRefused {terms : Terms} {source : Source} {t : Text} {fault : Fault} (sound : source.broken = none)
    (whole : source.pending.flatten = t) (failed : (ofSource terms none source).failure = some fault) :
    fault.UpTo t.length ∨
      ∃ front records, t = front ++ records ∧ Front terms.recordsField front ∧
        RefusesRecords terms.ceiling front.length records fault := by
  subst whole
  obtain ⟨harvest,_,failure,⟨other,s,refused,rfl⟩ | ⟨s,entered,rfl⟩⟩ := ofSourceRun terms source
  · rw [failure] at failed
    cases failed
    have bounded := envelopeRefused (s := .ofSource source) ⟨rfl,sound,nofun⟩ ⟨Nat.le_refl _,Nat.le_refl _⟩ refused
    have extent : (Session.ofSource source).cursor.input.extent = source.pending.flatten.length := Nat.zero_add _
    exact .inl (extent ▸ bounded)
  · rw [failure] at failed
    obtain ⟨front,more,same,is,stands⟩ := envelopeFound sound entered
    rw [same,List.length_append]
    exact (collectRefused (listAmid stands) failed).imp id (fun refuses => ⟨front,_,rfl,is,refuses⟩)

/-- Every fault of a text is about the document and has a place in the text. Where it tells of a value, an envelope
comes first, and the place is where the first value of the records begins that the schema cannot take, behind elements
and members that are all acceptable; if the fault shows a text, that is what the scalar at its place decodes to. -/
theorem faultsPointToValue (options : Options) (raw : Bool) (t : Text) (fault : Fault)
    (failed : (ofText options raw t).failure = some fault) :
    fault.aboutDocument = true ∧
      ∃ o, fault.place? = some (.counted o) ∧ o ≤ t.length ∧
        (fault.OfRecord →
          (∃ front records, t = front ++ records ∧ Front options.recordsField front ∧
            RefusesRecords options.ceiling front.length records fault) ∧
          ∃ token, Begins (t.drop o) token ∧ fault.Tells token) := by
  rcases failureRefused rfl (Source.ofTextWhole options.chunkSize t) failed with
    bounded | ⟨front,records,rfl,is,refuses⟩
  · obtain ⟨about,⟨o,told,within⟩,other⟩ := Fault.upToPlaced bounded
    exact ⟨about,o,told,within,fun ofRecord => absurd ofRecord other⟩
  · obtain ⟨front',t',token,rfl,told,begins,tells⟩ := refusesRecordsValue refuses
    refine ⟨Fault.tellsDocument tells,_,told,?_,fun _ => ⟨⟨front,_,rfl,is,refuses⟩,token,?_,tells⟩⟩
    · simp only [List.length_append]
      omega
    · rw [← List.append_assoc,← List.length_append,List.drop_left]
      exact begins

theorem faultPointsToTime :
    ∃ t flaw scalar,
      t = Text.of "\x7b\"Records\":[\x7b\"readOnly\":null\x7d,\x7b\"eventTime\":\"noon\"\x7d]\x7d" ∧
        (ofText .standard false t).failure = some (.time (Text.of "noon") flaw (some (.counted 43))) ∧
        scalar.text = Text.of "noon" ∧ Begins (t.drop 43) (.scalar scalar) := by
  have told : ((ofText .standard false
        (Text.of "\x7b\"Records\":[\x7b\"readOnly\":null\x7d,\x7b\"eventTime\":\"noon\"\x7d]\x7d")).failure.bind fun
      | .time text _ place => some (text,place)
      | _ => none) = some (Text.of "noon",some (.counted 43)) := by decide +kernel
  obtain ⟨fault,failed,told⟩ := Option.bind_eq_some_iff.mp told
  split at told <;> cases told
  obtain ⟨_,o,place,_,points⟩ := faultsPointToValue _ _ _ _ failed
  cases place
  obtain ⟨_,token,begins,scalar,rfl,_,shown⟩ := points trivial
  exact ⟨_,_,scalar,rfl,failed,shown,begins⟩

end Decoding
end AuditLog
