import AuditLog.Proofs.Modes

/-! Files on their own. What a file comes to is told by a trail of its own that is asked for one event after
another; the command puts the reports of the files one behind the other, and nothing passes between them. -/
namespace AuditLog
open Reading Reader

namespace Trail

inductive Iterated : Trail → List Event → Option Fault → Trail → Prop where
  | done {t u} (asked : t.another = (.ok false,u)) : Iterated t [] none u
  | refused {t u fault} (asked : t.another = (.error fault,u)) : Iterated t [] (some fault) u
  | failed {t m u fault} (asked : t.another = (.ok true,m)) (taken : m.take = (.error fault,u)) :
      Iterated t [] (some fault) u
  | event {t m u v e es failure} (asked : t.another = (.ok true,m)) (taken : m.take = (.ok e,u))
      (rest : Iterated u es failure v) : Iterated t (e :: es) failure v

theorem performRun {α : Type} {r : Reader α} {t u : Trail} {result : Except Fault α} (opened : t.closed = false) :
    t.perform r = (result,u) ↔ u = ⟨t.terms,u.session,false⟩ ∧ r.run t.session = (result,u.session) := by
  rw [perform,if_neg (by rw [opened]; nofun)]
  refine ⟨fun ran => ?_,fun ⟨same,ran⟩ => ?_⟩
  · cases ran
    exact ⟨by rw [← opened],rfl⟩
  · rw [ran,same,← opened]

theorem performOpened {α : Type} {r : Reader α} {t u : Trail} {a : α} (ran : t.perform r = (.ok a,u)) :
    t.closed = false := by
  cases shut : t.closed with
  | false => rfl
  | true =>
      rw [perform,if_pos shut] at ran
      cases ran

theorem roundRun {t m u : Trail} {result : Except Fault Event} (opened : t.closed = false)
    (asked : t.another = (.ok true,m)) (taken : m.take = (result,u)) :
    more.run t.session = (.ok true,m.session) ∧ (event t.terms).run m.session = (result,u.session) ∧
      u = ⟨t.terms,u.session,false⟩ := by
  obtain ⟨same,asked⟩ := (performRun opened).mp asked
  rw [same] at taken
  obtain ⟨same,taken⟩ := (performRun rfl).mp taken
  exact ⟨asked,taken,same⟩

theorem collectIterated (terms : Terms) (found : List Event) (s : Session) :
    ∃ events failure last, Iterated ⟨terms,s,false⟩ events failure ⟨terms,last,false⟩ ∧
      collectFrom terms none found s = (⟨found.reverse ++ events,failure⟩,last) := by
  induction size : s.unread using Nat.strongRecOn generalizing found s with
  | _ size ih =>
      subst size
      rw [collectUnfold]
      cases asked : more.run s with
      | mk result m =>
          have another' : Trail.another ⟨terms,s,false⟩ = (result,⟨terms,m,false⟩) := (performRun rfl).mpr ⟨rfl,asked⟩
          cases result with
          | error fault => exact ⟨[],some fault,m,.refused another',by rw [List.append_nil]⟩
          | ok another =>
              cases another with
              | false => exact ⟨[],none,m,.done another',by rw [List.append_nil]⟩
              | true =>
                  cases made : (event terms).run m with
                  | mk result u =>
                      have taken : Trail.take ⟨terms,m,false⟩ = (result,⟨terms,u,false⟩) := (performRun rfl).mpr ⟨rfl,made⟩
                      simp only [made]
                      cases result with
                      | error fault => exact ⟨[],some fault,u,.failed another' taken,by rw [List.append_nil]⟩
                      | ok e =>
                          have shorter := Nat.lt_of_le_of_lt ((Trail.event terms).forwardTo made) (moreTakes asked)
                          obtain ⟨events,failure,last,rest,collected⟩ := ih _ shorter (e :: found) u rfl
                          refine ⟨e :: events,failure,last,.event another' taken rest,?_⟩
                          simp only [collected]
                          simp

theorem iteratedCollected {t u : Trail} {events : List Event} {failure : Option Fault}
    (iterated : t.Iterated events failure u) (opened : t.closed = false) (found : List Event) :
    u = ⟨t.terms,u.session,false⟩ ∧
      collectFrom t.terms none found t.session = (⟨found.reverse ++ events,failure⟩,u.session) := by
  induction iterated generalizing found with
  | done asked =>
      obtain ⟨same,asked⟩ := (performRun opened).mp asked
      exact ⟨same,by rw [collectUnfold,asked,List.append_nil]⟩
  | refused asked =>
      obtain ⟨same,asked⟩ := (performRun opened).mp asked
      exact ⟨same,by rw [collectUnfold,asked,List.append_nil]⟩
  | failed asked taken =>
      obtain ⟨asked,taken,same⟩ := roundRun opened asked taken
      refine ⟨same,?_⟩
      rw [collectUnfold,asked,List.append_nil]
      simp only [taken]
  | @event t m u v e es failure asked taken _ ih =>
      obtain ⟨asked,taken,same⟩ := roundRun opened asked taken
      have shut : u.closed = false := by rw [same]
      have kept : u.terms = t.terms := by rw [same]
      obtain ⟨last,collected⟩ := ih shut (e :: found)
      rw [kept] at last collected
      refine ⟨last,?_⟩
      rw [collectUnfold,asked]
      simp only [taken]
      rw [collected]
      simp

theorem collectOpen {t : Trail} (opened : t.closed = false) (limit : Option Nat) :
    t.collect limit =
      ((collectFrom t.terms limit [] t.session).1,⟨t.terms,(collectFrom t.terms limit [] t.session).2,false⟩) := by
  rw [collect,if_neg (by rw [opened]; exact Bool.false_ne_true),← opened]

theorem iteratedIff {t u : Trail} {events : List Event} {failure : Option Fault} (opened : t.closed = false) :
    t.Iterated events failure u ↔ t.collect none = (⟨events,failure⟩,u) := by
  have collects := collectOpen opened none
  refine ⟨fun iterated => ?_,fun collected => ?_⟩
  · obtain ⟨same,collected⟩ := iteratedCollected iterated opened []
    rw [collects,collected,same]
    rfl
  · obtain ⟨events',failure',last,iterated,same⟩ := collectIterated t.terms [] t.session
    rw [collects,same] at collected
    cases collected
    have same' : t = ⟨t.terms,t.session,false⟩ := by rw [← opened]
    rwa [← same'] at iterated

end Trail

namespace Command
open Trail Decoding

def opened (settings : Settings) (path : Text) (entry : FileEntry) : Except FileFlaw Source :=
  if settings.rawEvents then
    match entry with
    | .missing => .error (.missing path)
    | .directory => .error .directory
    | .content bytes => .ok (.ofText settings.chunkSize (Utf8.decode bytes))
  else Source.ofFile settings.chunkSize path entry

def document : FileEntry → Text
  | .content bytes => Utf8.decode bytes
  | _ => []

def terms (settings : Settings) (path : Text) (entry : FileEntry) : Terms :=
  ⟨settings.recordsField,settings.ceiling,origin settings path (document entry)⟩

namespace Report

end Report

section
variable (level : Level) (decoded : Text → Decoding)

end

end Command
end AuditLog
