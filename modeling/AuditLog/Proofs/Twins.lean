import AuditLog.Proofs.Decode

/-! Two decodings side by side. Where related sessions read alike, two trails that differ in what they
say of the origin of an event tell of the same records, and stop at the same place for the same reason. -/
namespace AuditLog
open Reading Reader

namespace Trail

def Together {α : Type} (R : Session → Session → Prop) (r r' : Reader α) : Prop :=
  Coupled R r r' (fun _ => R) (fun _ => R)

theorem carriesTogether {α : Type} {R : Session → Session → Prop} {allowed : Fault → Prop} {r : Reader α}
    (carries : Blind.Carries R allowed R r) : Together R r r :=
  coupledWeaken carries (fun _ _ h => h) (fun _ _ _ h => h) (fun _ _ _ h => h.1)

def harvested (terms : Terms) (found : List Told) (failure : Option Fault) : Harvest :=
  ⟨found.reverse.map (Told.event terms.provenance),failure⟩

section
variable {terms terms' : Terms} {R : Session → Session → Prop}

def Agree (terms terms' : Terms) (R : Session → Session → Prop) (x y : Harvest × Session) : Prop :=
  ∃ found failure u v, R u v ∧ x = (harvested terms found failure,u) ∧ y = (harvested terms' found failure,v)

theorem agreeEnd {s t : Session} (related : R s t) (found : List Told) (failure : Option Fault) :
    Agree terms terms' R (⟨(found.map (Told.event terms.provenance)).reverse,failure⟩,s)
      (⟨(found.map (Told.event terms'.provenance)).reverse,failure⟩,t) := by
  refine ⟨found,failure,s,t,related,?_,?_⟩ <;> rw [harvested,List.map_reverse]

theorem collectAgree (asks : Together R more more)
    (tells : Together R (told terms.ceiling) (told terms'.ceiling)) (limit : Option Nat) (found : List Told)
    {s t : Session} (related : R s t) :
    Agree terms terms' R (collectFrom terms limit (found.map (Told.event terms.provenance)) s)
      (collectFrom terms' limit (found.map (Told.event terms'.provenance)) t) := by
  induction size : s.unread using Nat.strongRecOn generalizing limit found s t with
  | _ size ih =>
      subst size
      rw [collectFurther terms,collectFurther terms']
      have asked := asks s t related
      cases ran : more.run s with
      | mk result s₁ =>
          rw [ran] at asked
          generalize more.run t = other at asked ⊢
          cases asked with
          | @error fault _ t₁ related => exact agreeEnd related found (some fault)
          | @ok another _ t₁ related =>
              cases another with
              | false => exact agreeEnd related found none
              | true =>
                  have made := tells s₁ t₁ related
                  simp only [eventTold]
                  cases went : (told terms.ceiling).run s₁ with
                  | mk result s₂ =>
                      rw [went] at made
                      generalize (told terms'.ceiling).run t₁ = other at made ⊢
                      have shorter : s₂.unread < s.unread :=
                        Nat.lt_of_le_of_lt ((told terms.ceiling).forwardTo went) (moreTakes ran)
                      cases made with
                      | @error fault _ t₂ related => exact agreeEnd related found (some fault)
                      | @ok one _ t₂ related =>
                          have later (limit : Option Nat) := ih _ shorter limit (one :: found) related rfl
                          cases limit with
                          | none => exact later none
                          | some n =>
                              simp only [Except.map,further]
                              split
                              · exact agreeEnd related (one :: found) none
                              · exact later (some (n - 1))

end
end Trail

namespace Decoding
open Trail

theorem ofSourceAgree {terms terms' : Terms} {R : Session → Session → Prop}
    (enters : Together R (envelope terms.recordsField) (envelope terms'.recordsField)) (asks : Together R more more)
    (tells : Together R (told terms.ceiling) (told terms'.ceiling)) (limit : Option Nat) {source source' : Source}
    (related : R (.ofSource source) (.ofSource source')) :
    ∃ found failure u v, R u v ∧
      ofSource terms limit source = finish (harvested terms found failure) ⟨terms,u,false⟩ ∧
      ofSource terms' limit source' = finish (harvested terms' found failure) ⟨terms',v,false⟩ := by
  have entered := enters _ _ related
  rw [ofSourceEntered terms,ofSourceEntered terms']
  generalize (envelope terms.recordsField).run (.ofSource source) = x at entered ⊢
  generalize (envelope terms'.recordsField).run (.ofSource source') = y at entered ⊢
  cases entered with
  | @error fault u v related => exact ⟨[],some fault,u,v,related,rfl,rfl⟩
  | @ok done s t related =>
      obtain ⟨found,failure,u,v,last,left,right⟩ := collectAgree asks tells limit [] related
      rw [List.map_nil] at left right
      exact ⟨found,failure,u,v,last,by simp only [left],by simp only [right]⟩

theorem ofChunksAgree {terms terms' : Terms} (field : terms.recordsField = terms'.recordsField)
    (ceiling : terms.ceiling = terms'.ceiling) (limit : Option Nat) {chunks other : List Text}
    (same : chunks.flatten = other.flatten) :
    ∃ (found : List Told) (failure : Option Fault) (notices : List Notice) (accesses accesses' : List Access),
      ofSource terms limit (.ofChunks chunks) =
          ⟨found.map (Told.event terms.provenance),failure,notices,accesses⟩ ∧
        ofSource terms' limit (.ofChunks other) =
          ⟨found.map (Told.event terms'.provenance),failure,notices,accesses'⟩ := by
  have enters : Together Session.AlikeOpen (envelope terms.recordsField) (envelope terms'.recordsField) :=
    field ▸ carriesTogether (openEnvelope _)
  have tells : Together Session.AlikeOpen (told terms.ceiling) (told terms'.ceiling) :=
    ceiling ▸ carriesTogether (openTold _)
  obtain ⟨found,failure,u,v,related,left,right⟩ := ofSourceAgree enters (carriesTogether openMore) tells limit
    ⟨Session.alikeOfChunks same,rfl⟩
  have noted : u.notices = v.notices := congrArg List.reverse related.1.noted
  exact ⟨found.reverse,failure,v.notices,_,_,by rw [left,← noted]; rfl,right⟩

end Decoding
end AuditLog
