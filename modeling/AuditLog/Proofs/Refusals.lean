import AuditLog.Proofs.Grammar
import AuditLog.Proofs.Reference
import AuditLog.Proofs.Reads

/-! What a rule refuses, said of the text in which a value is due: the first value in it that the rule cannot take,
however deep, and behind entries that are all acceptable. The text may break off behind the token it begins with. -/
namespace AuditLog
open Grammar

namespace Grammar

def Longest : Token → Text → Text → Prop
  | .scalar (.number _), source, rest => ∀ u left e, rest = u :: left → ¬ Number (source ++ u :: e)
  | _, _, _ => True

inductive Begins : Text → Token → Prop where
  | mk {token source rest} (lexeme : Lexeme token source) (starts : StartsValue token)
      (longest : Longest token source rest) : Begins (source ++ rest) token

inductive Entries (entry : Text → Prop) : (lead : Text) → Text → (lead' : Text) → Prop where
  | none {lead} : Entries entry lead [] lead
  | some {lead lead' w w' s r} (before : Blank w) (behind : Blank w') (one : entry s)
      (rest : Entries entry [0x2C] r lead') : Entries entry lead (w ++ lead ++ w' ++ s ++ r) lead'

theorem entriesThen {entry : Text → Prop} {lead lead' r w w' s : Text} (entries : Entries entry lead r lead')
    (before : Blank w) (behind : Blank w') (one : entry s) :
    Entries entry lead (r ++ (w ++ lead' ++ w') ++ s) [0x2C] := by
  induction entries with
  | @none lead =>
      have last : Entries entry lead (w ++ lead ++ w' ++ s ++ []) [0x2C] := .some before behind one .none
      simpa using last
  | @some lead _ _ _ _ _ before' behind' one' _ ih =>
      have longer : Entries entry lead _ _ := .some before' behind' one' ih
      simpa using longer

end Grammar

namespace Fault

def OfRecord : Fault → Prop
  | .record .. => True
  | .time .. => True
  | .identifier .. => True
  | _ => False

def Tells : Fault → Token → Prop
  | .record .notRecord _, token => ∃ scalar, token = .scalar scalar
  | .record (.notText _) _, token => ∃ container, token = .opening container
  | .record (.notFlag _) _, token => token ≠ .scalar .null ∧ token ≠ .scalar .yes ∧ token ≠ .scalar .no
  | .record (.notShape _) _, _ => True
  | .time text _ _, token => ∃ scalar, token = .scalar scalar ∧ scalar ≠ .null ∧ scalar.text = text
  | .identifier (some text) _, token => ∃ scalar, token = .scalar scalar ∧ scalar ≠ .null ∧ scalar.text = text
  | .identifier none _, token => token = .scalar .null
  | _, _ => False

end Fault

namespace Rule

def Accepts (rule : Rule) (t : Text) : Prop := ∃ j, Spelt (.value j) t ∧ (rule.decode? j).isSome = true

def AcceptsMember (field : Text → Rule) (t : Text) : Prop :=
  ∃ name j, Spelt (.member name j) t ∧ ((field name).decode? j).isSome = true

inductive ItemFront (item : Rule) : Text → Prop where
  | mk {r lead w w'} (items : Entries item.Accepts [] r lead) (before : Blank w) (behind : Blank w') :
      ItemFront item (0x5B :: r ++ (w ++ lead ++ w'))

inductive MemberFront (field : Text → Rule) (name : Text) : Text → Prop where
  | mk {r lead w w' q w₁ w₂} (members : Entries (AcceptsMember field) [] r lead) (before : Blank w) (behind : Blank w')
      (quotation : Quotation q name) (inside : Blank w₁) (inside' : Blank w₂) :
      MemberFront field name (0x7B :: r ++ (w ++ lead ++ w') ++ (q ++ w₁ ++ 0x3A :: w₂))

theorem itemTaken {item : Rule} {front s : Text} (is : ItemFront item front) (accepted : item.Accepts s) :
    ∃ r, front ++ s = 0x5B :: r ∧ Entries item.Accepts [] r [0x2C] := by
  cases is with
  | mk items before behind => exact ⟨_,rfl,entriesThen items before behind accepted⟩

theorem memberTaken {field : Text → Rule} {name front s : Text} {j : Json} (is : MemberFront field name front)
    (spelt : Spelt (.value j) s) (accepted : ((field name).decode? j).isSome = true) :
    ∃ r, front ++ s = 0x7B :: r ∧ Entries (AcceptsMember field) [] r [0x2C] := by
  cases is with
  | @mk r lead w w' q w₁ w₂ members before behind quotation inside inside' =>
      have one : AcceptsMember field (q ++ w₁ ++ 0x3A :: w₂ ++ s) :=
        ⟨name,j,.member quotation inside inside' spelt,accepted⟩
      refine ⟨r ++ (w ++ lead ++ w') ++ (q ++ w₁ ++ 0x3A :: w₂ ++ s),?_,entriesThen members before behind one⟩
      simp

def Textual : Rule → Prop
  | .text => True
  | .version _ => True
  | .time => True
  | .identifier => True
  | _ => False

/-- Under this rule, and for the member of this name if any, the value at this place cannot be taken. -/
inductive Refuses : Rule → Option Text → Nat → Text → Fault → Prop where
  | container {rule name place t container} (textual : rule.Textual) (begins : Begins t (.opening container)) :
      Refuses rule name place t (.record (.notText name) place)
  | flag {name place t token} (begins : Begins t token)
      (other : token ≠ .scalar .null ∧ token ≠ .scalar .yes ∧ token ≠ .scalar .no) :
      Refuses .flag name place t (.record (.notFlag name) place)
  | time {name place t scalar flaw} (begins : Begins t (.scalar scalar)) (given : scalar ≠ .null)
      (bad : Instant.ofText scalar.text = .error flaw) :
      Refuses .time name place t (.time scalar.text flaw (some (.counted place)))
  | identifier {name place t scalar} (begins : Begins t (.scalar scalar)) (given : scalar ≠ .null)
      (bad : Uuid.ofText? scalar.text = none) :
      Refuses .identifier name place t (.identifier (some scalar.text) (some (.counted place)))
  | noIdentifier {name place t} (begins : Begins t (.scalar .null)) :
      Refuses .identifier name place t (.identifier none (some (.counted place)))
  | object {noun field name place t token} (begins : Begins t token) (other : token ≠ .opening .object) :
      Refuses (.object noun field) name place t (.record (.notShape noun) place)
  | list {noun item name place t token} (begins : Begins t token) (other : token ≠ .opening .array) :
      Refuses (.list noun item) name place t (.record (.notShape noun) place)
  | member {noun field name place key front t fault} (is : MemberFront field key front)
      (refuses : Refuses (field key) (some key) (place + front.length) t fault) :
      Refuses (.object noun field) name place (front ++ t) fault
  | item {noun item name place front t fault} (is : ItemFront item front)
      (refuses : Refuses item none (place + front.length) t fault) :
      Refuses (.list noun item) name place (front ++ t) fault
  | nullable {rule name place t token fault} (begins : Begins t token) (other : token ≠ .scalar .null)
      (refuses : Refuses rule name place t fault) : Refuses (.nullable rule) name place t fault

theorem refusesValue {rule : Rule} {name : Option Text} {place : Nat} {t : Text} {fault : Fault}
    (refuses : Refuses rule name place t fault) :
    ∃ front t' token, t = front ++ t' ∧ fault.place? = some (.counted (place + front.length)) ∧ Begins t' token ∧
      fault.Tells token := by
  induction refuses with
  | container _ begins => exact ⟨[],_,_,rfl,rfl,begins,_,rfl⟩
  | flag begins other => exact ⟨[],_,_,rfl,rfl,begins,other⟩
  | time begins given _ => exact ⟨[],_,_,rfl,rfl,begins,_,rfl,given,rfl⟩
  | identifier begins given _ => exact ⟨[],_,_,rfl,rfl,begins,_,rfl,given,rfl⟩
  | noIdentifier begins => exact ⟨[],_,_,rfl,rfl,begins,rfl⟩
  | object begins _ => exact ⟨[],_,_,rfl,rfl,begins,trivial⟩
  | list begins _ => exact ⟨[],_,_,rfl,rfl,begins,trivial⟩
  | @member _ _ _ _ _ front _ _ _ _ ih =>
      obtain ⟨front',t',token,rfl,told,begins,tells⟩ := ih
      refine ⟨front ++ front',t',token,(List.append_assoc ..).symm,?_,begins,tells⟩
      rw [told,List.length_append,Nat.add_assoc]
  | @item _ _ _ _ front _ _ _ _ ih =>
      obtain ⟨front',t',token,rfl,told,begins,tells⟩ := ih
      refine ⟨front ++ front',t',token,(List.append_assoc ..).symm,?_,begins,tells⟩
      rw [told,List.length_append,Nat.add_assoc]
  | nullable _ _ _ ih => exact ih

end Rule
end AuditLog
