import AuditLog.Value

/-! The account of an event: the recipient's, else the identity's own, else that of the issuer of
its session. Only text counts. Whatever account the record claims for itself is dropped first. -/
namespace AuditLog.Account

def key : Text := Text.of "accountId"

def textAt? (path : List Text) (value : Value) : Option Text :=
  match path, value with
  | [], .text t => some t
  | [], _ => none
  | name :: rest, value => (value.field? name).bind (textAt? rest)

def places : List (List Text) :=
  [[Text.of "recipientAccountId"],[Text.of "userIdentity",key],
    [Text.of "userIdentity",Text.of "sessionContext",Text.of "sessionIssuer",key]]

def of? (record : Value) : Option Text := places.findSome? (fun path => textAt? path record)

def resolve : Value → Value
  | .object fields =>
      let bare := Fields.erase fields key
      match of? (.object bare) with
      | some account => .object (Fields.put bare key (.text account))
      | none => .object bare
  | value => value

end AuditLog.Account
