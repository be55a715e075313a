import AuditLog.Rule

/-! The rules of an audit record and of the structures inside it. A field that no table names
takes any value. -/
namespace AuditLog.Schema

def table (entries : List (Text × Rule)) (name : Text) : Rule := (entries.lookup name).getD .anything

def texts (names : List String) : List (Text × Rule) := names.map (fun name => (Text.of name,.text))

def attributes : Rule := .nullable (.object (Text.of "a Attributes object") (fun _ => .text))

def sessionIssuer : Rule :=
  .nullable (.object (Text.of "a SessionIssuer object")
    (table (texts ["type","principalId","arn","accountId","userName"])))

def webIdentity : Rule :=
  .nullable (.object (Text.of "a WebIdentitySessionContext object")
    (table ((Text.of "attributes",attributes) :: texts ["federatedProvider"])))

def sessionContext : Rule :=
  .nullable (.object (Text.of "a SessionContext object")
    (table [(Text.of "attributes",attributes),(Text.of "sessionIssuer",sessionIssuer),
      (Text.of "webIdFederationData",webIdentity)]))

def userIdentity : Rule :=
  .nullable (.object (Text.of "a UserIdentity object")
    (table ((Text.of "sessionContext",sessionContext) ::
      texts ["type","principalId","arn","accountId","accessKeyId","userName","invokedBy","identityProvider"])))

def resource : Rule := .object (Text.of "a Resource object") (fun _ => .anything)

def resources : Rule := .nullable (.list (Text.of "a list of resources") resource)

def record (ceiling : Float) : Rule :=
  .object (Text.of "an event record object")
    (table [(Text.of "eventVersion",.version ceiling),(Text.of "userIdentity",userIdentity),
      (Text.of "eventTime",.time),(Text.of "eventID",.identifier),(Text.of "readOnly",.flag),
      (Text.of "resources",resources),(Text.of "managementEvent",.flag)])

end AuditLog.Schema
