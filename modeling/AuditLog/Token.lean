import AuditLog.Text

/-! Tokens of a JSON document. A string holds its decoded text, a number its spelling. -/
namespace AuditLog

inductive Scalar where
  | string (value : Text)
  | number (spelling : Text)
  | yes
  | no
  | null
  deriving DecidableEq, Repr

inductive Container where
  | object
  | array
  deriving DecidableEq, Repr

inductive Token where
  | opening (container : Container)
  | closing (container : Container)
  | field (name : Text)
  | scalar (scalar : Scalar)
  deriving DecidableEq, Repr

def Scalar.text : Scalar → Text
  | .string value => value
  | .number spelling => spelling
  | .yes => Text.of "true"
  | .no => Text.of "false"
  | .null => Text.of "null"

namespace Token

def text : Token → Text
  | .opening .object => [0x7B]
  | .opening .array => [0x5B]
  | .closing .object => [0x7D]
  | .closing .array => [0x5D]
  | .field name => name
  | .scalar s => s.text

def label : Token → Text
  | .opening .object => Text.of "START_OBJECT"
  | .opening .array => Text.of "START_ARRAY"
  | .closing .object => Text.of "END_OBJECT"
  | .closing .array => Text.of "END_ARRAY"
  | .field _ => Text.of "FIELD_NAME"
  | .scalar (.string _) => Text.of "VALUE_STRING"
  | .scalar (.number _) => Text.of "VALUE_NUMBER"
  | .scalar .yes => Text.of "VALUE_TRUE"
  | .scalar .no => Text.of "VALUE_FALSE"
  | .scalar .null => Text.of "VALUE_NULL"

def leafText? : Token → Option Text
  | .field name => some name
  | .scalar .null => none
  | .scalar s => some s.text
  | _ => none

def endsValue : Token → Bool
  | .closing _ => true
  | .scalar _ => true
  | _ => false

def closes : Token → Bool
  | .closing _ => true
  | _ => false

end Token
end AuditLog
