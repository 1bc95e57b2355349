import Schemata.Value.Display

/-!
# Names and defaults of field types

A field type has a name, which appears in messages and in the names of the types built from it, and
a default, the value of a field that is absent; undefined stands for no default.
-/

namespace Schemata

mutual

/-- The name of a field type; that of a record field is the name of its record type. -/
def FieldType.name : FieldType → String
  | .any => "Any"
  | .bool _ => "Boolean"
  | .num _ => "Number"
  | .str _ => "String"
  | .record T _ => T.name
  | .optional inner _ => "Maybe(" ++ inner.name ++ ")"
  | .enum members _ => "Enum(" ++ ", ".intercalate (members.map Value.display) ++ ")"
  | .union tag _ _ => "Discriminator(" ++ tag ++ ")"
termination_by structural F => F

/-- The label of a record type, or its schema written out. -/
def RecordType.name : RecordType → String
  | ⟨_, some label, _, _, _⟩ => label
  | ⟨_, none, schema, _, _⟩ => "Record(\x7b" ++ ", ".intercalate (schemaTexts schema) ++ "\x7d)"
termination_by structural T => T

/-- The keys of a schema, each with the name of its field type. -/
def schemaTexts : List (String × FieldType) → List String
  | [] => []
  | (key, F) :: rest => (key ++ ": " ++ F.name) :: schemaTexts rest
termination_by structural schema => schema

end

namespace FieldType

/-- The value of an absent field. -/
def defaultValue : FieldType → Value
  | any => .undefined
  | bool d => d.elim .undefined .bool
  | num d => d.elim .undefined .num
  | str d => d.elim .undefined .str
  | record _ d => d.elim .undefined .record
  | optional _ d => d
  | enum _ d => d
  | union _ _ _ => .undefined

/-- The default in place of an absent value. -/
def orDefault (F : FieldType) (v : Value) : Value := if v.isUndefined then F.defaultValue else v

def isAny : FieldType → Bool
  | any => true
  | _ => false

def isStr : FieldType → Bool
  | str _ => true
  | _ => false

/-- The record type of a record field. -/
def recordType? : FieldType → Option RecordType
  | record T _ => some T
  | _ => none

end FieldType

end Schemata
