/-!
# Errors

An error is a cause. It holds the texts of what it is about, rendered when it arises, so that two
failures are the same exactly if they say the same about the same things; `message` gives the
wording.

Three kinds arise. A *read error* is a value that a field type does not accept. A *record error* is
a record that cannot be built or written. The two refer to each other: a field that cannot be read
makes a record fail, and a nested record that cannot be built makes a field fail. A *declaration
error* is a type or a field type that cannot be made from its parts.
-/

namespace Schemata

mutual

/-- Why a field type refuses a value. -/
inductive ReadError where
  /-- The value is not of a primitive kind. -/
  | notKind (shown kind : String)
  /-- The value is neither an instance of a record type nor something to build one from. -/
  | notInstance (shown typeName : String)
  /-- The record to be made from the value cannot be built. -/
  | notBuilt (cause : RecordError)
  /-- The value is not nullish and the inner type refuses it. -/
  | notOptional (shown inner : String)
  /-- The value is none of the members. -/
  | notMember (shown : String) (members : List String)
  /-- The value cannot hold a tag. -/
  | notObject (shown : String)
  /-- The value has no tag. -/
  | noTag (shown tag : String)
  /-- No branch has the text of the value's tag. -/
  | unknownTag (shown : String) (known : List String)

/-- Why a record cannot be built or written. -/
inductive RecordError where
  /-- The value has no fields to build a record from. -/
  | notASource (shown typeName : String)
  /-- A field's type refuses the value. -/
  | invalidField (key : String) (cause : ReadError)
  /-- The type has no such field or property. -/
  | unknownField (key typeName : String)
  /-- A write in place to a record that is not a draft. -/
  | notADraft
  /-- A nested write without keys. -/
  | emptyPath
  /-- A path goes on below a value that has no keys. -/
  | notAContainer (path : List String) (shown : String)

end

deriving instance DecidableEq for ReadError, RecordError

/-- Why a type or field type cannot be declared. -/
inductive DeclarationError where
  /-- A field is declared by a value that names no type. -/
  | unresolvedField (key : String)
  /-- An extension that adds no field. -/
  | noFields
  /-- An extension of something other than a record type. -/
  | baseNotRecord
  /-- An optional of nothing or of everything. -/
  | notOptionalType (spec : String)
  /-- A default that the inner type of an optional refuses. -/
  | notOptionalDefault (shown inner : String)
  /-- An enumeration without members. -/
  | noMembers
  /-- The members of an enumeration are not a list. -/
  | membersNotList (shown : String)
  /-- A default that is none of the members. -/
  | notMemberDefault (shown : String) (members : List String)
  /-- A union whose tag has no name. -/
  | emptyTag
  /-- A branch that is not a record type. -/
  | branchNotRecord (branch : String)
  /-- A branch without a field for the tag. -/
  | branchWithoutTag (branch tag : String)
  /-- A branch whose tag is not a string. -/
  | branchTagNotString (branch tag : String)
  /-- A union without branches. -/
  | noBranches
deriving DecidableEq

/-! ## Kinds -/

/-- What a record error is about: an argument, the state of a record, a field, a key or a path. -/
inductive RecordError.Kind where
  | invalidArgument
  | invalidState
  | invalidField
  | unknownField
  | invalidPath
deriving DecidableEq

/-- The kind of a record error. -/
def RecordError.kind : RecordError → RecordError.Kind
  | .notASource .. | .emptyPath => .invalidArgument
  | .notADraft => .invalidState
  | .invalidField .. => .invalidField
  | .unknownField .. => .unknownField
  | .notAContainer .. => .invalidPath

/-! ## Wording -/

/-- The wording shared by everything that is missing from a set. -/
def notInSet (shown : String) (members : List String) : String :=
  shown ++ " is not in the set \x7b" ++ ", ".intercalate members ++ "\x7d"

mutual

/-- The text of a read error. -/
def ReadError.message : ReadError → String
  | .notKind shown kind => "\"" ++ shown ++ "\" is not a " ++ kind
  | .notInstance shown typeName => "\"" ++ shown ++ "\" is not a " ++ typeName
  | .notBuilt cause => cause.message
  | .notOptional shown inner => "\"" ++ shown ++ "\" is not nully nor it is of " ++ inner ++ " type"
  | .notMember shown members => notInSet shown members
  | .notObject shown => shown ++ " is not an object"
  | .noTag shown tag => shown ++ " does not have a " ++ tag ++ " property"
  | .unknownTag shown known => notInSet shown known
termination_by structural e => e

/-- The text of a record error. -/
def RecordError.message : RecordError → String
  | .notASource shown typeName => shown ++ " cannot be used to construct " ++ typeName
  | .invalidField key cause => "Invalid value for \"" ++ key ++ "\" field: " ++ cause.message
  | .unknownField key typeName => "Cannot set unknown key \"" ++ key ++ "\" on " ++ typeName
  | .notADraft => "Cannot set on an immutable record."
  | .emptyPath => "set_in requires a non-empty path"
  | .notAContainer path shown =>
    "Cannot update within non-data-structure value in path [" ++ ", ".intercalate path ++ "]: "
      ++ shown
termination_by structural e => e

end

/-- The text of a declaration error. -/
def DeclarationError.message : DeclarationError → String
  | .unresolvedField key => "Invalid field descriptor provided for \"" ++ key ++ "\" field"
  | .noFields => "At least one field must be defined"
  | .baseNotRecord => "BaseRecord must be a Record type"
  | .notOptionalType spec => spec ++ " is not a valid type"
  | .notOptionalDefault shown inner => shown ++ " is not nully nor of " ++ inner ++ " type"
  | .noMembers => " must contain elements"
  | .membersNotList shown => shown ++ " must be an array"
  | .notMemberDefault shown members => notInSet shown members
  | .emptyTag => " must be a string"
  | .branchNotRecord branch => branch ++ " type must be a record"
  | .branchWithoutTag branch tag => branch ++ " type must have a " ++ tag ++ " property"
  | .branchTagNotString branch tag => branch ++ "." ++ tag ++ " must be a String type"
  | .noBranches => "\x7b\x7d must contain at least one type mapping"

end Schemata
