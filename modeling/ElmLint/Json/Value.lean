import ElmLint.Text.CodePoint

/-!
# JSON values

Numbers are kept as they are written, because nothing is computed with them. Strings are texts, because an escape can name a
surrogate. The members of an object keep their order; of members with the same name only one is kept, with the last value at
the first place.
-/

namespace ElmLint

/-- A JSON value. -/
inductive JsonValue where
  | null
  | bool (value : Bool)
  /-- A number as it is written, `NaN` and the infinities included. -/
  | number (text : String)
  | string (value : Text)
  | array (items : List JsonValue)
  | object (members : List (Text × JsonValue))
deriving Inhabited

namespace JsonValue

/-- A natural number. -/
def ofNat (n : Nat) : JsonValue := .number (toString n)

/-- A list of strings. -/
def texts (items : List Text) : JsonValue := .array (items.map .string)

/-- A list of strings without surrogates. -/
def strings (items : List String) : JsonValue := .texts (items.map Text.ofString)

/-- The text of the string that a value is. -/
def text? : JsonValue → Option Text
  | string value => some value
  | _ => none

/-- The texts of the strings that a value is a list of. -/
def texts? : JsonValue → Option (List Text)
  | array items => items.mapM text?
  | _ => none

/-- The members of the object that a value is. -/
def members? : JsonValue → Option (List (Text × JsonValue))
  | object members => some members
  | _ => none

/-- The members with one more, which replaces the value of a member of the same name. -/
def setMember (name : Text) (value : JsonValue) : List (Text × JsonValue) → List (Text × JsonValue)
  | [] => [(name, value)]
  | (n, v) :: rest => if n = name then (n, value) :: rest else (n, v) :: setMember name value rest

/-- The members that result from reading some one after another. -/
def membersOf (members : List (Text × JsonValue)) : List (Text × JsonValue) :=
  members.foldl (fun ms (name, value) => setMember name value ms) []

end JsonValue

end ElmLint
