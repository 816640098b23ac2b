/-!
# Documents

A document is a value in the common data model of exchange formats: nothing, a
truth value, a number, a text, a list or a record of named fields.  An integer
and a number with a fraction are different documents.  A number that is not
finite has no place in the model.

The reading functions give `none` for a document of another form.
-/

namespace SeparableTransforms

/-- A value to be stored or exchanged. -/
inductive Document where
  | null
  | boolean (value : Bool)
  | integer (value : Int)
  | real (value : Float)
  | text (value : String)
  | list (items : List Document)
  | record (fields : List (String × Document))
deriving Inhabited

namespace Document

section Writing

/-- The document of a size. -/
def ofSize (n : Nat) : Document :=
  integer n

/-- The document of a float; a float that is not finite is written as nothing. -/
def ofFloat (x : Float) : Document :=
  if x.isFinite then real x else null

end Writing

section Reading

/-- The value of the field with the given name. -/
def field? (fields : List (String × Document)) (name : String) : Option Document :=
  fields.lookup name

/-- The values of a positional form under the names of the fields, if there is one for each. -/
def named? (names : List String) (values : List Document) : Option (List (String × Document)) :=
  if values.length = names.length then some (names.zip values) else none

/-- The fields of a record, or of the positional form of one with the given fields. -/
def fields? (names : List String) : Document → Option (List (String × Document))
  | record fields => some fields
  | list values => named? names values
  | _ => none

/-- A truth value. -/
def boolean? : Document → Option Bool
  | boolean b => some b
  | _ => none

/-- A text. -/
def text? : Document → Option String
  | text s => some s
  | _ => none

/-- The items of a list. -/
def list? : Document → Option (List Document)
  | list items => some items
  | _ => none

/-- A size: an integer that fits into 64 bits without a sign. -/
def size? : Document → Option Nat
  | integer n => if 0 ≤ n ∧ n.toNat < UInt64.size then some n.toNat else none
  | _ => none

/-- A float, which may be written as an integer. -/
def float? : Document → Option Float
  | integer n => some (Float.ofInt n)
  | real x => some x
  | _ => none

end Reading

end Document
end SeparableTransforms
