import SeparableTransforms.Persistence.Document
import SeparableTransforms.Transform.Descriptor

/-!
# Stored descriptors

A descriptor is stored as a record with a field `kind` and the fields that the
kind requires.  A matrix is stored with its entries column by column, followed
by the number of rows and of columns.

Reading ignores fields of a record that it does not know, and refuses a document
in which a required field is missing or has another form.  It does not ask
whether a matrix is affine, or whether the parts of a chain fit.

The positional form of a descriptor starts with its kind.  A descriptor inside
another one may give its kind by number.
-/

namespace SeparableTransforms

section Matrices

/-- The stored form of a matrix. -/
def DenseMatrix.toDocument (m : DenseMatrix Float) : Document :=
  .record [("elements",
    .list [.list (m.columnMajor.map Document.ofFloat), .ofSize m.rows, .ofSize m.cols])]

/-- The matrix that a document stores. -/
def DenseMatrix.ofDocument? (d : Document) : Option (DenseMatrix Float) := do
  let fields ← d.fields? ["elements"]
  let elements ← Document.field? fields "elements"
  match elements with
  | .list [data, rows, cols] => do
      let items ← data.list?
      let values ← items.mapM Document.float?
      let r ← rows.size?
      let c ← cols.size?
      ofColumnMajor? r c values
  | _ => none

end Matrices

namespace Descriptor

section Kinds

/-- The kinds of descriptors, in the order of their numbers. -/
inductive Kind where
  | linear
  | chain
  | passThrough
  | kernel
deriving DecidableEq, Repr

/-- All kinds, each at the place of its number. -/
def Kind.all : List Kind :=
  [linear, chain, passThrough, kernel]

/-- The stored name of a kind. -/
def Kind.label : Kind → String
  | linear => "linear"
  | chain => "concatenated"
  | passThrough => "pass_through"
  | kernel => "non_linear"

/-- The fields that a kind requires, in the order of the positional form. -/
def Kind.fieldNames : Kind → List String
  | linear => ["matrix"]
  | chain => ["first", "second"]
  | passThrough => ["first_affected_ordinate", "sub_transform", "num_trailing_ordinates"]
  | kernel => ["name", "source_dimensions", "target_dimensions"]

/-- The kind that a document stores by its name, or inside another descriptor by its number. -/
def Kind.ofDocument? (inside : Bool) : Document → Option Kind
  | .text s => all.find? fun kind => kind.label == s
  | .integer n => if inside && decide (0 ≤ n) then all[n.toNat]? else none
  | _ => none

end Kinds

section Writing

/-- The record of a kind with the values of its fields. -/
def stored (kind : Kind) (values : List Document) : Document :=
  .record (("kind", .text kind.label) :: kind.fieldNames.zip values)

/-- The stored form of a descriptor. -/
def toDocument : Descriptor Float → Document
  | linear m => stored .linear [m.toDocument]
  | chain a b => stored .chain [a.toDocument, b.toDocument]
  | passThrough k t n => stored .passThrough [.ofSize k, t.toDocument, .ofSize n]
  | kernel name s t => stored .kernel [.text name, .ofSize s, .ofSize t]

end Writing

section Reading

/-- The descriptor of a kind, given its fields.  The last argument holds, under the name of each
field, the descriptor that the field itself stores, if it does. -/
def ofFields? (kind : Kind) (fields : List (String × Document))
    (inner : List (String × Option (Descriptor Float))) : Option (Descriptor Float) := do
  let part := fun name => (inner.lookup name).join
  let size := fun name => (Document.field? fields name).bind Document.size?
  match kind with
  | .linear => do
      let matrix ← Document.field? fields "matrix"
      let m ← DenseMatrix.ofDocument? matrix
      return linear m
  | .chain => do
      let first ← part "first"
      let second ← part "second"
      return chain first second
  | .passThrough => do
      let leading ← size "first_affected_ordinate"
      let sub ← part "sub_transform"
      let trailing ← size "num_trailing_ordinates"
      return passThrough leading sub trailing
  | .kernel => do
      let name ← (Document.field? fields "name").bind Document.text?
      let sources ← size "source_dimensions"
      let targets ← size "target_dimensions"
      return kernel name sources targets

mutual

/-- The descriptor that a document stores, on its own or inside another one. -/
def read? (inside : Bool) : Document → Option (Descriptor Float)
  | .record fields => do
      let tag ← Document.field? fields "kind"
      let kind ← Kind.ofDocument? inside tag
      ofFields? kind fields (readFields fields)
  | .list (tag :: values) => do
      let kind ← Kind.ofDocument? inside tag
      let fields ← Document.named? kind.fieldNames values
      ofFields? kind fields (kind.fieldNames.zip (readItems values))
  | _ => none

/-- The descriptors that the fields of a record store. -/
def readFields : List (String × Document) → List (String × Option (Descriptor Float))
  | [] => []
  | (name, d) :: rest => (name, read? true d) :: readFields rest

/-- The descriptors that the items of a list store. -/
def readItems : List Document → List (Option (Descriptor Float))
  | [] => []
  | d :: rest => read? true d :: readItems rest

end

/-- The descriptor that a document stores. -/
def ofDocument? (d : Document) : Option (Descriptor Float) :=
  read? false d

end Reading

end Descriptor
end SeparableTransforms
