import SeparableTransforms.Persistence.Document
import SeparableTransforms.Separation.Basic

/-!
# Stored options

Options are stored as records of truth values.  Reading requires all fields and
ignores those of a record that it does not know.
-/

namespace SeparableTransforms

section Options

/-- A required truth value of a record. -/
def Document.flag? (fields : List (String × Document)) (name : String) : Option Bool :=
  (Document.field? fields name).bind Document.boolean?

/-- The stored form of assembly options. -/
def AssemblyOptions.toDocument (options : AssemblyOptions) : Document :=
  .record [("fold_linear", .boolean options.foldLinear),
    ("elide_identity", .boolean options.elideIdentity)]

/-- The assembly options that a document stores. -/
def AssemblyOptions.ofDocument? (d : Document) : Option AssemblyOptions := do
  let fields ← d.fields? ["fold_linear", "elide_identity"]
  let fold ← Document.flag? fields "fold_linear"
  let elide ← Document.flag? fields "elide_identity"
  return ⟨fold, elide⟩

/-- The stored form of separation options. -/
def SeparationOptions.toDocument (options : SeparationOptions) : Document :=
  .record [("trim_source_dimensions", .boolean options.trimSources)]

/-- The separation options that a document stores. -/
def SeparationOptions.ofDocument? (d : Document) : Option SeparationOptions := do
  let fields ← d.fields? ["trim_source_dimensions"]
  let trim ← Document.flag? fields "trim_source_dimensions"
  return ⟨trim⟩

end Options

end SeparableTransforms
