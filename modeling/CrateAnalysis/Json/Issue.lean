import CrateAnalysis.Json.Basic

/-!
# Issues with given values

A value that comes from outside may fail to be what is asked for. An issue says what is wrong
and where: its place is a path of field names and list indexes from the whole value to the
part at fault. Each kind of issue has a code, by which programs tell it, and a message.
-/

set_option autoImplicit false

namespace CrateAnalysis

/-- One step of the path to a part of a value. -/
inductive PathStep
  | field (name : String)
  | index (n : Nat)
deriving DecidableEq

/-- What is wrong with a part of a value. -/
inductive IssueKind
  | notObject
  | tagMissing
  | tagUnknown (shown : String)
  | fieldMissing
  | notText
  | notList
  | notJson
  | notInteger
  | notBoolean
deriving DecidableEq

namespace IssueKind

/-- The code of a kind of issue. -/
def code : IssueKind → String
  | notObject => "model_attributes_type"
  | tagMissing => "union_tag_not_found"
  | tagUnknown _ => "union_tag_invalid"
  | fieldMissing => "missing"
  | notText => "string_type"
  | notList => "tuple_type"
  | notJson => "json_invalid"
  | notInteger => "int_parsing"
  | notBoolean => "bool_parsing"

/-- The message of a kind of issue. -/
def message : IssueKind → String
  | notObject => "Input should be a valid dictionary or object to extract fields from"
  | tagMissing => "Unable to extract tag using discriminator 'kind'"
  | tagUnknown shown =>
    "Input tag '" ++ shown ++
      "' found using 'kind' does not match any of the expected tags: 'terminal', 'rule'"
  | fieldMissing => "Field required"
  | notText => "Input should be a valid string"
  | notList => "Input should be a valid tuple"
  | notJson => "JSON decode error"
  | notInteger => "Input should be a valid integer, unable to parse string as an integer"
  | notBoolean => "Input should be a valid boolean, unable to interpret input"

end IssueKind

/-- Something wrong at some place. -/
structure Issue where
  kind : IssueKind
  path : List PathStep
deriving DecidableEq

/-- A step of a path as a JSON value. -/
def PathStep.json : PathStep → Json
  | field name => .str name
  | index n => .int n

/-- An issue as a JSON value. -/
def Issue.json (issue : Issue) : Json :=
  .obj [("type", .str issue.kind.code), ("loc", .arr (issue.path.map PathStep.json)),
    ("msg", .str issue.kind.message)]

/-- A value, or all that is wrong with what was given for it. -/
abbrev Checked (α : Type) := Except (List Issue) α

namespace Checked

/-- A check that finds one thing wrong. -/
def issue {α : Type} (kind : IssueKind) (path : List PathStep) : Checked α :=
  .error [⟨kind, path⟩]

/-- Two checks together: both have to succeed, and if not, the issues of both are listed. -/
def both {α β γ : Type} (f : α → β → γ) : Checked α → Checked β → Checked γ
  | .ok a, .ok b => .ok (f a b)
  | .ok _, .error issues => .error issues
  | .error issues, .ok _ => .error issues
  | .error issues, .error others => .error (issues ++ others)

end Checked

end CrateAnalysis
