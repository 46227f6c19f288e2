/-!
# Categories of rules

A reduction treats a rule by its category. A wrapper only leads from one level to the next
and gives way to its child when it has one; an important rule is kept even when nothing is
left below it; any other rule is an ordinary one. Categories are looked up under the canonical
name of a rule, which is its name without one suffix that some tools append.
-/

set_option autoImplicit false

namespace CrateAnalysis

/-- How a reduction treats a rule that is not an ordinary one. -/
inductive RuleCategory
  | wrapper
  | important
deriving DecidableEq

namespace RuleCategory

/-- The name of a category. -/
def name : RuleCategory → String
  | wrapper => "wrapper"
  | important => "important"

/-- The category of a name. -/
def ofName? (name : String) : Option RuleCategory :=
  [wrapper, important].find? (·.name = name)

end RuleCategory

/-- Gives some names a category. -/
abbrev CategoryTable := String → Option RuleCategory

/-- The suffix that a canonical name lacks. -/
def contextSuffix : List Char := "Context".toList

/-- The canonical name of a rule: its name without the suffix, unless nothing else is left.
Only one suffix is dropped. -/
def canonicalName (name : String) : String :=
  let cs := name.toList
  if contextSuffix.length < cs.length ∧ contextSuffix.isSuffixOf cs then
    String.ofList (cs.take (cs.length - contextSuffix.length))
  else name

namespace CategoryTable

/-- The category of a rule, looked up under its canonical name. -/
def categoryOf (table : CategoryTable) (name : String) : Option RuleCategory :=
  table (canonicalName name)

/-- The table that gives each of some names a category; the last entry of a name counts. -/
def ofList (entries : List (String × RuleCategory)) : CategoryTable := fun name =>
  (entries.reverse.find? (·.1 = name)).map (·.2)

/-- The wrappers of the grammar of a crate: the levels of expressions, paths, operators. -/
def wrapperRules : List String :=
  ["expression", "assignment_expression", "range_expression", "logical_or_expression",
    "logical_and_expression", "comparison_expression", "bitwise_or_expression",
    "bitwise_xor_expression", "bitwise_and_expression", "shift_expression",
    "additive_expression", "multiplicative_expression", "cast_expression",
    "unary_expression", "postfix_expression", "primary_expression", "block_like_expression",
    "literal_expression", "path_expression", "path_segment", "path", "assignment_operator",
    "comparison_operator", "unary_operator"]

/-- The important rules of the grammar of a crate: declarations, statements and blocks. -/
def importantRules : List String :=
  ["crate", "item", "statement", "function_declaration", "function_parameters",
    "struct_declaration", "struct_fields", "tuple_fields", "enum_declaration",
    "impl_declaration", "trait_declaration", "use_declaration", "constant_declaration",
    "let_statement", "expression_statement", "block_expression"]

/-- The categories of the rules of a crate. -/
def standard : CategoryTable := fun name =>
  if name ∈ wrapperRules then some .wrapper
  else if name ∈ importantRules then some .important
  else none

end CategoryTable

end CrateAnalysis
