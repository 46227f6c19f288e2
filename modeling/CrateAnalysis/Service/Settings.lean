import CrateAnalysis.Json.Issue
import CrateAnalysis.Text.Parts

/-!
# Settings

The settings of the service are read from the variables of an environment. The names of the
variables are compared without regard to case, and of two that are the same the last counts.
A variable that is not set leaves the default. A number may have blanks around it, a sign,
leading zeros, single underscores between digits and a fraction of zeros; a truth value is
one of six words for each value, in any case.
-/

set_option autoImplicit false

namespace CrateAnalysis

/-- The settings of the service. -/
structure Settings where
  appName : String
  environment : String
  host : String
  port : Int
  logLevel : String
  allowedOrigins : String
  debugDump : Bool
  debugDumpDirectory : String
deriving DecidableEq

namespace Settings

/-- The settings when no variable is set. -/
def standard : Settings where
  appName := "rust_analysis_service"
  environment := "dev"
  host := "0.0.0.0"
  port := 7070
  logLevel := "info"
  allowedOrigins := "*"
  debugDump := false
  debugDumpDirectory := "debug_output"

/-- The variables of an environment. -/
abbrev Environment := List (String × String)

/-- A name with its ASCII letters in lower case. -/
def foldCase (s : String) : List Char := s.toList.map Char.toLower

/-- The value of a variable. -/
def lookup? (environment : Environment) (name : String) : Option String :=
  (environment.reverse.find? fun entry => foldCase entry.1 = foldCase name).map (·.2)

/-- The value of digits with single underscores between them. -/
def digitsValue? (cs : List Char) : Option Nat :=
  let groups := Text.split '_' cs
  if groups.all fun group => !group.isEmpty && group.all Char.isDigit then
    some (groups.flatten.foldl (fun n c => n * 10 + (c.toNat - '0'.toNat)) 0)
  else none

/-- The value of a number without sign, which may have a fraction of zeros. -/
def wholeValue? (cs : List Char) : Option Nat :=
  match cs.span (· ≠ '.') with
  | (whole, []) => digitsValue? whole
  | (whole, _ :: fraction) => if fraction.all (· = '0') then digitsValue? whole else none

/-- The integer that a text stands for. -/
def integer? (s : String) : Option Int :=
  match Text.trim Text.isUnicodeSpace s.toList with
  | '+' :: cs => (wholeValue? cs).map Int.ofNat
  | '-' :: cs => (wholeValue? cs).map fun n => -Int.ofNat n
  | cs => (wholeValue? cs).map Int.ofNat

/-- The words for true. -/
def trueWords : List (List Char) := ["1", "true", "t", "yes", "y", "on"].map String.toList

/-- The words for false. -/
def falseWords : List (List Char) := ["0", "false", "f", "no", "n", "off"].map String.toList

/-- The truth value that a text stands for. -/
def boolean? (s : String) : Option Bool :=
  if trueWords.contains (foldCase s) then some true
  else if falseWords.contains (foldCase s) then some false
  else none

/-- The value of a variable in some form, or the default when it is not set. -/
def readVariable {α : Type} (environment : Environment) (name : String) (fallback : α)
    (read : String → Option α) (otherwise : IssueKind) : Checked α :=
  match lookup? environment name with
  | none => .ok fallback
  | some text =>
    match read text with
    | some value => .ok value
    | none => .issue otherwise [.field name]

/-- The settings that an environment asks for, or all that is wrong with it. -/
def ofEnvironment (environment : Environment) : Checked Settings :=
  let text (name fallback : String) := (lookup? environment name).getD fallback
  let build (port : Int) (debugDump : Bool) : Settings :=
    { appName := text "APP_NAME" standard.appName
      environment := text "ENV" standard.environment
      host := text "HOST" standard.host
      port := port
      logLevel := text "LOG_LEVEL" standard.logLevel
      allowedOrigins := text "CORS_ALLOW_ORIGINS" standard.allowedOrigins
      debugDump := debugDump
      debugDumpDirectory := text "DEBUG_DUMP_DIR" standard.debugDumpDirectory }
  .both build
    (readVariable environment "PORT" standard.port integer? .notInteger)
    (readVariable environment "DEBUG_DUMP" standard.debugDump boolean? .notBoolean)

/-- The origins that may call the service: the parts between commas, without the blanks
around them and without empty parts. -/
def origins (settings : Settings) : List String :=
  ((Text.split ',' settings.allowedOrigins.toList).map (Text.trim Text.isSpace)).filterMap
    fun part => if part.isEmpty then none else some (String.ofList part)

/-- The settings as a JSON value. -/
def json (settings : Settings) : Json :=
  .obj [("APP_NAME", .str settings.appName), ("ENV", .str settings.environment),
    ("HOST", .str settings.host), ("PORT", .int settings.port),
    ("LOG_LEVEL", .str settings.logLevel),
    ("CORS_ALLOW_ORIGINS", .str settings.allowedOrigins),
    ("DEBUG_DUMP", .bool settings.debugDump),
    ("DEBUG_DUMP_DIR", .str settings.debugDumpDirectory)]

end Settings

end CrateAnalysis
