import CrateAnalysis.Json.Parse
import CrateAnalysis.Report.Dump
import CrateAnalysis.Service.Settings
import CrateAnalysis.Text.Utf8
import CrateAnalysis.Tree.Validation

/-!
# Endpoints

The service answers requests at four paths, each with one method: analysing a source text that
is the body itself, analysing one that is a member of a JSON body, reducing a concrete tree,
and telling that it is alive. Any other path is not found, and another method at one of these
paths is not allowed.

`respond` is one request and its answer. The only thing that a request leaves behind is the
dump of an analysis, when the settings ask for it.
-/

set_option autoImplicit false

namespace CrateAnalysis

/-- A request. -/
structure Request where
  method : String
  path : String
  headers : List (String × String)
  body : List Utf8.Byte

/-- An answer. -/
structure Response where
  status : Nat
  headers : List (String × String)
  body : Json

/-- What the service does at its paths. -/
inductive Route
  | analyseText
  | analyseJson
  | reduceTree
  | health
deriving DecidableEq

namespace Route

/-- All routes. -/
def all : List Route := [analyseText, analyseJson, reduceTree, health]

/-- The path of a route. -/
def path : Route → String
  | analyseText => "/analyse"
  | analyseJson => "/analyze"
  | reduceTree => "/reduce"
  | health => "/health"

/-- The one method of a route. -/
def method : Route → String
  | health => "GET"
  | _ => "POST"

/-- The route of a path, whatever follows a question mark. -/
def ofPath? (target : String) : Option Route :=
  let pathPart := String.ofList (target.toList.takeWhile (· ≠ '?'))
  all.find? (·.path = pathPart)

end Route

/-- The version that the service tells. -/
def serviceVersion : String := "1.0.0"

namespace Request

/-- The value of a header. -/
def header? (request : Request) (name : String) : Option String :=
  (request.headers.find? fun header =>
    Settings.foldCase header.1 = Settings.foldCase name).map (·.2)

/-- Whether the body claims to be JSON: it does unless its content type says otherwise. What
follows a semicolon in a content type does not matter. -/
def claimsJson (request : Request) : Bool :=
  match request.header? "content-type" with
  | none => true
  | some contentType =>
    let essence := Text.trim Text.isSpace
      ((Settings.foldCase contentType).takeWhile (· ≠ ';'))
    match Text.split '/' essence with
    | [mainType, subtype] =>
      mainType = "application".toList &&
        (subtype = "json".toList || "+json".toList.isSuffixOf subtype)
    | _ => essence.isEmpty

end Request

/-- Why a request has no good answer. -/
inductive Refusal
  | notFound
  | methodNotAllowed (allowed : String)
  | unreadableBody
  | invalidBody (issues : List Issue)

namespace Refusal

/-- The body of an answer that only says what is wrong. -/
def detail (v : Json) : Json := .obj [("detail", v)]

/-- The answer to a refused request. -/
def response : Refusal → Response
  | notFound => ⟨404, [], detail (.str "Not Found")⟩
  | methodNotAllowed allowed =>
    ⟨405, [("allow", allowed)], detail (.str "Method Not Allowed")⟩
  | unreadableBody => ⟨400, [], detail (.str "There was an error parsing the body")⟩
  | invalidBody issues => ⟨422, [], detail (.arr (issues.map Issue.json))⟩

end Refusal

/-- The first step of the path to every part of a body. -/
def bodyStep : PathStep := .field "body"

/-- A check of a body, the failure of which refuses the request. -/
def Checked.orRefuse {α : Type} : Checked α → Except Refusal α
  | .ok a => .ok a
  | .error issues => .error (.invalidBody issues)

/-- The mark that may stand before a text in UTF-8. -/
def byteOrderMark : Char := '\ufeff'

/-- The characters without one byte order mark at the beginning. -/
def withoutMark : List Char → List Char
  | c :: cs => if c = byteOrderMark then cs else c :: cs
  | [] => []

/-- The members of the JSON object that the body of a request holds. -/
def bodyMembers (request : Request) : Except Refusal (List (String × Json)) :=
  if request.body.isEmpty then (Checked.issue .fieldMissing [bodyStep]).orRefuse
  else if !request.claimsJson then (Checked.issue .notObject [bodyStep]).orRefuse
  else
    match Utf8.decode? request.body with
    | none => .error .unreadableBody
    | some cs =>
      match Json.parse (withoutMark cs) with
      | .error offset => (Checked.issue .notJson [bodyStep, .index offset]).orRefuse
      | .ok (.obj members) => .ok members
      | .ok _ => (Checked.issue .notObject [bodyStep]).orRefuse

/-- The source text that a JSON body holds. -/
def sourceOfBody (request : Request) : Except Refusal String := do
  let members ← bodyMembers request
  (requiredText members "code" [bodyStep]).orRefuse

/-- The concrete tree that a JSON body holds. -/
def treeOfBody (request : Request) : Except Refusal Cst := do
  let members ← bodyMembers request
  let path := [bodyStep, .field "cst"]
  match Json.member? members "cst" with
  | some v => (readCst path v).orRefuse
  | none => (Checked.issue .fieldMissing path).orRefuse

/-- What the service works with: its settings, where tokens and trees come from, and the
stamp of the present moment. -/
structure Service where
  settings : Settings
  adapter : Adapter
  stamp : String

namespace Service

/-- Analyses a source text; a dump of it is left behind if the settings ask for it. -/
def analysisOf (service : Service) (source : String) : Json × Dump.Directory :=
  let result := analyse service.adapter source
  let files :=
    if service.settings.debugDump then Dump.record [] service.stamp source result else []
  (Report.ofResult result, files)

/-- What the service does for a request at one of its routes: the body of its answer and the
files that are left behind. -/
def serve (service : Service) (request : Request) :
    Route → Except Refusal (Json × Dump.Directory)
  | .analyseText => .ok (service.analysisOf (String.ofList (Utf8.decode request.body)))
  | .analyseJson => do
    let source ← sourceOfBody request
    .ok (service.analysisOf source)
  | .reduceTree => do
    let tree ← treeOfBody request
    .ok (Report.ofReduction tree, [])
  | .health =>
    .ok (.obj [("status", .str "ok"), ("service", .str service.settings.appName),
      ("version", .str serviceVersion)], [])

/-- Finds the route of a request and serves it. -/
def dispatch (service : Service) (request : Request) :
    Except Refusal (Json × Dump.Directory) :=
  match Route.ofPath? request.path with
  | none => .error .notFound
  | some route =>
    if request.method = route.method then service.serve request route
    else .error (.methodNotAllowed route.method)

/-- The header that lets a page from another origin read the answer: it is there when the
request comes from a page and any origin, or this one, may call the service. -/
def originHeaders (service : Service) (request : Request) : List (String × String) :=
  match request.header? "origin" with
  | none => []
  | some origin =>
    let origins := service.settings.origins
    if origins.contains "*" then [("access-control-allow-origin", "*")]
    else if origins.contains origin then [("access-control-allow-origin", origin)]
    else []

/-- The answer to a request, and the files that it leaves behind. -/
def respond (service : Service) (request : Request) : Response × Dump.Directory :=
  let (response, files) := match service.dispatch request with
    | .ok (body, files) => ((⟨200, [], body⟩ : Response), files)
    | .error refusal => (refusal.response, [])
  ({ response with
      headers := response.headers ++ ("content-type", "application/json") ::
        service.originHeaders request },
    files)

end Service

end CrateAnalysis
