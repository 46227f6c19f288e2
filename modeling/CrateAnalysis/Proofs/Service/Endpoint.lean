import CrateAnalysis.Proofs.Json.Document
import CrateAnalysis.Proofs.Text.Utf8
import CrateAnalysis.Service.Endpoint

/-!
# Two ways to send a source text

A source text can be sent as the body of a request, or as a member of a JSON document. Both bodies
are UTF-8, and both ways lead to the same analysis: the bytes are decoded to the text that was
encoded, and the document is read as the text that it was written for, however it was written. So
the two answers have the same body, and neither is ever a refusal.
-/

set_option autoImplicit false

namespace CrateAnalysis

/-- A text as the bytes of a body. -/
def Utf8.bytes (text : String) : List Utf8.Byte := text.toUTF8.data.toList

/-- The encoding of the library is the one of the standard. -/
theorem Utf8.encode_eq_bytes (text : String) : Utf8.encode text.toList = Utf8.bytes text :=
  encode_toList text

namespace Request

/-- The request that sends a source text as its body. -/
def ofText (headers : List (String × String)) (source : String) : Request :=
  ⟨"POST", "/analyse", headers, Utf8.bytes source⟩

/-- The request that sends a document from which the source text is read. -/
def ofDocument (headers : List (String × String)) (document : String) : Request :=
  ⟨"POST", "/analyze", headers, Utf8.bytes document⟩

/-- A content type for JSON, in any case and with or without parameters. -/
def IsJsonType (contentType : String) : Prop :=
  ∃ parameters, Settings.foldCase contentType = "application/json".toList ++ parameters ∧
    parameters.head?.all (· = ';')

/-- A request with a content type for JSON is taken for JSON. -/
theorem claimsJson_of_isJsonType {request : Request} {contentType : String}
    (hheader : request.header? "content-type" = some contentType)
    (htype : IsJsonType contentType) : request.claimsJson := by
  obtain ⟨parameters, hfold, hparameters⟩ := htype
  have hessence : (Settings.foldCase contentType).takeWhile (· ≠ ';') =
      "application/json".toList := by
    rw [hfold, List.takeWhile_append_of_pos (by simp)]
    cases parameters with
    | nil => rfl
    | cons c parameters =>
      have hc : c = ';' := by simpa using hparameters
      simp [hc]
  have htrim : Text.trim Text.isSpace "application/json".toList = "application/json".toList := by
    decide +kernel
  have hsplit : Text.split '/' "application/json".toList =
      ["application".toList, "json".toList] := by decide +kernel
  rw [claimsJson, hheader]
  simp only [hessence, htrim, hsplit]
  simp

end Request

/-! ## The source text of a request -/

/-- A document begins with a blank or a brace, so it has no mark to lose. -/
theorem withoutMark_oneMember {name text : String} {document : List Char}
    (h : Json.OneMember name text document) : withoutMark document = document := by
  cases h with
  | @mk beforeBrace _ _ _ _ _ _ _ hbeforeBrace =>
    cases beforeBrace with
    | nil => rfl
    | cons c beforeBrace =>
      have hlisted := hbeforeBrace c (.head _)
      have hc : c ≠ byteOrderMark := by
        rintro rfl
        revert hlisted
        decide
      exact if_neg hc

/-- A document with a member is not empty. -/
theorem oneMember_ne_nil {name text : String} {document : List Char}
    (h : Json.OneMember name text document) : document ≠ [] := by
  cases h
  exact List.append_ne_nil_of_right_ne_nil _ (List.cons_ne_nil _ _)

/-- A text that is not empty has bytes. -/
theorem Utf8.encode_ne_nil {cs : List Char} (h : cs ≠ []) : Utf8.encode cs ≠ [] := by
  intro hnil
  have hdecode := Utf8.decode_encode cs
  rw [hnil, decode, units, List.map_nil] at hdecode
  exact h hdecode.symm

/-- The source text that was written into a document is read from it. -/
theorem sourceOfBody_ofDocument {headers : List (String × String)} {source document : String}
    (hdocument : Json.OneMember "code" source document.toList)
    (hjson : (Request.ofDocument headers document).claimsJson) :
    sourceOfBody (Request.ofDocument headers document) = .ok source := by
  have hbody : (Request.ofDocument headers document).body = Utf8.encode document.toList :=
    (Utf8.encode_eq_bytes document).symm
  have hne : (Utf8.encode document.toList).isEmpty = false :=
    List.isEmpty_eq_false_iff.mpr (Utf8.encode_ne_nil (oneMember_ne_nil hdocument))
  have hmembers : bodyMembers (Request.ofDocument headers document) =
      .ok [("code", .str source)] := by
    rw [bodyMembers, hbody, hne, hjson, Utf8.decode?_encode]
    simp only [Bool.false_eq_true, Bool.not_true, if_false]
    rw [withoutMark_oneMember hdocument, Json.parse_oneMember hdocument]
  rw [sourceOfBody, hmembers]
  rfl

/-! ## The answers -/

/-- A route is found under its path. -/
theorem Route.ofPath?_path (route : Route) : Route.ofPath? route.path = some route := by
  cases route <;> decide +kernel

namespace Service

/-- A request with the path and the method of a route is served there. -/
theorem dispatch_of_route (service : Service) {request : Request} (route : Route)
    (hpath : request.path = route.path) (hmethod : request.method = route.method) :
    service.dispatch request = service.serve request route := by
  rw [dispatch, hpath, Route.ofPath?_path]
  exact if_pos hmethod

/-- A source text that is sent as the body is analysed. -/
theorem dispatch_ofText (service : Service) (headers : List (String × String)) (source : String) :
    service.dispatch (.ofText headers source) = .ok (service.analysisOf source) := by
  have hbody : Utf8.decode (Request.ofText headers source).body = source.toList := by
    rw [Request.ofText, ← Utf8.encode_eq_bytes, Utf8.decode_encode]
  rw [dispatch_of_route service .analyseText rfl rfl, serve, hbody, String.ofList_toList]

/-- A source text that is sent as the only member of a document is analysed. -/
theorem dispatch_ofDocument (service : Service) {headers : List (String × String)}
    {source document : String} (hdocument : Json.OneMember "code" source document.toList)
    (hjson : (Request.ofDocument headers document).claimsJson) :
    service.dispatch (.ofDocument headers document) = .ok (service.analysisOf source) := by
  rw [dispatch_of_route service .analyseJson rfl rfl, serve,
    sourceOfBody_ofDocument hdocument hjson]
  rfl

/-- What a route answers is sent with the status of success, and what it dumps is dumped. -/
theorem respond_of_dispatch {service : Service} {request : Request}
    {answer : Json × Dump.Directory} (h : service.dispatch request = .ok answer) :
    (service.respond request).1.status = 200 ∧ (service.respond request).1.body = answer.1 ∧
      (service.respond request).2 = answer.2 := by
  simp [respond, h]

end Service

/-- A document says that an analysis succeeded exactly if it lists no errors. -/
theorem Report.success_iff (adapter : Adapter) (source : String) :
    ∃ success errors,
      (Report.ofResult (analyse adapter source)).field? "success" = some (.bool success) ∧
      (Report.ofResult (analyse adapter source)).field? "errors" = some (.arr errors) ∧
      (success = true ↔ errors = []) := by
  refine ⟨_, _, rfl, rfl, ?_⟩
  simp [analyse, Findings.result]

/-- The two endpoints of an analysis agree. Any source text, sent as a body or in any document that
is written for it, is answered with status 200 and the document of its analysis, which says that
the analysis succeeded exactly if it lists no errors; what is left behind is the same, too. -/
theorem endpoints_agree (service : Service) (source document : String)
    (textHeaders jsonHeaders : List (String × String)) (contentType : String)
    (hdocument : Json.OneMember "code" source document.toList)
    (hheader : (Request.ofDocument jsonHeaders document).header? "content-type" =
      some contentType)
    (htype : Request.IsJsonType contentType) :
    let ofText := service.respond (.ofText textHeaders source)
    let ofDocument := service.respond (.ofDocument jsonHeaders document)
    ofText.1.status = 200 ∧ ofDocument.1.status = 200 ∧
    ofText.1.body = Report.ofResult (analyse service.adapter source) ∧
    ofDocument.1.body = ofText.1.body ∧ ofDocument.2 = ofText.2 ∧
    ∃ success errors,
      ofText.1.body.field? "success" = some (.bool success) ∧
      ofText.1.body.field? "errors" = some (.arr errors) ∧
      (success = true ↔ errors = []) := by
  have hjson := Request.claimsJson_of_isJsonType hheader htype
  obtain ⟨htextStatus, htextBody, htextFiles⟩ :=
    Service.respond_of_dispatch (service.dispatch_ofText textHeaders source)
  obtain ⟨hjsonStatus, hjsonBody, hjsonFiles⟩ :=
    Service.respond_of_dispatch (service.dispatch_ofDocument hdocument hjson)
  have hanalysis : (service.analysisOf source).1 =
      Report.ofResult (analyse service.adapter source) := rfl
  dsimp only
  rw [htextStatus, hjsonStatus, htextBody, hjsonBody, htextFiles, hjsonFiles, hanalysis]
  exact ⟨rfl, rfl, rfl, rfl, rfl, Report.success_iff service.adapter source⟩

/-- A text with a byte order mark, a quote and a character beyond the first plane, once as a body
and once in a document that escapes a letter of the name of its member, and some of the text by
short escapes and a surrogate pair. -/
theorem endpoints_agree_escaped :
    let service : Service := ⟨.standard, .standard, "2024-01-02_03-04-05-006"⟩
    let source := "\ufeff\"é😀\n"
    let document := " \x7b\"\\u0063ode\" :\t\"\ufeff\\\"é\\ud83d\\uDE00\\n\"\x7d\n"
    let headers := [("Content-Type", "Application/JSON; charset=utf-8")]
    Json.OneMember "code" source document.toList ∧
      (Request.ofDocument headers document).header? "content-type" =
        some "Application/JSON; charset=utf-8" ∧
      Request.IsJsonType "Application/JSON; charset=utf-8" ∧
      (service.respond (.ofDocument headers document)).1.status = 200 ∧
      (service.respond (.ofDocument headers document)).1.body =
        (service.respond (.ofText [] source)).1.body := by
  intro service source document headers
  have hname : Json.TextForm ['\\', 'u', '0', '0', '6', '3', 'o', 'd', 'e'] "code".toList := by
    have hc : Json.CharForm ['\\', 'u', '0', '0', '6', '3'] 'c' :=
      .unit (.mk (x := 0) (y := 0) (z := 6) (w := 3) (.inl rfl) (.inl rfl) (.inl rfl) (.inl rfl))
    have hrest : Json.TextForm ['o', 'd', 'e'] ['o', 'd', 'e'] :=
      .cons (.plain (by decide) (by decide) (by decide))
        (.cons (.plain (by decide) (by decide) (by decide))
          (.cons (.plain (by decide) (by decide) (by decide)) .nil))
    exact .cons hc hrest
  have htext : Json.TextForm
      ['\ufeff', '\\', '"', 'é', '\\', 'u', 'd', '8', '3', 'd', '\\', 'u', 'D', 'E', '0', '0',
        '\\', 'n'] source.toList := by
    have hpair : Json.CharForm
        ['\\', 'u', 'd', '8', '3', 'd', '\\', 'u', 'D', 'E', '0', '0'] '😀' := by
      have hhigh : Json.HexUnit ['d', '8', '3', 'd'] (0xd800 + 0x3d) :=
        .mk (x := 13) (y := 8) (z := 3) (w := 13) (.inl rfl) (.inl rfl) (.inl rfl) (.inl rfl)
      have hlow : Json.HexUnit ['D', 'E', '0', '0'] (0xdc00 + 0x200) :=
        .mk (x := 13) (y := 14) (z := 0) (w := 0) (.inr rfl) (.inr rfl) (.inl rfl) (.inl rfl)
      exact .pair hhigh (by decide) hlow (by decide) (by decide)
    have hsource : source.toList = ['\ufeff', '"', 'é', '😀', '\n'] := String.toList_ofList
    rw [hsource]
    exact .cons (.plain (by decide) (by decide) (by decide))
      (.cons (.short (by decide))
        (.cons (.plain (by decide) (by decide) (by decide))
          (.cons hpair (.cons (.short (by decide)) .nil))))
  have hdocument : Json.OneMember "code" source document.toList := by
    have hblanks : Json.Blanks [' '] ∧ Json.Blanks [] ∧ Json.Blanks ['\t'] ∧
        Json.Blanks ['\n'] := by decide
    have hforms := Json.OneMember.mk hblanks.1 hblanks.2.1 hname hblanks.1 hblanks.2.2.1 htext
      hblanks.2.1 hblanks.2.2.2
    rwa [← String.toList_ofList (l := [' '] ++ _)] at hforms
  have hheader : (Request.ofDocument headers document).header? "content-type" =
      some "Application/JSON; charset=utf-8" := by
    rw [Request.header?, Request.ofDocument]
    decide +kernel
  have htype : Request.IsJsonType "Application/JSON; charset=utf-8" :=
    ⟨"; charset=utf-8".toList, by decide +kernel, by decide +kernel⟩
  have hagree := endpoints_agree service source document [] headers _ hdocument hheader htype
  exact ⟨hdocument, hheader, htype, hagree.2.1, hagree.2.2.2.1⟩

end CrateAnalysis
