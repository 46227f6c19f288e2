import CrateAnalysis.Proofs.Json.Print
import CrateAnalysis.Proofs.Text.Utf8
import CrateAnalysis.Report.Dump
import Mathlib.Data.List.Basic
import Mathlib.Data.List.Induction

/-!
# Dumps can be read back

The documents that are dumped hold no decimals, so each file is read back as the value that was
printed into it, whatever characters its texts hold. Every dump with one stamp writes the same two
files, so after any number of analyses the directory holds the two files of the last one.
-/

set_option autoImplicit false

namespace CrateAnalysis

namespace Report

open Json (Whole)

/-! ## Documents -/

/-- The document of a token has whole numbers only. -/
theorem whole_ofToken (token : Token) : Whole (ofToken token) := by
  simp [ofToken]

/-- The document of a diagnostic has whole numbers only. -/
theorem whole_ofDiagnostic (diagnostic : Diagnostic) : Whole (ofDiagnostic diagnostic) := by
  simp [ofDiagnostic]

/-- The document of a result has whole numbers only. -/
theorem whole_ofResult (result : AnalysisResult) : Whole (ofResult result) := by
  simp [ofResult, ofForms, whole_ofToken, whole_ofDiagnostic]

/-- The document of a token leaves out nothing of the token. -/
theorem ofToken_injective : Function.Injective ofToken := by
  rintro ⟨kind, text, ⟨line, column⟩⟩ ⟨kind', text', ⟨line', column'⟩⟩ h
  simpa [ofToken] using h

/-- The document of a diagnostic leaves out nothing of the diagnostic. -/
theorem ofDiagnostic_injective : Function.Injective ofDiagnostic := by
  rintro ⟨⟨line, column⟩, message⟩ ⟨⟨line', column'⟩, message'⟩ h
  simpa [ofDiagnostic, and_assoc] using h

/-- A document leaves out nothing of the result. -/
theorem ofResult_injective : Function.Injective ofResult := by
  intro result other h
  simp only [ofResult, ofForms, List.cons_append, List.nil_append, Json.obj.injEq, List.cons.injEq,
    Prod.mk.injEq, Json.bool.injEq, Json.arr.injEq, Json.str.injEq, true_and, and_true] at h
  obtain ⟨hsuccess, htokens, ⟨hlisp, hcst⟩, hast, hdiagnostics⟩ := h
  have htokens' := ofToken_injective.list_map htokens
  have hdiagnostics' := ofDiagnostic_injective.list_map hdiagnostics
  cases result
  cases other
  simp_all

end Report

namespace Dump

/-! ## Files -/

/-- The value in a file, read from the bytes in which its text is stored. -/
def load? (text : String) : Option Json :=
  (Utf8.decode? (Utf8.encode text.toList)).bind fun cs => (Json.parse cs).toOption

/-- A value with whole numbers is loaded from the text that is printed for it. -/
theorem load?_indentedText {v : Json} (h : v.Whole) : load? v.indentedText = some v := by
  rw [load?, Utf8.decode?_encode, Option.bind_some, Json.indentedText, String.toList_ofList,
    Json.parse_indented h]
  rfl

/-- The record of an analysis has whole numbers only. -/
theorem whole_debugRecord (stamp source : String) (result : AnalysisResult) :
    (debugRecord stamp source result).Whole := by
  simp [debugRecord, Report.whole_ofResult]

/-! ## Directories -/

/-- The two files of a dump are never mistaken for each other, nor are those of two dumps. -/
theorem debugFile_ne_resultFile (stamp : String) {other : String} :
    debugFile stamp ≠ resultFile other := by
  have hdebug : "debug_".toList = 'd' :: "ebug_".toList := by decide
  have hresult : "analysis_result_".toList = 'a' :: "nalysis_result_".toList := by decide
  intro h
  -- the names are unfolded by the type of the equation, which `simp` would take long to do
  have hchars : ("debug_" ++ stamp ++ ".json").toList =
      ("analysis_result_" ++ other ++ ".json").toList := congrArg String.toList h
  rw [String.toList_append, String.toList_append, hdebug, String.toList_append,
    String.toList_append, hresult] at hchars
  cases hchars

/-- The two files of a dump. -/
def files (stamp source : String) (result : AnalysisResult) : Directory :=
  [(debugFile stamp, (debugRecord stamp source result).indentedText),
    (resultFile stamp, (Report.ofResult result).indentedText)]

/-- The first dump in a directory writes the two files. -/
theorem record_empty (stamp source : String) (result : AnalysisResult) :
    record [] stamp source result = files stamp source result := by
  simp [record, write, files, debugFile_ne_resultFile]

/-- A dump takes the place of one with the same stamp. -/
theorem record_files (stamp source earlier : String) (result previous : AnalysisResult) :
    record (files stamp earlier previous) stamp source result = files stamp source result := by
  simp [record, write, files, debugFile_ne_resultFile]

/-- After some dumps with one stamp the files are those of the last one. -/
theorem foldl_record (adapter : Adapter) (stamp : String) (earlier : List String)
    (source : String) :
    (earlier ++ [source]).foldl (fun directory source =>
        record directory stamp source (analyse adapter source)) [] =
      files stamp source (analyse adapter source) := by
  induction earlier using List.reverseRecOn generalizing source with
  | nil => exact record_empty _ _ _
  | append_singleton earlier previous ih =>
    rw [List.foldl_append, ih previous]
    exact record_files _ _ _ _ _

/-- After any number of dumps with one stamp the directory holds the two files of the last one. -/
theorem recordAll_eq (adapter : Adapter) (stamp : String) (earlier : List String)
    (source : String) :
    recordAll adapter true stamp (earlier ++ [source]) =
      (some (debugFile stamp), files stamp source (analyse adapter source)) := by
  rw [recordAll, if_pos rfl, foldl_record]
  simp

/-- Whatever was analysed and dumped with one stamp, there are two files at the end, from which the
last source and the document of its analysis can be read; and the document holds all of the
result. -/
theorem recordAll_reads_back :
    Function.Injective Report.ofResult ∧
      ∀ (adapter : Adapter) (stamp : String) (earlier : List String) (source : String),
        ∃ debugText resultText : String,
          recordAll adapter true stamp (earlier ++ [source]) =
              (some (debugFile stamp),
                [(debugFile stamp, debugText), (resultFile stamp, resultText)]) ∧
            debugFile stamp ≠ resultFile stamp ∧
            load? debugText =
              some (.obj [("timestamp", .str stamp), ("sourceCode", .str source),
                ("analysisResult", Report.ofResult (analyse adapter source))]) ∧
            load? resultText = some (Report.ofResult (analyse adapter source)) := by
  refine ⟨Report.ofResult_injective, ?_⟩
  intro adapter stamp earlier source
  refine ⟨_, _, recordAll_eq adapter stamp earlier source, debugFile_ne_resultFile stamp, ?_, ?_⟩
  · exact load?_indentedText (whole_debugRecord _ _ _)
  · exact load?_indentedText (Report.whole_ofResult _)

end Dump

end CrateAnalysis
