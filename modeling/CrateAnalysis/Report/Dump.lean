import CrateAnalysis.Json.Print
import CrateAnalysis.Report.Document
import CrateAnalysis.Report.Stamp

/-!
# Debug dumps

A dump of an analysis is two files in one directory, both named after the time stamp: one with
the source text and the document of the analysis, one with the document alone. A directory is
a list of files without two of one name, so a dump with the same stamp takes the place of an
earlier one.
-/

set_option autoImplicit false

namespace CrateAnalysis

namespace Dump

/-- The files of a directory, by name. -/
abbrev Directory := List (String × String)

/-- A directory after a file was written: in the place of the file of that name, or last. -/
def write (name text : String) : Directory → Directory
  | [] => [(name, text)]
  | file :: files =>
    if file.1 = name then (name, text) :: files else file :: write name text files

/-- The file that holds source and document. -/
def debugFile (stamp : String) : String := "debug_" ++ stamp ++ ".json"

/-- The file that holds the document alone. -/
def resultFile (stamp : String) : String := "analysis_result_" ++ stamp ++ ".json"

/-- What the first file holds. -/
def debugRecord (stamp source : String) (result : AnalysisResult) : Json :=
  .obj [("timestamp", .str stamp), ("sourceCode", .str source),
    ("analysisResult", Report.ofResult result)]

/-- A directory after the dump of an analysis. -/
def record (directory : Directory) (stamp source : String) (result : AnalysisResult) :
    Directory :=
  write (resultFile stamp) (Report.ofResult result).indentedText
    (write (debugFile stamp) (debugRecord stamp source result).indentedText directory)

/-- Analyses some source texts in turn and dumps each with the same stamp into a directory
that is empty at first. Where nothing can be written, nothing is; the file named last is the
one of the last dump. -/
def recordAll (adapter : Adapter) (writable : Bool) (stamp : String) (sources : List String) :
    Option String × Directory :=
  if writable then
    (sources.getLast?.map fun _ => debugFile stamp,
      sources.foldl (fun directory source =>
        record directory stamp source (analyse adapter source)) [])
  else (none, [])

end Dump

end CrateAnalysis
