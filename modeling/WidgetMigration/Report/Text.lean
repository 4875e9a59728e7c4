import WidgetMigration.Report.Basic

/-!
# The report as text

The form of a report that people read. Files that did not change have no line of their own. The
summary is left out if no file was found, and the line on errors if there were none.
-/

namespace WidgetMigration

/-- The line on a file, if it has one. -/
def FileReport.line? (f : FileReport) : Option String :=
  match f.outcome with
  | .modified changes _ => some ("✅ " ++ f.file ++ ": " ++ toString changes ++ " corrections")
  | .failed error => some ("❌ Error on " ++ f.file ++ ": " ++ error)
  | .unchanged => none

namespace Report

/-- A rule across the text: one character, sixty times. -/
def ruler (c : Char) : String :=
  String.ofList (List.replicate 60 c)

/-- The lines on the files. -/
def fileLines (r : Report) : List String :=
  r.files.filterMap FileReport.line?

/-- The lines above the files. -/
def headLines (r : Report) : List String :=
  ["🔧 ForUI 0.15 automatic migration" ++ (if r.dryRun then " (dry run)" else ""),
   "📁 Directory: " ++ r.baseDir,
   ruler '-']

/-- The lines below the files. -/
def summaryLines (r : Report) : List String :=
  let modified :=
    (if r.dryRun then "📊 Files that would change: " else "📊 Files modified: ") ++
      toString r.filesModified ++ "/" ++ toString r.filesFound
  let failed :=
    if r.filesFailed = 0 then [] else ["❌ Files with errors: " ++ toString r.filesFailed]
  ["\n" ++ ruler '=', "✅ Done!", modified,
    "🔧 Total corrections: " ++ toString r.totalChanges] ++ failed ++
  ["\n⚠️  Manual corrections remaining:"] ++ manualFollowups.map ("  - " ++ ·) ++
  ["\n🚀 Run: " ++ analyzeCommand]

/-- All lines of the text. A line may begin with a line feed, which leaves a blank line before it. -/
def lines (r : Report) : List String :=
  if r.filesFound = 0 then r.headLines ++ r.fileLines ++ ["❌ No .dart files found"]
  else
    r.headLines ++ ["📝 " ++ toString r.filesFound ++ " files to process\n"] ++ r.fileLines ++
      r.summaryLines

/-- The text of a report, with a line feed at its end. -/
def render (r : Report) : String :=
  "\n".intercalate r.lines ++ "\n"

end Report

end WidgetMigration
