import WidgetMigration.Command
import WidgetMigration.Proofs.Report.Decoding

/-!
# The envelope tells the result

What the program prints with `--json` is read back as the result it was printed for. The reader
accepts the text to its end; from the value it tells success from failure by one member, and finds
the report in full, or the code, the message, the details and the hints of the failure. Different
results are therefore printed differently.

For a failure this is about the causes whose message and details follow from the cause. A cause that
brings its own details may bring any value, also one that its canonical form changes.
-/

namespace WidgetMigration

open Json

/-! ## Failures -/

namespace Cause

/-- A cause whose message and details follow from it. -/
def IsStandard : Cause → Prop
  | .custom .. => False
  | _ => True

theorem whole_details {c : Cause} (h : c.IsStandard) : Whole c.details := by
  cases c with
  | invalidArgument field problem value => cases value <;> simp [details, optionalMember]
  | discoveryFailed pattern error => simp [details]
  | io error context => cases context <;> simp [details, optionalMember]
  | json error context => cases context <;> simp [details, optionalMember]
  | custom code message details => exact h.elim

end Cause

/-- What an envelope tells about a failure. -/
structure FailureData where
  code : FailureCode
  message : String
  details : Json
  hints : List String

namespace FailureData

/-- Reads a hint. -/
def hint? (v : Json) : Option String :=
  (v.member? "message").bind text?

/-- Reads what an envelope tells about a failure. Hints may be left out. -/
def ofJson? (v : Json) : Option FailureData := do
  let code ← FailureCode.ofName? (← (← v.member? "code").text?)
  let message ← (← v.member? "message").text?
  let details ← v.member? "details"
  let hints ← match v.member? "hints" with
    | none => some []
    | some hints => listOf? hint? hints
  some ⟨code, message, details, hints⟩

end FailureData

namespace Failure

/-- What an envelope is to tell about a failure. -/
def data (f : Failure) : FailureData :=
  ⟨f.code, f.message, f.cause.details, f.hints⟩

theorem ofName?_name (c : FailureCode) : FailureCode.ofName? c.name = some c := by
  cases c <;> decide

theorem whole_toJson {f : Failure} (h : f.cause.IsStandard) : Whole f.toJson := by
  have hdetails := Cause.whole_details h
  by_cases hhints : f.hints.isEmpty <;> simp [toJson, hhints, hintsJson, hdetails]

/-- What is read from a failure as JSON is its code, message, details and hints. -/
theorem ofJson?_toJson (f : Failure) : FailureData.ofJson? f.toJson = some f.data := by
  obtain ⟨cause, hints⟩ := f
  cases hints with
  | nil => simp [FailureData.ofJson?, toJson, data, member?, List.lookup_cons, ofName?_name]
  | cons hint hints =>
    have hhints := @listOf?_array_map _ (fun h => .object [("message", .string h)])
      FailureData.hint? (fun _ => rfl) (hint :: hints)
    rw [List.map_cons] at hhints
    simp [FailureData.ofJson?, toJson, data, member?, List.lookup_cons, ofName?_name, hintsJson,
      hhints]

end Failure

/-! ## Envelopes -/

namespace Envelope

/-- A result that is no failure with a message and details of its own. -/
def IsStandard {α : Type} (result : Except Failure α) : Prop :=
  ∀ f, result = .error f → f.cause.IsStandard

/-- The printed envelope of a result. -/
def text (result : Except Failure FullReport) : String :=
  (ofResult (result.map FullReport.toJson)).pretty

theorem whole_ofResult {result : Except Failure FullReport} (h : IsStandard result) :
    Whole (ofResult (result.map FullReport.toJson)) := by
  cases result with
  | ok r => simp [Except.map, ofResult, success]
  | error f => simp [Except.map, ofResult, failure, Failure.whole_toJson (h f rfl)]

/-- Reads an envelope: the report of a success, or what is told about a failure. -/
def decode? (v : Json) : Option (Except FailureData FullReport) := do
  if ← (← v.member? "success").flag? then
    let report ← FullReport.ofJson? (← v.member? "data")
    some (.ok report)
  else
    let failure ← FailureData.ofJson? (← v.member? "error")
    some (.error failure)

/-- What is read from an envelope is the result that it was made of. -/
theorem decode?_ofResult (result : Except Failure FullReport) :
    decode? (ofResult (result.map FullReport.toJson)) = some (result.mapError Failure.data) := by
  cases result with
  | ok r => simp [decode?, Except.map, ofResult, success, member?, List.lookup_cons, Except.mapError]
  | error f =>
    simp [decode?, Except.map, ofResult, failure, member?, List.lookup_cons, Except.mapError,
      Failure.ofJson?_toJson]

end Envelope

/-- What the program prints with `--json` is read back as the result of the migration. -/
theorem Command.stdout_recovers (result : Except Failure (Report × Int))
    (h : Envelope.IsStandard result) :
    ∃ v, read? (ending true result).stdout = some v ∧
      Envelope.decode? v =
        some ((result.map fun r => FullReport.of r.1).mapError Failure.data) := by
  have hstandard : Envelope.IsStandard (result.map fun r => FullReport.of r.1) := by
    intro f hf
    cases result with
    | ok r => simp [Except.map] at hf
    | error g =>
      rw [Except.map, Except.error.injEq] at hf
      exact hf ▸ h g rfl
  have hstdout : (ending true result).stdout =
      Envelope.text (result.map fun r => FullReport.of r.1) ++ "\n" := by
    cases result with
    | ok r =>
      show (Envelope.success r.1.toJson).pretty ++ "\n" = _
      rw [← FullReport.toJson_of]
      rfl
    | error f => rfl
  rw [hstdout]
  exact ⟨_, read?_pretty_line (Envelope.whole_ofResult hstandard), Envelope.decode?_ofResult _⟩

end WidgetMigration
