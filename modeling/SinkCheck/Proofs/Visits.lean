import Mathlib.Data.List.Basic
import SinkCheck.Scan

/-!
# What a visit adds up to

A visit counts as it goes. In the end its report says how many methods were begun and how many findings were put
out, and lists the methods that failed in their order.
-/

namespace SinkCheck

/-! ## Counting actions -/

namespace Action

def finding? : Action → Option Finding
  | .put o => o.finding?
  | _ => none

def failure? : Action → Option MethodFailure
  | .fail f => some f
  | _ => none

end Action

theorem ClassReport.foldl_after (r : ClassReport) (as : List Action) : as.foldl after r =
    { r with
      skipped := r.skipped || as.contains .skip
      methodsAnalyzed := r.methodsAnalyzed + as.count .start
      failures := r.failures ++ as.filterMap Action.failure?
      findings := r.findings + (as.filterMap Action.finding?).length } := by
  induction as generalizing r with
  | nil => simp
  | cons a as ih =>
    simp only [List.foldl_cons, ih, List.filterMap_cons]
    cases a with
    | skip => simp [after, Action.finding?, Action.failure?]
    | start => simp [after, Action.finding?, Action.failure?, Nat.add_comm, Nat.add_left_comm]
    | fail f => simp [after, Action.finding?, Action.failure?]
    | put o =>
      cases o with
      | event e => simp [after, Action.finding?, Action.failure?, Output.finding?]
      | finding f => simp [after, Action.finding?, Action.failure?, Output.finding?, Nat.add_comm, Nat.add_left_comm]

namespace Visit

section
variable (owner : String) (as : List Action)

theorem findings_ofActions : (ofActions owner as).findings = as.filterMap Action.finding? := by
  rw [findings, ofActions, List.filterMap_filterMap]
  congr 1
  funext a
  cases a <;> rfl

theorem report_ofActions : (ofActions owner as).report =
    { owner
      skipped := as.contains .skip
      methodsAnalyzed := as.count .start
      failures := as.filterMap Action.failure?
      findings := (ofActions owner as).findings.length } := by
  rw [findings_ofActions, ofActions, ClassReport.foldl_after]
  simp

end

end Visit

/-! ## Classes -/

namespace Detector

section
variable (d : Detector) (c : ClassUnit)

theorem output?_methodActions (m : Method) (t : Trace Output Unit) :
    (d.methodActions c m t).filterMap Action.output? = d.narrate c m t := by
  simp [methodActions, List.filterMap_cons, List.filterMap_map, Function.comp_def, Action.output?]

theorem failure?_methodActions (m : Method) (t : Trace Output Unit) :
    (d.methodActions c m t).filterMap Action.failure? = (failure? m t).toList := by
  simp [methodActions, List.filterMap_cons, List.filterMap_map, Function.comp_def, Action.failure?]

theorem count_methodActions (m : Method) (t : Trace Output Unit) : (d.methodActions c m t).count .start = 1 := by
  simp [methodActions, List.count_eq_zero]

theorem not_mem_methodActions (m : Method) (t : Trace Output Unit) : .skip ∉ d.methodActions c m t := by
  simp [methodActions]

section
variable (ps : List (Method × Trace Output Unit))

theorem output_ofMethods : (Visit.ofActions c.name (ps.flatMap fun p => d.methodActions c p.1 p.2)).output =
    ps.flatMap fun p => d.narrate c p.1 p.2 := by
  simp only [Visit.ofActions, List.filterMap_flatMap, output?_methodActions]

theorem report_ofMethods :
    let v := Visit.ofActions c.name (ps.flatMap fun p => d.methodActions c p.1 p.2)
    v.report =
      { owner := c.name
        methodsAnalyzed := ps.length
        failures := ps.filterMap fun p => failure? p.1 p.2
        findings := v.findings.length } := by
  have hskip : (ps.flatMap fun p => d.methodActions c p.1 p.2).contains .skip = false := by
    simp [not_mem_methodActions]
  have hstart : (ps.flatMap fun p => d.methodActions c p.1 p.2).count .start = ps.length := by
    simp [List.count_flatMap, Function.comp_def, count_methodActions, List.map_const']
  have hfailures : (ps.flatMap fun p => d.methodActions c p.1 p.2).filterMap Action.failure? =
      ps.filterMap fun p => failure? p.1 p.2 := by
    rw [List.filterMap_flatMap, List.filterMap_eq_flatMap_toList]
    simp only [failure?_methodActions]
  intro v
  rw [Visit.report_ofActions, hskip, hstart, hfailures]

end

theorem output_visit : (d.visit c).output =
    if (d.candidates c).isEmpty then (d.settings.verbosity.tell (.skippedClass c.name)).output
    else (d.runs c).flatMap fun p => d.narrate c p.1 p.2 := by
  unfold visit actions
  split
  · simp [Visit.ofActions, List.filterMap_map, Function.comp_def, Action.output?]
  · exact d.output_ofMethods c _

theorem report_visit : (d.visit c).report =
    if (d.candidates c).isEmpty then { owner := c.name, skipped := true }
    else
      { owner := c.name
        methodsAnalyzed := (d.runs c).length
        failures := (d.runs c).filterMap fun p => failure? p.1 p.2
        findings := (d.visit c).findings.length } := by
  unfold visit actions
  split
  · rw [Visit.report_ofActions, Visit.findings_ofActions]
    unfold Verbosity.tell
    split <;> rfl
  · exact d.report_ofMethods c _

theorem findings_report_visit : (d.visit c).report.findings = (d.visit c).findings.length := by
  rw [visit, Visit.report_ofActions]

end

end Detector

end SinkCheck
