import SinkCheck.Proofs.Reported

/-!
# Safe words only silence findings

Turning the safe value heuristic on takes sites away and changes nothing else. The words it asks for are
produced by instructions that the constant flow has resolved, so no method fails because of it.
-/

namespace SinkCheck

def Detector.withHeuristic (d : Detector) (on : Bool) : Detector :=
  { d with settings := { d.settings with safeValueHeuristic := on } }

/-! ## Sites -/

namespace Analysis

section
variable {a : Analysis} {s : Settings} {policy : Policy} {matchers : List Matcher}

theorem Exposed.without_heuristic {on : Bool} {l : Location} {point : InjectionPoint}
    (h : a.Exposed { s with safeValueHeuristic := on } l point) :
    a.Exposed { s with safeValueHeuristic := false } l point := by
  obtain ⟨d, hd, hc, -⟩ := h
  refine ⟨d, hd, hc, ?_⟩
  intro hsafe
  cases hsafe.1

variable (ha : a.Prepared)
include ha

variable (s matchers) in
/-- With the heuristic a location fails as without, and is the same site or none. -/
theorem siteAt_heuristic {l : Location} (hloc : l ∈ a.graph.orderedLocations) :
    a.siteAt { s with safeValueHeuristic := true } matchers l =
        a.siteAt { s with safeValueHeuristic := false } matchers l ∨
      a.siteAt { s with safeValueHeuristic := true } matchers l = .ok none ∧
        ∃ x, a.siteAt { s with safeValueHeuristic := false } matchers l = .ok (some x) := by
  have herror : ∀ e, a.siteAt { s with safeValueHeuristic := true } matchers l = .error e ↔
      a.siteAt { s with safeValueHeuristic := false } matchers l = .error e := by
    intro e
    rw [siteAt_eq_error ha hloc, siteAt_eq_error ha hloc]
  have hsome : ∀ x, a.siteAt { s with safeValueHeuristic := true } matchers l = .ok (some x) →
      a.siteAt { s with safeValueHeuristic := false } matchers l = .ok (some x) := by
    intro x hx
    rw [siteAt_eq_some ha hloc] at hx ⊢
    exact ⟨hx.1, hx.2.without_heuristic⟩
  cases hon : a.siteAt { s with safeValueHeuristic := true } matchers l with
  | error e => exact .inl ((herror e).mp hon).symm
  | ok site =>
    cases site with
    | some x => exact .inl (hsome x hon).symm
    | none =>
      cases hoff : a.siteAt { s with safeValueHeuristic := false } matchers l with
      | error e =>
        rw [(herror e).mpr hoff] at hon
        cases hon
      | ok site =>
        cases site with
        | none => exact .inl rfl
        | some x => exact .inr ⟨rfl, x, rfl⟩

theorem sites_heuristic {ls : List Location} (hls : ∀ l ∈ ls, l ∈ a.graph.orderedLocations) :
    (a.sites { s with safeValueHeuristic := true } matchers ls).Sublist
      (a.sites { s with safeValueHeuristic := false } matchers ls) := by
  induction ls with
  | nil => exact .slnil
  | cons l ls ih =>
    have htail := ih fun l' hl' => hls l' (by simp [hl'])
    rw [sites, sites]
    rcases siteAt_heuristic s matchers ha (hls l (by simp)) with heq | ⟨hon, x, hoff⟩
    · rw [heq]
      cases a.siteAt { s with safeValueHeuristic := false } matchers l with
      | error e => exact .slnil
      | ok site => exact htail.append_left _
    · rw [hon, hoff]
      exact htail.cons x

theorem outcome_heuristic {ls : List Location} (hls : ∀ l ∈ ls, l ∈ a.graph.orderedLocations) :
    (a.inspectAll { s with safeValueHeuristic := true } policy matchers ls).outcome =
      (a.inspectAll { s with safeValueHeuristic := false } policy matchers ls).outcome := by
  induction ls with
  | nil => rfl
  | cons l ls ih =>
    have htail := ih fun l' hl' => hls l' (by simp [hl'])
    rw [outcome_inspectAll_cons, outcome_inspectAll_cons, htail]
    rcases siteAt_heuristic s matchers ha (hls l (by simp)) with heq | ⟨hon, x, hoff⟩
    · rw [heq]
    · rw [hon, hoff]
      rfl

end

end Analysis

/-! ## Classes -/

namespace Detector

section
variable (d : Detector) (c : ClassUnit)

theorem run_heuristic (p : Method × Code) :
    ((d.withHeuristic true).run c p).outcome = ((d.withHeuristic false).run c p).outcome ∧
      ((d.withHeuristic true).run c p).findings.Sublist ((d.withHeuristic false).run c p).findings := by
  have hprepare : ∀ on, (d.withHeuristic on).prepare c p.1 p.2 = d.prepare c p.1 p.2 := fun _ => rfl
  unfold run
  cases hp : d.prepare c p.1 p.2 with
  | error e =>
    rw [analyze_of_error ((hprepare true).trans hp), analyze_of_error ((hprepare false).trans hp)]
    exact ⟨rfl, .slnil⟩
  | ok a =>
    have ha := (prepare_eq_ok hp).1
    rw [analyze_of_ok ((hprepare true).trans hp), analyze_of_ok ((hprepare false).trans hp)]
    refine ⟨Analysis.outcome_heuristic ha fun _ h => h, ?_⟩
    rw [Analysis.findings_inspectAll, Analysis.findings_inspectAll]
    exact (Analysis.sites_heuristic ha fun _ h => h).map _

theorem visit_heuristic :
    ((d.withHeuristic true).visit c).findings.Sublist ((d.withHeuristic false).visit c).findings ∧
      ((d.withHeuristic true).visit c).report = { ((d.withHeuristic false).visit c).report with
        findings := ((d.withHeuristic true).visit c).report.findings } := by
  have hcandidates : ∀ on, (d.withHeuristic on).candidates c = d.candidates c := fun _ => rfl
  by_cases h : d.candidates c = []
  · have hon := visit_of_skipped _ _ ((hcandidates true).trans h)
    have hoff := visit_of_skipped _ _ ((hcandidates false).trans h)
    rw [hon.1, hoff.1, hon.2, hoff.2]
    exact ⟨.slnil, rfl⟩
  · have hon := visit_of_candidates (d.withHeuristic true) c h
    have hoff := visit_of_candidates (d.withHeuristic false) c h
    have hfailures : ∀ p : Method × Code,
        failure? p.1 ((d.withHeuristic true).run c p) = failure? p.1 ((d.withHeuristic false).run c p) := by
      intro p
      unfold failure?
      rw [(d.run_heuristic c p).1]
    refine ⟨?_, ?_⟩
    · rw [hon.1, hoff.1]
      apply List.Sublist.flatMap_right
      intro p _
      exact (d.run_heuristic c p).2
    · rw [hon.2, hoff.2]
      simp only [hfailures]

end

/-- **The heuristic only silences.** With it, the findings are a sublist of those without, and the reports differ
in the number of findings only: the same classes are skipped, the same methods are analysed and the same
methods fail with the same errors. -/
theorem scan_heuristic_silences (d : Detector) (cs : List ClassUnit) :
    ((d.withHeuristic true).scan cs).findings.Sublist ((d.withHeuristic false).scan cs).findings ∧
    List.Forall₂ (fun r r' => r' = { r with findings := r'.findings } ∧ r'.findings ≤ r.findings)
      ((d.withHeuristic false).scan cs).reports ((d.withHeuristic true).scan cs).reports := by
  refine ⟨?_, ?_⟩
  · rw [findings_scan, findings_scan]
    apply List.Sublist.flatMap_right
    intro c _
    exact (d.visit_heuristic c).1
  · rw [reports_scan, reports_scan, List.forall₂_map_left_iff, List.forall₂_map_right_iff, List.forall₂_same]
    intro c _
    obtain ⟨hsub, hreport⟩ := d.visit_heuristic c
    refine ⟨hreport, ?_⟩
    rw [findings_report_visit, findings_report_visit]
    exact hsub.length_le

end Detector

end SinkCheck
