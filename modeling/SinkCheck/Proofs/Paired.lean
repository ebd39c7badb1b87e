import SinkCheck.Proofs.Completion
import SinkCheck.Proofs.Monotone

/-!
# Two scans side by side

Detectors that differ only in their policy and in whether parameters are tainted look at the same calls and
fail at the same methods. Their findings come in pairs that differ at most in the priority.
-/

namespace SinkCheck

/-! ## Traces -/

namespace Trace

def findings {α : Type} (t : Trace Output α) : List Finding :=
  t.output.filterMap Output.finding?

structure Paired (R : Finding → Finding → Prop) {α : Type} (t t' : Trace Output α) : Prop where
  outcome : t.outcome = t'.outcome
  findings : List.Forall₂ R t.findings t'.findings

section
variable {R : Finding → Finding → Prop} {α β : Type} {t t' : Trace Output α}

theorem findings_bind (k : α → Trace Output β) : (t >>= k).findings =
    t.findings ++ match t.outcome with
      | .ok a => (k a).findings
      | .error _ => [] := by
  show (bind t k).findings = _
  unfold bind findings
  cases t.outcome with
  | error e => simp
  | ok a => simp

theorem Paired.bind (h : Paired R t t') {k k' : α → Trace Output β}
    (hk : ∀ a, t.outcome = .ok a → Paired R (k a) (k' a)) : Paired R (t >>= k) (t' >>= k') := by
  refine ⟨?_, ?_⟩
  · rw [outcome_bind, outcome_bind, ← h.outcome]
    cases ht : t.outcome with
    | error e => rfl
    | ok a => exact (hk a ht).outcome
  · rw [findings_bind, findings_bind, ← h.outcome]
    refine List.rel_append h.findings ?_
    cases ht : t.outcome with
    | error e => exact .nil
    | ok a => exact (hk a ht).findings

theorem ofExcept_ok_bind (a : α) (k : α → Trace Output β) : (ofExcept (.ok a) >>= k) = k a :=
  rfl

theorem Paired.of_silent (ho : t.outcome = t'.outcome) (h : t.findings = []) (h' : t'.findings = []) :
    Paired R t t' := by
  refine ⟨ho, ?_⟩
  rw [h, h']
  exact .nil

theorem paired_error_bind (e : AnalysisError) (k k' : α → Trace Output β) :
    Paired R (ofExcept (.error e) >>= k) (ofExcept (.error e) >>= k') :=
  .of_silent rfl rfl rfl

theorem paired_ofExcept (x : Except AnalysisError α) : Paired R (.ofExcept x) (.ofExcept x) :=
  .of_silent rfl rfl rfl

theorem paired_pure (a : α) : Paired R (pure a) (pure a) :=
  .of_silent rfl rfl rfl

end

end Trace

theorem Verbosity.findings_tell (v : Verbosity) (e : Event) : (v.tell e).findings = [] := by
  unfold tell
  split <;> rfl

theorem Verbosity.paired_tell {R : Finding → Finding → Prop} (v : Verbosity) (e e' : Event) :
    Trace.Paired R (v.tell e) (v.tell e') :=
  .of_silent (by rw [outcome_tell, outcome_tell]) (findings_tell ..) (findings_tell ..)

/-! ## One method -/

theorem Priority.ofTaint_eq_high {t : Bool} : ofTaint t = .high ↔ t = true := by
  cases t <;> simp [ofTaint]

namespace Analysis

section
variable (a : Analysis)

def findingAt (priority : Priority) (position : Nat) (point : InjectionPoint) : Finding :=
  .new point.bugType priority a.owner a.method.name a.method.descriptor position (a.code.lineFor position) point.label

def priorityAt (s : Settings) (policy : Policy) (l : Location) (point : InjectionPoint) : Priority :=
  .ofTaint ((a.replay s policy).taintedPositions l.index point.arguments).2.anyTainted

end

section
variable {R : Finding → Finding → Prop} {a : Analysis} {s : Settings} {policy policy' : Policy}
  {locals' : List Cell} {taintParameters' : Bool} {matchers : List Matcher}

theorem findings_report (l : Location) (position : Nat) (called : Member) (point : InjectionPoint) :
    (a.report s policy l position called point).findings =
      [a.findingAt (a.priorityAt s policy l point) position point] := by
  have hevents : ∀ es : List Event, Trace.findings (α := Unit) ⟨es.map Output.event, .ok ()⟩ = [] := by
    intro es
    induction es with
    | nil => rfl
    | cons e es ih => exact ih
  simp only [report, Trace.findings_bind, Trace.emitAll, hevents, Verbosity.findings_tell, Verbosity.outcome_tell]
  rfl

theorem allConstant_congr (l : Location) (ds : List Nat) :
    { a with locals := locals' }.allConstant { s with taintParameters := taintParameters' } l ds =
      a.allConstant s l ds := by
  induction ds with
  | nil => rfl
  | cons d ds ih =>
    unfold allConstant
    rw [ih]

section
variable {l : Location} (hR : ∀ h point, a.code.body[l.index]? = some h →
  R (a.findingAt (a.priorityAt s policy l point) h.position point)
    (a.findingAt ({ a with locals := locals' }.priorityAt s policy' l point) h.position point))
include hR

theorem paired_inspectCall {h : Placed} (hb : a.code.body[l.index]? = some h) (kind : InvokeKind) (index : UInt16) :
    Trace.Paired R (a.inspectCall s policy matchers l h.position kind index)
      ({ a with locals := locals' }.inspectCall { s with taintParameters := taintParameters' } policy' matchers l
        h.position kind index) := by
  unfold inspectCall
  refine (Trace.paired_ofExcept _).bind fun called _ => (Trace.paired_ofExcept _).bind fun point? _ => ?_
  cases point? with
  | none => exact Trace.paired_pure ()
  | some point =>
    simp only [allConstant_congr]
    refine (Trace.paired_ofExcept _).bind fun constant _ => ?_
    cases constant with
    | true => exact Verbosity.paired_tell ..
    | false =>
      refine ⟨by rw [if_neg Bool.false_ne_true, if_neg Bool.false_ne_true, outcome_report, outcome_report], ?_⟩
      rw [if_neg Bool.false_ne_true, if_neg Bool.false_ne_true, findings_report, findings_report]
      exact .cons (hR h point hb) .nil

theorem paired_inspect : Trace.Paired R (a.inspect s policy matchers l)
    ({ a with locals := locals' }.inspect { s with taintParameters := taintParameters' } policy' matchers l) := by
  unfold inspect
  cases hb : a.code.body[l.index]? with
  | none => exact Trace.paired_pure ()
  | some h =>
    refine (Verbosity.paired_tell ..).bind fun _ _ => ?_
    split
    · split
      · exact Verbosity.paired_tell ..
      · exact paired_inspectCall hR hb ..
    · exact Trace.paired_pure ()

end

theorem paired_inspectAll {ls : List Location} (hR : ∀ l ∈ ls, ∀ h point, a.code.body[l.index]? = some h →
    R (a.findingAt (a.priorityAt s policy l point) h.position point)
      (a.findingAt ({ a with locals := locals' }.priorityAt s policy' l point) h.position point)) :
    Trace.Paired R (a.inspectAll s policy matchers ls)
      ({ a with locals := locals' }.inspectAll { s with taintParameters := taintParameters' } policy' matchers ls) := by
  induction ls with
  | nil => exact Trace.paired_pure ()
  | cons l ls ih =>
    refine (paired_inspect (hR l (List.mem_cons_self ..))).bind fun _ _ => ?_
    exact ih fun l' hl' => hR l' (List.mem_cons_of_mem _ hl')

end

end Analysis

namespace Detector

/-- The second detector differs at most in its policy and in that it taints parameters too. -/
structure Beside (d d' : Detector) : Prop where
  matchers : d'.matchers = d.matchers
  settings : d'.settings = { d.settings with taintParameters := d'.settings.taintParameters }
  parameters : d.settings.taintParameters = true → d'.settings.taintParameters = true

theorem entryLocals_raised (isStatic : Bool) (descriptor : MethodDescriptor) {t t' : Bool} (ht : t = true → t' = true) :
    List.Forall₂ Cell.Raised (Replay.entryLocals isStatic descriptor t) (Replay.entryLocals isStatic descriptor t') := by
  have hargs : ∀ (ps : List FieldType) id, List.Forall₂ Cell.Raised (Replay.entryLocals.arguments t id ps)
      (Replay.entryLocals.arguments t' id ps) := by
    intro ps
    induction ps with
    | nil => exact fun _ => .nil
    | cons p ps ih =>
      intro id
      refine List.rel_append ?_ (ih (id + 1))
      induction p.words with
      | zero => exact .nil
      | succ n ihn => exact .cons ⟨rfl, ht⟩ ihn
  unfold Replay.entryLocals
  split
  · exact hargs ..
  · exact .cons ⟨rfl, fun h => h⟩ (hargs ..)

section
variable {d d' : Detector} (hd : d.Beside d') {c : ClassUnit}
include hd

theorem Beside.candidates : d'.candidates c = d.candidates c := by
  rw [Detector.candidates, hd.matchers]
  rfl

theorem Beside.prepare (m : Method) (code : Code) :
    (∃ e, d.prepare c m code = .error e ∧ d'.prepare c m code = .error e) ∨
      ∃ a locals', d.prepare c m code = .ok a ∧ d'.prepare c m code = .ok { a with locals := locals' } ∧
        List.Forall₂ Cell.Raised a.locals locals' := by
  simp only [Detector.prepare, bind, Except.bind]
  cases Graph.build code with
  | error e => exact .inl ⟨e, rfl, rfl⟩
  | ok graph =>
    simp only
    cases Flow.analyze code graph c.pool with
    | error e => exact .inl ⟨e, rfl, rfl⟩
    | ok flow =>
      simp only
      cases MethodDescriptor.parse m.descriptor with
      | error e => exact .inl ⟨e, rfl, rfl⟩
      | ok descriptor => exact .inr ⟨_, _, rfl, rfl, entryLocals_raised _ _ hd.parameters⟩

end

theorem findings_narrate (d : Detector) (c : ClassUnit) (m : Method) (t : Trace Output Unit) :
    (d.narrate c m t).filterMap Output.finding? = t.findings := by
  have htell : ∀ v : Verbosity, ∀ e, (v.tell e).output.filterMap Output.finding? = [] := Verbosity.findings_tell
  unfold narrate
  rw [List.filterMap_append, List.filterMap_append, htell, List.nil_append]
  cases t.outcome with
  | ok _ => exact List.append_nil _
  | error e => rw [htell, List.append_nil]; rfl

theorem findings_visit (d : Detector) (c : ClassUnit) : (d.visit c).findings =
    if (d.candidates c).isEmpty then [] else (d.runs c).flatMap fun p => p.2.findings := by
  rw [Visit.findings, output_visit]
  split
  · exact Verbosity.findings_tell ..
  · simp only [List.filterMap_flatMap, findings_narrate]

section
variable {R : Finding → Finding → Prop} {d d' : Detector} (hd : d.Beside d') {c : ClassUnit}

def PairsMethod (R : Finding → Finding → Prop) (d d' : Detector) (c : ClassUnit) (m : Method) (code : Code) : Prop :=
  ∀ a locals', d.prepare c m code = .ok a → List.Forall₂ Cell.Raised a.locals locals' →
    ∀ l ∈ a.graph.orderedLocations, ∀ h point, a.code.body[l.index]? = some h →
      R (a.findingAt (a.priorityAt d.settings d.policy l point) h.position point)
        (a.findingAt ({ a with locals := locals' }.priorityAt d.settings d'.policy l point) h.position point)

include hd

theorem paired_analyze {m : Method} {code : Code} (hR : PairsMethod R d d' c m code) (candidates : List Matcher) :
    Trace.Paired R (d.analyze c candidates m code) (d'.analyze c candidates m code) := by
  unfold Detector.analyze
  rcases hd.prepare (c := c) m code with ⟨e, he, he'⟩ | ⟨a, locals', ha, ha', hlocals⟩
  · rw [he, he']
    exact Trace.paired_error_bind ..
  · obtain ⟨t', hs⟩ : ∃ t', d'.settings = { d.settings with taintParameters := t' } := ⟨_, hd.settings⟩
    rw [ha, ha', hs, Trace.ofExcept_ok_bind, Trace.ofExcept_ok_bind]
    exact Analysis.paired_inspectAll (hR a locals' ha hlocals)

/-! ## Classes -/

section
variable (hR : ∀ m ∈ c.methods, ∀ code, m.code = some code → PairsMethod R d d' c m code)
include hR

theorem paired_runs :
    List.Forall₂ (fun p q => p.1 = q.1 ∧ Trace.Paired R p.2 q.2) (d.runs c) (d'.runs c) := by
  unfold Detector.runs
  rw [hd.candidates]
  generalize c.methods = ms at hR
  induction ms with
  | nil => exact .nil
  | cons m ms ih =>
    have htail := ih fun m' hm' => hR m' (List.mem_cons_of_mem _ hm')
    rw [List.filterMap_cons, List.filterMap_cons]
    cases hcode : m.code with
    | none => exact htail
    | some code => exact .cons ⟨rfl, paired_analyze hd (hR m (List.mem_cons_self ..) code hcode) _⟩ htail

theorem paired_visit : (d.visit c).report = (d'.visit c).report ∧
    List.Forall₂ R (d.visit c).findings (d'.visit c).findings := by
  have hruns := paired_runs hd hR
  have hfindings : List.Forall₂ R (d.visit c).findings (d'.visit c).findings := by
    rw [findings_visit, findings_visit, hd.candidates]
    split
    · exact .nil
    · exact List.rel_flatMap hruns fun p q hpq => hpq.2.findings
  have hfailures : (d.runs c).filterMap (fun p => failure? p.1 p.2) =
      (d'.runs c).filterMap fun p => failure? p.1 p.2 := by
    generalize d.runs c = ps at hruns
    generalize d'.runs c = qs at hruns
    induction hruns with
    | nil => rfl
    | cons hpq _ ih =>
      rw [List.filterMap_cons, List.filterMap_cons, ih]
      unfold failure?
      rw [hpq.1, hpq.2.outcome]
  refine ⟨?_, hfindings⟩
  rw [report_visit, report_visit, hd.candidates, hruns.length_eq, hfailures, hfindings.length_eq]

end

omit hd in
theorem scan_nil : d.scan [] = ⟨[], []⟩ :=
  rfl

omit hd in
theorem reports_scan_cons (cs : List ClassUnit) : (d.scan (c :: cs)).reports = (d.visit c).report :: (d.scan cs).reports :=
  rfl

omit hd in
theorem findings_scan_cons (cs : List ClassUnit) :
    (d.scan (c :: cs)).findings = (d.visit c).findings ++ (d.scan cs).findings := by
  rw [scan, scan, List.map_cons, List.flatMap_cons]

theorem paired_scan {cs : List ClassUnit}
    (hR : ∀ c ∈ cs, ∀ m ∈ c.methods, ∀ code, m.code = some code → PairsMethod R d d' c m code) :
    (d.scan cs).reports = (d'.scan cs).reports ∧ List.Forall₂ R (d.scan cs).findings (d'.scan cs).findings := by
  induction cs with
  | nil =>
    rw [scan_nil, scan_nil]
    exact ⟨rfl, .nil⟩
  | cons c cs ih =>
    obtain ⟨hreport, hfindings⟩ := paired_visit hd (hR c (List.mem_cons_self ..))
    obtain ⟨hreports, htail⟩ := ih fun c' hc' => hR c' (List.mem_cons_of_mem _ hc')
    rw [reports_scan_cons, reports_scan_cons, findings_scan_cons, findings_scan_cons, hreport, hreports]
    exact ⟨rfl, List.rel_append hfindings htail⟩

end

end Detector

end SinkCheck
