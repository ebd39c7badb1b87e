import SinkCheck.Proofs.Visits

/-!
# Verbosity only filters

Dropping output commutes with running one computation after the other, so what a quieter scan tells can be read
off the fullest one. Every event is asked for on its own, in the scan and in the replays it starts, and none of
the questions changes what is computed.
-/

namespace SinkCheck

/-! ## What a level keeps -/

namespace Event

def ofMethod : Event → Bool
  | .skippedClass .. | .analyzing .. | .suppressed .. | .reported .. => true
  | _ => false

def ofInstruction : Event → Bool
  | .visited .. | .unreachable .. | .replayed .. => true
  | _ => false

end Event

namespace Verbosity

def keeps (v : Verbosity) (e : Event) : Bool :=
  e.severity = .warn ∨ (e.ofMethod ∧ v.covers .methods) ∨ (e.ofInstruction ∧ v = .instructions)

theorem keeps_eq_covers (v : Verbosity) (e : Event) : v.keeps e = v.covers e.level := by
  cases e <;> cases v <;> rfl

theorem keeps_of_warn (v : Verbosity) {e : Event} (he : e.severity = .warn) : v.keeps e = true := by
  simp [keeps, he]

theorem covers_of_instructions (e : Event) : Verbosity.instructions.covers e.level = true := by
  cases e <;> rfl

end Verbosity

namespace Output

def kept (v : Verbosity) : Output → Bool
  | .event e => v.keeps e
  | .finding _ => true

theorem findings_filter_kept (v : Verbosity) (os : List Output) :
    (os.filter (kept v)).filterMap finding? = os.filterMap finding? := by
  rw [List.filterMap_filter]
  congr 1
  funext o
  cases o with
  | finding f => rfl
  | event e => cases h : v.keeps e <;> simp [kept, finding?, h]

theorem events_filter_kept (v : Verbosity) (os : List Output) :
    (os.filter (kept v)).filterMap event? = (os.filterMap event?).filter v.keeps := by
  rw [List.filterMap_filter, List.filter_filterMap]
  congr 1
  funext o
  cases o with
  | finding f => rfl
  | event e => cases h : v.keeps e <;> simp [kept, event?, Option.filter, h]

end Output

/-! ## Traces -/

namespace Trace

variable {ω α β : Type}

def keep (p : ω → Bool) (t : Trace ω α) : Trace ω α :=
  ⟨t.output.filter p, t.outcome⟩

theorem keep_ofExcept (p : ω → Bool) (x : Except AnalysisError α) : (ofExcept x).keep p = ofExcept x :=
  rfl

theorem keep_bind (p : ω → Bool) (t : Trace ω α) (k : α → Trace ω β) :
    (t >>= k).keep p = t.keep p >>= fun a => (k a).keep p := by
  show (bind t k).keep p = bind (t.keep p) _
  unfold bind keep
  cases t.outcome <;> simp

end Trace

theorem Verbosity.keep_tell (v : Verbosity) (e : Event) :
    (Verbosity.instructions.tell e).keep (Output.kept v) = v.tell e := by
  rw [tell, tell, if_pos (covers_of_instructions e), ← keeps_eq_covers]
  cases h : v.keeps e <;> simp [Trace.keep, Trace.emit, Output.kept, h, pure]

theorem Verbosity.output_tell (v : Verbosity) (e : Event) :
    (v.tell e).output = (Verbosity.instructions.tell e).output.filter (Output.kept v) := by
  rw [← v.keep_tell e]
  rfl

theorem Trace.keep_events (v : Verbosity) (es : List Event) :
    (emitAll (es.map .event)).keep (Output.kept v) = emitAll ((es.filter v.keeps).map .event) := by
  rw [keep, emitAll, List.filter_map]
  rfl

/-! ## Replays -/

namespace Replay

def withVerbosity (r : Replay) (v : Verbosity) : Replay :=
  { r with verbosity := v }

section
variable (r : Replay) (v : Verbosity)

theorem code_withVerbosity : (r.withVerbosity v).code = r.code :=
  rfl

theorem keep_narrate (h : Placed) (s : ReplayState) :
    ((r.withVerbosity .instructions).narrate h s).keep v.keeps = (r.withVerbosity v).narrate h s := by
  cases v <;> rfl

theorem keep_walk (target : Nat) (ls : List Location) (current : Option Nat) (s : ReplayState) :
    ((r.withVerbosity .instructions).walk target ls current s).keep v.keeps =
      (r.withVerbosity v).walk target ls current s := by
  induction ls generalizing current s with
  | nil => rfl
  | cons l ls ih =>
    rw [walk, walk, Trace.keep_bind, Trace.keep_ofExcept]
    -- entering a block tells nothing, so both walks go on from one state
    refine bind_congr fun s => ?_
    by_cases htarget : l.index = target
    · simp only [if_pos htarget]
      rfl
    · simp only [if_neg htarget]
      rw [code_withVerbosity, code_withVerbosity]
      cases r.code.body[l.index]? with
      | none => exact ih ..
      | some h =>
        simp only [Trace.keep_bind, Trace.keep_ofExcept, keep_narrate, ih]
        rfl

theorem keep_runTo (target : Nat) :
    ((r.withVerbosity .instructions).runTo target).keep v.keeps = (r.withVerbosity v).runTo target :=
  r.keep_walk v target _ none _

theorem taintedPositions_eq (target : Nat) (positions : List Nat) :
    (r.withVerbosity v).taintedPositions target positions =
      (((r.withVerbosity .instructions).taintedPositions target positions).1.filter v.keeps,
        ((r.withVerbosity .instructions).taintedPositions target positions).2) := by
  simp only [taintedPositions, ← r.keep_runTo v target, code_withVerbosity]
  generalize (r.withVerbosity .instructions).runTo target = run
  obtain ⟨output, outcome⟩ := run
  cases outcome with
  | error e =>
    have hwarn : v.keeps (.lost (r.code.position? target) e) = true := v.keeps_of_warn rfl
    simp [Trace.keep, hwarn]
  | ok f? =>
    cases f? with
    | none =>
      have hwarn : v.keeps (.missed (r.code.position? target)) = true := v.keeps_of_warn rfl
      simp [Trace.keep, hwarn]
    | some f =>
      have hwarn : v.keeps (.tooDeep (r.code.position? target) f.depth) = true := v.keeps_of_warn rfl
      simp only [Trace.keep]
      cases positions.mapM fun d => (f.peek d).map Cell.tainted with
      | none => simp [hwarn]
      | some taint => rfl

end

end Replay

/-! ## Scans -/

namespace Settings

def withVerbosity (s : Settings) (v : Verbosity) : Settings :=
  { s with verbosity := v }

theorem verbosity_withVerbosity (s : Settings) (v : Verbosity) : (s.withVerbosity v).verbosity = v :=
  rfl

end Settings

namespace Analysis

section
variable (a : Analysis) (s : Settings) (policy : Policy) (matchers : List Matcher) (v : Verbosity)

theorem allConstant_withVerbosity (l : Location) (ds : List Nat) :
    a.allConstant (s.withVerbosity v) l ds = a.allConstant s l ds := by
  induction ds with
  | nil => rfl
  | cons d ds ih =>
    rw [allConstant, allConstant, ih]
    rfl

theorem keep_report (l : Location) (position : Nat) (called : Member) (point : InjectionPoint) :
    (a.report (s.withVerbosity .instructions) policy l position called point).keep (Output.kept v) =
      a.report (s.withVerbosity v) policy l position called point := by
  have hreplay : ∀ w, a.replay (s.withVerbosity w) policy = (a.replay s policy).withVerbosity w := fun _ => rfl
  -- the replay's events are filtered before they join those of the scan
  simp only [report, hreplay, (a.replay s policy).taintedPositions_eq v]
  simp only [Trace.keep_bind, Trace.keep_events, Settings.verbosity_withVerbosity, Verbosity.keep_tell]
  rfl

theorem keep_inspectCall (l : Location) (position : Nat) (kind : InvokeKind) (index : UInt16) :
    (a.inspectCall (s.withVerbosity .instructions) policy matchers l position kind index).keep (Output.kept v) =
      a.inspectCall (s.withVerbosity v) policy matchers l position kind index := by
  simp only [inspectCall, Trace.keep_bind, Trace.keep_ofExcept]
  refine bind_congr fun called => bind_congr fun point? => ?_
  cases point? with
  | none => rfl
  | some point =>
    simp only [Trace.keep_bind, Trace.keep_ofExcept, allConstant_withVerbosity]
    refine bind_congr fun constant => ?_
    cases constant with
    | true =>
      rw [if_pos rfl, if_pos rfl]
      exact v.keep_tell _
    | false =>
      rw [if_neg Bool.false_ne_true, if_neg Bool.false_ne_true]
      exact a.keep_report s policy v l position called point

theorem keep_inspect (l : Location) :
    (a.inspect (s.withVerbosity .instructions) policy matchers l).keep (Output.kept v) =
      a.inspect (s.withVerbosity v) policy matchers l := by
  unfold inspect
  cases a.code.body[l.index]? with
  | none => rfl
  | some h =>
    simp only [Trace.keep_bind, Settings.verbosity_withVerbosity, Verbosity.keep_tell]
    refine bind_congr fun _ => ?_
    split
    · split
      · exact v.keep_tell _
      · exact a.keep_inspectCall s policy matchers v l h.position _ _
    · rfl

theorem keep_inspectAll (ls : List Location) :
    (a.inspectAll (s.withVerbosity .instructions) policy matchers ls).keep (Output.kept v) =
      a.inspectAll (s.withVerbosity v) policy matchers ls := by
  induction ls with
  | nil => rfl
  | cons l ls ih => rw [inspectAll, inspectAll, Trace.keep_bind, keep_inspect, ih]

end

end Analysis

namespace Detector

def withVerbosity (d : Detector) (v : Verbosity) : Detector :=
  { d with settings := d.settings.withVerbosity v }

section
variable (d : Detector) (c : ClassUnit) (v : Verbosity)

theorem keep_analyze (candidates : List Matcher) (m : Method) (code : Code) :
    ((d.withVerbosity .instructions).analyze c candidates m code).keep (Output.kept v) =
      (d.withVerbosity v).analyze c candidates m code := by
  simp only [analyze, Trace.keep_bind, Trace.keep_ofExcept]
  refine bind_congr fun a => ?_
  exact a.keep_inspectAll d.settings d.policy candidates v _

theorem narrate_keep (m : Method) (t : Trace Output Unit) :
    (d.withVerbosity v).narrate c m (t.keep (Output.kept v)) =
      ((d.withVerbosity .instructions).narrate c m t).filter (Output.kept v) := by
  simp only [narrate, withVerbosity, Settings.verbosity_withVerbosity, v.output_tell, List.filter_append]
  obtain ⟨output, outcome⟩ := t
  cases outcome <;> rfl

theorem runs_withVerbosity : (d.withVerbosity v).runs c =
    ((d.withVerbosity .instructions).runs c).map fun p => (p.1, p.2.keep (Output.kept v)) := by
  rw [runs, runs, List.map_filterMap]
  congr 1
  funext m
  cases m.code with
  | none => rfl
  | some code => exact congrArg (fun t => some (m, t)) (d.keep_analyze c v _ m code).symm

/-- A visit at a lower level puts out what the fullest one does, less the events that the level drops. -/
theorem visit_withVerbosity :
    ((d.withVerbosity v).visit c).output = ((d.withVerbosity .instructions).visit c).output.filter (Output.kept v) ∧
    ((d.withVerbosity v).visit c).report = ((d.withVerbosity .instructions).visit c).report := by
  have hcandidates : ∀ w, (d.withVerbosity w).candidates c = d.candidates c := fun _ => rfl
  have houtput : ((d.withVerbosity v).visit c).output =
      ((d.withVerbosity .instructions).visit c).output.filter (Output.kept v) := by
    rw [output_visit, output_visit, hcandidates, hcandidates]
    split
    · exact v.output_tell _
    · simp only [d.runs_withVerbosity c v, List.flatMap_map, narrate_keep, List.filter_flatMap]
  have hfindings : ((d.withVerbosity v).visit c).findings = ((d.withVerbosity .instructions).visit c).findings := by
    rw [Visit.findings, houtput, Output.findings_filter_kept]
    rfl
  have hfailures : (((d.withVerbosity v).runs c).filterMap fun p => failure? p.1 p.2) =
      ((d.withVerbosity .instructions).runs c).filterMap fun p => failure? p.1 p.2 := by
    rw [d.runs_withVerbosity c v, List.filterMap_map]
    rfl
  have hlength : ((d.withVerbosity v).runs c).length = ((d.withVerbosity .instructions).runs c).length := by
    rw [d.runs_withVerbosity c v, List.length_map]
  refine ⟨houtput, ?_⟩
  rw [report_visit, report_visit, hcandidates, hcandidates, hfindings, hfailures, hlength]

end

/-- **Verbosity only filters.** The findings and the report of a visit are the same at every verbosity. The events
are those of the fullest visit in their order: all warnings, news of methods from level `methods` on, news of
instructions at level `instructions` only. -/
theorem visit_verbosity (d : Detector) (c : ClassUnit) (v w : Verbosity) :
    ((d.withVerbosity v).visit c).findings = ((d.withVerbosity w).visit c).findings ∧
    ((d.withVerbosity v).visit c).report = ((d.withVerbosity w).visit c).report ∧
    ((d.withVerbosity v).visit c).events = ((d.withVerbosity .instructions).visit c).events.filter fun e =>
      e.severity = .warn ∨ (e.ofMethod ∧ v.covers .methods) ∨ (e.ofInstruction ∧ v = .instructions) := by
  have hfindings : ∀ w, ((d.withVerbosity w).visit c).findings = ((d.withVerbosity .instructions).visit c).findings := by
    intro w
    rw [Visit.findings, (d.visit_withVerbosity c w).1, Output.findings_filter_kept]
    rfl
  refine ⟨?_, ?_, ?_⟩
  · rw [hfindings v, hfindings w]
  · rw [(d.visit_withVerbosity c v).2, (d.visit_withVerbosity c w).2]
  · rw [Visit.events, (d.visit_withVerbosity c v).1, Output.events_filter_kept]
    rfl

end Detector

end SinkCheck
