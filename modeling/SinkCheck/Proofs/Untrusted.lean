import Mathlib
import SinkCheck.Proofs.Paired

/-!
# More untrusted input

Tainting parameters, naming more source fields and trusting fewer sanitizers never lowers a finding. Naming
one more source method can: a call that becomes a source no longer taints the object it is made on.
-/

namespace SinkCheck

/-! ## Stricter policies -/

structure Policy.Stricter (p p' : Policy) : Prop where
  source : ∀ m, p'.classify m = .source ↔ p.classify m = .source
  sanitizer : ∀ m, p'.classify m = .sanitizer → p.classify m = .sanitizer
  field : ∀ m, p.isSourceField m = true → p'.isSourceField m = true

theorem Policy.Stricter.at {p p' : Policy} (h : p.Stricter p') (f : Frame Cell) (e : Effect) : p.StricterAt p' f e := by
  cases e with
  | invoke call =>
    have hsource := h.source call.method
    have hsanitizer := h.sanitizer call.method
    refine .inr ?_
    cases hp : p.classify call.method with
    | sanitizer => exact .inl rfl
    | source => exact .inr (.inl (hsource.mpr hp))
    | propagate =>
      rw [hp] at hsource hsanitizer
      cases hp' : p'.classify call.method with
      | source => cases hsource.mp hp'
      | sanitizer => cases hsanitizer hp'
      | propagate => exact .inr (.inl rfl)
  | readField m n => exact h.field m
  | _ => trivial

theorem UntrustedSources.stricter_policy {s s' : UntrustedSources} (hmethods : ∀ n, n ∈ s'.methods ↔ n ∈ s.methods)
    (hfields : s.fields ⊆ s'.fields) (hsanitizers : s'.sanitizers ⊆ s.sanitizers) : s.policy.Stricter s'.policy := by
  have hm : ∀ n, s'.methods.contains n = s.methods.contains n := by
    intro n
    rw [Bool.eq_iff_iff, List.contains_iff_mem, List.contains_iff_mem]
    exact hmethods n
  refine ⟨fun m => ?_, fun m h => ?_, fun m h => ?_⟩
  · simp only [policy, hm]
    split
    · simp
    · split <;> split <;> simp
  · simp only [policy, hm] at h ⊢
    by_cases hsource : s.methods.contains m.qualified = true
    · rw [if_pos hsource] at h
      cases h
    · rw [if_neg hsource] at h ⊢
      by_cases hs : s'.sanitizers.contains m.qualified = true
      · rw [if_pos (List.contains_iff_mem.mpr (hsanitizers (List.contains_iff_mem.mp hs)))]
      · rw [if_neg hs] at h
        cases h
  · exact List.contains_iff_mem.mpr (hfields (List.contains_iff_mem.mp h))

/-! ## Findings -/

structure Finding.Raised (f f' : Finding) : Prop where
  same : f' = { f with priority := f'.priority }
  high : f.priority = .high → f'.priority = .high

namespace Detector

structure Stricter (d d' : Detector) : Prop extends d.Beside d' where
  policy : d.policy.Stricter d'.policy

/-- **More untrusted input never lowers a finding.** A detector that taints parameters, names more source
fields or trusts fewer sanitizers gives the same reports and the same findings in the same order, high where
they were high before. A replay that starts with more taint gets as far and answers with more taint. -/
theorem scan_raised {d d' : Detector} (h : d.Stricter d') (cs : List ClassUnit) :
    (d.scan cs).reports = (d'.scan cs).reports ∧
    List.Forall₂ Finding.Raised (d.scan cs).findings (d'.scan cs).findings ∧
    (∀ (r : Replay) (policy' : Policy) (locals' : List Cell), r.policy.Stricter policy' →
      List.Forall₂ Cell.Raised r.locals locals' → ∀ target ps, (r.taintedPositions target ps).2.Raised
        ({ r with policy := policy', locals := locals' }.taintedPositions target ps).2) ∧
    ∀ s s' : UntrustedSources, (∀ n, n ∈ s'.methods ↔ n ∈ s.methods) → s.fields ⊆ s'.fields →
      s'.sanitizers ⊆ s.sanitizers → s.policy.Stricter s'.policy := by
  have hreplay : ∀ (r : Replay) (policy' : Policy) (locals' : List Cell), r.policy.Stricter policy' →
      List.Forall₂ Cell.Raised r.locals locals' → ∀ target ps, (r.taintedPositions target ps).2.Raised
        ({ r with policy := policy', locals := locals' }.taintedPositions target ps).2 :=
    fun r policy' locals' hpolicy hlocals target ps =>
      Replay.verdict_raised hlocals (fun i f _ p e _ _ => hpolicy.at f e) ps
  have hpairs : ∀ c ∈ cs, ∀ m ∈ c.methods, ∀ code, m.code = some code → PairsMethod Finding.Raised d d' c m code := by
    intro c _ m _ code _ a locals' _ hlocals l _ p point _
    have hverdict := hreplay (a.replay d.settings d.policy) d'.policy locals' h.policy hlocals l.index point.arguments
    refine ⟨rfl, fun hhigh => Priority.ofTaint_eq_high.mpr ?_⟩
    exact hverdict.anyTainted (Priority.ofTaint_eq_high.mp hhigh)
  obtain ⟨hreports, hfindings⟩ := paired_scan h.toBeside hpairs
  exact ⟨hreports, hfindings, hreplay, fun s s' => UntrustedSources.stricter_policy⟩

end Detector

/-! ## A query that is filled -/

namespace Sample

def add : Member := ⟨"acme/Query", "add", "(Ljava/lang/String;)V"⟩

def fill : Code where
  body := #[⟨0, .new 1⟩, ⟨3, .shuffle .dup⟩, ⟨4, .load .reference 0⟩, ⟨5, .invoke .virtual 2⟩,
    ⟨8, .invoke .static 3⟩, ⟨11, .leave none⟩]

def fillMethod : Method := ⟨"find", "(Ljava/lang/String;)V", true, some fill⟩

def queries : ClassUnit where
  name := "acme/Queries"
  pool := ⟨#[none, some (.classRef "acme/Query"), some (.method add),
    some (.method ⟨"acme/Db", "run", "(Lacme/Query;)V"⟩)]⟩
  methods := [fillMethod]

def database (sources : UntrustedSources) (taintParameters : Bool) : Detector where
  matchers := [RuleMatcher.toMatcher ⟨"db", [⟨"SQL_INJECTION", "acme/Db", ["run"], [0]⟩]⟩]
  policy := sources.policy
  settings := { taintParameters }

def fillGraph : Graph where
  blocks := #[⟨0, 0, 6, false⟩]
  edges := []

def fillFlow : Flow where
  entries := [some {}]
  frames := #[some {}, some { stack := [.unknown], position := 3 }, some { stack := [.unknown, .unknown], position := 4 },
    some { stack := [.unknown, .unknown, .unknown], position := 5 }, some { stack := [.unknown], position := 8 },
    some { position := 11 }]

theorem build_fill : Graph.build fill = .ok fillGraph := by cbv

theorem analyze_fill : Flow.analyze fill fillGraph queries.pool = .ok fillFlow :=
  Flow.drain_of_drainWithin (n := 1) (by cbv)

def fillAnalysis (taintParameters : Bool) : Analysis :=
  ⟨"acme/Queries", queries.pool, fillMethod, fill, fillGraph, fillFlow, [.ofObject 0 taintParameters]⟩

theorem prepare_fill (sources : UntrustedSources) (t : Bool) :
    (database sources t).prepare queries fillMethod fill = .ok (fillAnalysis t) := by
  have hd : MethodDescriptor.parse fillMethod.descriptor = .ok ⟨[.object "java/lang/String"], none⟩ := by cbv
  exact Detector.prepare_of_parts build_fill analyze_fill hd

theorem scan_queries (sources : UntrustedSources) (t : Bool) : ((database sources t).scan [queries]).findings =
    ((fillAnalysis t).inspectAll { taintParameters := t } sources.policy (database sources t).matchers
      fillGraph.orderedLocations).findings := by
  have hcandidates : (database sources t).candidates queries = (database sources t).matchers := by cbv
  have hcode : fillMethod.code = some fill := rfl
  have hmethods : queries.methods = [fillMethod] := rfl
  rw [Detector.findings_scan_cons, Detector.scan_nil, List.append_nil, Detector.findings_visit, hcandidates,
    if_neg (by simp [database]), Detector.runs, hcandidates, hmethods]
  simp only [List.filterMap_cons, List.filterMap_nil, hcode, Option.map_some,
    Detector.analyze_of_ok (prepare_fill sources t), List.flatMap_cons, List.flatMap_nil, List.append_nil]
  rfl

end Sample

/-- The query is filled with a parameter. Once parameters are tainted and what is added is no longer trusted,
the finding is high. -/
theorem Detector.filled_query_raised :
    let d := Sample.database { sanitizers := ["acme/Query.add"] } false
    let d' := Sample.database {} true
    d.Stricter d' ∧ (d.scan [Sample.queries]).findings.map Finding.priority = [.low] ∧
      (d'.scan [Sample.queries]).findings.map Finding.priority = [.high] ∧
      (d.scan [Sample.queries]).reports = (d'.scan [Sample.queries]).reports ∧
      List.Forall₂ Finding.Raised (d.scan [Sample.queries]).findings (d'.scan [Sample.queries]).findings := by
  intro d d'
  have hs : d.Stricter d' := by
    refine ⟨⟨rfl, rfl, fun _ => rfl⟩, ?_⟩
    exact UntrustedSources.stricter_policy (fun _ => Iff.rfl) (List.Subset.refl _) (List.nil_subset _)
  have h := scan_raised hs [Sample.queries]
  refine ⟨hs, ?_, ?_, h.1, h.2.1⟩
  · rw [Sample.scan_queries]
    decide +kernel
  · rw [Sample.scan_queries]
    decide +kernel

/-! ## One more source method -/

def Analysis.FeedsAt (a : Analysis) (s : Settings) (policy : Policy) (q : String) (i : Nat) : Prop :=
  ∃ h call f, a.code.body[i]? = some h ∧ h.instruction.effect a.pool = .ok (.invoke call) ∧
    call.method.qualified = q ∧ isStringification call.method.name = false ∧
    policy.classify call.method = .propagate ∧ ((a.replay s policy).runTo i).outcome = .ok (some f) ∧
    call.feeds f = true

def Detector.FedBefore (d : Detector) (cs : List ClassUnit) (q : String) (f : Finding) : Prop :=
  ∃ c ∈ cs, ∃ m ∈ c.methods, ∃ code a, m.code = some code ∧ d.prepare c m code = .ok a ∧
    f.owner = c.name ∧ f.NamedFor m ∧ ∃ l ∈ a.graph.orderedLocations, code.position? l.index = some f.position ∧
      ∃ i < l.index, a.FeedsAt d.settings d.policy q i

theorem UntrustedSources.classify_withMethod (s : UntrustedSources) (q : String) (m : Member) :
    (s.withMethod q).policy.classify m = if m.qualified = q then .source else s.policy.classify m := by
  simp only [policy, withMethod, List.contains_cons]
  by_cases hq : m.qualified = q
  · rw [if_pos hq, hq, beq_self_eq_true, Bool.true_or, if_pos rfl]
  · rw [if_neg hq, beq_false_of_ne hq, Bool.false_or]
    rfl

theorem UntrustedSources.stricterAt_withMethod (s : UntrustedSources) (q : String) {f : Frame Cell} {e : Effect}
    (h : ∀ call, e = .invoke call → call.method.qualified = q → isStringification call.method.name = false →
      s.policy.classify call.method = .propagate → call.feeds f = false) :
    s.policy.StricterAt (s.withMethod q).policy f e := by
  cases e with
  | invoke call =>
    have hnew := s.classify_withMethod q call.method
    by_cases hs : isStringification call.method.name = true
    · exact .inl hs
    · refine .inr ?_
      by_cases hq : call.method.qualified = q
      · rw [if_pos hq] at hnew
        cases hp : s.policy.classify call.method with
        | sanitizer => exact .inl rfl
        | source => exact .inr (.inl hnew)
        | propagate => exact .inr (.inr ⟨rfl, hnew, h call rfl hq (Bool.eq_false_iff.mpr hs) hp⟩)
      · rw [if_neg hq] at hnew
        exact .inr (.inl hnew)
  | readField m n => exact fun h => h
  | _ => trivial

/-- Unless a call of the new source feeds an object on the way to the target, the verdict does not fall. -/
theorem Analysis.verdict_withMethod {a : Analysis} (ha : a.Prepared) {s : Settings} {sources : UntrustedSources}
    {q : String} {l : Location} (hloc : l ∈ a.graph.orderedLocations)
    (hfed : ∀ i < l.index, ¬ a.FeedsAt s sources.policy q i) {locals' : List Cell}
    (hlocals : List.Forall₂ Cell.Raised a.locals locals') (ps : List Nat) :
    ((a.replay s sources.policy).taintedPositions l.index ps).2.Raised
      (({ a with locals := locals' }.replay s (sources.withMethod q).policy).taintedPositions l.index ps).2 := by
  have hindex := ha.laid.index_orderedLocations
  have hsorted : (a.graph.orderedLocations.map Location.index).Pairwise (· < ·) := by
    rw [hindex]
    exact List.pairwise_lt_range
  refine Replay.verdict_raised (r := a.replay s sources.policy) hlocals (fun i f hpassed h e hb he => ?_) ps
  obtain ⟨-, hrun, hbefore⟩ := Replay.walk_of_mem_passed hsorted hpassed
  have hi := hbefore (List.mem_map_of_mem hloc)
  refine sources.stricterAt_withMethod q fun call hcall hq hs hp => ?_
  subst hcall
  by_contra hfeeds
  exact hfed i hi ⟨h, call, f, hb, he, hq, hs, hp, hrun, by simpa using hfeeds⟩

namespace Detector

theorem code_of_prepare {d : Detector} {c : ClassUnit} {m : Method} {code : Code} {a : Analysis}
    (h : d.prepare c m code = .ok a) : a.owner = c.name ∧ a.code = code := by
  obtain ⟨graph, flow, descriptor, -, -, rfl⟩ := prepare_cases h
  exact ⟨rfl, rfl⟩

/-- **One more source method.** The reports and findings stay the same, and a high finding stays high unless a
call of that method fed an object before: a source does not taint the object it is called on. -/
theorem scan_withMethod (matchers : List Matcher) (settings : Settings) (sources : UntrustedSources) (q : String)
    (cs : List ClassUnit) :
    let d : Detector := ⟨matchers, sources.policy, settings⟩
    let d' : Detector := ⟨matchers, (sources.withMethod q).policy, settings⟩
    (d.scan cs).reports = (d'.scan cs).reports ∧
    List.Forall₂ (fun f f' => f' = { f with priority := f'.priority } ∧
      (f.priority = .high → f'.priority = .high ∨ d.FedBefore cs q f)) (d.scan cs).findings (d'.scan cs).findings := by
  intro d d'
  have hbeside : d.Beside d' := ⟨rfl, rfl, fun h => h⟩
  refine paired_scan hbeside fun c hc m hm code hcode a locals' ha hlocals l hloc p point hb => ⟨rfl, fun hhigh => ?_⟩
  obtain ⟨hprepared, hmethod⟩ := prepare_eq_ok ha
  obtain ⟨howner, rfl⟩ := code_of_prepare ha
  by_cases hfed : ∃ i < l.index, a.FeedsAt settings sources.policy q i
  · refine .inr ⟨c, hc, m, hm, a.code, a, hcode, ha, howner, ?_, l, hloc, ?_, hfed⟩
    · rw [← hmethod]
      exact ⟨rfl, rfl⟩
    · rw [Code.position?, hb]
      rfl
  · have hverdict := a.verdict_withMethod (s := settings) hprepared hloc (fun i hi h => hfed ⟨i, hi, h⟩) hlocals
      point.arguments
    exact .inl (Priority.ofTaint_eq_high.mpr (hverdict.anyTainted (Priority.ofTaint_eq_high.mp hhigh)))

/-- The query is reported as high because adding to it taints its copy; it is low once adding is a source. -/
theorem source_lowers_filled_query :
    let d := Sample.database {} true
    let d' := Sample.database (UntrustedSources.withMethod {} "acme/Query.add") true
    (d.scan [Sample.queries]).findings.map Finding.priority = [.high] ∧
      (d'.scan [Sample.queries]).findings.map Finding.priority = [.low] := by
  intro d d'
  refine ⟨?_, ?_⟩
  · rw [Sample.scan_queries]
    decide +kernel
  · rw [Sample.scan_queries]
    decide +kernel

end Detector

end SinkCheck
