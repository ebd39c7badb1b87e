import SinkCheck.Proofs.Provenance

/-!
# The look at the pool hides no sink

A call names its class in the pool, so a table of rules that finds none of its classes there passes over every
call. Asking the candidates alone therefore gives what asking all matchers gives, and a class without candidates
has nothing to report.
-/

namespace SinkCheck

/-! ## Calls and tables -/

namespace Pool

theorem mem_entries_of_get? {pool : Pool} {index : UInt16} {e : Entry} (h : pool.get? index = some e) :
    e ∈ pool.entries := by
  have hslot : pool.slots[index.toNat]? = some (some e) := Option.join_eq_some_iff.mp h
  exact List.mem_filterMap.mpr ⟨some e, Array.mem_def.mp (Array.mem_of_getElem? hslot), rfl⟩

/-- The class of a call stands in the pool, but for a dynamic call, which has none. -/
theorem mentions_of_method {pool : Pool} {index : UInt16} {m : Member} (h : pool.method index = .ok m) :
    m.owner = "" ∨ pool.mentions m.owner = true := by
  unfold method at h
  split at h
  · rename_i hentry
    cases h
    exact .inr (List.any_eq_true.mpr ⟨_, mem_entries_of_get? hentry, by simp [Entry.mentions]⟩)
  · rename_i hentry
    cases h
    exact .inr (List.any_eq_true.mpr ⟨_, mem_entries_of_get? hentry, by simp [Entry.mentions]⟩)
  · cases h
    exact .inl rfl
  · cases h

end Pool

namespace RuleMatcher

def Owned (r : RuleMatcher) : Prop :=
  ∀ rule ∈ r.rules, rule.owner ≠ ""

theorem Owned.classify {r : RuleMatcher} (hr : r.Owned) {pool : Pool} {index : UInt16} {m : Member}
    (hm : pool.method index = .ok m) (hc : r.isCandidate pool = false) : r.classify m = .ok none := by
  have hnone : r.rules.filter (·.covers m) = [] := by
    rw [List.filter_eq_nil_iff]
    intro rule hrule hcovers
    have howner : rule.owner = m.owner := by
      simp only [SinkRule.covers, Bool.and_eq_true, beq_iff_eq] at hcovers
      exact hcovers.1
    -- a dynamic call has the empty owner, which no rule names
    rcases Pool.mentions_of_method hm with hempty | hmentions
    · exact hr rule hrule (howner.trans hempty)
    · rw [isCandidate, List.any_eq_false] at hc
      exact hc rule hrule (howner ▸ hmentions)
  rw [RuleMatcher.classify, hnone]

end RuleMatcher

theorem firstMatch_filter {call : CallSite} {pool : Pool} {ms : List Matcher}
    (h : ∀ m ∈ ms, m.isCandidate pool = false → m.classify call pool = .ok none) :
    firstMatch call pool (ms.filter (·.isCandidate pool)) = firstMatch call pool ms := by
  induction ms with
  | nil => rfl
  | cons m ms ih =>
    have htail := ih fun m' hm' => h m' (by simp [hm'])
    by_cases hm : m.isCandidate pool = true
    · rw [List.filter_cons, if_pos hm, firstMatch, firstMatch, htail]
    · rw [List.filter_cons, if_neg hm, htail, firstMatch, h m (by simp) (by simpa using hm)]

theorem firstMatch_candidates {rs : List RuleMatcher} (hrs : ∀ r ∈ rs, r.Owned) {pool : Pool} {index : UInt16}
    {call : CallSite} (hm : pool.method index = .ok call.method) :
    firstMatch call pool ((rs.map RuleMatcher.toMatcher).filter (·.isCandidate pool)) =
      firstMatch call pool (rs.map RuleMatcher.toMatcher) := by
  apply firstMatch_filter
  intro m hmem hc
  obtain ⟨r, hr, rfl⟩ := List.mem_map.mp hmem
  exact (hrs r hr).classify hm hc

/-! ## Scans with matchers that answer alike -/

namespace Analysis

section
variable {a : Analysis} {s : Settings} {policy : Policy} {ms ms' : List Matcher}
  (h : ∀ call index, a.pool.method index = .ok call.method → firstMatch call a.pool ms = firstMatch call a.pool ms')
include h

theorem inspectCall_congr (l : Location) (position : Nat) (kind : InvokeKind) (index : UInt16) :
    a.inspectCall s policy ms l position kind index = a.inspectCall s policy ms' l position kind index := by
  unfold inspectCall
  cases hm : a.pool.method index with
  | error e => rfl
  | ok called =>
    rw [Trace.ofExcept_ok_bind, Trace.ofExcept_ok_bind, h ⟨kind, called, l, position⟩ index hm]

theorem inspectAll_congr (ls : List Location) : a.inspectAll s policy ms ls = a.inspectAll s policy ms' ls := by
  induction ls with
  | nil => rfl
  | cons l ls ih =>
    have hl : a.inspect s policy ms l = a.inspect s policy ms' l := by
      unfold inspect
      simp only [inspectCall_congr h]
    rw [inspectAll, inspectAll, hl, ih]

end

end Analysis

/-! ## Visits without the look at the pool -/

namespace Detector

section
variable (d : Detector) (c : ClassUnit)

/-- Every method is analysed, and all matchers are asked. -/
def visitAll : Visit :=
  .ofActions c.name ((c.bodies.map fun (m, code) => (m, d.analyze c d.matchers m code)).flatMap
    fun (m, t) => d.methodActions c m t)

theorem findings_visitAll :
    (d.visitAll c).findings = c.bodies.flatMap fun p => (d.analyze c d.matchers p.1 p.2).findings := by
  rw [Visit.findings, visitAll, output_ofMethods]
  simp only [List.filterMap_flatMap, findings_narrate, List.flatMap_map]

theorem findings_analyze_nil (m : Method) (code : Code) : (d.analyze c [] m code).findings = [] := by
  cases h : d.prepare c m code with
  | error e =>
    rw [analyze_of_error h]
    rfl
  | ok a => rw [analyze_of_ok h, Analysis.findings_inspectAll, Analysis.sites_nil, List.map_nil]

end

section
variable {d : Detector} {rs : List RuleMatcher} (hd : d.matchers = rs.map RuleMatcher.toMatcher)
  (hrs : ∀ r ∈ rs, r.Owned)
include hd hrs

theorem analyze_candidates (c : ClassUnit) (m : Method) (code : Code) :
    d.analyze c (d.candidates c) m code = d.analyze c d.matchers m code := by
  cases h : d.prepare c m code with
  | error e => rw [analyze_of_error h, analyze_of_error h]
  | ok a =>
    have hpool : a.pool = c.pool := by
      obtain ⟨graph, flow, descriptor, -, -, rfl⟩ := prepare_cases h
      rfl
    rw [analyze_of_ok h, analyze_of_ok h]
    apply Analysis.inspectAll_congr
    intro call index hm
    rw [candidates, hd, ← hpool]
    exact firstMatch_candidates hrs hm

theorem visit_eq_visitAll {c : ClassUnit} (hc : d.candidates c ≠ []) : d.visit c = d.visitAll c := by
  have hruns : d.runs c = c.bodies.map fun (m, code) => (m, d.analyze c d.matchers m code) := by
    rw [runs_eq]
    simp only [run, analyze_candidates hd hrs]
  have hne : (d.candidates c).isEmpty = false := by simpa using hc
  rw [visit, actions, hne, hruns]
  rfl

theorem findings_visitAll_of_skipped {c : ClassUnit} (hc : d.candidates c = []) : (d.visitAll c).findings = [] := by
  -- its methods are analysed as with no matcher at all
  rw [findings_visitAll, List.flatMap_eq_nil_iff]
  intro p _
  rw [← analyze_candidates hd hrs, hc, findings_analyze_nil]

end

/-- **The look at the pool hides no sink.** With tables whose rules all name a class, the candidates answer every call
as all the tables do. So a visit finds what it would find if it asked all of them about every method, and unless
it skips the class it does the very same. -/
theorem precheck_hides_nothing {d : Detector} {rs : List RuleMatcher}
    (hd : d.matchers = rs.map RuleMatcher.toMatcher) (hrs : ∀ r ∈ rs, r.Owned) :
    (∀ (pool : Pool) (index : UInt16) (call : CallSite), pool.method index = .ok call.method →
      firstMatch call pool (d.matchers.filter (·.isCandidate pool)) = firstMatch call pool d.matchers) ∧
    ∀ c, (d.visit c).findings = (d.visitAll c).findings ∧ (d.candidates c ≠ [] → d.visit c = d.visitAll c) := by
  refine ⟨?_, ?_⟩
  · intro pool index call hm
    rw [hd]
    exact firstMatch_candidates hrs hm
  · intro c
    by_cases hc : d.candidates c = []
    · refine ⟨?_, fun hne => absurd hc hne⟩
      rw [(d.visit_of_skipped c hc).1, findings_visitAll_of_skipped hd hrs hc]
    · have hvisit := visit_eq_visitAll hd hrs hc
      exact ⟨by rw [hvisit], fun _ => hvisit⟩

end Detector

namespace Sample

def tables : List RuleMatcher :=
  [.jdbc, ⟨"db", [⟨"SQL_INJECTION", "acme/Db", ["run"], [0]⟩]⟩]

def tabled : Detector where
  matchers := tables.map RuleMatcher.toMatcher
  policy := console.policy

def runCall : CallSite where
  kind := .static
  method := ⟨"acme/Db", "run", "(Ljava/lang/String;)V"⟩
  location := ⟨3, 0⟩
  position := 8

end Sample

theorem Detector.batch_precheck :
    let d := Sample.tabled
    let c := Sample.batch
    d.matchers = Sample.tables.map RuleMatcher.toMatcher ∧ (∀ r ∈ Sample.tables, r.Owned) ∧
      (d.candidates c).map Matcher.name = ["db"] ∧ c.pool.method 2 = .ok Sample.runCall.method ∧
      firstMatch Sample.runCall c.pool (d.candidates c) = firstMatch Sample.runCall c.pool d.matchers ∧
      d.visit c = d.visitAll c := by
  intro d c
  have hd : d.matchers = Sample.tables.map RuleMatcher.toMatcher := rfl
  have hrs : ∀ r ∈ Sample.tables, r.Owned := by
    simp [Sample.tables, RuleMatcher.Owned, RuleMatcher.jdbc, SinkRule.database]
  have hnames : (d.candidates c).map Matcher.name = ["db"] := by decide
  have hm : c.pool.method 2 = .ok Sample.runCall.method := rfl
  have hc : d.candidates c ≠ [] := by
    intro hnil
    rw [hnil] at hnames
    cases hnames
  obtain ⟨hfirst, hvisit⟩ := precheck_hides_nothing hd hrs
  exact ⟨hd, hrs, hnames, hm, hfirst c.pool 2 Sample.runCall hm, (hvisit c).2 hc⟩

end SinkCheck
