import SinkCheck.Proofs.Precheck
import SinkCheck.Proofs.Watched

/-!
# Disabling bug types

A call that a rule of another type takes is taken by the same rule when some types are disabled, since only rules
before and behind it go. So the findings of the other types stay, and a new one can only stand at a call that a
disabled rule took before.
-/

namespace SinkCheck

/-! ## Lists with items in between -/

inductive Supplemented {α : Type} (P : α → Prop) : List α → List α → Prop
  | nil : Supplemented P [] []
  | keep {a : α} {l l' : List α} : Supplemented P l l' → Supplemented P (a :: l) (a :: l')
  | add {a : α} {l l' : List α} : P a → Supplemented P l l' → Supplemented P l (a :: l')

namespace Supplemented

section
variable {α β : Type} {P : α → Prop} {l l' : List α}

theorem sublist (h : Supplemented P l l') : l.Sublist l' := by
  induction h with
  | nil => exact .slnil
  | keep _ ih => exact ih.cons_cons _
  | add _ _ ih => exact ih.cons _

theorem of_forall (h : ∀ a ∈ l, P a) : Supplemented P [] l := by
  induction l with
  | nil => exact .nil
  | cons a l ih => exact .add (h a (by simp)) (ih fun b hb => h b (by simp [hb]))

theorem refl (l : List α) : Supplemented P l l := by
  induction l with
  | nil => exact .nil
  | cons a l ih => exact .keep ih

theorem append {k k' : List α} (h : Supplemented P l l') (hk : Supplemented P k k') :
    Supplemented P (l ++ k) (l' ++ k') := by
  induction h with
  | nil => exact hk
  | keep _ ih => exact .keep ih
  | add ha _ ih => exact .add ha ih

theorem map {Q : β → Prop} {f : α → β} (hf : ∀ a, P a → Q (f a)) (h : Supplemented P l l') :
    Supplemented Q (l.map f) (l'.map f) := by
  induction h with
  | nil => exact .nil
  | keep _ ih => exact .keep ih
  | add ha _ ih => exact .add (hf _ ha) ih

theorem flatMap {f g : β → List α} {bs : List β} (h : ∀ b ∈ bs, Supplemented P (f b) (g b)) :
    Supplemented P (bs.flatMap f) (bs.flatMap g) := by
  induction bs with
  | nil => exact .nil
  | cons b bs ih => exact (h b (by simp)).append (ih fun b' hb' => h b' (by simp [hb']))

end

end Supplemented

/-! ## The rule that is left -/

namespace RuleMatcher

section
variable {r : RuleMatcher} {types : List String} {q : SinkRule → Bool} {rule : SinkRule}

theorem mem_withoutBugTypes : rule ∈ (r.withoutBugTypes types).rules ↔ rule ∈ r.rules ∧ rule.bugType ∉ types := by
  simp [withoutBugTypes]

theorem find?_withoutBugTypes (h : r.rules.find? q = some rule) (hrule : rule.bugType ∉ types) :
    (r.withoutBugTypes types).rules.find? q = some rule := by
  obtain ⟨hq, front, back, heq, hfront⟩ := List.find?_eq_some_iff_append.mp h
  rw [withoutBugTypes, heq, List.filter_append, List.filter_cons, if_pos (by simpa using hrule)]
  apply List.find?_eq_some_iff_append.mpr
  refine ⟨hq, _, _, rfl, ?_⟩
  intro r' hr'
  exact hfront r' (List.mem_filter.mp hr').1

theorem find?_withoutBugTypes_eq_none (h : r.rules.find? q = none) :
    (r.withoutBugTypes types).rules.find? q = none := by
  rw [List.find?_eq_none] at h ⊢
  intro r' hr'
  exact h r' (mem_withoutBugTypes.mp hr').1

theorem Owned.withoutBugTypes (h : r.Owned) (types : List String) : (r.withoutBugTypes types).Owned :=
  fun rule hrule => h rule (mem_withoutBugTypes.mp hrule).1

end

def AnswersIn (r : RuleMatcher) (pool : Pool) (ms : List Matcher) : Prop :=
  ∀ call index, pool.method index = .ok call.method → firstMatch call pool ms = r.classify call.method

theorem Owned.answersIn {r : RuleMatcher} (hr : r.Owned) (pool : Pool) :
    r.AnswersIn pool ([r.toMatcher].filter (·.isCandidate pool)) := by
  intro call index hm
  have hrs : ∀ r' ∈ [r], r'.Owned := by simpa using hr
  have hall := firstMatch_candidates hrs hm
  rw [List.map_singleton] at hall
  have hclassify : r.toMatcher.classify call pool = r.classify call.method := rfl
  rw [hall, firstMatch, firstMatch, hclassify]
  cases r.classify call.method with
  | error e => rfl
  | ok point? => cases point? <;> rfl

end RuleMatcher

/-! ## Sites -/

namespace Analysis

section
variable (a : Analysis) (s : Settings)

def siteFor (call : CallSite) (point : InjectionPoint) : Option Site :=
  match a.allConstant s call.location point.arguments with
  | .ok false => some ⟨call, point⟩
  | _ => none

/-- The call is one of the method, and the first rule that applies to it has one of the types. -/
def Taken (r : RuleMatcher) (types : List String) (call : CallSite) : Prop :=
  a.Calls call.location call ∧ ∃ d rule, MethodDescriptor.parse call.method.descriptor = .ok d ∧
    r.rules.find? (·.AppliesTo d call.method) = some rule ∧ rule.bugType ∈ types

end

section
variable {a : Analysis} {s : Settings} {r : RuleMatcher} {types : List String} {ms ms' : List Matcher}

theorem site_of_siteFor {call : CallSite} {point : InjectionPoint} {x : Site} (h : a.siteFor s call point = some x) :
    x = ⟨call, point⟩ := by
  unfold siteFor at h
  split at h
  · cases h
    rfl
  · cases h

variable (ha : a.Prepared) {l : Location} (hloc : l ∈ a.graph.orderedLocations)
include ha hloc

/-- The descriptor of a call that is reached can be read. -/
theorem Calls.descriptor {call : CallSite} (h : a.Calls l call) :
    ∃ d, MethodDescriptor.parse call.method.descriptor = .ok d := by
  obtain ⟨index, hi, hm⟩ := h.instruction
  obtain ⟨e, he⟩ := (Flow.enters_of_frameAt ha.laid ha.analyzed hloc h.reached).effect ha.laid ha.analyzed hi
  obtain ⟨m, d, hm', hd⟩ := Pool.method_of_effect he
  rw [hm] at hm'
  cases hm'
  exact ⟨d, hd⟩

theorem Calls.siteAt_eq {call : CallSite} (h : a.Calls l call) (hr : r.Watchful) (hms : r.AnswersIn a.pool ms)
    {d : MethodDescriptor} (hd : MethodDescriptor.parse call.method.descriptor = .ok d) :
    a.siteAt s ms l = .ok ((r.rules.find? (·.AppliesTo d call.method)).bind fun rule =>
      a.siteFor s call (rule.pointFor d call.method)) := by
  obtain ⟨index, -, hm⟩ := h.instruction
  rw [h.siteAt, siteOf, hms call index hm, hr.classify_eq hd]
  cases r.rules.find? (·.AppliesTo d call.method) with
  | none => rfl
  | some rule =>
    obtain ⟨harmless, hc⟩ := h.allConstant (s := s) ha hloc (rule.pointFor d call.method)
    simp only [Option.map_some, Except.bind, Option.bind_some, siteFor, h.location, hc]
    cases harmless <;> rfl

/-- Disabling types keeps a site of another type, and makes a new one only of a call that was taken by a type. -/
theorem siteAt_disabled (hr : r.Watchful) (hms : r.AnswersIn a.pool ms)
    (hms' : (r.withoutBugTypes types).AnswersIn a.pool ms') :
    ∃ x y, a.siteAt s ms l = .ok x ∧ a.siteAt s ms' l = .ok y ∧ (∀ z ∈ y, z.point.bugType ∉ types) ∧
      Supplemented (fun z => a.Taken r types z.call) (x.toList.filter (·.point.bugType ∉ types)) y.toList := by
  by_cases hcalls : ∃ call, a.Calls l call
  · obtain ⟨call, hcall⟩ := hcalls
    obtain ⟨d, hd⟩ := hcall.descriptor ha hloc
    refine ⟨_, _, hcall.siteAt_eq ha hloc hr hms hd, hcall.siteAt_eq ha hloc (hr.withoutBugTypes types) hms' hd, ?_, ?_⟩
    · intro z hz
      obtain ⟨rule, hrule, hz⟩ := Option.bind_eq_some_iff.mp hz
      rw [site_of_siteFor hz]
      exact (RuleMatcher.mem_withoutBugTypes.mp (List.mem_of_find?_eq_some hrule)).2
    · cases hrule : r.rules.find? (·.AppliesTo d call.method) with
      | none =>
        rw [RuleMatcher.find?_withoutBugTypes_eq_none hrule]
        exact .nil
      | some rule =>
        have hfull : ∀ z ∈ a.siteFor s call (rule.pointFor d call.method), z.point.bugType = rule.bugType := by
          intro z hz
          rw [site_of_siteFor hz]
          rfl
        by_cases htype : rule.bugType ∈ types
        · -- the old site goes, and a new one may come
          rw [List.filter_eq_nil_iff.mpr]
          · apply Supplemented.of_forall
            intro z hz
            obtain ⟨rule', -, hz⟩ := Option.bind_eq_some_iff.mp (Option.mem_toList.mp hz)
            rw [site_of_siteFor hz]
            refine ⟨?_, d, rule, hd, hrule, htype⟩
            rw [hcall.location]
            exact hcall
          · intro z hz
            simp [hfull z (Option.mem_toList.mp hz), htype]
        · rw [RuleMatcher.find?_withoutBugTypes hrule htype, List.filter_eq_self.mpr]
          · exact .refl _
          · intro z hz
            simp [hfull z (Option.mem_toList.mp hz), htype]
  · have hno : ∀ call, ¬ a.Calls l call := by simpa using hcalls
    refine ⟨none, none, siteAt_of_not_calls ha hloc hno, siteAt_of_not_calls ha hloc hno, by simp, ?_⟩
    exact .nil

end

section
variable {a : Analysis} {s : Settings} {r : RuleMatcher} {types : List String} {ms ms' : List Matcher}

theorem sites_disabled (ha : a.Prepared) (hr : r.Watchful) (hms : r.AnswersIn a.pool ms)
    (hms' : (r.withoutBugTypes types).AnswersIn a.pool ms') {ls : List Location}
    (hls : ∀ l ∈ ls, l ∈ a.graph.orderedLocations) :
    (∀ z ∈ a.sites s ms' ls, z.point.bugType ∉ types) ∧
      Supplemented (fun z => a.Taken r types z.call) ((a.sites s ms ls).filter (·.point.bugType ∉ types))
        (a.sites s ms' ls) := by
  induction ls with
  | nil => exact ⟨by simp [sites], .nil⟩
  | cons l ls ih =>
    obtain ⟨htypes, htail⟩ := ih fun l' hl' => hls l' (by simp [hl'])
    obtain ⟨x, y, hx, hy, hytypes, hstep⟩ := siteAt_disabled (s := s) ha (hls l (by simp)) hr hms hms'
    rw [sites, sites, hx, hy]
    constructor
    · intro z hz
      rcases List.mem_append.mp hz with hz | hz
      · exact hytypes z (Option.mem_toList.mp hz)
      · exact htypes z hz
    · rw [List.filter_append]
      exact hstep.append htail

end

end Analysis

/-! ## Scans -/

def RuleMatcher.detector (r : RuleMatcher) (policy : Policy) (s : Settings) : Detector :=
  ⟨[r.toMatcher], policy, s⟩

namespace Detector

def TakenAt (d : Detector) (r : RuleMatcher) (types : List String) (cs : List ClassUnit) (f : Finding) : Prop :=
  ∃ c ∈ cs, ∃ p ∈ c.bodies, ∃ a call, d.prepare c p.1 p.2 = .ok a ∧ a.Taken r types call ∧
    f.owner = c.name ∧ f.method = p.1.name ∧ f.descriptor = p.1.descriptor ∧ f.position = call.position

section
variable {r : RuleMatcher} (hown : r.Owned) (hwatch : r.Watchful) (policy : Policy) (s : Settings) (types : List String)
include hown hwatch

theorem sitesOf_disabled (c : ClassUnit) (p : Method × Code) :
    (∀ q ∈ ((r.withoutBugTypes types).detector policy s).sitesOf c p, q.2.point.bugType ∉ types) ∧
      Supplemented (fun q => (r.detector policy s).prepare c p.1 p.2 = .ok q.1 ∧ q.1.Taken r types q.2.call)
        (((r.detector policy s).sitesOf c p).filter (·.2.point.bugType ∉ types))
        (((r.withoutBugTypes types).detector policy s).sitesOf c p) := by
  have hsame : ((r.withoutBugTypes types).detector policy s).prepare c p.1 p.2 =
      (r.detector policy s).prepare c p.1 p.2 := rfl
  rw [sitesOf, sitesOf, hsame]
  cases hp : (r.detector policy s).prepare c p.1 p.2 with
  | error e => exact ⟨by simp, .nil⟩
  | ok a =>
    have hpool : a.pool = c.pool := by
      obtain ⟨graph, flow, descriptor, -, -, rfl⟩ := prepare_cases hp
      rfl
    have hanswers : ∀ r' : RuleMatcher, r'.Owned → r'.AnswersIn a.pool ((r'.detector policy s).candidates c) := by
      intro r' hr'
      rw [hpool]
      exact hr'.answersIn c.pool
    obtain ⟨htypes, hsites⟩ := Analysis.sites_disabled (s := s) (prepare_eq_ok hp).1 hwatch (hanswers r hown)
      (hanswers _ (hown.withoutBugTypes types)) fun _ hl => hl
    constructor
    · intro q hq
      obtain ⟨z, hz, rfl⟩ := List.mem_map.mp hq
      exact htypes z hz
    · rw [List.filter_map]
      exact hsites.map fun z hz => ⟨rfl, hz⟩

end

/-- **Disabling types loses no other finding.** -/
theorem scan_withoutBugTypes {r : RuleMatcher} (hown : r.Owned) (hwatch : r.Watchful) (policy : Policy) (s : Settings)
    (types : List String) (cs : List ClassUnit) :
    let full := r.detector policy s
    let rest := (r.withoutBugTypes types).detector policy s
    (∀ f ∈ (rest.scan cs).findings, f.bugType ∉ types) ∧
    ((full.scan cs).findings.filter (·.bugType ∉ types)).Sublist (rest.scan cs).findings ∧
    Supplemented (full.TakenAt r types cs) ((full.scan cs).findings.filter (·.bugType ∉ types))
      (rest.scan cs).findings := by
  intro full rest
  have hmethod := fun c p => sitesOf_disabled hown hwatch policy s types c p
  have hfindings : Supplemented (full.TakenAt r types cs) ((full.scan cs).findings.filter (·.bugType ∉ types))
      (rest.scan cs).findings := by
    rw [findings_scan_eq_map, findings_scan_eq_map, List.filter_map, sites, sites, List.filter_flatMap]
    simp only [List.filter_flatMap, List.map_flatMap]
    apply Supplemented.flatMap
    intro c hc
    apply Supplemented.flatMap
    intro p hp
    refine (hmethod c p).2.map ?_
    intro q hq
    obtain ⟨hprepare, htaken⟩ := hq
    refine ⟨c, hc, p, hp, q.1, q.2.call, hprepare, htaken, ?_⟩
    obtain ⟨graph, flow, descriptor, -, -, heq⟩ := prepare_cases hprepare
    rw [heq]
    exact ⟨rfl, rfl, rfl, rfl⟩
  refine ⟨?_, hfindings.sublist, hfindings⟩
  intro f hf
  rw [findings_scan_eq_map] at hf
  obtain ⟨q, hq, rfl⟩ := List.mem_map.mp hf
  obtain ⟨c, -, hq⟩ := List.mem_flatMap.mp hq
  obtain ⟨p, -, hq⟩ := List.mem_flatMap.mp hq
  exact (hmethod c p).1 q hq

end Detector

namespace Sample

def recordCode : Code where
  body := #[⟨0, .load .reference 0⟩, ⟨1, .invoke .static 1⟩, ⟨4, .load .reference 0⟩, ⟨5, .invoke .static 2⟩,
    ⟨8, .leave none⟩]

def recordMethod : Method := ⟨"record", "(Ljava/lang/String;)V", true, some recordCode⟩

def ledger : ClassUnit where
  name := "acme/Ledger"
  pool := ⟨#[none, some (.method ⟨"acme/Db", "run", "(Ljava/lang/String;)V"⟩),
    some (.method ⟨"acme/Log", "write", "(Ljava/lang/String;)V"⟩)]⟩
  methods := [recordMethod]

def audited : RuleMatcher where
  name := "audited"
  rules := [⟨"SQL", "acme/Db", ["run"], [0]⟩, ⟨"LOG", "acme/Log", ["write"], [0]⟩, ⟨"TRACE", "acme/Db", ["run"], [0]⟩]

def recordFlow : Flow where
  entries := [some {}]
  frames := #[some {}, some { stack := [.unknown], position := 1 }, some { position := 4 },
    some { stack := [.unknown], position := 5 }, some { position := 8 }]

theorem analyze_record : Flow.analyze recordCode (straight 5) ledger.pool = .ok recordFlow :=
  Flow.drain_of_drainWithin (n := 1) (by cbv)

def recordAnalysis : Analysis :=
  ⟨"acme/Ledger", ledger.pool, recordMethod, recordCode, straight 5, recordFlow, [.ofObject 0 false]⟩

theorem prepare_record (r : RuleMatcher) (policy : Policy) :
    (r.detector policy {}).prepare ledger recordMethod recordCode = .ok recordAnalysis := by
  have hbuild : Graph.build recordCode = .ok (straight 5) := by cbv
  have hd : MethodDescriptor.parse recordMethod.descriptor = .ok ⟨[.object "java/lang/String"], none⟩ := by cbv
  exact Detector.prepare_of_parts hbuild analyze_record hd

theorem findings_ledger (r : RuleMatcher) (policy : Policy) (hr : r.isCandidate ledger.pool = true) :
    ((r.detector policy {}).scan [ledger]).findings.map (fun f => (f.bugType, f.position)) =
      (recordAnalysis.sites {} [r.toMatcher] (straight 5).orderedLocations).map fun x =>
        (x.point.bugType, x.call.position) := by
  have hcandidates : (r.detector policy {}).candidates ledger = [r.toMatcher] := by
    rw [Detector.candidates, RuleMatcher.detector, List.filter_cons]
    exact if_pos hr
  have hbodies : ledger.bodies = [(recordMethod, recordCode)] := rfl
  rw [Detector.findings_scan_eq_map, Detector.sites, List.flatMap_singleton, hbodies, List.flatMap_singleton,
    Detector.sitesOf, prepare_record, hcandidates]
  simp only [List.map_map]
  rfl

end Sample

/-- Without the rule for texts that are run, the next rule takes their call. -/
theorem Detector.ledger_without_sql :
    let policy := UntrustedSources.webDefaults.policy
    let full := Sample.audited.detector policy {}
    let rest := (Sample.audited.withoutBugTypes ["SQL"]).detector policy {}
    let found := fun d : Detector => (d.scan [Sample.ledger]).findings
    Sample.audited.Owned ∧ Sample.audited.Watchful ∧
      (found full).map (fun f => (f.bugType, f.position)) = [("SQL", 1), ("LOG", 5)] ∧
      (found rest).map (fun f => (f.bugType, f.position)) = [("TRACE", 1), ("LOG", 5)] ∧
      ((found full).filter (·.bugType ∉ ["SQL"])).Sublist (found rest) ∧
      Supplemented (full.TakenAt Sample.audited ["SQL"] [Sample.ledger]) ((found full).filter (·.bugType ∉ ["SQL"]))
        (found rest) := by
  intro policy full rest found
  have hown : Sample.audited.Owned := by simp [RuleMatcher.Owned, Sample.audited]
  have hwatch : Sample.audited.Watchful := by simp [RuleMatcher.Watchful, Sample.audited]
  obtain ⟨-, hsub, hmore⟩ := scan_withoutBugTypes hown hwatch policy {} ["SQL"] [Sample.ledger]
  refine ⟨hown, hwatch, ?_, ?_, hsub, hmore⟩
  · rw [Sample.findings_ledger _ _ (by decide)]
    decide +kernel
  · rw [Sample.findings_ledger _ _ (by decide)]
    decide +kernel

end SinkCheck
