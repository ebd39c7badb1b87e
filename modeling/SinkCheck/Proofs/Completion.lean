import SinkCheck.Config
import SinkCheck.Proofs.Paths
import SinkCheck.Proofs.Visits

/-!
# Scans run to their end

A method fails before it is scanned or not at all. The constant flow has resolved every instruction of the
blocks it entered, the walk back from a call stays in such blocks, and a rule that a detector can have
watches some parameter. So nothing that the scan looks up is missing.
-/

namespace SinkCheck

/-! ## Resolved instructions -/

theorem Pool.method_of_effect {pool : Pool} {kind : InvokeKind} {index : UInt16} {e : Effect}
    (h : (Instruction.invoke kind index).effect pool = .ok e) :
    ∃ m d, pool.method index = .ok m ∧ MethodDescriptor.parse m.descriptor = .ok d := by
  simp only [Instruction.effect, Call.resolve] at h
  cases hm : pool.method index with
  | error err => rw [hm] at h; cases h
  | ok m =>
    cases hd : MethodDescriptor.parse m.descriptor with
    | error err => simp only [hm, hd] at h; cases h
    | ok d => exact ⟨m, d, rfl, hd⟩

theorem Pool.field_of_effect {pool : Pool} {index : UInt16} {e : Effect}
    (h : (Instruction.getStatic index).effect pool = .ok e) : ∃ f, pool.field index = .ok f := by
  simp only [Instruction.effect, Pool.sizedField] at h
  cases hf : pool.field index with
  | error err => rw [hf] at h; cases h
  | ok f => exact ⟨f, rfl⟩

theorem Graph.lastBefore_eq_some {keep : Nat → Bool} {start i : Nat} :
    ∀ {n : Nat}, lastBefore keep start n = some i → start ≤ i ∧ i < n
  | 0, h => by cases h
  | n + 1, h => by
    rw [lastBefore] at h
    split at h
    · cases h
    · split at h
      · cases h; omega
      · have := lastBefore_eq_some h
        omega

namespace Flow

def Enters (flow : Flow) (g : Graph) (l : Location) : Prop :=
  ∃ b f, g.blocks[l.block]? = some b ∧ l.index ∈ b.indices ∧ flow.entries.entry l.block = some f

section
variable {c : Code} {g : Graph} {pool : Pool} {flow : Flow} (hl : g.Laid c) (hf : analyze c g pool = .ok flow)
include hl hf

theorem Enters.effect {l : Location} (hn : flow.Enters g l) {i : Instruction} (hi : c.instruction? l.index = some i) :
    ∃ e, i.effect pool = .ok e := by
  obtain ⟨b, f, hb, hmem, hentry⟩ := hn
  obtain ⟨f', hrun, -⟩ := (settled_of_analyze hl hf hb hentry).sent
  obtain ⟨h, hh, rfl⟩ := Option.map_eq_some_iff.mp hi
  exact Frame.effect_of_run hrun hmem hh

theorem enters_of_frameAt {l : Location} (hloc : l ∈ g.orderedLocations) (hs : (flow.frameAt l.index).isSome) :
    flow.Enters g l := by
  obtain ⟨b, hb, hi⟩ := hl.mem_orderedLocations.mp hloc
  obtain ⟨f, hentry⟩ := exists_entry hl hf hloc hs
  exact ⟨b, f, hb, hi, hentry⟩

/-! ## Walking back -/

/-- A block that is entered and that no jump enters is entered from the block in front of it. -/
theorem entry_predecessor {id p : Nat} {f : Frame Constant} (he : flow.entries.entry id = some f)
    (hj : g.hasJumpPredecessor id = false) (hp : g.predecessor? id .fallThrough = some p) :
    ∃ f', flow.entries.entry p = some f' := by
  obtain ⟨e, hfind, rfl⟩ := Option.map_eq_some_iff.mp hp
  have hcond := List.find?_some hfind
  simp only [Bool.and_eq_true, beq_iff_eq] at hcond
  have hid := hl.falls (List.mem_of_find?_eq_some hfind) hcond.2
  rw [hcond.1] at hid
  obtain ⟨es, hes⟩ := exists_path hl hf he
  cases hes with
  | start => cases hid
  | @step es e' hes hmem =>
    -- no jump leads here, so the path came in by falling through as well
    have hkind : e'.kind = .fallThrough := by
      have := List.any_eq_false.mp hj e' hmem
      simpa using this
    have hsource : e'.source = e.source := by
      have := hl.falls hmem hkind
      omega
    obtain ⟨f', -, hentry, -, -⟩ := entry_covers hl hf hes
    exact ⟨f', hsource ▸ hentry⟩

theorem enters_walkBack {skip : Bool} {l : Location} : ∀ {rounds id index : Nat} {b : Block} {f : Frame Constant},
    g.blocks[id]? = some b → flow.entries.entry id = some f → index ≤ b.stop →
    g.walkBack c skip true rounds id index = some l → flow.Enters g l
  | 0, _, _, _, _, _, _, _, h => by cases h
  | rounds + 1, id, index, b, f, hb, he, hle, h => by
    simp only [Graph.walkBack, hb] at h
    split at h
    · rename_i i hlast
      cases h
      have := Graph.lastBefore_eq_some hlast
      exact ⟨b, f, hb, Block.mem_indices.mpr ⟨this.1, Nat.lt_of_lt_of_le this.2 hle⟩, he⟩
    · simp only [Bool.true_and] at h
      split at h
      · cases h
      · rename_i hj
        split at h
        · cases h
        · rename_i p hp
          split at h
          · cases h
          · rename_i q hq
            -- the walk goes on from the end of the block above, which is entered as well
            obtain ⟨f', he'⟩ := entry_predecessor hl hf he (by simpa using hj) hp
            exact enters_walkBack hq he' (Nat.le_refl _) h

theorem Enters.previous {l p : Location} (hn : flow.Enters g l) {skip : Bool}
    (hp : g.unambiguousPrevious c l skip = some p) : flow.Enters g p := by
  obtain ⟨b, f, hb, hi, hentry⟩ := hn
  exact enters_walkBack hl hf hb hentry (Nat.le_of_lt (Block.mem_indices.mp hi).2) hp

/-! ## Safe values -/

theorem Enters.readsStringTable {l : Location} (hn : flow.Enters g l) :
    ∃ r, readsStringTable c g pool l = .ok r := by
  rw [SinkCheck.readsStringTable]
  split
  · rename_i index ha
    obtain ⟨a, ha, hi⟩ := Option.bind_eq_some_iff.mp ha
    obtain ⟨i, hprev, ha⟩ := Option.bind_eq_some_iff.mp ha
    obtain ⟨e, he⟩ := ((hn.previous hl hf hprev).previous hl hf ha).effect hl hf hi
    obtain ⟨f, hfield⟩ := Pool.field_of_effect he
    rw [hfield]
    exact ⟨_, rfl⟩
  · exact ⟨_, rfl⟩

theorem Enters.isSafeValue {l : Location} (hn : flow.Enters g l) : ∃ r, isSafeValue c g pool l = .ok r := by
  unfold SinkCheck.isSafeValue
  cases hi : c.instruction? l.index with
  | none => exact ⟨false, rfl⟩
  | some i =>
    cases i with
    | invoke kind index =>
      obtain ⟨e, he⟩ := hn.effect hl hf hi
      obtain ⟨m, -, hm, -⟩ := Pool.method_of_effect he
      exact ⟨_, congrArg (Except.map _) hm⟩
    | arrayLoad kind =>
      cases kind with
      | reference => exact hn.readsStringTable hl hf
      | _ => exact ⟨false, rfl⟩
    | _ => exact ⟨_, rfl⟩

theorem Enters.isSafeTop {l : Location} (hn : flow.Enters g l) : ∃ r, isSafeTop c g pool l = .ok r := by
  rw [SinkCheck.isSafeTop]
  split
  · rename_i p hp
    exact (hn.previous hl hf hp).isSafeValue hl hf
  · exact ⟨_, rfl⟩

end

end Flow

/-! ## Rules that watch a parameter -/

namespace RuleMatcher

def Watchful (m : RuleMatcher) : Prop :=
  ∀ rule ∈ m.rules, rule.parameters ≠ []

theorem Watchful.withoutBugTypes {m : RuleMatcher} (h : m.Watchful) (types : List String) :
    (m.withoutBugTypes types).Watchful :=
  fun rule hr => h rule (List.mem_filter.mp hr).1

theorem watchful_jdbc : jdbc.Watchful := by
  unfold Watchful
  decide

end RuleMatcher

theorem SinkRule.firstPoint_isOk {d : MethodDescriptor} {m : Member} : ∀ {rules : List SinkRule},
    (∀ rule ∈ rules, rule.parameters ≠ []) → ∃ p, firstPoint d m rules = .ok p
  | [], _ => ⟨none, rfl⟩
  | rule :: rules, h => by
    have hne : rule.parameters.isEmpty = false := by simpa using h rule (List.mem_cons_self ..)
    rw [firstPoint, point?, hne]
    cases rule.parameters.filterMap d.stackOffset with
    | nil => exact firstPoint_isOk fun r hr => h r (List.mem_cons_of_mem _ hr)
    | cons p ps => exact ⟨_, rfl⟩

theorem RuleMatcher.Watchful.classify {m : RuleMatcher} (h : m.Watchful) {call : Member} {d : MethodDescriptor}
    (hd : MethodDescriptor.parse call.descriptor = .ok d) : ∃ p, m.classify call = .ok p := by
  rw [RuleMatcher.classify]
  split
  · exact ⟨none, rfl⟩
  · rw [hd]
    exact SinkRule.firstPoint_isOk fun rule hr => h rule (List.mem_filter.mp hr).1

theorem Config.parameters_of_check : ∀ {rules : List SinkRule}, rules.forM checkRule = .ok () →
    ∀ rule ∈ rules, rule.parameters ≠ []
  | rule :: rules, h, r, hr => by
    rw [List.forM] at h
    cases hc : checkRule rule with
    | error e => rw [hc] at h; cases h
    | ok u =>
      rw [hc] at h
      rcases List.mem_cons.mp hr with rfl | hr
      · intro hp
        simp only [checkRule, hp, List.isEmpty_nil, if_true] at hc
        split at hc <;> cases hc
      · exact parameters_of_check h r hr

theorem Config.watchful_matcher {cfg : Config} {m : RuleMatcher} (h : cfg.matcher = .ok m) : m.Watchful := by
  rw [matcher] at h
  split at h
  · cases h
    exact RuleMatcher.watchful_jdbc.withoutBugTypes _
  · split at h
    · rename_i hall
      cases h
      exact RuleMatcher.Watchful.withoutBugTypes (fun rule hr => parameters_of_check hall rule hr) _
    · cases h

theorem firstMatch_isOk (call : CallSite) (pool : Pool) {d : MethodDescriptor}
    (hd : MethodDescriptor.parse call.method.descriptor = .ok d) : ∀ {ms : List Matcher},
    (∀ m ∈ ms, ∃ r : RuleMatcher, r.Watchful ∧ m = r.toMatcher) → ∃ p, firstMatch call pool ms = .ok p
  | [], _ => ⟨none, rfl⟩
  | m :: ms, h => by
    obtain ⟨r, hr, rfl⟩ := h m (List.mem_cons_self ..)
    obtain ⟨p, hp⟩ := hr.classify hd
    have hc : r.toMatcher.classify call pool = .ok p := hp
    rw [firstMatch, hc]
    cases p with
    | none => exact firstMatch_isOk call pool hd fun m hm => h m (List.mem_cons_of_mem _ hm)
    | some p => exact ⟨some p, rfl⟩

/-! ## Scans -/

theorem Verbosity.outcome_tell (v : Verbosity) (e : Event) : (v.tell e).outcome = .ok () := by
  unfold tell
  split <;> rfl

theorem Verbosity.finding_not_mem_tell (v : Verbosity) (e : Event) (f : Finding) :
    .finding f ∉ (v.tell e).output := by
  unfold tell
  split
  · simp [Trace.emit]
  · exact List.not_mem_nil

def Finding.NamedFor (f : Finding) (m : Method) : Prop :=
  f.method = m.name ∧ f.descriptor = m.descriptor

namespace Analysis

structure Prepared (a : Analysis) : Prop where
  laid : a.graph.Laid a.code
  analyzed : Flow.analyze a.code a.graph a.pool = .ok a.flow

section
variable {a : Analysis} {s : Settings} {policy : Policy} {matchers : List Matcher} (ha : a.Prepared)
  (hm : ∀ m ∈ matchers, ∃ r : RuleMatcher, r.Watchful ∧ m = r.toMatcher)

theorem outcome_report (l : Location) (position : Nat) (called : Member) (point : InjectionPoint) :
    (a.report s policy l position called point).outcome = .ok () := by
  simp only [report, Trace.outcome_bind, Trace.emitAll, Trace.emit, Verbosity.outcome_tell, Except.bind]

include ha

theorem allConstant_isOk {l : Location} (hn : a.flow.Enters a.graph l) :
    ∀ ds, ∃ r, a.allConstant s l ds = .ok r
  | [] => ⟨true, rfl⟩
  | d :: ds => by
    rw [allConstant]
    split
    · exact allConstant_isOk hn ds
    · split
      · obtain ⟨r, hr⟩ := hn.isSafeTop ha.laid ha.analyzed
        rw [hr]
        cases r with
        | true => exact allConstant_isOk hn ds
        | false => exact ⟨false, rfl⟩
      · exact ⟨false, rfl⟩

include hm

theorem outcome_inspectCall {l : Location} (hn : a.flow.Enters a.graph l) {kind : InvokeKind} {index : UInt16}
    (hi : a.code.instruction? l.index = some (.invoke kind index)) (position : Nat) :
    (a.inspectCall s policy matchers l position kind index).outcome = .ok () := by
  obtain ⟨e, he⟩ := hn.effect ha.laid ha.analyzed hi
  obtain ⟨m, d, hmethod, hd⟩ := Pool.method_of_effect he
  obtain ⟨p, hp⟩ := firstMatch_isOk ⟨kind, m, l, position⟩ a.pool hd hm
  simp only [inspectCall, Trace.outcome_bind, Trace.ofExcept, hmethod, hp, Except.bind]
  cases p with
  | none => rfl
  | some point =>
    obtain ⟨r, hr⟩ := allConstant_isOk (s := s) ha hn point.arguments
    simp only [Trace.outcome_bind, hr, Except.bind]
    split
    · exact Verbosity.outcome_tell ..
    · exact outcome_report ..

theorem outcome_inspect {l : Location} (hloc : l ∈ a.graph.orderedLocations) :
    (a.inspect s policy matchers l).outcome = .ok () := by
  unfold inspect
  split
  · rfl
  · rename_i h hb
    simp only [Trace.outcome_bind, Verbosity.outcome_tell, Except.bind]
    split
    · rename_i kind index hi
      split
      · exact Verbosity.outcome_tell ..
      · rename_i hs
        have hn := Flow.enters_of_frameAt ha.laid ha.analyzed hloc (by simpa [Option.isSome_iff_ne_none] using hs)
        exact outcome_inspectCall ha hm hn (by rw [Code.instruction?, hb, Option.map_some, hi]) _
    · rfl

theorem outcome_inspectAll : ∀ {ls : List Location}, (∀ l ∈ ls, l ∈ a.graph.orderedLocations) →
    (a.inspectAll s policy matchers ls).outcome = .ok ()
  | [], _ => rfl
  | l :: ls, h => by
    rw [inspectAll, Trace.outcome_bind, outcome_inspect ha hm (h l (List.mem_cons_self ..))]
    exact outcome_inspectAll fun l' hl' => h l' (List.mem_cons_of_mem _ hl')

end

/-! ## Findings name their method -/

section
variable {a : Analysis} {s : Settings} {policy : Policy} {matchers : List Matcher} {f : Finding}

theorem method_of_report {l : Location} {position : Nat} {called : Member} {point : InjectionPoint}
    (h : .finding f ∈ (a.report s policy l position called point).output) : f.NamedFor a.method := by
  simp only [report, Trace.mem_output_bind] at h
  rcases h with h | ⟨-, -, h | ⟨-, -, h⟩⟩
  · obtain ⟨e, -, he⟩ := List.mem_map.mp h
    cases he
  · exact (Verbosity.finding_not_mem_tell _ _ _ h).elim
  · cases List.mem_singleton.mp h
    exact ⟨rfl, rfl⟩

theorem method_of_inspectCall {l : Location} {position : Nat} {kind : InvokeKind} {index : UInt16}
    (h : .finding f ∈ (a.inspectCall s policy matchers l position kind index).output) :
    f.NamedFor a.method := by
  simp only [inspectCall, Trace.mem_output_bind, Trace.ofExcept, List.not_mem_nil, false_or] at h
  obtain ⟨called, -, point?, -, h⟩ := h
  cases point? with
  | none => cases h
  | some point =>
    simp only [Trace.mem_output_bind, List.not_mem_nil, false_or] at h
    obtain ⟨r, -, h⟩ := h
    split at h
    · exact (Verbosity.finding_not_mem_tell _ _ _ h).elim
    · exact method_of_report h

theorem method_of_inspect {l : Location} (h : .finding f ∈ (a.inspect s policy matchers l).output) :
    f.NamedFor a.method := by
  unfold inspect at h
  split at h
  · cases h
  · rcases Trace.mem_output_bind.mp h with h | ⟨-, -, h⟩
    · exact (Verbosity.finding_not_mem_tell _ _ _ h).elim
    · split at h
      · split at h
        · exact (Verbosity.finding_not_mem_tell _ _ _ h).elim
        · exact method_of_inspectCall h
      · cases h

theorem method_of_inspectAll : ∀ {ls : List Location}, .finding f ∈ (a.inspectAll s policy matchers ls).output →
    f.NamedFor a.method
  | [], h => by cases h
  | l :: ls, h => by
    rcases Trace.mem_output_bind.mp h with h | ⟨-, -, h⟩
    · exact method_of_inspect h
    · exact method_of_inspectAll h

end

end Analysis

namespace Detector

section
variable {d : Detector} {c : ClassUnit}

theorem prepare_cases {m : Method} {code : Code} {a : Analysis} (h : d.prepare c m code = .ok a) :
    ∃ graph flow descriptor, Graph.build code = .ok graph ∧ Flow.analyze code graph c.pool = .ok flow ∧
      a = ⟨c.name, c.pool, m, code, graph, flow,
        Replay.entryLocals m.isStatic descriptor d.settings.taintParameters⟩ := by
  simp only [prepare, bind, Except.bind] at h
  split at h
  · cases h
  · rename_i graph hg
    split at h
    · cases h
    · rename_i flow hf
      split at h
      · cases h
      · rename_i descriptor _
        cases h
        exact ⟨graph, flow, descriptor, hg, hf, rfl⟩

theorem prepare_of_parts {m : Method} {code : Code} {graph : Graph} {flow : Flow} {descriptor : MethodDescriptor}
    (hg : Graph.build code = .ok graph) (hf : Flow.analyze code graph c.pool = .ok flow)
    (hd : MethodDescriptor.parse m.descriptor = .ok descriptor) : d.prepare c m code = .ok ⟨c.name, c.pool, m, code,
      graph, flow, Replay.entryLocals m.isStatic descriptor d.settings.taintParameters⟩ := by
  simp [prepare, bind, Except.bind, hg, hf, hd, pure, Except.pure]

theorem prepare_eq_ok {m : Method} {code : Code} {a : Analysis} (h : d.prepare c m code = .ok a) :
    a.Prepared ∧ a.method = m := by
  obtain ⟨graph, flow, descriptor, hg, hf, rfl⟩ := prepare_cases h
  exact ⟨⟨Graph.laid_of_build hg, hf⟩, rfl⟩

theorem watchful_candidates (hd : d = .standard ∨ ∃ cfg : Config, cfg.detector = .ok d) :
    ∀ m ∈ d.candidates c, ∃ r : RuleMatcher, r.Watchful ∧ m = r.toMatcher := by
  intro m hm
  have hm := (List.mem_filter.mp hm).1
  rcases hd with rfl | ⟨cfg, hcfg⟩
  · exact ⟨.jdbc, RuleMatcher.watchful_jdbc, List.mem_singleton.mp hm⟩
  · rw [Config.detector] at hcfg
    cases hr : cfg.matcher with
    | error e => rw [hr] at hcfg; cases hcfg
    | ok r =>
      rw [hr] at hcfg
      cases hcfg
      exact ⟨r, Config.watchful_matcher hr, List.mem_singleton.mp hm⟩

section
variable {m : Method} {code : Code}

theorem analyze_of_error {e : AnalysisError} (h : d.prepare c m code = .error e) (ms : List Matcher) :
    d.analyze c ms m code = ⟨[], .error e⟩ := by
  rw [analyze, h]; rfl

theorem analyze_of_ok {a : Analysis} (h : d.prepare c m code = .ok a) (ms : List Matcher) :
    d.analyze c ms m code = a.inspectAll d.settings d.policy ms a.graph.orderedLocations := by
  rw [analyze, h]; rfl

theorem outcome_scan (hd : d = .standard ∨ ∃ cfg : Config, cfg.detector = .ok d) {a : Analysis}
    (h : d.prepare c m code = .ok a) :
    (a.inspectAll d.settings d.policy (d.candidates c) a.graph.orderedLocations).outcome = .ok () :=
  Analysis.outcome_inspectAll (prepare_eq_ok h).1 (watchful_candidates hd) fun _ hl => hl

end

theorem mem_runs {m : Method} {t : Trace Output Unit} :
    (m, t) ∈ d.runs c ↔ m ∈ c.methods ∧ ∃ code, m.code = some code ∧ t = d.analyze c (d.candidates c) m code := by
  simp only [runs, List.mem_filterMap, Option.map_eq_some_iff, Prod.mk.injEq]
  constructor
  · rintro ⟨m', hm, code, hcode, rfl, rfl⟩
    exact ⟨hm, code, hcode, rfl⟩
  · rintro ⟨hm, code, hcode, rfl⟩
    exact ⟨m, hm, code, hcode, rfl, rfl⟩

theorem failure_eq_some {m : Method} {t : Trace Output Unit} {x : MethodFailure} (h : failure? m t = some x) :
    (x.method, x.descriptor) = (m.name, m.descriptor) := by
  rw [failure?] at h
  split at h
  · cases h
  · cases h; rfl

theorem output_of_failure (hd : d = .standard ∨ ∃ cfg : Config, cfg.detector = .ok d) {m : Method}
    {t : Trace Output Unit} (hr : (m, t) ∈ d.runs c) (hx : (failure? m t).isSome) : t.output = [] := by
  obtain ⟨-, code, -, rfl⟩ := mem_runs.mp hr
  cases h : d.prepare c m code with
  | error e => rw [analyze_of_error h]
  | ok a =>
    rw [analyze_of_ok h, failure?, outcome_scan hd h] at hx
    cases hx

theorem finding_of_narrate {m : Method} {t : Trace Output Unit} {f : Finding} (h : .finding f ∈ d.narrate c m t) :
    .finding f ∈ t.output := by
  simp only [narrate, List.mem_append] at h
  rcases h with (h | h) | h
  · exact (Verbosity.finding_not_mem_tell _ _ _ h).elim
  · exact h
  · split at h
    · cases h
    · exact (Verbosity.finding_not_mem_tell _ _ _ h).elim

theorem namedFor_of_run {m : Method} {t : Trace Output Unit} (hr : (m, t) ∈ d.runs c) {f : Finding}
    (hf : .finding f ∈ t.output) : f.NamedFor m := by
  obtain ⟨-, code, -, rfl⟩ := mem_runs.mp hr
  cases h : d.prepare c m code with
  | error e => rw [analyze_of_error h] at hf; cases hf
  | ok a =>
    rw [analyze_of_ok h] at hf
    exact (prepare_eq_ok h).2 ▸ Analysis.method_of_inspectAll hf

theorem mem_visit_findings {f : Finding} (hf : f ∈ (d.visit c).findings) :
    ∃ m t, (m, t) ∈ d.runs c ∧ .finding f ∈ t.output := by
  obtain ⟨o, ho, hof⟩ := List.mem_filterMap.mp hf
  cases o with
  | event e => cases hof
  | finding f' =>
    cases hof
    rw [output_visit] at ho
    split at ho
    · exact (Verbosity.finding_not_mem_tell _ _ _ ho).elim
    · obtain ⟨⟨m, t⟩, hr, ho⟩ := List.mem_flatMap.mp ho
      exact ⟨m, t, hr, finding_of_narrate ho⟩

theorem mem_visit_failures {x : MethodFailure} (hx : x ∈ (d.visit c).report.failures) :
    ∃ m t, (m, t) ∈ d.runs c ∧ failure? m t = some x := by
  rw [report_visit] at hx
  split at hx
  · cases hx
  · obtain ⟨⟨m, t⟩, hr, hx⟩ := List.mem_filterMap.mp hx
    exact ⟨m, t, hr, hx⟩

end

/-- **A failed method reports nothing.** Once a method is prepared, its scan runs to its end. So a method
that is listed as failed put out no finding, and every finding of a class comes from a method that was
analysed completely. -/
theorem failed_without_findings {d : Detector} (hd : d = .standard ∨ ∃ cfg : Config, cfg.detector = .ok d)
    (c : ClassUnit) :
    (∀ m code a, d.prepare c m code = .ok a →
      (a.inspectAll d.settings d.policy (d.candidates c) a.graph.orderedLocations).outcome = .ok ()) ∧
    (∀ m t, (m, t) ∈ d.runs c → (failure? m t).isSome → ∀ f, .finding f ∉ d.narrate c m t) ∧
    (∀ f ∈ (d.visit c).findings, ∃ m t, (m, t) ∈ d.runs c ∧ failure? m t = none ∧
      .finding f ∈ t.output ∧ f.NamedFor m) ∧
    ((c.methods.map fun m => (m.name, m.descriptor)).Nodup →
      ∀ x ∈ (d.visit c).report.failures, ∀ f ∈ (d.visit c).findings,
        (f.method, f.descriptor) ≠ (x.method, x.descriptor)) := by
  have hcomplete : ∀ f ∈ (d.visit c).findings, ∃ m t, (m, t) ∈ d.runs c ∧ failure? m t = none ∧
      .finding f ∈ t.output ∧ f.NamedFor m := by
    intro f hf
    obtain ⟨m, t, hr, hf⟩ := mem_visit_findings hf
    refine ⟨m, t, hr, ?_, hf, namedFor_of_run hr hf⟩
    cases hx : failure? m t with
    | none => rfl
    | some x =>
      rw [output_of_failure hd hr (by rw [hx]; rfl)] at hf
      cases hf
  refine ⟨fun m code a h => outcome_scan hd h, fun m t hr hx f hf => ?_, hcomplete, fun hnd x hx f hf heq => ?_⟩
  · have := finding_of_narrate hf
    rw [output_of_failure hd hr hx] at this
    cases this
  · obtain ⟨m, t, hr, hnone, -, hnamed⟩ := hcomplete f hf
    obtain ⟨m', t', hr', hsome⟩ := mem_visit_failures hx
    obtain ⟨hm, code, hcode, rfl⟩ := mem_runs.mp hr
    obtain ⟨hm', code', hcode', rfl⟩ := mem_runs.mp hr'
    rw [failure_eq_some hsome, hnamed.1, hnamed.2] at heq
    obtain rfl := List.inj_on_of_nodup_map hnd hm hm' heq
    rw [hcode] at hcode'
    cases hcode'
    rw [hnone] at hsome
    cases hsome

end Detector

namespace Sample

def cutOff : Code where
  body := #[⟨0, .load .reference 2⟩, ⟨1, .load .reference 1⟩, ⟨2, .invoke .interface 1⟩, ⟨7, .shuffle .pop⟩]

def find : Method where
  name := "find"
  descriptor := "(Ljava/lang/String;)V"
  code := some cutOff

def dao : ClassUnit where
  name := "com/acme/Dao"
  pool := ⟨#[none, some (.interfaceMethod
    ⟨"java/sql/Statement", "executeQuery", "(Ljava/lang/String;)Ljava/sql/ResultSet;"⟩)]⟩
  methods := [find]

def strict : Config where
  settings := { taintParameters := true, safeValueHeuristic := true }
  sinks := [⟨"SQL_INJECTION", "java/sql/Statement", ["executeQuery"], [0]⟩]

end Sample

theorem Detector.cut_off_reports_nothing : ∃ d t, Sample.strict.detector = .ok d ∧
    (Sample.find, t) ∈ d.runs Sample.dao ∧ (failure? Sample.find t).isSome ∧
    ∀ f, .finding f ∉ d.narrate Sample.dao Sample.find t := by
  obtain ⟨d, hd⟩ : ∃ d, Sample.strict.detector = .ok d := ⟨_, rfl⟩
  obtain ⟨e, he⟩ : ∃ e, Graph.build Sample.cutOff = .error e := ⟨_, by cbv⟩
  have hp : d.prepare Sample.dao Sample.find Sample.cutOff = .error e := by rw [prepare, he]; rfl
  have hr : (Sample.find, ⟨[], .error e⟩) ∈ d.runs Sample.dao :=
    mem_runs.mpr ⟨List.mem_singleton_self _, _, rfl, (analyze_of_error hp _).symm⟩
  exact ⟨d, _, hd, hr, rfl, (failed_without_findings (.inr ⟨_, hd⟩) Sample.dao).2.1 _ _ hr rfl⟩

end SinkCheck
