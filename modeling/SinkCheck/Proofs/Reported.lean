import Mathlib
import SinkCheck.Proofs.ControlFlow
import SinkCheck.Proofs.Paired

/-!
# What a visit reports

A method reports the calls that are reached, that a matcher takes for a sink, and that pass a word which is
neither constant nor safe. Its scan stops at the first call on which a matcher fails, and a class reports its
methods one after the other.
-/

namespace SinkCheck

/-! ## The first matcher that answers -/

def CallSite.Answered (call : CallSite) (pool : Pool) (ms : List Matcher)
    (x : Except AnalysisError (Option InjectionPoint)) : Prop :=
  ∃ front m back, ms = front ++ m :: back ∧ (∀ m' ∈ front, m'.classify call pool = .ok none) ∧
    m.classify call pool = x

section
variable {call : CallSite} {pool : Pool} {x : Except AnalysisError (Option InjectionPoint)}

theorem CallSite.answered_cons {m : Matcher} {ms : List Matcher} : call.Answered pool (m :: ms) x ↔
    m.classify call pool = x ∨ m.classify call pool = .ok none ∧ call.Answered pool ms x := by
  constructor
  · rintro ⟨front, m', back, heq, hfront, hx⟩
    cases front with
    | nil =>
      cases heq
      exact .inl hx
    | cons m₀ front =>
      cases heq
      exact .inr ⟨hfront m (by simp), front, m', back, rfl, fun m' hm' => hfront m' (by simp [hm']), hx⟩
  · rintro (hx | ⟨hm, front, m', back, rfl, hfront, hx⟩)
    · exact ⟨[], m, ms, rfl, by simp, hx⟩
    · refine ⟨m :: front, m', back, rfl, ?_, hx⟩
      intro m₁ hm₁
      rcases List.mem_cons.mp hm₁ with rfl | hm₁
      · exact hm
      · exact hfront m₁ hm₁

theorem firstMatch_eq_iff (hx : x ≠ .ok none) (ms : List Matcher) :
    firstMatch call pool ms = x ↔ call.Answered pool ms x := by
  induction ms with
  | nil => simp [firstMatch, CallSite.Answered, hx.symm]
  | cons m ms ih =>
    rw [CallSite.answered_cons, firstMatch, ← ih]
    cases m.classify call pool with
    | error e => simp
    | ok p =>
      cases p with
      | none => simp [hx.symm]
      | some p => simp

end

/-! ## Sites -/

structure Site where
  call : CallSite
  point : InjectionPoint
deriving DecidableEq

namespace Analysis

section
variable (a : Analysis) (s : Settings) (matchers : List Matcher)

structure Calls (l : Location) (call : CallSite) : Prop where
  instruction : ∃ index, a.code.instruction? l.index = some (.invoke call.kind index) ∧
    a.pool.method index = .ok call.method
  reached : (a.flow.frameAt l.index).isSome
  location : call.location = l
  position : a.code.position? l.index = some call.position

/-- Some watched word is no literal, nor, if the settings ask for it, a safe word on top of the stack. -/
def Exposed (l : Location) (point : InjectionPoint) : Prop :=
  ∃ d ∈ point.arguments, a.flow.isConstantString l.index d = false ∧
    ¬ (s.safeValueHeuristic = true ∧ d = 0 ∧ isSafeTop a.code a.graph a.pool l = .ok true)

def FailsAt (l : Location) (e : AnalysisError) : Prop :=
  ∃ call, a.Calls l call ∧ call.Answered a.pool matchers (.error e)

def siteOf (call : CallSite) : Except AnalysisError (Option Site) :=
  (firstMatch call a.pool matchers).bind fun
    | none => .ok none
    | some point =>
      (a.allConstant s call.location point.arguments).map fun harmless => if harmless then none else some ⟨call, point⟩

def siteAt (l : Location) : Except AnalysisError (Option Site) :=
  match a.code.body[l.index]? with
  | some ⟨position, .invoke kind index⟩ =>
    if (a.flow.frameAt l.index).isNone then .ok none
    else (a.pool.method index).bind fun called => a.siteOf s matchers ⟨kind, called, l, position⟩
  | _ => .ok none

/-- The sites of the locations up to the first that fails. -/
def sites : List Location → List Site
  | [] => []
  | l :: ls =>
    match a.siteAt s matchers l with
    | .error _ => []
    | .ok site => site.toList ++ sites ls

def findingFor (policy : Policy) (x : Site) : Finding :=
  a.findingAt (a.priorityAt s policy x.call.location x.point) x.call.position x.point

end

/-! ## The scan of a method -/

section
variable {a : Analysis} {s : Settings} {policy : Policy} {matchers : List Matcher}

structure Yields (a : Analysis) (s : Settings) (policy : Policy) (t : Trace Output Unit)
    (x : Except AnalysisError (Option Site)) : Prop where
  outcome : t.outcome = x.map fun _ => ()
  findings : t.findings = ((x.toOption.join).toList.map (a.findingFor s policy))

theorem yields_tell (v : Verbosity) (e : Event) : Yields a s policy (v.tell e) (.ok none) :=
  ⟨Verbosity.outcome_tell v e, Verbosity.findings_tell v e⟩

theorem yields_pure : Yields a s policy (pure ()) (.ok none) :=
  ⟨rfl, rfl⟩

theorem Yields.ofExcept_bind {α : Type} {x : Except AnalysisError α} {k : α → Trace Output Unit}
    {f : α → Except AnalysisError (Option Site)} (h : ∀ b, x = .ok b → Yields a s policy (k b) (f b)) :
    Yields a s policy (.ofExcept x >>= k) (x.bind f) := by
  cases x with
  | error e => exact ⟨rfl, rfl⟩
  | ok b => exact h b rfl

theorem yields_inspectCall (l : Location) (position : Nat) (kind : InvokeKind) (index : UInt16) :
    Yields a s policy (a.inspectCall s policy matchers l position kind index)
      ((a.pool.method index).bind fun called => a.siteOf s matchers ⟨kind, called, l, position⟩) := by
  unfold inspectCall siteOf
  apply Yields.ofExcept_bind
  intro called _
  apply Yields.ofExcept_bind
  intro point? _
  cases point? with
  | none => exact yields_pure
  | some point =>
    simp only
    cases a.allConstant s l point.arguments with
    | error e => exact ⟨rfl, rfl⟩
    | ok harmless =>
      rw [Trace.ofExcept_ok_bind]
      cases harmless with
      | true => exact yields_tell ..
      | false => exact ⟨outcome_report .., findings_report ..⟩

theorem yields_inspect (l : Location) : Yields a s policy (a.inspect s policy matchers l) (a.siteAt s matchers l) := by
  unfold inspect siteAt
  cases a.code.body[l.index]? with
  | none => exact yields_pure
  | some h =>
    obtain ⟨position, i⟩ := h
    have hdrop : ∀ {k : Trace Output Unit} {x : Except AnalysisError (Option Site)}, Yields a s policy k x →
        Yields a s policy (do s.verbosity.tell (.visited position i); k) x := by
      intro k x hk
      refine ⟨?_, ?_⟩
      · rw [Trace.outcome_bind, Verbosity.outcome_tell]
        exact hk.outcome
      · rw [Trace.findings_bind, Verbosity.outcome_tell, Verbosity.findings_tell]
        exact hk.findings
    apply hdrop
    cases i with
    | invoke kind index =>
      simp only
      split
      · exact yields_tell ..
      · exact yields_inspectCall ..
    | _ => exact yields_pure

theorem findings_inspectAll (ls : List Location) :
    (a.inspectAll s policy matchers ls).findings = (a.sites s matchers ls).map (a.findingFor s policy) := by
  induction ls with
  | nil => rfl
  | cons l ls ih =>
    have h : Yields a s policy (a.inspect s policy matchers l) (a.siteAt s matchers l) := yields_inspect l
    rw [inspectAll, Trace.findings_bind, h.findings, h.outcome, sites]
    cases a.siteAt s matchers l with
    | error e => rfl
    | ok site =>
      simp only [Except.map, ih, List.map_append]
      rfl

theorem outcome_inspectAll_cons (l : Location) (ls : List Location) :
    (a.inspectAll s policy matchers (l :: ls)).outcome =
      (a.siteAt s matchers l).bind fun _ => (a.inspectAll s policy matchers ls).outcome := by
  have h : Yields a s policy (a.inspect s policy matchers l) (a.siteAt s matchers l) := yields_inspect l
  rw [inspectAll, Trace.outcome_bind, h.outcome]
  cases a.siteAt s matchers l <;> rfl

end

/-! ## Which locations are sites -/

section
variable {a : Analysis} {s : Settings} {matchers : List Matcher} {l : Location} {call : CallSite}

theorem Calls.unique {call' : CallSite} (h : a.Calls l call) (h' : a.Calls l call') : call = call' := by
  obtain ⟨kind, member, location, position⟩ := call
  obtain ⟨kind', member', location', position'⟩ := call'
  obtain ⟨⟨index, hi, hm⟩, -, hl, hp⟩ := h
  obtain ⟨⟨index', hi', hm'⟩, -, hl', hp'⟩ := h'
  simp only at hi hm hl hp hi' hm' hl' hp'
  rw [hi] at hi'
  cases hi'
  rw [hm] at hm'
  cases hm'
  rw [hp] at hp'
  cases hp'
  rw [hl, hl']

theorem Calls.siteAt (h : a.Calls l call) : a.siteAt s matchers l = a.siteOf s matchers call := by
  obtain ⟨kind, member, location, position⟩ := call
  obtain ⟨⟨index, hi, hm⟩, hreached, hl, hp⟩ := h
  simp only at hi hm hl hp
  obtain ⟨p, hb, rfl⟩ := Code.position?_eq_some.mp hp
  obtain ⟨position, i⟩ := p
  rw [Code.instruction?, hb] at hi
  cases hi
  have hnone : (a.flow.frameAt l.index).isNone = false := by
    rw [Option.isNone_eq_false_iff]
    exact hreached
  rw [Analysis.siteAt, hb]
  simp only [hnone, hm, hl]
  rfl

theorem Calls.answered (h : a.Calls l call) {x : Except AnalysisError (Option InjectionPoint)} (hx : x ≠ .ok none)
    {call' : CallSite} : a.Calls l call' ∧ call'.Answered a.pool matchers x ↔
      call' = call ∧ firstMatch call a.pool matchers = x := by
  rw [← firstMatch_eq_iff hx]
  constructor
  · rintro ⟨h', hans⟩
    obtain rfl := h'.unique h
    exact ⟨rfl, hans⟩
  · rintro ⟨rfl, hm⟩
    exact ⟨h, hm⟩

variable (ha : a.Prepared) (hloc : l ∈ a.graph.orderedLocations)
include ha hloc

/-- A call that is reached has a method, so a location is a site only if it is a call. -/
theorem siteAt_of_not_calls (h : ∀ call, ¬ a.Calls l call) : a.siteAt s matchers l = .ok none := by
  unfold siteAt
  split
  · rename_i position kind index hb
    split
    · rfl
    · rename_i hreached
      have hs : (a.flow.frameAt l.index).isSome := by simpa [Option.isSome_iff_ne_none] using hreached
      have hi : a.code.instruction? l.index = some (.invoke kind index) := by rw [Code.instruction?, hb]; rfl
      obtain ⟨e, he⟩ := (Flow.enters_of_frameAt ha.laid ha.analyzed hloc hs).effect ha.laid ha.analyzed hi
      obtain ⟨m, -, hm, -⟩ := Pool.method_of_effect he
      refine absurd ?_ (h ⟨kind, m, l, position⟩)
      exact ⟨⟨index, hi, hm⟩, hs, rfl, by rw [Code.position?, hb]; rfl⟩
  · rfl

theorem allConstant_eq_false (hs : (a.flow.frameAt l.index).isSome) (point : InjectionPoint) :
    a.allConstant s l point.arguments = .ok false ↔ a.Exposed s l point := by
  -- the call is reached, so the lookup of the safe word does not fail
  obtain ⟨safe, hsafe⟩ := (Flow.enters_of_frameAt ha.laid ha.analyzed hloc hs).isSafeTop ha.laid ha.analyzed
  unfold Exposed
  induction point.arguments with
  | nil => simp [allConstant]
  | cons d ds ih =>
    rw [allConstant, List.exists_mem_cons_iff, ← ih, hsafe]
    by_cases hc : a.flow.isConstantString l.index d = true
    · simp [hc]
    · by_cases hh : s.safeValueHeuristic = true ∧ d = 0
      · obtain ⟨hh, rfl⟩ := hh
        cases safe <;> simp [hc, hh]
      · have hoff : (s.safeValueHeuristic && d == 0) = false := by simpa using hh
        simp only [hc, hoff]
        grind

theorem Calls.allConstant (h : a.Calls l call) (point : InjectionPoint) :
    ∃ r, a.allConstant s l point.arguments = .ok r :=
  allConstant_isOk ha (Flow.enters_of_frameAt ha.laid ha.analyzed hloc h.reached) _

theorem siteAt_eq_some {x : Site} : a.siteAt s matchers l = .ok (some x) ↔
    (a.Calls l x.call ∧ x.call.Answered a.pool matchers (.ok (some x.point))) ∧ a.Exposed s l x.point := by
  obtain ⟨call', point⟩ := x
  by_cases h : ∃ call, a.Calls l call
  · obtain ⟨call, hcall⟩ := h
    rw [hcall.answered (by simp), ← allConstant_eq_false ha hloc hcall.reached, hcall.siteAt, siteOf, hcall.location]
    cases firstMatch call a.pool matchers with
    | error e => simp [Except.bind]
    | ok point? =>
      cases point? with
      | none => simp [Except.bind]
      | some q =>
        obtain ⟨r, hr⟩ := hcall.allConstant (s := s) ha hloc q
        simp only [Except.bind, hr, Except.map]
        cases r with
        | true => grind
        | false => grind
  · have hno : ∀ call, ¬ a.Calls l call := by simpa using h
    rw [siteAt_of_not_calls ha hloc hno]
    simp [hno]

theorem siteAt_eq_error {e : AnalysisError} : a.siteAt s matchers l = .error e ↔ a.FailsAt matchers l e := by
  unfold FailsAt
  by_cases h : ∃ call, a.Calls l call
  · obtain ⟨call, hcall⟩ := h
    simp only [hcall.answered (x := .error e) (by simp), exists_eq_left]
    rw [hcall.siteAt, siteOf, hcall.location]
    cases firstMatch call a.pool matchers with
    | error e => simp [Except.bind]
    | ok point? =>
      cases point? with
      | none => simp [Except.bind]
      | some q =>
        obtain ⟨r, hr⟩ := hcall.allConstant (s := s) ha hloc q
        simp [Except.bind, hr, Except.map]
  · have hno : ∀ call, ¬ a.Calls l call := by simpa using h
    rw [siteAt_of_not_calls ha hloc hno]
    simp [hno]

theorem not_failsAt_of_siteAt {x : Option Site} (h : a.siteAt s matchers l = .ok x) (e : AnalysisError) :
    ¬ a.FailsAt matchers l e := by
  intro he
  rw [(siteAt_eq_error ha hloc).mpr he] at h
  cases h

end

/-! ## Before the first failure -/

section
variable {a : Analysis} {s : Settings} {policy : Policy} {matchers : List Matcher}

def ComesTo (a : Analysis) (matchers : List Matcher) (ls : List Location) (l : Location) : Prop :=
  ∃ front back, ls = front ++ l :: back ∧ ∀ l' ∈ front, ∀ e, ¬ a.FailsAt matchers l' e

theorem comesTo_cons {l l₀ : Location} {ls : List Location} : a.ComesTo matchers (l₀ :: ls) l ↔
    l = l₀ ∨ (∀ e, ¬ a.FailsAt matchers l₀ e) ∧ a.ComesTo matchers ls l := by
  constructor
  · rintro ⟨front, back, heq, hfront⟩
    cases front with
    | nil =>
      cases heq
      exact .inl rfl
    | cons l₁ front =>
      cases heq
      exact .inr ⟨hfront l₀ (by simp), front, back, rfl, fun l' hl' => hfront l' (by simp [hl'])⟩
  · rintro (rfl | ⟨hl, front, back, rfl, hfront⟩)
    · exact ⟨[], ls, rfl, by simp⟩
    · refine ⟨l₀ :: front, back, rfl, ?_⟩
      intro l' hl'
      rcases List.mem_cons.mp hl' with rfl | hl'
      · exact hl
      · exact hfront l' hl'

variable (ha : a.Prepared)
include ha

variable (s matchers) in
theorem sublist_locations {ls : List Location} (hls : ∀ l ∈ ls, l ∈ a.graph.orderedLocations) :
    ((a.sites s matchers ls).map (·.call.location)).Sublist ls := by
  induction ls with
  | nil => exact .slnil
  | cons l ls ih =>
    have htail := ih fun l' hl' => hls l' (by simp [hl'])
    rw [sites]
    cases hx : a.siteAt s matchers l with
    | error e => exact List.nil_sublist _
    | ok site =>
      cases site with
      | none => exact htail.cons l
      | some x =>
        have hcalls := ((siteAt_eq_some ha (hls l (by simp))).mp hx).1.1
        simpa [hcalls.location] using htail

theorem mem_sites {ls : List Location} (hls : ∀ l ∈ ls, l ∈ a.graph.orderedLocations) {x : Site} :
    x ∈ a.sites s matchers ls ↔ a.ComesTo matchers ls x.call.location ∧
      a.siteAt s matchers x.call.location = .ok (some x) := by
  induction ls with
  | nil => simp [sites, ComesTo]
  | cons l ls ih =>
    have htail := ih fun l' hl' => hls l' (by simp [hl'])
    have hloc := hls l (by simp)
    rw [comesTo_cons, sites]
    cases hx : a.siteAt s matchers l with
    | error e =>
      have hfails := (siteAt_eq_error ha hloc).mp hx
      -- the scan stops here, and this location is no site
      constructor
      · intro h
        cases h
      · rintro ⟨heq | ⟨hno, -⟩, hsite⟩
        · rw [heq, hx] at hsite
          cases hsite
        · exact absurd hfails (hno e)
    | ok site =>
      have hno := not_failsAt_of_siteAt ha hloc hx
      simp only [List.mem_append, Option.mem_toList, htail]
      constructor
      · rintro (rfl | h)
        · have hcalls := ((siteAt_eq_some ha hloc).mp hx).1.1
          rw [hcalls.location]
          exact ⟨.inl rfl, hx⟩
        · exact ⟨.inr ⟨hno, h.1⟩, h.2⟩
      · rintro ⟨heq | ⟨-, hcomes⟩, hsite⟩
        · rw [heq, hx] at hsite
          cases hsite
          exact .inl rfl
        · exact .inr ⟨hcomes, hsite⟩

theorem outcome_inspectAll_eq_error {ls : List Location} (hls : ∀ l ∈ ls, l ∈ a.graph.orderedLocations)
    {e : AnalysisError} : (a.inspectAll s policy matchers ls).outcome = .error e ↔
      ∃ l, a.ComesTo matchers ls l ∧ a.FailsAt matchers l e := by
  induction ls with
  | nil => simp [inspectAll, ComesTo, pure]
  | cons l ls ih =>
    have htail := ih fun l' hl' => hls l' (by simp [hl'])
    have hloc := hls l (by simp)
    simp only [outcome_inspectAll_cons, comesTo_cons]
    cases hx : a.siteAt s matchers l with
    | error e' =>
      have hfails := (siteAt_eq_error ha hloc).mp hx
      constructor
      · rintro ⟨⟩
        exact ⟨l, .inl rfl, hfails⟩
      · rintro ⟨l', rfl | ⟨hno, -⟩, he⟩
        · rw [(siteAt_eq_error ha hloc).mpr he] at hx
          cases hx
          rfl
        · exact absurd hfails (hno e')
    | ok site =>
      have hno := not_failsAt_of_siteAt ha hloc hx
      show (a.inspectAll s policy matchers ls).outcome = .error e ↔ _
      rw [htail]
      constructor
      · rintro ⟨l', hcomes, he⟩
        exact ⟨l', .inr ⟨hno, hcomes⟩, he⟩
      · rintro ⟨l', rfl | ⟨-, hcomes⟩, he⟩
        · exact absurd he (hno e)
        · exact ⟨l', hcomes, he⟩

end

/-! ## The account of a method -/

/-- The findings are those of the sites that the scan comes to, one for each and in the order of the code, and
the scan fails at the first location that does. -/
structure Scanned (a : Analysis) (s : Settings) (policy : Policy) (matchers : List Matcher) (t : Trace Output Unit) :
    Prop where
  findings : ∃ sites : List Site,
    List.Forall₂ (fun x f => f = a.findingAt f.priority x.call.position x.point ∧
      (f.priority = .high ↔ ((a.replay s policy).taintedPositions x.call.location.index
        x.point.arguments).2.anyTainted = true)) sites t.findings ∧
    (sites.map (·.call.location.index)).Pairwise (· < ·) ∧
    ∀ x, x ∈ sites ↔ a.ComesTo matchers a.graph.orderedLocations x.call.location ∧
      a.Calls x.call.location x.call ∧ x.call.Answered a.pool matchers (.ok (some x.point)) ∧
      a.Exposed s x.call.location x.point
  positions : a.code.Ascending → (t.findings.map Finding.position).Pairwise (· < ·)
  outcome : ∀ e, t.outcome = .error e ↔
    ∃ l, a.ComesTo matchers a.graph.orderedLocations l ∧ a.FailsAt matchers l e

section
variable {a : Analysis} (ha : a.Prepared) (s : Settings) (policy : Policy) (matchers : List Matcher)
include ha

theorem pairwise_index_sites :
    ((a.sites s matchers a.graph.orderedLocations).map (·.call.location.index)).Pairwise (· < ·) := by
  have hsub := (sublist_locations s matchers ha fun _ h => h).map Location.index
  rw [ha.laid.index_orderedLocations, List.map_map] at hsub
  exact List.pairwise_lt_range.sublist hsub

theorem mem_sites_iff {x : Site} : x ∈ a.sites s matchers a.graph.orderedLocations ↔
    a.ComesTo matchers a.graph.orderedLocations x.call.location ∧ a.Calls x.call.location x.call ∧
      x.call.Answered a.pool matchers (.ok (some x.point)) ∧ a.Exposed s x.call.location x.point := by
  rw [mem_sites ha fun _ h => h]
  refine and_congr_right fun hcomes => ?_
  have hloc : x.call.location ∈ a.graph.orderedLocations := by
    obtain ⟨front, back, heq, -⟩ := hcomes
    simp [heq]
  rw [siteAt_eq_some ha hloc, and_assoc]

theorem scanned_inspectAll :
    a.Scanned s policy matchers (a.inspectAll s policy matchers a.graph.orderedLocations) where
  findings := by
    refine ⟨_, ?_, pairwise_index_sites ha s matchers, fun x => mem_sites_iff ha s matchers⟩
    rw [findings_inspectAll, List.forall₂_map_right_iff, List.forall₂_same]
    intro x _
    exact ⟨rfl, Priority.ofTaint_eq_high⟩
  positions := by
    intro hc
    rw [findings_inspectAll, List.map_map, List.pairwise_map]
    refine (List.pairwise_map.mp (pairwise_index_sites ha s matchers)).imp_of_mem fun {x y} hx hy hxy => ?_
    have hpx := ((mem_sites_iff ha s matchers).mp hx).2.1.position
    have hpy := ((mem_sites_iff ha s matchers).mp hy).2.1.position
    exact hc.position_lt hxy hpx hpy
  outcome := fun _ => outcome_inspectAll_eq_error ha fun _ h => h

end

end Analysis

/-! ## The account of a class -/

def ClassUnit.bodies (c : ClassUnit) : List (Method × Code) :=
  c.methods.filterMap fun m => m.code.map (m, ·)

namespace Detector

section
variable (d : Detector) (c : ClassUnit)

def run (p : Method × Code) : Trace Output Unit :=
  d.analyze c (d.candidates c) p.1 p.2

theorem runs_eq : d.runs c = c.bodies.map fun p => (p.1, d.run c p) := by
  rw [runs, ClassUnit.bodies, List.map_filterMap]
  congr 1
  funext m
  cases m.code <;> rfl

theorem visit_of_candidates (h : d.candidates c ≠ []) :
    (d.visit c).findings = c.bodies.flatMap (fun p => (d.run c p).findings) ∧
    (d.visit c).report =
      { owner := c.name
        methodsAnalyzed := c.bodies.length
        failures := c.bodies.filterMap fun p => failure? p.1 (d.run c p)
        findings := (d.visit c).findings.length } := by
  have hne : (d.candidates c).isEmpty = false := by simpa using h
  refine ⟨?_, ?_⟩
  · simp only [findings_visit, hne, runs_eq, List.flatMap_map]
    rfl
  · rw [report_visit, hne, runs_eq, List.length_map, List.filterMap_map]
    rfl

theorem visit_of_skipped (h : d.candidates c = []) :
    (d.visit c).findings = [] ∧ (d.visit c).report = { owner := c.name, skipped := true } := by
  simp [findings_visit, report_visit, h]

theorem findings_scan (cs : List ClassUnit) : (d.scan cs).findings = cs.flatMap fun c => (d.visit c).findings := by
  rw [scan, List.flatMap_map]

theorem reports_scan (cs : List ClassUnit) : (d.scan cs).reports = cs.map fun c => (d.visit c).report := by
  rw [scan, List.map_map]
  rfl

theorem candidates_eq_nil : d.candidates c = [] ↔ ∀ m ∈ d.matchers, m.isCandidate c.pool = false := by
  simp [candidates]

end

/-- **What a visit reports.** A class without candidates is skipped. Any other class reports the findings of its
methods one after the other, with their number and the methods that failed. A method that cannot be prepared
fails without findings, and a prepared one reports exactly its sites. -/
theorem visit_reports_sites (d : Detector) (c : ClassUnit) :
    ((∀ m ∈ d.matchers, m.isCandidate c.pool = false) →
      (d.visit c).findings = [] ∧ (d.visit c).report = { owner := c.name, skipped := true }) ∧
    ((∃ m ∈ d.matchers, m.isCandidate c.pool = true) →
      (d.visit c).findings = c.bodies.flatMap (fun p => (d.run c p).findings) ∧
      (d.visit c).report =
        { owner := c.name
          methodsAnalyzed := c.bodies.length
          failures := c.bodies.filterMap fun p => failure? p.1 (d.run c p)
          findings := (d.visit c).findings.length }) ∧
    ∀ p ∈ c.bodies,
      (∀ e, d.prepare c p.1 p.2 = .error e → (d.run c p).findings = [] ∧ (d.run c p).outcome = .error e) ∧
      ∀ a, d.prepare c p.1 p.2 = .ok a → a.Scanned d.settings d.policy (d.candidates c) (d.run c p) := by
  refine ⟨fun h => ?_, fun h => ?_, fun p _ => ⟨fun e he => ?_, fun a ha => ?_⟩⟩
  · exact d.visit_of_skipped c ((d.candidates_eq_nil c).mpr h)
  · apply d.visit_of_candidates c
    intro hnil
    obtain ⟨m, hm, hc⟩ := h
    rw [(d.candidates_eq_nil c).mp hnil m hm] at hc
    cases hc
  · rw [run, analyze_of_error he]
    exact ⟨rfl, rfl⟩
  · rw [run, analyze_of_ok ha]
    exact Analysis.scanned_inspectAll (prepare_eq_ok ha).1 _ _ _

end Detector

/-! ## A batch that is broken off -/

namespace Sample

/-- Runs a literal and a line that was read, and then breaks off. What is run afterwards is a parameter. -/
def batchCode : Code where
  body := #[⟨0, .ldc 1⟩, ⟨2, .invoke .static 2⟩, ⟨5, .invoke .static 3⟩, ⟨8, .invoke .static 2⟩,
    ⟨11, .invoke .static 4⟩, ⟨14, .load .reference 0⟩, ⟨15, .invoke .static 2⟩, ⟨18, .leave none⟩]

def batchMethod : Method := ⟨"batch", "(Ljava/lang/String;)V", true, some batchCode⟩

def batch : ClassUnit where
  name := "acme/Batch"
  pool := ⟨#[none, some (.string "select 1"), some (.method ⟨"acme/Db", "run", "(Ljava/lang/String;)V"⟩),
    some (.method ⟨"acme/Console", "read", "()Ljava/lang/String;"⟩), some (.method ⟨"acme/Db", "abort", "()V"⟩)]⟩
  methods := [batchMethod]

def unsure : Matcher where
  name := "unsure"
  isCandidate _ := true
  classify call _ := if call.method.name = "abort" then .error (.matcher "aborted") else .ok none

def console : Detector where
  matchers := [unsure, RuleMatcher.toMatcher ⟨"db", [⟨"SQL_INJECTION", "acme/Db", ["run"], [0]⟩]⟩]
  policy := UntrustedSources.policy { methods := ["acme/Console.read"] }

def batchGraph : Graph where
  blocks := #[⟨0, 0, 8, false⟩]
  edges := []

def batchFlow : Flow where
  entries := [some {}]
  frames := #[some {}, some { stack := [.string "select 1"], position := 2 }, some { position := 5 },
    some { stack := [.unknown], position := 8 }, some { position := 11 }, some { position := 14 },
    some { stack := [.unknown], position := 15 }, some { position := 18 }]

theorem build_batch : Graph.build batchCode = .ok batchGraph := by cbv

theorem analyze_batch : Flow.analyze batchCode batchGraph batch.pool = .ok batchFlow :=
  Flow.drain_of_drainWithin (n := 1) (by cbv)

def batchAnalysis : Analysis :=
  ⟨"acme/Batch", batch.pool, batchMethod, batchCode, batchGraph, batchFlow, [.ofObject 0 false]⟩

theorem prepare_batch : console.prepare batch batchMethod batchCode = .ok batchAnalysis := by
  have hd : MethodDescriptor.parse batchMethod.descriptor = .ok ⟨[.object "java/lang/String"], none⟩ := by cbv
  exact Detector.prepare_of_parts build_batch analyze_batch hd

theorem candidates_batch : console.candidates batch = console.matchers := by cbv

theorem run_batch : console.run batch (batchMethod, batchCode) =
    batchAnalysis.inspectAll {} console.policy console.matchers batchGraph.orderedLocations := by
  rw [Detector.run, Detector.analyze_of_ok prepare_batch, candidates_batch]
  rfl

end Sample

/-- The literal is not reported, the line is, and nothing behind the call that breaks the scan off. -/
theorem Detector.batch_broken_off :
    let d := Sample.console
    let c := Sample.batch
    let a := Sample.batchAnalysis
    (∃ m ∈ d.matchers, m.isCandidate c.pool = true) ∧ c.bodies = [(Sample.batchMethod, Sample.batchCode)] ∧
      d.prepare c Sample.batchMethod Sample.batchCode = .ok a ∧ a.code.Ascending ∧
      (d.visit c).findings.map (fun f => (f.position, f.priority)) = [(8, .high)] ∧
      (d.visit c).report =
        { owner := "acme/Batch"
          methodsAnalyzed := 1
          failures := [⟨"batch", "(Ljava/lang/String;)V", "sink matcher failure: aborted"⟩]
          findings := 1 } ∧
      a.Scanned d.settings d.policy (d.candidates c) (d.run c (Sample.batchMethod, Sample.batchCode)) := by
  intro d c a
  have hc : ∃ m ∈ d.matchers, m.isCandidate c.pool = true := ⟨Sample.unsure, List.mem_cons_self .., rfl⟩
  have hbodies : c.bodies = [(Sample.batchMethod, Sample.batchCode)] := rfl
  obtain ⟨-, hvisit, hmethods⟩ := visit_reports_sites d c
  obtain ⟨hfindings, hreport⟩ := hvisit hc
  have hrun : (d.run c (Sample.batchMethod, Sample.batchCode)).findings.map (fun f => (f.position, f.priority)) =
      [(8, .high)] := by
    rw [Sample.run_batch]
    decide +kernel
  have hfailure : failure? Sample.batchMethod (d.run c (Sample.batchMethod, Sample.batchCode)) =
      some ⟨"batch", "(Ljava/lang/String;)V", "sink matcher failure: aborted"⟩ := by
    rw [Sample.run_batch]
    decide +kernel
  rw [hbodies, List.flatMap_singleton] at hfindings
  have hone : (d.visit c).findings.map (fun f => (f.position, f.priority)) = [(8, .high)] := by
    rw [hfindings, hrun]
  refine ⟨hc, hbodies, Sample.prepare_batch, by decide, hone, ?_, ?_⟩
  · have hlength : (d.visit c).findings.length = 1 := by simpa using congrArg List.length hone
    rw [hreport, hlength, hbodies, List.filterMap_cons, List.filterMap_nil, hfailure]
    rfl
  · exact (hmethods _ (by rw [hbodies]; exact List.mem_singleton_self _)).2 a Sample.prepare_batch

/-! ## Positions out of order -/

namespace Sample

def reversedCode : Code where
  body := #[⟨18, .load .reference 0⟩, ⟨20, .invoke .static 2⟩, ⟨8, .load .reference 0⟩, ⟨10, .invoke .static 2⟩,
    ⟨13, .leave none⟩]

def reversedMethod : Method := ⟨"reversed", "(Ljava/lang/String;)V", true, some reversedCode⟩

def reversed : ClassUnit where
  name := "acme/Reversed"
  pool := batch.pool
  methods := [reversedMethod]

def reversedAnalysis (flow : Flow) : Analysis :=
  ⟨"acme/Reversed", batch.pool, reversedMethod, reversedCode, straight 5, flow, [.ofObject 0 false]⟩

end Sample

/-- Findings come in the order of the instructions, so with positions that fall if those do. -/
theorem Detector.reversed_reported :
    let d := Sample.console
    let c := Sample.reversed
    (∃ m ∈ d.matchers, m.isCandidate c.pool = true) ∧ c.bodies = [(Sample.reversedMethod, Sample.reversedCode)] ∧
      (∃ a, d.prepare c Sample.reversedMethod Sample.reversedCode = .ok a) ∧
      (d.visit c).findings.map Finding.position = [20, 10] ∧ (d.visit c).report.failures = [] := by
  intro d c
  have hg : Graph.build Sample.reversedCode = .ok (Sample.straight 5) := by cbv
  obtain ⟨flow, hf, hscan⟩ := Flow.exists_analyze Sample.reversedCode (Sample.straight 5) c.pool 1
    (fun flow =>
      let t := (Sample.reversedAnalysis flow).inspectAll {} d.policy d.matchers (Sample.straight 5).orderedLocations
      t.findings.map Finding.position == [20, 10] && failure? Sample.reversedMethod t == none)
    (by decide +kernel)
  have hd : MethodDescriptor.parse Sample.reversedMethod.descriptor = .ok ⟨[.object "java/lang/String"], none⟩ := by cbv
  have hp : d.prepare c Sample.reversedMethod Sample.reversedCode = .ok (Sample.reversedAnalysis flow) :=
    prepare_of_parts hg hf hd
  have hcandidates : d.candidates c = d.matchers := by cbv
  have hrun : d.run c (Sample.reversedMethod, Sample.reversedCode) =
      (Sample.reversedAnalysis flow).inspectAll {} d.policy d.matchers (Sample.straight 5).orderedLocations := by
    rw [run, analyze_of_ok hp, hcandidates]
    rfl
  have hbodies : c.bodies = [(Sample.reversedMethod, Sample.reversedCode)] := rfl
  obtain ⟨hpositions, hfailure⟩ := Bool.and_eq_true_iff.mp hscan
  obtain ⟨hfindings, hreport⟩ := d.visit_of_candidates c (by rw [hcandidates]; simp [d, Sample.console])
  refine ⟨⟨Sample.unsure, List.mem_cons_self .., rfl⟩, hbodies, ⟨_, hp⟩, ?_, ?_⟩
  · rw [hfindings, hbodies, List.flatMap_singleton, hrun]
    exact beq_iff_eq.mp hpositions
  · rw [hreport, hbodies, List.filterMap_cons, List.filterMap_nil, hrun, beq_iff_eq.mp hfailure]

end SinkCheck
