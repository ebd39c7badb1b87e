import Mathlib
import SinkCheck.Proofs.Reported
import SinkCheck.Proofs.Throughout

/-!
# Taint has a source

A replay that starts without taint and comes to no source stays without taint, in the running frame and in
every frame that waits for a block. So a tainted answer that is no guess goes back to a tainted local on entry
or to a source in front of the target.
-/

namespace SinkCheck

/-! ## Frames -/

namespace Frame

def Untainted (f : Frame Cell) : Prop :=
  f.All fun a => a.tainted = false

theorem lasting_untainted : Lasting fun _ f => f.Untainted where
  later h := h
  joined hf hg hm := by
    refine All.merge (by rfl) (by rfl) ?_ hf hg hm
    intro a b ha hb
    simp [Cell.join, ha, hb]
  fresh k h := h.pushWords rfl k
  locals h := ⟨fun a ha => (by cases ha), h.locals⟩

end Frame

/-! ## Effects that bring taint in -/

/-- Tainted whatever went in: the result of a call that is a source, or a field that is one. -/
def Policy.Brings (p : Policy) : Effect → Prop
  | .invoke call => p.classify call.method = .source ∧ isStringification call.method.name = false
  | .readField m _ => p.isSourceField m = true
  | _ => False

namespace ReplayState

section
variable {policy : Policy} {s s' : ReplayState}

theorem any_tainted_eq_false {cells : List Cell} (h : ∀ a ∈ cells, a.tainted = false) :
    cells.any Cell.tainted = false := by
  simpa using h

theorem untainted_pushResult (hs : s.frame.Untainted) (call : Call) (receiver : Option Cell) :
    (s.pushResult call receiver false).frame.Untainted := by
  obtain ⟨id, hf, -⟩ := pushResult_cases s call receiver false
  rw [hf]
  exact hs.pushWords rfl _

theorem untainted_finishCall (hs : s.frame.Untainted) {call : Call} (hb : ¬ policy.Brings (.invoke call))
    {receiver : Option Cell} {arguments : List Cell} (hr : ∀ a ∈ receiver, a.tainted = false)
    (ha : ∀ a ∈ arguments, a.tainted = false) :
    (s.finishCall policy call receiver arguments).frame.Untainted := by
  have hreceiver : receiver.any Cell.tainted = false := by
    cases receiver with
    | none => rfl
    | some a => exact hr a rfl
  unfold finishCall
  rw [any_tainted_eq_false ha, hreceiver]
  split
  · exact untainted_pushResult hs call receiver
  · rename_i hstring
    split
    · rename_i hsource
      exact absurd ⟨hsource, by simpa using hstring⟩ hb
    · exact untainted_pushResult hs call receiver
    · exact untainted_pushResult hs call receiver

theorem untainted_apply (hs : s.frame.Untainted) {e : Effect} (hb : ¬ policy.Brings e)
    (h : s.apply policy e = .ok s') : s'.frame.Untainted := by
  cases e with
  | consume n =>
    obtain ⟨r, hp, rfl⟩ := Except.map_eq_ok.mp h
    exact (hs.popWords hp).2
  | derive n m =>
    obtain ⟨r, hp, rfl⟩ := Except.map_eq_ok.mp h
    obtain ⟨hcells, hf⟩ := hs.popWords hp
    exact hf.pushWords (any_tainted_eq_false hcells) m
  | fresh n m =>
    obtain ⟨r, hp, rfl⟩ := Except.map_eq_ok.mp h
    exact (hs.popWords hp).2.pushWords rfl m
  | constant literal n | readStatic m n =>
    cases h
    exact hs.pushWords rfl n
  | load slot n =>
    cases h
    exact hs.pushAll (hs.load (by rfl) slot n)
  | store slot n =>
    obtain ⟨r, hp, rfl⟩ := Except.map_eq_ok.mp h
    obtain ⟨hcells, hf⟩ := hs.popWords hp
    exact hf.store (by rfl) slot hcells
  | increment slot | identity =>
    cases h
    exact hs
  | shuffle pattern =>
    obtain ⟨f, hf, rfl⟩ := Except.map_eq_ok.mp h
    exact hs.shuffle hf
  | arrayStore n =>
    obtain ⟨⟨cells, f⟩, hp, rfl⟩ := Except.map_eq_ok.mp h
    obtain ⟨hcells, hf⟩ := hs.popWords hp
    have hstored : (cells.drop 2).any Cell.tainted = false :=
      any_tainted_eq_false fun a ha => hcells a (List.mem_of_mem_drop ha)
    simp only [hstored]
    exact hf
  | readField m n =>
    obtain ⟨r, hp, rfl⟩ := Except.map_eq_ok.mp h
    obtain ⟨hobject, hf⟩ := hs.pop hp
    have hfield : policy.isSourceField m = false := by simpa [Policy.Brings] using hb
    refine hf.pushWords ?_ n
    simp [Cell.ofObject, hobject, hfield]
  | invoke call =>
    obtain ⟨⟨cells, f⟩, hp, rfl⟩ := Except.map_eq_ok.mp h
    obtain ⟨hcells, hf⟩ := hs.popWords hp
    have hrest : (s.setFrame f).frame.Untainted := hf
    simp only
    split
    · apply untainted_finishCall hrest hb
      · intro a ha
        exact hcells a (List.mem_of_mem_head? ha)
      · intro a ha
        exact hcells a (List.mem_of_mem_tail ha)
    · apply untainted_finishCall hrest hb
      · intro a ha
        cases ha
      · exact hcells
  | throw =>
    obtain ⟨r, hp, rfl⟩ := Except.map_eq_ok.mp h
    exact (hs.pop hp).2

end

/-! ## States -/

structure Untainted (s : ReplayState) : Prop where
  frame : s.frame.Untainted
  pending : ∀ {id f}, s.pending id = some f → f.Untainted
  falling : ∀ {id f}, s.falling = some (id, f) → f.Untainted

section
variable {s s' : ReplayState}

theorem Untainted.execute {policy : Policy} {pool : Pool} {h : Placed} (hs : s.Untainted)
    (hb : ∀ e, h.instruction.effect pool = .ok e → ¬ policy.Brings e) (hx : s.execute policy pool h = .ok s') :
    s'.Untainted := by
  have hk := kept_of_execute hx
  refine ⟨?_, fun hp => hs.pending (hk.pending ▸ hp), fun hf => hs.falling (hk.falling ▸ hf)⟩
  unfold ReplayState.execute at hx
  split at hx
  · cases hx
  · rename_i e he
    have hseek : (s.setFrame (s.frame.seek h.position)).frame.Untainted := hs.frame.seek h.position
    exact untainted_apply hseek (hb e he) hx

theorem untainted_iff_each : s.Untainted ↔ s.Each fun _ f => f.Untainted :=
  ⟨fun h => ⟨h.frame, h.pending, h.falling⟩, fun h => ⟨h.frame, h.pending, h.falling⟩⟩

theorem untainted_ofLocals {locals : List Cell} (h : ∀ a ∈ locals, a.tainted = false) : (ofLocals locals).Untainted :=
  ⟨⟨fun a ha => (by cases ha), h⟩, fun hp => (by cases hp), fun hf => (by cases hf)⟩

end

end ReplayState

/-! ## Runs -/

/-- The locations in front of the first at instruction `target`, in scan order. -/
def Graph.locationsBefore (g : Graph) (target : Nat) : List Location :=
  g.orderedLocations.takeWhile (·.index ≠ target)

namespace Replay

def SourceAt (r : Replay) (i : Nat) : Prop :=
  (∃ kind index m, r.code.instruction? i = some (.invoke kind index) ∧ r.pool.method index = .ok m ∧
    r.policy.classify m = .source ∧ isStringification m.name = false) ∨
  ∃ index m, r.code.instruction? i = some (.getField index) ∧ r.pool.field index = .ok m ∧
    r.policy.isSourceField m = true

section
variable {r : Replay} {target : Nat}

theorem sourceAt_of_brings {i : Nat} {h : Placed} (hh : r.code.body[i]? = some h) {e : Effect}
    (he : h.instruction.effect r.pool = .ok e) (hb : r.policy.Brings e) : r.SourceAt i := by
  obtain ⟨position, instruction⟩ := h
  have hi : r.code.instruction? i = some instruction := by rw [Code.instruction?, hh]; rfl
  cases instruction with
  | invoke kind index =>
    obtain ⟨call, hcall, rfl⟩ := Except.map_eq_ok.mp he
    obtain ⟨hsource, hstring⟩ := hb
    unfold Call.resolve at hcall
    split at hcall
    · cases hcall
    · rename_i m hm
      split at hcall
      · cases hcall
      · cases hcall
        exact .inl ⟨kind, index, m, hi, hm, hsource, hstring⟩
  | getField index =>
    obtain ⟨⟨m, n⟩, hfield, rfl⟩ := Except.map_eq_ok.mp he
    unfold Pool.sizedField at hfield
    split at hfield
    · cases hfield
    · rename_i m' hm
      split at hfield
      · cases hfield
      · cases hfield
        exact .inr ⟨index, m, hi, hm, hb⟩
  | ldc index | ldc2 index =>
    obtain ⟨literal, -, rfl⟩ := Except.map_eq_ok.mp he
    exact hb.elim
  | getStatic index | putStatic index | putField index =>
    obtain ⟨⟨m, n⟩, -, rfl⟩ := Except.map_eq_ok.mp he
    exact hb.elim
  | leave kind =>
    cases kind with
    | none =>
      cases he
      exact hb.elim
    | some kind =>
      cases he
      exact hb.elim
  | _ =>
    cases he
    exact hb.elim

theorem untainted_perform {i : Nat} {s s' : ReplayState} (hs : s.Untainted) (hno : ¬ r.SourceAt i)
    (h : r.perform i s = .ok s') : s'.Untainted := by
  unfold perform at h
  split at h
  · cases h
    exact hs
  · rename_i p hp
    refine hs.execute ?_ h
    intro e he hb
    exact hno (sourceAt_of_brings hp he hb)

theorem untainted_cross {current : Option Nat} {id : Nat} {s s' : ReplayState} (hs : s.Untainted)
    (h : r.cross current id s = .ok s') : s'.Untainted :=
  ReplayState.untainted_iff_each.mpr
    (each_cross Frame.lasting_untainted (ReplayState.untainted_iff_each.mp hs) h)

theorem untainted_walk {ls : List Location} {current : Option Nat} {s : ReplayState} {f : Frame Cell}
    (hs : s.Untainted) (hno : ∀ l ∈ ls.takeWhile (·.index ≠ target), ¬ r.SourceAt l.index)
    (h : (r.walk target ls current s).outcome = .ok (some f)) : f.Untainted := by
  induction ls generalizing current s with
  | nil => cases h
  | cons l ls ih =>
    rw [outcome_walk_cons] at h
    cases hcross : r.cross current l.block s with
    | error e =>
      rw [hcross] at h
      cases h
    | ok s₁ =>
      have hs₁ := untainted_cross hs hcross
      simp only [hcross, Except.bind] at h
      by_cases ht : l.index = target
      · rw [if_pos ht] at h
        cases h
        exact hs₁.frame
      · rw [if_neg ht] at h
        -- this location is passed, so it is no source
        rw [List.takeWhile_cons_of_pos (by simpa using ht)] at hno
        cases hperform : r.perform l.index s₁ with
        | error e =>
          rw [hperform] at h
          cases h
        | ok s₂ =>
          rw [hperform] at h
          have hs₂ := untainted_perform hs₁ (hno l (by simp)) hperform
          exact ih hs₂ (fun l' hl' => hno l' (List.mem_cons_of_mem l hl')) h

theorem untainted_runTo {f : Frame Cell} (hlocals : ∀ a ∈ r.locals, a.tainted = false)
    (hno : ∀ l ∈ r.graph.locationsBefore target, ¬ r.SourceAt l.index)
    (h : (r.runTo target).outcome = .ok (some f)) : f.Untainted :=
  untainted_walk (ReplayState.untainted_ofLocals hlocals) hno h

theorem verdict_of_reached {ps : List Nat} (h : (r.taintedPositions target ps).2.reached = true) :
    ∃ f, (r.runTo target).outcome = .ok (some f) ∧
      ps.mapM (fun d => (f.peek d).map Cell.tainted) = some (r.taintedPositions target ps).2.taint := by
  simp only [taintedPositions] at h ⊢
  cases hrun : (r.runTo target).outcome with
  | error e =>
    rw [hrun] at h
    cases h
  | ok f? =>
    cases f? with
    | none =>
      rw [hrun] at h
      cases h
    | some f =>
      simp only [hrun] at h ⊢
      refine ⟨f, rfl, ?_⟩
      cases htaint : ps.mapM fun d => (f.peek d).map Cell.tainted with
      | none =>
        rw [htaint] at h
        cases h
      | some taint => rfl

theorem taint_of_untainted {f : Frame Cell} (hf : f.Untainted) {ps : List Nat} {taint : List Bool}
    (h : ps.mapM (fun d => (f.peek d).map Cell.tainted) = some taint) : taint.any id = false := by
  induction ps generalizing taint with
  | nil =>
    cases h
    rfl
  | cons d ps ih =>
    simp only [List.mapM_cons, Option.bind_eq_bind, Option.bind_eq_some_iff, Option.map_eq_some_iff] at h
    obtain ⟨t, ⟨a, ha, rfl⟩, taint, htaint, h⟩ := h
    cases h
    simp [hf.peek ha, ih htaint]

/-- A verdict of taint goes back to a tainted local or to a source in front of the target. -/
theorem sourceAt_of_anyTainted {ps : List Nat} (hr : (r.taintedPositions target ps).2.reached = true)
    (ht : (r.taintedPositions target ps).2.anyTainted = true) :
    (∃ a ∈ r.locals, a.tainted = true) ∨ ∃ l ∈ r.graph.locationsBefore target, r.SourceAt l.index := by
  by_contra hno
  simp only [not_or, not_exists, not_and, Bool.not_eq_true] at hno
  obtain ⟨f, hrun, htaint⟩ := verdict_of_reached hr
  have hclean := taint_of_untainted (untainted_runTo hno.1 hno.2 hrun) htaint
  rw [Verdict.anyTainted, hclean] at ht
  cases ht

theorem untainted_entryLocals (isStatic : Bool) (descriptor : MethodDescriptor) :
    ∀ a ∈ entryLocals isStatic descriptor false, a.tainted = false := by
  have hargs : ∀ (ts : List FieldType) id, ∀ a ∈ entryLocals.arguments false id ts, a.tainted = false := by
    intro ts
    induction ts with
    | nil => simp [entryLocals.arguments]
    | cons t ts ih =>
      intro id a ha
      rw [entryLocals.arguments, List.mem_append] at ha
      rcases ha with ha | ha
      · rw [List.eq_of_mem_replicate ha]
        rfl
      · exact ih (id + 1) a ha
  intro a ha
  unfold entryLocals at ha
  split at ha
  · exact hargs _ _ a ha
  · rcases List.mem_cons.mp ha with rfl | ha
    · rfl
    · exact hargs _ _ a ha

end

end Replay

/-! ## Scans -/

theorem Analysis.sites_nil (a : Analysis) (s : Settings) (ls : List Location) : a.sites s [] ls = [] := by
  induction ls with
  | nil => rfl
  | cons l ls ih =>
    have hsite : ∀ x, a.siteAt s [] l ≠ .ok (some x) := by
      intro x hx
      unfold siteAt at hx
      split at hx
      · split at hx
        · cases hx
        · rename_i index _ _
          cases hm : a.pool.method index with
          | error e =>
            rw [hm] at hx
            cases hx
          | ok m =>
            rw [hm] at hx
            cases hx
      · cases hx
    rw [sites]
    cases hx : a.siteAt s [] l with
    | error e => rfl
    | ok site =>
      cases site with
      | none => exact ih
      | some x => exact absurd hx (hsite x)

namespace Detector

section
variable (d : Detector)

def sitesOf (c : ClassUnit) (p : Method × Code) : List (Analysis × Site) :=
  match d.prepare c p.1 p.2 with
  | .error _ => []
  | .ok a => (a.sites d.settings (d.candidates c) a.graph.orderedLocations).map (a, ·)

def sites (cs : List ClassUnit) : List (Analysis × Site) :=
  cs.flatMap fun c => c.bodies.flatMap (d.sitesOf c)

theorem findings_run (c : ClassUnit) (p : Method × Code) :
    (d.run c p).findings = (d.sitesOf c p).map fun q => q.1.findingFor d.settings d.policy q.2 := by
  rw [run, sitesOf]
  cases hp : d.prepare c p.1 p.2 with
  | error e =>
    rw [analyze_of_error hp]
    rfl
  | ok a =>
    rw [analyze_of_ok hp, Analysis.findings_inspectAll, List.map_map]
    rfl

theorem findings_visit_eq_map (c : ClassUnit) : (d.visit c).findings =
    (c.bodies.flatMap (d.sitesOf c)).map fun q => q.1.findingFor d.settings d.policy q.2 := by
  by_cases h : d.candidates c = []
  · have hnone : ∀ p, d.sitesOf c p = [] := by
      intro p
      rw [sitesOf, h]
      cases d.prepare c p.1 p.2 with
      | error e => rfl
      | ok a => simp only [Analysis.sites_nil, List.map_nil]
    simp [(d.visit_of_skipped c h).1, hnone]
  · rw [(d.visit_of_candidates c h).1, List.map_flatMap]
    simp only [findings_run]

theorem findings_scan_eq_map (cs : List ClassUnit) :
    (d.scan cs).findings = (d.sites cs).map fun q => q.1.findingFor d.settings d.policy q.2 := by
  simp only [findings_scan, findings_visit_eq_map, sites, List.map_flatMap]

theorem locals_of_mem_sites {cs : List ClassUnit} {a : Analysis} {x : Site} (h : (a, x) ∈ d.sites cs)
    (hoff : d.settings.taintParameters = false) : ∀ b ∈ a.locals, b.tainted = false := by
  obtain ⟨c, -, h⟩ := List.mem_flatMap.mp h
  obtain ⟨p, -, h⟩ := List.mem_flatMap.mp h
  unfold sitesOf at h
  split at h
  · cases h
  · rename_i a' hp
    obtain ⟨y, -, heq⟩ := List.mem_map.mp h
    cases heq
    obtain ⟨graph, flow, descriptor, -, -, rfl⟩ := prepare_cases hp
    rw [hoff]
    exact Replay.untainted_entryLocals _ _

end

/-- **Taint has a source.** If a replay gets to its target and finds a tainted word there, a local was tainted
from the start or a source stands in front of the target. Where parameters are trusted, every high finding whose
replay got to the call has a source in front of it. -/
theorem high_has_source :
    (∀ (r : Replay) (target : Nat) (ps : List Nat), (r.taintedPositions target ps).2.reached = true →
      (r.taintedPositions target ps).2.anyTainted = true →
      (∃ a ∈ r.locals, a.tainted = true) ∨ ∃ l ∈ r.graph.locationsBefore target, r.SourceAt l.index) ∧
    ∀ (d : Detector) (cs : List ClassUnit),
      (d.scan cs).findings = ((d.sites cs).map fun q => q.1.findingFor d.settings d.policy q.2) ∧
      (d.settings.taintParameters = false →
        ∀ q ∈ d.sites cs, (q.1.findingFor d.settings d.policy q.2).priority = .high →
          let r := q.1.replay d.settings d.policy
          (r.taintedPositions q.2.call.location.index q.2.point.arguments).2.reached = true →
          ∃ l ∈ q.1.graph.locationsBefore q.2.call.location.index, r.SourceAt l.index) := by
  refine ⟨fun r target ps hr ht => Replay.sourceAt_of_anyTainted hr ht, ?_⟩
  intro d cs
  refine ⟨d.findings_scan_eq_map cs, ?_⟩
  intro hoff q hq hhigh r hr
  have ht := Priority.ofTaint_eq_high.mp hhigh
  rcases Replay.sourceAt_of_anyTainted hr ht with ⟨b, hb, htainted⟩ | hsource
  · rw [d.locals_of_mem_sites hq hoff b hb] at htainted
    cases htainted
  · exact hsource

end Detector

namespace Sample

def readSite : Site :=
  ⟨⟨.static, ⟨"acme/Db", "run", "(Ljava/lang/String;)V"⟩, ⟨3, 0⟩, 8⟩, ⟨"SQL_INJECTION", [0], some "acme/Db.run"⟩⟩

theorem sites_batch : console.sites [batch] = [(batchAnalysis, readSite)] := by
  have hsites : batchAnalysis.sites {} console.matchers batchGraph.orderedLocations = [readSite] := by decide +kernel
  have hmethod : console.sitesOf batch (batchMethod, batchCode) = [(batchAnalysis, readSite)] := by
    rw [Detector.sitesOf, prepare_batch, candidates_batch]
    exact congrArg (List.map _) hsites
  have hbodies : batch.bodies = [(batchMethod, batchCode)] := rfl
  rw [Detector.sites, List.flatMap_singleton, hbodies, List.flatMap_singleton, hmethod]

end Sample

/-- The line that is run was read in front of it. -/
theorem Detector.read_line_has_source :
    let d := Sample.console
    let q := (Sample.batchAnalysis, Sample.readSite)
    let r := q.1.replay d.settings d.policy
    (r.taintedPositions 3 [0]).2 = ⟨[true], true⟩ ∧
      ((∃ a ∈ r.locals, a.tainted = true) ∨ ∃ l ∈ r.graph.locationsBefore 3, r.SourceAt l.index) ∧
      d.settings.taintParameters = false ∧ q ∈ d.sites [Sample.batch] ∧
      (q.1.findingFor d.settings d.policy q.2).priority = .high ∧
      ∃ l ∈ q.1.graph.locationsBefore 3, r.SourceAt l.index := by
  intro d q r
  have hverdict : (r.taintedPositions 3 [0]).2 = ⟨[true], true⟩ := by decide +kernel
  have hreached : (r.taintedPositions 3 [0]).2.reached = true := by rw [hverdict]
  have htainted : (r.taintedPositions 3 [0]).2.anyTainted = true := by rw [hverdict]; rfl
  have hq : q ∈ d.sites [Sample.batch] := by
    rw [Sample.sites_batch]
    exact List.mem_singleton_self q
  have hhigh : (q.1.findingFor d.settings d.policy q.2).priority = .high := Priority.ofTaint_eq_high.mpr htainted
  refine ⟨hverdict, high_has_source.1 r 3 [0] hreached htainted, rfl, hq, hhigh, ?_⟩
  exact (high_has_source.2 d [Sample.batch]).2 rfl q hq hhigh hreached

end SinkCheck
