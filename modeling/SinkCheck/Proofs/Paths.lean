import Mathlib
import SinkCheck.Proofs.Solution

/-!
# Constants are the join over all paths

A path is a list of edges from block 0, and running it transfers the frame through every block on it.
The constants before an instruction are what all paths to it agree on: a settled flow covers every path,
and an entry is never weaker than the paths to its block make it, since effects distribute over joins.
-/

namespace SinkCheck

namespace Graph

/-- The edges lead from block 0 to the block, the last one first. -/
inductive Path (g : Graph) : List Edge → Nat → Prop
  | start : Path g [] 0
  | step {es : List Edge} {e : Edge} : Path g es e.source → e ∈ g.edges → Path g (e :: es) e.target

def indices (g : Graph) (id : Nat) : List Nat :=
  (g.blocks[id]?.map Block.indices).getD []

def lastInstruction? (g : Graph) (c : Code) (id : Nat) : Option Instruction :=
  (g.blocks[id]?.bind Block.last?).bind c.instruction?

def before (g : Graph) (l : Location) : List Nat :=
  (g.blocks[l.block]?.map (·.before l.index)).getD []

end Graph

/-! ## Sending -/

section
variable {f g : Frame Constant} {last : Option Instruction}

theorem outgoing_covers (hc : f.Covers g) : ∀ kind, (outgoing f last kind).Covers (outgoing g last kind)
  | .exception => .of_word rfl
  | .branch => (Frame.moved_pushWords f _).covers (Frame.moved_pushWords g _) hc
  | .fallThrough | .switch => hc

theorem outgoing_tight {P Q : Frame Constant → Prop} (hne : ∃ g, P g) (ht : Frame.Tight P f) :
    ∀ {kind}, (∀ g, P g → Q (outgoing g last kind)) → Frame.Tight Q (outgoing f last kind)
  | .exception, hpq => fun w k _ hall => by
    obtain ⟨g, hg⟩ := hne
    exact hall _ (hpq g hg)
  | .branch, hpq =>
    (Frame.moved_pushWords f _).tight hne (fun g hg => ⟨_, hpq g hg, Frame.moved_pushWords g _⟩) ht
  | .fallThrough, hpq | .switch, hpq => fun w k hk hall => ht w k hk fun g hg => hall g (hpq g hg)

end

namespace Flow

section
variable (c : Code) (g : Graph) (pool : Pool)

def along : List Edge → Except AnalysisError (Frame Constant)
  | [] => .ok {}
  | e :: es =>
    (along es).bind fun f =>
      (Frame.run c pool (g.indices e.source) f).map fun f => outgoing f (g.lastInstruction? c e.source) e.kind

def arriving (es : List Edge) (l : Location) : Except AnalysisError (Frame Constant) :=
  (along c g pool es).bind (Frame.run c pool (g.before l))

def OnAllPaths (l : Location) (w : Place) (k : Constant) : Prop :=
  ∀ es p, g.Path es l.block → arriving c g pool es l = .ok p → p.word w = some k

end

section
variable {c : Code} {g : Graph} {pool : Pool} {flow : Flow}

theorem along_cons {e : Edge} {es : List Edge} {p : Frame Constant} :
    along c g pool (e :: es) = .ok p ↔ ∃ f f', along c g pool es = .ok f ∧
      Frame.run c pool (g.indices e.source) f = .ok f' ∧ p = outgoing f' (g.lastInstruction? c e.source) e.kind := by
  rw [along]
  cases along c g pool es with
  | error err => simp [Except.bind]
  | ok f =>
    simp only [Except.bind, Except.ok.injEq]
    cases hr : Frame.run c pool (g.indices e.source) f with
    | error err => simp [Except.map, hr]
    | ok f' => simp [Except.map, hr, eq_comm]

theorem arriving_eq_ok {es : List Edge} {l : Location} {p : Frame Constant} :
    arriving c g pool es l = .ok p ↔ ∃ f, along c g pool es = .ok f ∧ Frame.run c pool (g.before l) f = .ok p := by
  rw [arriving]
  cases along c g pool es <;> simp [Except.bind]

theorem isConstantString_eq_true {i d : Nat} :
    flow.isConstantString i d = true ↔ ∃ s, flow.valueAt i d = some (.string s) := by
  rw [isConstantString]
  cases flow.valueAt i d with
  | none => simp
  | some x => cases x <;> simp [Constant.isString]

/-- Once nothing is queued, the entry of a block covers every path to it. In particular no path fails. -/
theorem Consistent.entry_covers (hl : g.Laid c) (hc : Consistent c g pool flow []) {es : List Edge} {id : Nat}
    (hp : g.Path es id) : ∃ f p, flow.entries.entry id = some f ∧ along c g pool es = .ok p ∧ f.Covers p := by
  induction hp with
  | start =>
    obtain ⟨f, hentry, hcov⟩ := hc.start
    exact ⟨f, {}, hentry, rfl, hcov⟩
  | @step es e _ he ih =>
    obtain ⟨f, p, hentry, hp, hcov⟩ := ih
    have hb := Array.getElem?_eq_getElem (hl.source he)
    obtain ⟨f', hrun, hsent⟩ := ((hc.settled hb hentry).resolve_left List.not_mem_nil).sent
    obtain ⟨p', hrun', hcov'⟩ := hcov.run hrun
    obtain ⟨t, ht, hcov''⟩ := hsent e (Graph.mem_successors.mpr ⟨he, rfl⟩)
    refine ⟨t, _, ht, along_cons.mpr ⟨p, p', hp, ?_, rfl⟩, ?_⟩
    · rwa [Graph.indices, hb]
    · rw [Graph.lastInstruction?, hb]
      exact hcov''.trans (outgoing_covers hcov' e.kind)

section
variable (hl : g.Laid c) (hf : analyze c g pool = .ok flow)
include hl hf

theorem entry_covers {es : List Edge} {id : Nat} (hp : g.Path es id) :
    ∃ f p, flow.entries.entry id = some f ∧ along c g pool es = .ok p ∧ f.Covers p :=
  (consistent_of_analyze hl hf).entry_covers hl hp

theorem exists_path {id : Nat} {f : Frame Constant} (h : flow.entries.entry id = some f) : ∃ es, g.Path es id := by
  refine entries_induct hl (Q := fun id _ => ∃ es, g.Path es id) ⟨[], .start⟩ (fun h _ _ => h) ?_ hf id f h
  rintro id b f f' e - ⟨es, hes⟩ - he
  obtain ⟨hmem, rfl⟩ := Graph.mem_successors.mp he
  exact ⟨e :: es, .step hes hmem⟩

/-- The entry of a block knows every word on which the paths to the block agree. -/
theorem entry_tight {id : Nat} {f : Frame Constant} (h : flow.entries.entry id = some f) :
    Frame.Tight (fun p => ∃ es, g.Path es id ∧ along c g pool es = .ok p) f := by
  have htotal : ∀ {es id}, g.Path es id → ∃ p, along c g pool es = .ok p := fun hp => by
    obtain ⟨-, p, -, hp, -⟩ := entry_covers hl hf hp
    exact ⟨p, hp⟩
  refine (entries_induct hl (Q := fun id f => (∃ es, g.Path es id) ∧
    Frame.Tight (fun p => ∃ es, g.Path es id ∧ along c g pool es = .ok p) f) ⟨⟨[], .start⟩, ?_⟩
    (fun h₁ h₂ hm => ⟨h₁.1, h₁.2.merge h₂.2 hm⟩) ?_ hf id f h).2
  · exact fun w k hk hall => hall {} ⟨[], .start, rfl⟩
  · rintro id b f f' e hb ⟨⟨es, hes⟩, ht⟩ hrun he
    obtain ⟨hmem, rfl⟩ := Graph.mem_successors.mp he
    refine ⟨⟨e :: es, .step hes hmem⟩, ?_⟩
    have hind : g.indices e.source = b.indices := by rw [Graph.indices, hb]; rfl
    have hlast : g.lastInstruction? c e.source = b.last?.bind c.instruction? := by
      rw [Graph.lastInstruction?, hb]; rfl
    -- the frames of the paths to the source, at its end
    let Q : Frame Constant → Prop := fun p' => ∃ es p, g.Path es e.source ∧ along c g pool es = .ok p ∧
      Frame.run c pool b.indices p = .ok p'
    have hend : ∀ {es p}, g.Path es e.source → along c g pool es = .ok p →
        ∃ p', Q p' ∧ Frame.run c pool b.indices p = .ok p' := by
      intro es p hes hp
      obtain ⟨q, hq⟩ := htotal (.step hes hmem)
      obtain ⟨p₁, p', hp₁, hrun', -⟩ := along_cons.mp hq
      rw [hp] at hp₁
      cases hp₁
      rw [hind] at hrun'
      exact ⟨p', ⟨es, p, hes, hp, hrun'⟩, hrun'⟩
    obtain ⟨p, hp⟩ := htotal hes
    have htQ : Frame.Tight Q f' := ht.run ⟨p, es, hes, hp⟩ (fun p ⟨es, hes, hp⟩ => hend hes hp) hrun
    obtain ⟨p', hQ, -⟩ := hend hes hp
    refine outgoing_tight ⟨p', hQ⟩ htQ ?_
    rintro q ⟨es, p, hes, hp, hq⟩
    exact ⟨e :: es, .step hes hmem, along_cons.mpr ⟨p, q, hp, hind ▸ hq, by rw [hlast]⟩⟩

/-! ## Instructions -/

section
variable {l : Location} (hloc : l ∈ g.orderedLocations)
include hloc

theorem exists_entry (hsome : (flow.frameAt l.index).isSome) : ∃ f, flow.entries.entry l.block = some f := by
  obtain ⟨b, hb, hi⟩ := hl.mem_orderedLocations.mp hloc
  cases he : flow.entries.entry l.block with
  | none => rw [(consistent_of_analyze hl hf).silent hb he _ hi] at hsome; cases hsome
  | some f => exact ⟨f, rfl⟩

theorem isSome_frameAt : (flow.frameAt l.index).isSome ↔ ∃ es, g.Path es l.block := by
  constructor
  · intro hsome
    obtain ⟨f, he⟩ := exists_entry hl hf hloc hsome
    exact exists_path hl hf he
  · rintro ⟨es, hes⟩
    obtain ⟨b, hb, hi⟩ := hl.mem_orderedLocations.mp hloc
    obtain ⟨f, -, he, -, -⟩ := entry_covers hl hf hes
    obtain ⟨k, -, hk, -, -⟩ := (settled_of_analyze hl hf hb he).frames _ hi
    rw [hk]; rfl

theorem frameAt_joins {k : Frame Constant} (hk : flow.frameAt l.index = some k) :
    (∀ es, g.Path es l.block → ∃ p, arriving c g pool es l = .ok p ∧ k.Covers p) ∧
      Frame.Tight (fun p => ∃ es, g.Path es l.block ∧ arriving c g pool es l = .ok p) k := by
  obtain ⟨b, hb, hi⟩ := hl.mem_orderedLocations.mp hloc
  have hbefore : g.before l = b.before l.index := by rw [Graph.before, hb]; rfl
  obtain ⟨es₀, hes₀⟩ := (isSome_frameAt hl hf hloc).mp (by rw [hk]; rfl)
  obtain ⟨f, p₀, hentry, hp₀, -⟩ := entry_covers hl hf hes₀
  obtain ⟨k', q, hk', hq, hw⟩ := (settled_of_analyze hl hf hb hentry).frames _ hi
  rw [hk] at hk'
  cases hk'
  have hcov : ∀ es, g.Path es l.block → ∃ r p, along c g pool es = .ok r ∧
      Frame.run c pool (b.before l.index) r = .ok p ∧ k.Covers p := by
    intro es hes
    obtain ⟨f', r, hentry', hr, hcov⟩ := entry_covers hl hf hes
    rw [hentry] at hentry'
    cases hentry'
    obtain ⟨p, hp, hqp⟩ := hcov.run hq
    exact ⟨r, p, hr, hp, .trans (.of_word hw) hqp⟩
  refine ⟨fun es hes => ?_, ?_⟩
  · obtain ⟨r, p, hr, hp, hkp⟩ := hcov es hes
    exact ⟨p, arriving_eq_ok.mpr ⟨r, hr, hbefore ▸ hp⟩, hkp⟩
  · have ht := (entry_tight hl hf hentry).run (Q := fun p => ∃ es, g.Path es l.block ∧ arriving c g pool es l = .ok p)
      ⟨p₀, es₀, hes₀, hp₀⟩ ?_ hq
    · exact fun w x hx hall => hw ▸ ht w x hx hall
    · rintro r ⟨es, hes, hr⟩
      obtain ⟨r', p, hr', hp, -⟩ := hcov es hes
      rw [hr] at hr'
      cases hr'
      exact ⟨p, ⟨es, hes, arriving_eq_ok.mpr ⟨r, hr, hbefore ▸ hp⟩⟩, hp⟩

theorem frameAt_known {k : Frame Constant} (hk : flow.frameAt l.index = some k) (w : Place) {x : Constant}
    (hx : x.isKnown) : k.word w = some x ↔ OnAllPaths c g pool l w x := by
  obtain ⟨hcov, ht⟩ := frameAt_joins hl hf hloc hk
  constructor
  · intro hw es p hes hp
    obtain ⟨p', hp', hkp⟩ := hcov es hes
    rw [hp] at hp'
    cases hp'
    exact hkp.word w x hx hw
  · intro hall
    exact ht w x hx fun p ⟨es, hes, hp⟩ => hall es p hes hp

theorem isConstantString_iff (d : Nat) : flow.isConstantString l.index d = true ↔
    (∃ es, g.Path es l.block) ∧ ∃ s, OnAllPaths c g pool l (.stack d) (.string s) := by
  rw [← isSome_frameAt hl hf hloc, isConstantString_eq_true]
  constructor
  · rintro ⟨s, hs⟩
    obtain ⟨k, hk, hw⟩ := Option.bind_eq_some_iff.mp hs
    exact ⟨by rw [hk]; rfl, s, (frameAt_known hl hf hloc hk (.stack d) rfl).mp hw⟩
  · rintro ⟨hsome, s, hs⟩
    obtain ⟨k, hk⟩ := Option.isSome_iff_exists.mp hsome
    exact ⟨s, Option.bind_eq_some_iff.mpr ⟨k, hk, (frameAt_known hl hf hloc hk (.stack d) rfl).mpr hs⟩⟩

end

end

end

/-- **Join over all paths.** An instruction has a frame iff a path leads to it. Then all paths arrive
with the height of that frame, and a word of it is a constant iff every path leaves that constant there,
and unknown otherwise. -/
theorem frameAt_join_over_paths {c : Code} {g : Graph} {pool : Pool} {flow : Flow} (hg : Graph.build c = .ok g)
    (hf : analyze c g pool = .ok flow) {i : Nat} (hi : i < c.size) :
    (∃ id, ⟨i, id⟩ ∈ g.orderedLocations) ∧ ∀ id, ⟨i, id⟩ ∈ g.orderedLocations →
      ((flow.frameAt i).isSome ↔ ∃ es, g.Path es id) ∧
      (∀ f, flow.frameAt i = some f →
        (∀ es, g.Path es id → ∃ p, arriving c g pool es ⟨i, id⟩ = .ok p ∧ p.depth = f.depth) ∧
        (∀ w k, k.isKnown → (f.word w = some k ↔ OnAllPaths c g pool ⟨i, id⟩ w k)) ∧
        ∀ w k, f.word w = some k → (∀ x, x.isKnown → ¬ OnAllPaths c g pool ⟨i, id⟩ w x) → k = .unknown) ∧
      ∀ d, flow.isConstantString i d = true ↔
        (∃ es, g.Path es id) ∧ ∃ s, OnAllPaths c g pool ⟨i, id⟩ (.stack d) (.string s) := by
  have hl := Graph.laid_of_build hg
  refine ⟨hl.exists_location hi, fun id hloc => ⟨isSome_frameAt hl hf hloc, fun f hk => ⟨fun es hes => ?_, ?_, ?_⟩,
    isConstantString_iff hl hf hloc⟩⟩
  · obtain ⟨p, hp, hcov⟩ := (frameAt_joins hl hf hloc hk).1 es hes
    exact ⟨p, hp, hcov.depth.symm⟩
  · exact fun w k hx => frameAt_known hl hf hloc hk w hx
  · intro w k hw hno
    cases k with
    | unknown => rfl
    | string s | integer n => exact absurd ((frameAt_known hl hf hloc hk w rfl).mp hw) (hno _ rfl)

end Flow

/-! ## A literal behind a loop -/

namespace Flow

section
variable (c : Code) (g : Graph) (pool : Pool)

/-- Visits at most `n` blocks. Unlike `drain` it can be evaluated in a proof. -/
def drainWithin : (n : Nat) → Flow → List Nat → Option Flow
  | _, flow, [] => some flow
  | 0, _, _ :: _ => none
  | n + 1, flow, id :: rest =>
    match visit c g pool flow id rest with
    | .ok (flow', queue') => drainWithin n flow' queue'
    | .error _ => none

variable {c g pool}

theorem drain_of_drainWithin {n : Nat} {flow flow' : Flow} {queue : List Nat}
    (h : drainWithin c g pool n flow queue = some flow') : drain c g pool flow queue = .ok flow' := by
  induction n generalizing flow queue with
  | zero =>
    cases queue with
    | nil =>
      cases h
      exact drain_nil _
    | cons id rest => cases h
  | succ n ih =>
    cases queue with
    | nil =>
      cases h
      exact drain_nil _
    | cons id rest =>
      rw [drainWithin] at h
      split at h
      · rename_i flow₁ queue₁ hvisit
        rw [drain_cons, hvisit]
        exact ih h
      · cases h

variable (c g pool) in
theorem exists_analyze (n : Nat) (p : Flow → Bool)
    (h : (drainWithin c g pool n (initial c g) (entryBlock? g).toList).any p = true) :
    ∃ flow, analyze c g pool = .ok flow ∧ p flow = true := by
  obtain ⟨flow, hflow, hp⟩ := (Option.any_eq_true ..).mp h
  exact ⟨flow, drain_of_drainWithin hflow, hp⟩

end

end Flow

namespace Sample

def pool : Pool :=
  ⟨#[none, some (.string "select 1")]⟩

def straight (size : Nat) : Graph where
  blocks := #[⟨0, 0, size, false⟩]
  edges := []

/-- Keeps a literal in slot 1 over a subroutine call and a loop, and then returns it. A handler guards
everything after the call. -/
def code : Code where
  body := #[⟨0, .ldc 1⟩, ⟨2, .store .reference 1⟩, ⟨3, .jsr 12⟩,
    ⟨6, .load .int 0⟩, ⟨7, .ifZero .ne 6⟩,
    ⟨10, .load .reference 1⟩, ⟨11, .leave (some .reference)⟩,
    ⟨12, .store .reference 2⟩, ⟨13, .ret 2⟩,
    ⟨15, .throw⟩]
  handlers := [⟨6, 12, 15, none⟩]

def graph : Graph where
  blocks := #[⟨0, 0, 3, false⟩, ⟨1, 3, 5, false⟩, ⟨2, 5, 7, false⟩, ⟨3, 7, 9, false⟩, ⟨4, 9, 10, true⟩]
  edges := [⟨0, 3, .branch⟩, ⟨0, 1, .fallThrough⟩, ⟨1, 1, .branch⟩, ⟨1, 2, .fallThrough⟩,
    ⟨1, 4, .exception⟩, ⟨2, 4, .exception⟩]

theorem build_code : Graph.build code = .ok graph := by cbv

theorem analyze_code : ∃ flow, Flow.analyze code graph pool = .ok flow ∧
    (∀ i < 10, (flow.frameAt i).isSome) ∧ flow.valueAt 6 0 = some (.string "select 1") := by
  obtain ⟨flow, hf, h⟩ := Flow.exists_analyze code graph pool 20
    (fun flow => (List.range 10).all (fun i => (flow.frameAt i).isSome) &&
      flow.valueAt 6 0 == some (.string "select 1"))
    (by decide +kernel)
  obtain ⟨hsome, hvalue⟩ := Bool.and_eq_true_iff.mp h
  exact ⟨flow, hf, fun i hi => List.all_eq_true.mp hsome i (List.mem_range.mpr hi), beq_iff_eq.mp hvalue⟩

end Sample

/-- Every way around the loop brings the literal to the return. -/
theorem Flow.literal_on_all_paths : ∃ flow, Graph.build Sample.code = .ok Sample.graph ∧
    analyze Sample.code Sample.graph Sample.pool = .ok flow ∧ flow.valueAt 6 0 = some (.string "select 1") ∧
    OnAllPaths Sample.code Sample.graph Sample.pool ⟨6, 2⟩ (.stack 0) (.string "select 1") := by
  obtain ⟨flow, hf, -, hv⟩ := Sample.analyze_code
  obtain ⟨f, hk, hw⟩ := Option.bind_eq_some_iff.mp hv
  have hjoin := (frameAt_join_over_paths Sample.build_code hf (i := 6) (by decide)).2 2 (by decide)
  exact ⟨flow, Sample.build_code, hf, hv, ((hjoin.2.1 f hk).2.1 (.stack 0) _ rfl).mp hw⟩

end SinkCheck
