import SinkCheck.Proofs.Pass
import SinkCheck.Scan

/-!
# Constants and taint in step

The replay stays in step with the constant flow: before every instruction its frame agrees with a run of the
constants from the entry of the block, and what waits for a block or falls into it agrees with that entry.
-/

namespace SinkCheck

theorem Frame.Agrees.sent {k : Frame Constant} {f : Frame Cell} (ha : k.Agrees f) {g : Graph} {c : Code} {e : Edge}
    (hk : e.kind ≠ .exception) (n : Nat) : (outgoing k (g.lastInstruction? c e.source) e.kind).Agrees
      (f.pushWords (.ofObject n false) (g.returnWords c e)) := by
  unfold Graph.returnWords
  cases hkind : e.kind with
  | exception => exact absurd hkind hk
  | fallThrough | switch => exact ha
  | branch =>
    exact ha.moved (Frame.moved_pushWords k _)
      (Frame.moved_given (Nat.zero_le _) (fun _ => rfl) rfl (Cell.standsFor_unknown _))

namespace Replay

/-- The frame agrees with a run of the constants from the entry of block `id` up to instruction `n`. -/
def InStep (r : Replay) (flow : Flow) (id n : Nat) (f : Frame Cell) : Prop :=
  ∃ b k p, r.graph.blocks[id]? = some b ∧ flow.entries.entry id = some k ∧
    Frame.run r.code r.pool (b.before n) k = .ok p ∧ p.Agrees f

def Expected (flow : Flow) (e : Edge) (f : Frame Cell) : Prop :=
  ∃ k, flow.entries.entry e.target = some k ∧ k.Agrees f

theorem Expected.merge {flow : Flow} {e e' : Edge} {f f' : Frame Cell} (ht : e.target = e'.target)
    (h : Expected flow e f) (h' : Expected flow e' f') :
    ∃ j changed, f.merge Cell.join f' = .ok (j, changed) ∧ Expected flow e j ∧ Expected flow e' j := by
  obtain ⟨k, hk, ha⟩ := h
  obtain ⟨k', hk', ha'⟩ := h'
  have heq : k' = k := by
    rw [← ht, hk] at hk'
    exact (Option.some.inj hk').symm
  subst heq
  obtain ⟨⟨j, changed⟩, hj⟩ : ∃ m, f.merge Cell.join f' = .ok m :=
    Frame.merge_of_depth (ha.depth.symm.trans ha'.depth)
  have hjoin := ha.merge ha' hj
  exact ⟨j, changed, hj, ⟨k', hk, hjoin⟩, k', hk', hjoin⟩

section
variable {r : Replay} {flow : Flow} {id n : Nat} {b : Block} {f : Frame Cell}
  (hl : r.graph.Laid r.code) (hf : Flow.analyze r.code r.graph r.pool = .ok flow)

theorem inStep_start (hb : r.graph.blocks[id]? = some b) {k : Frame Constant} (hk : flow.entries.entry id = some k)
    (ha : k.Agrees f) : r.InStep flow id b.start f := by
  refine ⟨b, k, k, hb, hk, ?_, ha⟩
  rw [Block.before, Nat.sub_self]
  rfl

include hl hf

theorem InStep.execute (hb : r.graph.blocks[id]? = some b) (hn : n ∈ b.indices) {h : Placed}
    (hbody : r.code.body[n]? = some h) {s : ReplayState} (hstep : r.InStep flow id n s.frame) :
    ∃ s', s.execute r.policy r.pool h = .ok s' ∧ r.InStep flow id (n + 1) s'.frame := by
  obtain ⟨b', k, p, hb', hk, hp, ha⟩ := hstep
  rw [hb] at hb'
  cases hb'
  obtain ⟨f', hrun, -⟩ := (Flow.settled_of_analyze hl hf hb hk).sent
  obtain ⟨post, hsplit, -⟩ := Block.indices_split hn
  rw [hsplit] at hrun
  obtain ⟨p₀, hp₀, hrun⟩ := Frame.run_append.mp hrun
  rw [hp] at hp₀
  cases hp₀
  obtain ⟨p', hx, -⟩ := (Frame.run_cons hbody).mp hrun
  obtain ⟨s', hs', ha', -⟩ := ReplayState.execute_agrees r.policy hx ha
  refine ⟨s', hs', b, k, p', hb, hk, ?_, ha'⟩
  rw [Block.before_succ (Block.mem_indices.mp hn).1]
  exact Frame.run_append.mpr ⟨p, hp, (Frame.run_cons hbody).mpr ⟨p', hx, rfl⟩⟩

theorem InStep.leave (hb : r.graph.blocks[id]? = some b) (hstep : r.InStep flow id b.stop f) {e : Edge}
    (he : e ∈ r.graph.successors id) (hk : e.kind ≠ .exception) (m : Nat) :
    Expected flow e (f.pushWords (.ofObject m false) (r.graph.returnWords r.code e)) := by
  obtain ⟨b', k, p, hb', hentry, hp, ha⟩ := hstep
  rw [hb] at hb'
  cases hb'
  obtain ⟨f', hrun, hsent⟩ := (Flow.settled_of_analyze hl hf hb hentry).sent
  have hend : p = f' := by
    rw [Block.before] at hp
    rw [Block.indices, hp] at hrun
    exact Except.ok.inj hrun
  subst hend
  obtain ⟨k', hk', hc⟩ := hsent e he
  have hlast : r.graph.lastInstruction? r.code e.source = b.last?.bind r.code.instruction? := by
    rw [Graph.lastInstruction?, (Graph.mem_successors.mp he).2, hb]
    rfl
  exact ⟨k', hk', hc.agrees (hlast ▸ ha.sent hk m)⟩

theorem InStep.frameAt (hloc : ⟨n, id⟩ ∈ r.graph.orderedLocations) (hstep : r.InStep flow id n f) :
    ∃ k, flow.frameAt n = some k ∧ k.Agrees f := by
  obtain ⟨b, k, p, hb, hentry, hp, ha⟩ := hstep
  obtain ⟨b', hb', hn⟩ := hl.mem_orderedLocations.mp hloc
  rw [hb] at hb'
  cases hb'
  obtain ⟨k', p', hk', hp', hw⟩ := (Flow.settled_of_analyze hl hf hb hentry).frames n hn
  rw [hp] at hp'
  cases hp'
  exact ⟨k', hk', (Frame.Covers.of_word hw).agrees ha⟩

section
variable (hall : ∀ i < r.code.size, (flow.frameAt i).isSome)
include hall

theorem exists_entry (hb : r.graph.blocks[id]? = some b) : ∃ k, flow.entries.entry id = some k := by
  have hocc := hl.occupied hb
  have hloc : ⟨b.start, id⟩ ∈ r.graph.orderedLocations :=
    hl.mem_orderedLocations.mpr ⟨b, hb, Block.mem_indices.mpr ⟨Nat.le_refl _, hocc⟩⟩
  have hstop := hl.stop_le_size hb
  exact Flow.exists_entry hl hf hloc (hall b.start (by omega))

variable (hg : r.graph.EnteredFromAbove)
include hg

theorem covers_thrown (hb : r.graph.blocks[id]? = some b) (hh : b.isHandler = true) {k : Frame Constant}
    (hk : flow.entries.entry id = some k) : k.Covers { stack := [.unknown] } := by
  obtain ⟨e, he, rfl, hkind⟩ := hg.handler hb hh
  have hsource := Array.getElem?_eq_getElem (hl.source he)
  obtain ⟨k₀, hk₀⟩ := exists_entry hl hf hall hsource
  obtain ⟨f', -, hsent⟩ := (Flow.settled_of_analyze hl hf hsource hk₀).sent
  obtain ⟨k', hk', hc⟩ := hsent e (Graph.mem_successors.mpr ⟨he, rfl⟩)
  rw [hk] at hk'
  cases hk'
  rwa [hkind] at hc

theorem carried_inStep : r.Carried (r.InStep flow) (Expected flow) where
  start := by
    obtain ⟨k, hk, hc⟩ := (Flow.consistent_of_analyze hl hf).start
    obtain ⟨b, hb, hstart⟩ := Option.map_eq_some_iff.mp hl.first
    have h := inStep_start hb hk (hc.agrees (Frame.agrees_start (t := { locals := r.locals }) rfl))
    rwa [hstart] at h
  thrown hb hh n locals := by
    obtain ⟨k, hk⟩ := exists_entry hl hf hall hb
    exact inStep_start hb hk ((covers_thrown hl hf hall hg hb hh hk).agrees (Frame.agrees_thrown rfl))
  execute hb hn hbody hstep := hstep.execute hl hf hb hn hbody
  leave hb hstep he hk n := hstep.leave hl hf hb he hk n
  merge ht h h' := h.merge ht h'
  enter hb hh hid hsent := by
    obtain ⟨e, he, rfl, hlo, hk⟩ := hg.plain hb hh hid
    obtain ⟨k, hk', ha⟩ := hsent e he rfl hlo hk
    exact inStep_start hb hk' ha

theorem runTo_agrees {target : Nat} (htarget : target < r.code.size) :
    ∃ k f, flow.frameAt target = some k ∧ (r.runTo target).outcome = .ok (some f) ∧ k.Agrees f := by
  obtain ⟨id, f, hrun, hloc, hstep⟩ := runTo_carried hl (carried_inStep hl hf hall hg) hg htarget
  obtain ⟨k, hk, ha⟩ := hstep.frameAt hl hf hloc
  exact ⟨k, f, hk, hrun, ha⟩

end

end

/-! ## Verdicts -/

theorem mapM_of_forall {α β : Type} {f : α → Option β} {g : α → β} :
    ∀ {l : List α}, (∀ a ∈ l, f a = some (g a)) → l.mapM f = some (l.map g)
  | [], _ => rfl
  | a :: l, h => by
    rw [List.mapM_cons, h a (List.mem_cons_self ..), mapM_of_forall fun b hb => h b (List.mem_cons_of_mem _ hb)]
    rfl

theorem verdict_of_runTo {r : Replay} {target : Nat} {f : Frame Cell} (h : (r.runTo target).outcome = .ok (some f))
    {ps : List Nat} {g : Nat → Bool} (hps : ∀ d ∈ ps, (f.peek d).map Cell.tainted = some (g d)) :
    (r.taintedPositions target ps).2 = ⟨ps.map g, true⟩ := by
  simp only [taintedPositions, h, mapM_of_forall hps]

/-- **Equal depths.** If every instruction is reached and every block is entered from above, the replay gets
to every instruction, as deep as the constant flow. -/
theorem depthAt_eq_frameAt {r : Replay} {flow : Flow} (hg : Graph.build r.code = .ok r.graph)
    (hf : Flow.analyze r.code r.graph r.pool = .ok flow) (hall : ∀ i < r.code.size, (flow.frameAt i).isSome)
    (habove : r.graph.EnteredFromAbove) {l : Location} (hloc : l ∈ r.graph.orderedLocations) :
    ∃ k, flow.frameAt l.index = some k ∧ r.depthAt l.index = .ok (some k.depth) ∧
      ∀ ps, (∀ d ∈ ps, d < k.depth) → (r.taintedPositions l.index ps).2.reached = true := by
  have hl := Graph.laid_of_build hg
  obtain ⟨k, f, hk, hrun, ha⟩ := runTo_agrees hl hf hall habove (hl.index_lt hloc)
  refine ⟨k, hk, ?_, fun ps hps => ?_⟩
  · rw [depthAt, hrun, ha.depth]
    rfl
  · have hpeek : ∀ d ∈ ps, (f.peek d).map Cell.tainted = some (((f.peek d).map Cell.tainted).getD true) := by
      intro d hd
      have hlt : d < f.depth := ha.depth ▸ hps d hd
      rw [Frame.peek, List.getElem?_eq_getElem hlt]
      rfl
    rw [verdict_of_runTo hrun hpeek]

end Replay

namespace Sample

theorem enteredFromAbove : graph.EnteredFromAbove where
  handler {id b} hb := by
    obtain ⟨hlt, rfl⟩ := Array.getElem?_eq_some_iff.mp hb
    have h : ∀ id (hlt : id < graph.blocks.size), graph.blocks[id].isHandler = true →
        ∃ e ∈ graph.edges, e.target = id ∧ e.kind = .exception := by decide
    exact h id hlt
  plain {id b} hb := by
    obtain ⟨hlt, rfl⟩ := Array.getElem?_eq_some_iff.mp hb
    have h : ∀ id (hlt : id < graph.blocks.size), graph.blocks[id].isHandler = false → id ≠ 0 →
        ∃ e ∈ graph.edges, e.target = id ∧ e.source < id ∧ e.kind ≠ .exception := by decide
    exact h id hlt

def replay : Replay where
  code := code
  graph := graph
  pool := pool
  policy := UntrustedSources.webDefaults.policy
  locals := [.ofObject 0 true]

end Sample

/-- The depths are equal at the return, behind the subroutine and the loop. -/
theorem Replay.depthAt_return : ∃ flow, Graph.build Sample.replay.code = .ok Sample.replay.graph ∧
    Flow.analyze Sample.replay.code Sample.replay.graph Sample.replay.pool = .ok flow ∧
    (∀ i < Sample.replay.code.size, (flow.frameAt i).isSome) ∧ Sample.replay.graph.EnteredFromAbove ∧
    ⟨6, 2⟩ ∈ Sample.replay.graph.orderedLocations ∧
    ∃ k, flow.frameAt 6 = some k ∧ Sample.replay.depthAt 6 = .ok (some k.depth) ∧ 0 < k.depth ∧
      (Sample.replay.taintedPositions 6 [0]).2.reached = true := by
  obtain ⟨flow, hf, hall, hv⟩ := Sample.analyze_code
  have hloc : ⟨6, 2⟩ ∈ Sample.replay.graph.orderedLocations := by decide
  obtain ⟨k, hk, hdepth, hreached⟩ := depthAt_eq_frameAt (r := Sample.replay) Sample.build_code hf hall
    Sample.enteredFromAbove hloc
  have hpos : 0 < k.depth := by
    rw [Flow.valueAt, hk] at hv
    exact (List.getElem?_eq_some_iff.mp hv).1
  exact ⟨flow, Sample.build_code, hf, hall, Sample.enteredFromAbove, hloc, k, hk, hdepth, hpos,
    hreached [0] fun d hd => List.mem_singleton.mp hd ▸ hpos⟩

/-! ## Suppressed calls -/

namespace Analysis

section
variable {a : Analysis} {s : Settings}

theorem constant_of_allConstant (hs : s.safeValueHeuristic = false) {l : Location} :
    ∀ {ds : List Nat}, a.allConstant s l ds = .ok true → ∀ d ∈ ds, a.flow.isConstantString l.index d = true
  | d :: ds, h, d', hd => by
    rw [allConstant, hs] at h
    split at h
    · rename_i hstring
      rcases List.mem_cons.mp hd with rfl | hd
      · exact hstring
      · exact constant_of_allConstant hs h d' hd
    · cases h

end

/-- **Constants are never tainted.** A word that the constant flow knows is clean in the replay and without
identity, whatever the method was entered with. So a call whose watched words are all constant would not
have been reported as high. -/
theorem constant_never_high {a : Analysis} (hg : Graph.build a.code = .ok a.graph)
    (hf : Flow.analyze a.code a.graph a.pool = .ok a.flow) (hall : ∀ i < a.code.size, (a.flow.frameAt i).isSome)
    (habove : a.graph.EnteredFromAbove) (s : Settings) (policy : Policy) {l : Location}
    (hloc : l ∈ a.graph.orderedLocations) :
    (∀ d x, x.isKnown → a.flow.valueAt l.index d = some x →
      (∃ f, ((a.replay s policy).runTo l.index).outcome = .ok (some f) ∧
        f.peek d = some { tainted := false, object := none }) ∧
      ((a.replay s policy).taintedPositions l.index [d]).2 = ⟨[false], true⟩) ∧
    (∀ ps, (∀ d ∈ ps, a.flow.isConstantString l.index d = true) →
      Priority.ofTaint ((a.replay s policy).taintedPositions l.index ps).2.anyTainted = .low) ∧
    (s.safeValueHeuristic = false → ∀ ps, a.allConstant s l ps = .ok true →
      Priority.ofTaint ((a.replay s policy).taintedPositions l.index ps).2.anyTainted = .low) := by
  have hl := Graph.laid_of_build hg
  obtain ⟨k, f, hk, hrun, ha⟩ :=
    Replay.runTo_agrees (r := a.replay s policy) hl hf hall habove (hl.index_lt hloc)
  have hclean : ∀ {d x}, x.isKnown → a.flow.valueAt l.index d = some x → f.peek d = some .clean := by
    intro d x hx hv
    rw [Flow.valueAt, hk] at hv
    exact ha.word (.stack d) x hx hv
  have hlow : ∀ ps, (∀ d ∈ ps, a.flow.isConstantString l.index d = true) →
      Priority.ofTaint ((a.replay s policy).taintedPositions l.index ps).2.anyTainted = .low := by
    intro ps hps
    have hpeek : ∀ d ∈ ps, (f.peek d).map Cell.tainted = some false := by
      intro d hd
      obtain ⟨t, hv⟩ := Flow.isConstantString_eq_true.mp (hps d hd)
      rw [hclean rfl hv]
      rfl
    rw [Replay.verdict_of_runTo hrun hpeek]
    simp [Verdict.anyTainted, Priority.ofTaint]
  refine ⟨fun d x hx hv => ⟨⟨f, hrun, hclean hx hv⟩, ?_⟩, hlow, fun hs ps h => hlow ps (constant_of_allConstant hs h)⟩
  refine Replay.verdict_of_runTo hrun (g := fun _ => false) fun d' hd' => ?_
  rw [List.mem_singleton.mp hd', hclean hx hv]
  rfl

/-- The literal at the return stays clean although the method is entered with tainted locals. -/
theorem returned_literal_clean : ∃ a : Analysis, Graph.build a.code = .ok a.graph ∧
    Flow.analyze a.code a.graph a.pool = .ok a.flow ∧ (∀ i < a.code.size, (a.flow.frameAt i).isSome) ∧
    a.graph.EnteredFromAbove ∧ ⟨6, 2⟩ ∈ a.graph.orderedLocations ∧ a.flow.valueAt 6 0 = some (.string "select 1") ∧
    ((a.replay {} UntrustedSources.webDefaults.policy).taintedPositions 6 [0]).2 = ⟨[false], true⟩ := by
  obtain ⟨flow, hf, hall, hv⟩ := Sample.analyze_code
  have hloc : ⟨6, 2⟩ ∈ Sample.graph.orderedLocations := by decide
  let a : Analysis := ⟨"com/acme/Dao", Sample.pool, ⟨"query", "(I)Ljava/lang/String;", true, some Sample.code⟩,
    Sample.code, Sample.graph, flow, [.ofObject 0 true]⟩
  have h := constant_never_high (a := a) Sample.build_code hf hall Sample.enteredFromAbove {}
    UntrustedSources.webDefaults.policy hloc
  exact ⟨a, Sample.build_code, hf, hall, Sample.enteredFromAbove, hloc, hv, (h.1 0 _ rfl hv).2⟩

end Analysis

end SinkCheck
