import Mathlib
import SinkCheck.Proofs.ControlFlow
import SinkCheck.Proofs.InStep
import SinkCheck.Proofs.Monotone

/-!
# No direct flow of values is missed

In code without handlers that only jumps forward, the replay passes every block after all blocks that lead
to it. The running frame is then at least as tainted as the frame that any single path brings, if the path is
run without identities, so that no object is tainted through a copy.
-/

namespace SinkCheck

/-! ## Forward code -/

namespace Graph

structure Forward (g : Graph) : Prop where
  down : ∀ e ∈ g.edges, e.source < e.target
  calm : ∀ e ∈ g.edges, e.kind ≠ .exception
  plain : ∀ {id : Nat} {b : Block}, g.blocks[id]? = some b → b.isHandler = false

section
variable {c : Code} {g : Graph}

theorem Laid.lt_of_start (hl : g.Laid c) {id id' : Nat} {b b' : Block} (hb : g.blocks[id]? = some b)
    (hb' : g.blocks[id']? = some b') (hlt : b.start < b'.start) : id < id' := by
  rcases Nat.lt_trichotomy id id' with h | rfl | h
  · exact h
  · rw [hb] at hb'
    cases hb'
    exact absurd hlt (Nat.lt_irrefl _)
  · obtain ⟨k, rfl⟩ := Nat.exists_eq_add_of_lt h
    have hle := hl.stop_le_start (k := k) hb' (by rwa [show id' + 1 + k = id' + k + 1 by omega])
    have hocc := hl.occupied hb'
    omega

theorem forward_of_build (hc : c.Ascending) (hhandlers : c.handlers = [])
    (hforward : ∀ h ∈ c.body, ∀ p ∈ h.instruction.branchTargets, h.position < p) (h : build c = .ok g) :
    g.Forward := by
  have hl := laid_of_build h
  obtain ⟨last, marks, -, -, hm, rfl⟩ := build_eq_ok h
  have hcalm : ∀ e ∈ (ofStarts c (leaders c marks)).edges, e.kind ≠ .exception := by
    intro e he
    rcases mem_edges_ofStarts.mp he with ⟨id, b, -, -, he⟩ | ⟨h, hh, -⟩
    · obtain ⟨i, -, ⟨p, -, rfl⟩ | ⟨-, rfl⟩⟩ := mem_exits.mp he
      · simp only
        split <;> simp
      · simp
    · rw [hhandlers] at hh
      cases hh
  refine ⟨fun e he => ?_, hcalm, fun {id b} hb => ?_⟩
  · by_cases hfall : e.kind = .fallThrough
    · rw [hl.falls he hfall]
      exact Nat.lt_succ_self _
    · -- a jump leads to a later position, so to a block that starts behind its source
      have hkind : e.kind = .branch ∨ e.kind = .switch := by
        have := hcalm e he
        cases hk : e.kind <;> simp_all
      obtain ⟨i, b, p, hi, hb, hp, ht, -⟩ := (mem_jumps hl hc hm hkind).mp he
      obtain ⟨b₀, hb₀⟩ : ∃ b₀, (ofStarts c (leaders c marks)).blocks[e.source]? = some b₀ :=
        ⟨_, Array.getElem?_eq_getElem (hl.source he)⟩
      rw [hl.lastInstruction?_eq hb₀] at hi
      obtain ⟨h₀, hh₀, rfl⟩ := Option.map_eq_some_iff.mp hi
      have hpos := hforward h₀ (Array.mem_of_getElem? hh₀) p ht
      have hpos₀ : c.position? (b₀.stop - 1) = some h₀.position := Code.position?_eq_some.mpr ⟨h₀, hh₀, rfl⟩
      have hocc := hl.occupied hb₀
      refine hl.lt_of_start hb₀ hb ?_
      by_contra hle
      rcases Nat.lt_or_eq_of_le (show b.start ≤ b₀.stop - 1 by omega) with hlt | heq
      · have := hc.position_lt hlt hp hpos₀
        omega
      · rw [heq, hpos₀] at hp
        cases hp
        exact absurd hpos (Nat.lt_irrefl _)
  · rw [getElem?_blocks_ofStarts] at hb
    obtain ⟨s, -, rfl⟩ := Option.map_eq_some_iff.mp hb
    simp [splitAt.isEntry, hhandlers]

theorem Forward.isHandler_getD (hg : g.Forward) (id : Nat) : (g.blocks[id]?.map Block.isHandler).getD false = false := by
  cases hb : g.blocks[id]? with
  | none => rfl
  | some b => exact hg.plain hb

/-! ## Paths -/

theorem Forward.path_zero (hg : g.Forward) {es : List Edge} (hes : g.Path es 0) : es = [] := by
  generalize hid : 0 = id at hes
  cases hes with
  | start => rfl
  | step _ he =>
    have := hg.down _ he
    omega

theorem path_last {es : List Edge} {id : Nat} (hes : g.Path es id) (hid : id ≠ 0) :
    ∃ e rest, es = e :: rest ∧ g.Path rest e.source ∧ e ∈ g.edges ∧ e.target = id := by
  cases hes with
  | start => exact absurd rfl hid
  | step hrest he => exact ⟨_, _, rfl, hrest, he, rfl⟩

theorem Forward.enteredFromAbove (hg : g.Forward)
    (hpath : ∀ {id : Nat} {b : Block}, g.blocks[id]? = some b → ∃ es, g.Path es id) : g.EnteredFromAbove where
  handler hb hh := by
    rw [hg.plain hb] at hh
    cases hh
  plain hb _ hid := by
    obtain ⟨es, hes⟩ := hpath hb
    obtain ⟨e, rest, -, -, he, rfl⟩ := path_last hes hid
    exact ⟨e, he, rfl, hg.down e he, hg.calm e he⟩

end

end Graph

/-! ## Running a single path -/

namespace Cell

def anonymous (a : Cell) : Cell :=
  { a with object := none }

structure Traced (a b : Cell) : Prop where
  nameless : a.object = none
  le : a.Le b

theorem Traced.below {a b : Cell} (h : a.Traced b) : a.Below b := by
  refine ⟨h.le, fun ho => ?_⟩
  rw [h.nameless] at ho
  cases ho

end Cell

theorem Frame.Rel.erase {f g : Frame Cell} (h : f.Rel Cell.Le g) :
    Frame.Rel Cell.Traced (f.mapCells Cell.anonymous) g :=
  h.mapCells_left rfl fun _ _ hab => ⟨rfl, hab⟩

namespace Replay

section
variable (r : Replay)

/-- Executes instruction `i` on a frame by itself, and erases the identities that it gave out. -/
def performAlone (i : Nat) (f : Frame Cell) : Except AnalysisError (Frame Cell) :=
  (r.perform i { frame := f, next := 0 }).map fun s => s.frame.mapCells Cell.anonymous

def runAlone (is : List Nat) (f : Frame Cell) : Except AnalysisError (Frame Cell) :=
  is.foldlM (fun f i => r.performAlone i f) f

def crossAlone (e : Edge) (f : Frame Cell) : Except AnalysisError (Frame Cell) :=
  let left := ({ frame := f, next := 0 } : ReplayState).leave [e] (r.graph.lastInstruction? r.code e.source)
  (left.enter e.target ((r.graph.blocks[e.target]?.map Block.isHandler).getD false)).map fun s =>
    s.frame.mapCells Cell.anonymous

def along : List Edge → Except AnalysisError (Frame Cell)
  | [] => (r.cross none 0 (.ofLocals r.locals)).map fun s => s.frame.mapCells Cell.anonymous
  | e :: es => (along es).bind fun f => (r.runAlone (r.graph.indices e.source) f).bind (r.crossAlone e)

def arriving (es : List Edge) (l : Location) : Except AnalysisError (Frame Cell) :=
  (r.along es).bind (r.runAlone (r.graph.before l))

end

section
variable {r : Replay}

theorem performAlone_traced {i : Nat} {p : Frame Cell} {s s' : ReplayState} (hp : p.Rel Cell.Traced s.frame)
    (hs : r.perform i s = .ok s') : ∃ p', r.performAlone i p = .ok p' ∧ p'.Rel Cell.Traced s'.frame := by
  have halike : Alike (fun t t' => Frame.Rel Cell.Le t.frame t'.frame) (r.perform i { frame := p, next := 0 })
      (r.perform i s) := by
    unfold perform
    cases r.code.body[i]? with
    | none => exact .ok (hp.imp fun a b hab => hab.le)
    | some h =>
      simp only
      unfold ReplayState.execute
      cases h.instruction.effect r.pool with
      | error e => exact .error
      | ok e =>
        have hbelow := (hp.seek h.position h.position).imp fun a b hab => hab.below
        exact ReplayState.apply_le hbelow (r.policy.stricterAt_refl _ e)
  unfold performAlone
  rw [hs] at halike
  generalize r.perform i { frame := p, next := 0 } = x at halike
  cases halike with
  | ok hle => exact ⟨_, rfl, hle.erase⟩

theorem crossAlone_eq (hg : r.graph.Forward) {e : Edge} (he : e ∈ r.graph.edges) (f : Frame Cell) :
    r.crossAlone e f = .ok ((f.pushWords (.ofObject 0 false) (r.graph.returnWords r.code e)).mapCells Cell.anonymous) := by
  have hcalm := hg.calm e he
  unfold crossAlone Graph.returnWords
  simp only [hg.isHandler_getD, ReplayState.leave, List.foldl_cons, List.foldl_nil, ReplayState.send, ReplayState.enter]
  generalize ((r.graph.lastInstruction? r.code e.source).map Instruction.branchPushWords).getD 0 = n
  cases hk : e.kind with
  | exception => exact absurd hk hcalm
  | fallThrough => simp [ReplayState.fallen, ReplayState.setFrame, Frame.pushWords, Except.map]
  | switch => simp [ReplayState.fallen, ReplayState.await, ReplayState.setFrame, Frame.pushWords, Except.map]
  | branch =>
    by_cases hn : n = 0
    · simp [hn, ReplayState.fallen, ReplayState.await, ReplayState.setFrame, Frame.pushWords, Except.map]
    · simp [hn, ReplayState.fallen, ReplayState.await, ReplayState.setFrame, Except.map]

theorem along_nil (hg : r.graph.Forward) :
    r.along [] = .ok (({ locals := r.locals } : Frame Cell).mapCells Cell.anonymous) := by
  rw [along, cross, if_neg (by simp), hg.isHandler_getD]
  rfl

theorem runAlone_snoc {is : List Nat} {i : Nat} {f p p' : Frame Cell} (hrun : r.runAlone is f = .ok p)
    (hp : r.performAlone i p = .ok p') : r.runAlone (is ++ [i]) f = .ok p' := by
  unfold runAlone at *
  rw [List.foldlM_append, hrun]
  simp only [bind, Except.bind, List.foldlM_cons, hp]
  rfl

/-! ## All paths at once -/

/-- However a path comes to instruction `n` of block `id`, the frame is at least as tainted. -/
def Traces (r : Replay) (id n : Nat) (f : Frame Cell) : Prop :=
  ∀ es, r.graph.Path es id → ∃ p, r.arriving es ⟨n, id⟩ = .ok p ∧ p.Rel Cell.Traced f

def TracesEdge (r : Replay) (e : Edge) (f : Frame Cell) : Prop :=
  ∀ es, r.graph.Path es e.source → ∃ p, r.along (e :: es) = .ok p ∧ p.Rel Cell.Traced f

theorem arriving_eq_ok {id n : Nat} {b : Block} (hb : r.graph.blocks[id]? = some b) {es : List Edge} {p : Frame Cell} :
    r.arriving es ⟨n, id⟩ = .ok p ↔ ∃ f, r.along es = .ok f ∧ r.runAlone (b.before n) f = .ok p := by
  rw [arriving, Graph.before, hb]
  cases r.along es <;> simp [Except.bind]

theorem arriving_start {id : Nat} {b : Block} (hb : r.graph.blocks[id]? = some b) {es : List Edge} {p : Frame Cell}
    (hp : r.along es = .ok p) : r.arriving es ⟨b.start, id⟩ = .ok p := by
  refine (arriving_eq_ok hb).mpr ⟨p, hp, ?_⟩
  rw [Block.before, Nat.sub_self]
  rfl

theorem Traces.execute {id n : Nat} {b : Block} (hb : r.graph.blocks[id]? = some b) (hn : n ∈ b.indices)
    {s s' : ReplayState} (ht : r.Traces id n s.frame) (hs : r.perform n s = .ok s') : r.Traces id (n + 1) s'.frame := by
  intro es hes
  obtain ⟨p, hp, hrel⟩ := ht es hes
  obtain ⟨p', hp', hrel'⟩ := performAlone_traced hrel hs
  obtain ⟨f, halong, hrun⟩ := (arriving_eq_ok hb).mp hp
  refine ⟨p', (arriving_eq_ok hb).mpr ⟨f, halong, ?_⟩, hrel'⟩
  rw [Block.before_succ (Block.mem_indices.mp hn).1]
  exact runAlone_snoc hrun hp'

theorem Traces.leave (hg : r.graph.Forward) {id : Nat} {b : Block} (hb : r.graph.blocks[id]? = some b)
    {f : Frame Cell} (ht : r.Traces id b.stop f) {e : Edge} (he : e ∈ r.graph.successors id) (m : Nat) :
    r.TracesEdge e (f.pushWords (.ofObject m false) (r.graph.returnWords r.code e)) := by
  obtain ⟨hmem, rfl⟩ := Graph.mem_successors.mp he
  intro es hes
  obtain ⟨p, hp, hrel⟩ := ht es hes
  have hle : p.Rel Cell.Le f := hrel.imp fun a b hab => hab.le
  refine ⟨_, ?_, (hle.pushWords (a := .ofObject 0 false) (b := .ofObject m false) (fun h => h) _).erase⟩
  obtain ⟨p₀, halong, hrun⟩ := (arriving_eq_ok hb).mp hp
  have hrun : r.runAlone b.indices p₀ = .ok p := hrun
  rw [along, halong, Graph.indices, hb]
  simp only [Option.map_some, Option.getD_some, Except.bind, hrun]
  exact crossAlone_eq hg hmem p

theorem TracesEdge.merge {e e' : Edge} {f f' j : Frame Cell} {changed : Bool}
    (hm : f.merge Cell.join f' = .ok (j, changed)) (ht : r.TracesEdge e f) (ht' : r.TracesEdge e' f') :
    r.TracesEdge e j ∧ r.TracesEdge e' j := by
  have hjoin : ∀ a b c : Cell, a.Traced b ∨ a.Traced c → a.Traced (b.join c) := by
    rintro a b c (h | h)
    · exact ⟨h.nameless, fun ht => by rw [Cell.join, h.le ht, Bool.true_or]⟩
    · exact ⟨h.nameless, fun ht => by rw [Cell.join, h.le ht, Bool.or_true]⟩
  refine ⟨fun es hes => ?_, fun es hes => ?_⟩
  · obtain ⟨p, hp, hrel⟩ := ht es hes
    exact ⟨p, hp, .of_merge hm rfl hjoin (.inl hrel)⟩
  · obtain ⟨p, hp, hrel⟩ := ht' es hes
    exact ⟨p, hp, .of_merge hm rfl hjoin (.inr hrel)⟩

theorem carried_traces (hg : r.graph.Forward) (hl : r.graph.Laid r.code) {inside : Nat → Nat → Frame Cell → Prop}
    {sent : Edge → Frame Cell → Prop} (hc : r.Carried inside sent) :
    r.Carried (fun id n f => inside id n f ∧ r.Traces id n f) (fun e f => sent e f ∧ r.TracesEdge e f) where
  start := by
    refine ⟨hc.start, fun es hes => ?_⟩
    obtain rfl := hg.path_zero hes
    obtain ⟨b, hb, hstart⟩ := Option.map_eq_some_iff.mp hl.first
    have harriving := arriving_start hb (along_nil hg)
    rw [hstart] at harriving
    have hrefl : Frame.Rel Cell.Le { locals := r.locals } { locals := r.locals } := ⟨.nil, fun _ h => h⟩
    exact ⟨_, harriving, hrefl.erase⟩
  thrown hb hh := by
    rw [hg.plain hb] at hh
    cases hh
  execute hb hn hbody hin := by
    obtain ⟨s', hs', hin'⟩ := hc.execute hb hn hbody hin.1
    refine ⟨s', hs', hin', hin.2.execute hb hn ?_⟩
    rw [perform, hbody]
    exact hs'
  leave hb hin he hk n := ⟨hc.leave hb hin.1 he hk n, hin.2.leave hg hb he n⟩
  merge ht h h' := by
    obtain ⟨j, changed, hj, hs, hs'⟩ := hc.merge ht h.1 h'.1
    obtain ⟨htr, htr'⟩ := h.2.merge hj h'.2
    exact ⟨j, changed, hj, ⟨hs, htr⟩, hs', htr'⟩
  enter hb hh hid hsent := by
    refine ⟨hc.enter hb hh hid fun e he ht hlo hk => (hsent e he ht hlo hk).1, fun es hes => ?_⟩
    obtain ⟨e, rest, rfl, hrest, he, rfl⟩ := Graph.path_last hes hid
    obtain ⟨p, hp, hrel⟩ := (hsent e he rfl (hg.down e he) (hg.calm e he)).2 rest hrest
    exact ⟨p, arriving_start hb hp, hrel⟩

end

/-- **No direct flow is missed.** In forward code without handlers that is reached everywhere, a word that a
single path leaves tainted, run without identities, is tainted in the verdict of the replay. -/
theorem tainted_of_path {r : Replay} {flow : Flow} (hc : r.code.Ascending) (hhandlers : r.code.handlers = [])
    (hforward : ∀ h ∈ r.code.body, ∀ p ∈ h.instruction.branchTargets, h.position < p)
    (hg : Graph.build r.code = .ok r.graph) (hf : Flow.analyze r.code r.graph r.pool = .ok flow)
    (hall : ∀ i < r.code.size, (flow.frameAt i).isSome) {l : Location} (hloc : l ∈ r.graph.orderedLocations)
    {es : List Edge} (hes : r.graph.Path es l.block) :
    ∃ k p, flow.frameAt l.index = some k ∧ r.arriving es l = .ok p ∧ p.depth = k.depth ∧
      ∀ d < k.depth, (p.peek d).any Cell.tainted = true → (r.taintedPositions l.index [d]).2 = ⟨[true], true⟩ := by
  have hl := Graph.laid_of_build hg
  have hfw := Graph.forward_of_build hc hhandlers hforward hg
  have habove : r.graph.EnteredFromAbove := hfw.enteredFromAbove fun hb => by
    obtain ⟨k, hk⟩ := exists_entry hl hf hall hb
    exact Flow.exists_path hl hf hk
  have hcarried := carried_traces hfw hl (carried_inStep hl hf hall habove)
  obtain ⟨id, f, hrun, hloc', hstep, htraces⟩ := runTo_carried hl hcarried habove (hl.index_lt hloc)
  obtain rfl : id = l.block := by
    obtain ⟨b, hb, hi⟩ := hl.mem_orderedLocations.mp hloc
    obtain ⟨b', hb', hi'⟩ := hl.mem_orderedLocations.mp hloc'
    exact hl.block_unique hb' hi' hb hi
  obtain ⟨k, hk, ha⟩ := hstep.frameAt hl hf hloc'
  obtain ⟨p, hp, hrel⟩ := htraces es hes
  refine ⟨k, p, hk, hp, hrel.depth.trans ha.depth.symm, fun d _ ht => ?_⟩
  refine verdict_of_runTo hrun (g := fun _ => true) fun d' hd' => ?_
  rw [List.mem_singleton.mp hd']
  have hd := hrel.peek d
  generalize p.peek d = x at hd ht
  generalize f.peek d = y at hd
  cases hd with
  | none => cases ht
  | some hab => exact congrArg some (hab.le ht)

end Replay

namespace Sample

def ternary : Replay where
  code := { body := #[⟨0, .load .int 0⟩, ⟨1, .ifZero .eq 8⟩, ⟨4, .load .reference 1⟩, ⟨5, .goto 9⟩, ⟨8, .nullConst⟩,
    ⟨9, .leave (some .reference)⟩] }
  graph :=
    { blocks := #[⟨0, 0, 2, false⟩, ⟨1, 2, 4, false⟩, ⟨2, 4, 5, false⟩, ⟨3, 5, 6, false⟩]
      edges := [⟨0, 2, .branch⟩, ⟨0, 1, .fallThrough⟩, ⟨1, 3, .branch⟩, ⟨2, 3, .fallThrough⟩] }
  pool := pool
  policy := UntrustedSources.webDefaults.policy
  locals := [.ofObject 0 false, .ofObject 1 true]

/-- Goes round and round, although its only jump leads to a greater position: the last instruction has the least
position. -/
def circling : Replay where
  code := { body := #[⟨10, .load .reference 1⟩, ⟨11, .shuffle .pop⟩, ⟨12, .load .reference 0⟩,
    ⟨13, .store .reference 1⟩, ⟨5, .goto 10⟩] }
  graph :=
    { blocks := #[⟨0, 0, 5, false⟩]
      edges := [⟨0, 0, .branch⟩] }
  pool := pool
  policy := UntrustedSources.webDefaults.policy
  locals := [.ofObject 0 true, .ofObject 1 false]

end Sample

/-- The parameter is tainted at the return, where the null of the other arm is joined in. -/
theorem Replay.ternary_tainted : ∃ flow, Sample.ternary.code.Ascending ∧ Sample.ternary.code.handlers = [] ∧
    (∀ h ∈ Sample.ternary.code.body, ∀ p ∈ h.instruction.branchTargets, h.position < p) ∧
    Graph.build Sample.ternary.code = .ok Sample.ternary.graph ∧
    Flow.analyze Sample.ternary.code Sample.ternary.graph Sample.ternary.pool = .ok flow ∧
    (∀ i < Sample.ternary.code.size, (flow.frameAt i).isSome) ∧
    Sample.ternary.graph.Path [⟨1, 3, .branch⟩, ⟨0, 1, .fallThrough⟩] 3 ∧
    Sample.ternary.arriving [⟨1, 3, .branch⟩, ⟨0, 1, .fallThrough⟩] ⟨5, 3⟩ =
      .ok { stack := [⟨true, none⟩], locals := [⟨false, none⟩, ⟨true, none⟩], position := 5 } ∧
    (Sample.ternary.taintedPositions 5 [0]).2 = ⟨[true], true⟩ := by
  have hc : Sample.ternary.code.Ascending := by decide
  have hforward : ∀ h ∈ Sample.ternary.code.body, ∀ p ∈ h.instruction.branchTargets, h.position < p := by decide
  have hg : Graph.build Sample.ternary.code = .ok Sample.ternary.graph := by cbv
  obtain ⟨flow, hf, hflow⟩ := Flow.exists_analyze Sample.ternary.code Sample.ternary.graph Sample.ternary.pool 20
    (fun flow => (List.range 6).all fun i => (flow.frameAt i).isSome) (by decide +kernel)
  have hall : ∀ i < Sample.ternary.code.size, (flow.frameAt i).isSome :=
    fun i hi => List.all_eq_true.mp hflow i (List.mem_range.mpr hi)
  have hes : Sample.ternary.graph.Path [⟨1, 3, .branch⟩, ⟨0, 1, .fallThrough⟩] 3 :=
    .step (.step .start (by decide)) (by decide)
  have hloc : ⟨5, 3⟩ ∈ Sample.ternary.graph.orderedLocations := by decide
  obtain ⟨k, p, -, hp, hdepth, htaint⟩ := tainted_of_path hc rfl hforward hg hf hall hloc hes
  have harriving : Sample.ternary.arriving [⟨1, 3, .branch⟩, ⟨0, 1, .fallThrough⟩] ⟨5, 3⟩ =
      .ok { stack := [⟨true, none⟩], locals := [⟨false, none⟩, ⟨true, none⟩], position := 5 } := by
    decide +kernel
  rw [harriving] at hp
  cases hp
  exact ⟨flow, hc, rfl, hforward, hg, hf, hall, hes, harriving, htaint 0 (by rw [← hdepth]; decide) rfl⟩

/-- Where positions do not ascend, a jump to a greater position can lead up. What it brings along is missed. -/
theorem Replay.circling_missed : ∃ flow p, Sample.circling.code.handlers = [] ∧
    (∀ h ∈ Sample.circling.code.body, ∀ p ∈ h.instruction.branchTargets, h.position < p) ∧
    Graph.build Sample.circling.code = .ok Sample.circling.graph ∧
    Flow.analyze Sample.circling.code Sample.circling.graph Sample.circling.pool = .ok flow ∧
    (∀ i < Sample.circling.code.size, (flow.frameAt i).isSome) ∧
    ⟨1, 0⟩ ∈ Sample.circling.graph.orderedLocations ∧ Sample.circling.graph.Path [⟨0, 0, .branch⟩] 0 ∧
    Sample.circling.arriving [⟨0, 0, .branch⟩] ⟨1, 0⟩ = .ok p ∧ (p.peek 0).any Cell.tainted = true ∧
    (Sample.circling.taintedPositions 1 [0]).2 = ⟨[false], true⟩ := by
  have hforward : ∀ h ∈ Sample.circling.code.body, ∀ p ∈ h.instruction.branchTargets, h.position < p := by decide
  have hg : Graph.build Sample.circling.code = .ok Sample.circling.graph := by cbv
  obtain ⟨flow, hf, hflow⟩ := Flow.exists_analyze Sample.circling.code Sample.circling.graph Sample.circling.pool 20
    (fun flow => (List.range 5).all fun i => (flow.frameAt i).isSome) (by decide +kernel)
  have hall : ∀ i < Sample.circling.code.size, (flow.frameAt i).isSome :=
    fun i hi => List.all_eq_true.mp hflow i (List.mem_range.mpr hi)
  exact ⟨flow, _, rfl, hforward, hg, hf, hall, by decide, .step .start (by decide), rfl, rfl, rfl⟩

end SinkCheck
