import Mathlib
import SinkCheck.Proofs.HandlerEntry

/-!
# Jumps that disagree

Of the frames that jumps leave for a block, those of another height than the last one are dropped. What waits has
the height of the last jump, and the replay fails at the block only if another frame falls into it with another
height. Jumps that disagree among themselves are not noticed.
-/

namespace SinkCheck

/-! ## Heights of what waits -/

namespace ReplayState

section
variable {s : ReplayState} {n t id : Nat} {e : Edge} {edges : List Edge}

/-- A plain block cannot be entered iff what falls into it and what waits for it differ in height. -/
theorem enter_plain_isError : (∃ err, s.enter id false = .error err) ↔
    ∃ f n, s.fallen id = some f ∧ s.waiting id = some n ∧ n ≠ f.depth := by
  unfold enter waiting
  simp only [Bool.false_eq_true, if_false]
  cases s.fallen id with
  | none => cases s.pending id <;> simp
  | some f =>
    cases s.pending id with
    | none => simp
    | some g =>
      by_cases hd : f.depth = g.depth
      · obtain ⟨r, hr⟩ : ∃ r, f.merge Cell.join g = .ok r := Frame.merge_of_depth hd
        simp [hr, hd]
      · cases hm : f.merge Cell.join g with
        | error err => simp [hm, Ne.symm hd]
        | ok r => exact absurd (Frame.depth_of_merge hm).1 hd

/-- A plain block starts as high as what waits for it, else as what falls into it, else as the running frame. -/
theorem depth_enter_plain {s' : ReplayState} (hx : s.enter id false = .ok s') :
    s'.frame.depth = (s.waiting id).getD (((s.fallen id).map Frame.depth).getD s.frame.depth) := by
  obtain ⟨f, rfl, hcases⟩ := enter_plain hx
  have hframe : ((s.forget id).setFrame f).frame = f := rfl
  rw [hframe, waiting]
  rcases hcases with ⟨g, g', changed, hg, hg', hm⟩ | ⟨hg, hg'⟩ | ⟨hg, hg'⟩ | ⟨hg, hg', rfl⟩
  · obtain ⟨hsame, hdepth⟩ := Frame.depth_of_merge hm
    simp [hg', hdepth, hsame]
  · simp [hg, hg']
  · simp [hg']
  · simp [hg, hg']

end

end ReplayState

/-! ## Heights of what was sent -/

namespace Replay

section
variable (r : Replay)

def heightsFrom (t id : Nat) : List Nat :=
  (List.range id).flatMap (r.jumpHeights t)

theorem heightsFrom_succ (t id : Nat) : r.heightsFrom t (id + 1) = r.heightsFrom t id ++ r.jumpHeights t id := by
  simp [heightsFrom, List.range_succ]

end

section
variable {r : Replay} {t id : Nat} {s : ReplayState}

theorem waiting_leave_above (hs : r.endOf id = .ok s) (hw : s.waiting t = (r.heightsFrom t id).getLast?) :
    (s.leave (r.graph.successors id) (r.graph.lastInstruction? r.code id)).waiting t =
      (r.heightsFrom t (id + 1)).getLast? := by
  rw [waiting_leave hs, heightsFrom_succ, List.getLast?_append, hw]

/-- What waits for a block below has the height of the last jump to it. -/
theorem waiting_endOf (ht : id < t) (hs : r.endOf id = .ok s) : s.waiting t = (r.heightsFrom t id).getLast? := by
  induction id generalizing s with
  | zero =>
    obtain ⟨u, hu, hs⟩ := Except.bind_eq_ok.mp hs
    have hu : (ReplayState.ofLocals r.locals).enter 0 (r.graph.isHandler 0) = .ok u := hu
    rw [ReplayState.waiting, (kept_performAll hs).pending, ReplayState.pending_enter hu]
    split <;> rfl
  | succ id ih =>
    obtain ⟨s₀, u, hs₀, hu, hs⟩ := endOf_succ hs
    rw [← waiting_leave_above hs₀ (ih (by omega) hs₀)]
    rw [ReplayState.waiting, (kept_performAll hs).pending, ReplayState.pending_enter hu, if_neg (by omega)]
    rfl

theorem fallen_leave (hl : r.graph.Laid r.code) :
    (s.leave (r.graph.successors id) (r.graph.lastInstruction? r.code id)).fallen (id + 1) =
      if ⟨id, id + 1, .fallThrough⟩ ∈ r.graph.edges then some s.frame else none := by
  have hfalls : ∀ e ∈ r.graph.successors id, e.kind = .fallThrough → e = ⟨id, id + 1, .fallThrough⟩ := by
    intro e he hk
    obtain ⟨hmem, hsource⟩ := Graph.mem_successors.mp he
    have htarget := hl.falls hmem hk
    rw [hsource] at htarget
    cases e
    simp_all
  by_cases hfall : ⟨id, id + 1, .fallThrough⟩ ∈ r.graph.edges
  · rw [if_pos hfall]
    apply ReplayState.fallen_eq_some.mpr
    apply ReplayState.falling_sendAll
    · exact ⟨_, Graph.mem_successors.mpr ⟨hfall, rfl⟩, rfl⟩
    · intro e he hk
      rw [hfalls e he hk]
  · rw [if_neg hfall]
    apply ReplayState.falling_sendAll_of_not
    · intro e he hk
      have := hfalls e he hk
      subst this
      exact absurd (Graph.mem_successors.mp he).1 hfall
    · intro f hf
      cases hf

/-! ## Entering a block -/

theorem verdict_of_error {target : Nat} {err : AnalysisError} (h : (r.runTo target).outcome = .error err)
    (ps : List Nat) : (r.taintedPositions target ps).2 = .failSafe ps.length := by
  simp only [taintedPositions, h]

variable (hl : r.graph.Laid r.code) {b : Block} (hb : r.graph.blocks[id + 1]? = some b) (hplain : b.isHandler = false)
  (hs : r.endOf id = .ok s)
include hl hb hplain hs

theorem cross_isError : (∃ err, r.cross (some id) (id + 1) s = .error err) ↔
    ⟨id, id + 1, .fallThrough⟩ ∈ r.graph.edges ∧
      ∃ n ∈ (r.heightsFrom (id + 1) (id + 1)).getLast?, n ≠ s.frame.depth := by
  have hhandler : r.graph.isHandler (id + 1) = false := by simp [Graph.isHandler, hb, hplain]
  rw [cross_succ, hhandler, ReplayState.enter_plain_isError, fallen_leave hl,
    waiting_leave_above hs (waiting_endOf (Nat.lt_succ_self id) hs)]
  by_cases hfall : ⟨id, id + 1, .fallThrough⟩ ∈ r.graph.edges
  · simp [hfall]
  · simp [hfall]

theorem depth_cross {u : ReplayState} (hu : r.cross (some id) (id + 1) s = .ok u) :
    u.frame.depth = (r.heightsFrom (id + 1) (id + 1)).getLast?.getD s.frame.depth := by
  have hhandler : r.graph.isHandler (id + 1) = false := by simp [Graph.isHandler, hb, hplain]
  rw [cross_succ, hhandler] at hu
  rw [ReplayState.depth_enter_plain hu, fallen_leave hl, waiting_leave_above hs (waiting_endOf (Nat.lt_succ_self id) hs),
    ReplayState.leave, ReplayState.frame_sendAll]
  by_cases hfall : ⟨id, id + 1, .fallThrough⟩ ∈ r.graph.edges
  · simp [hfall]
  · simp [hfall]

end

/-- **Which disagreements are noticed.** If the replay gets to the end of the block above, it gives up on a plain
block and all that comes below iff control falls into the block with another height than the last jump to it had.
If it enters the block, then with the height of the last jump, whatever heights the jumps before it had. -/
theorem disagreement_noticed_iff {r : Replay} (hg : Graph.build r.code = .ok r.graph) {id : Nat} {b : Block}
    (hb : r.graph.blocks[id + 1]? = some b) (hplain : b.isHandler = false) :
    ((∀ target, b.start ≤ target → ∀ positions,
        (r.taintedPositions target positions).2 = .failSafe positions.length) ↔
      ∀ s, r.endOf id = .ok s → ⟨id, id + 1, .fallThrough⟩ ∈ r.graph.edges ∧
        ∃ n ∈ (r.heightsFrom (id + 1) (id + 1)).getLast?, n ≠ s.frame.depth) ∧
    ∀ f, (r.runTo b.start).outcome = .ok (some f) → ∃ s, r.endOf id = .ok s ∧
      f.depth = (r.heightsFrom (id + 1) (id + 1)).getLast?.getD s.frame.depth := by
  have hl := Graph.laid_of_build hg
  refine ⟨⟨?_, ?_⟩, ?_⟩
  · intro hall s hs
    rw [← cross_isError hl hb hplain hs]
    cases hx : r.cross (some id) (id + 1) s with
    | error err => exact ⟨err, rfl⟩
    | ok u =>
      -- the replay gets to the first instruction of the block, and would say so
      have hrun : (r.runTo b.start).outcome = .ok (some u.frame) := by
        rw [outcome_runTo_enter hl hb (Nat.le_refl _), hs]
        simp [Except.bind, hx]
      have hverdict := hall b.start (Nat.le_refl _) []
      simp [taintedPositions, hrun, Verdict.failSafe] at hverdict
  · intro hnoticed target ht positions
    have hrun : ∃ err, (r.runTo target).outcome = .error err := by
      rw [outcome_runTo_enter hl hb ht]
      cases hs : r.endOf id with
      | error err => exact ⟨err, rfl⟩
      | ok s =>
        obtain ⟨err, hx⟩ := (cross_isError hl hb hplain hs).mpr (hnoticed s hs)
        exact ⟨err, by simp [Except.bind, hx]⟩
    obtain ⟨err, hrun⟩ := hrun
    exact verdict_of_error hrun positions
  · intro f hf
    obtain ⟨s, u, hs, hu, rfl⟩ := runTo_start hl hb hf
    exact ⟨s, hs, depth_cross hl hb hplain hs hu⟩

end Replay

namespace Sample

/-- A subroutine call and a branch come to the last block with different heights, and control falls into it with
the height of the call. -/
def ragged : Code where
  body := #[⟨0, .load .int 0⟩, ⟨1, .ifZero .eq 7⟩,
    ⟨4, .jsr 12⟩,
    ⟨7, .load .int 0⟩, ⟨8, .ifZero .eq 12⟩,
    ⟨11, .nullConst⟩,
    ⟨12, .leave none⟩]

def raggedReplay : Replay where
  code := ragged
  graph.blocks := #[⟨0, 0, 2, false⟩, ⟨1, 2, 3, false⟩, ⟨2, 3, 5, false⟩, ⟨3, 5, 6, false⟩, ⟨4, 6, 7, false⟩]
  graph.edges := [⟨0, 2, .branch⟩, ⟨0, 1, .fallThrough⟩, ⟨1, 4, .branch⟩, ⟨1, 2, .fallThrough⟩, ⟨2, 4, .branch⟩,
    ⟨2, 3, .fallThrough⟩, ⟨3, 4, .fallThrough⟩]
  pool := pool
  policy := UntrustedSources.webDefaults.policy

/-- Two jumps come to a call with different heights. The second, which brings two clean words more, is dead code. -/
def jagged : Code where
  body := #[⟨0, .load .reference 0⟩, ⟨1, .goto 10⟩,
    ⟨4, .nullConst⟩, ⟨5, .nullConst⟩, ⟨6, .goto 10⟩,
    ⟨10, .invoke .static 1⟩, ⟨13, .leave none⟩]

def jaggedReplay : Replay where
  code := jagged
  graph.blocks := #[⟨0, 0, 2, false⟩, ⟨1, 2, 5, false⟩, ⟨2, 5, 7, false⟩]
  graph.edges := [⟨0, 2, .branch⟩, ⟨1, 2, .branch⟩]
  pool := ⟨#[none, some (.method ⟨"acme/Db", "run", "(Ljava/lang/String;)V"⟩)]⟩
  policy := UntrustedSources.webDefaults.policy
  locals := [.ofObject 0 true]

end Sample

namespace Replay

theorem ragged_noticed : Graph.build Sample.ragged = .ok Sample.raggedReplay.graph ∧
    (∃ s, Sample.raggedReplay.endOf 3 = .ok s ∧ s.frame.depth = 1) ∧ Sample.raggedReplay.heightsFrom 4 4 = [1, 0] ∧
    ∀ target, 6 ≤ target → ∀ positions,
      (Sample.raggedReplay.taintedPositions target positions).2 = .failSafe positions.length := by
  have hg : Graph.build Sample.ragged = .ok Sample.raggedReplay.graph := by cbv
  have hb : Sample.raggedReplay.graph.blocks[3 + 1]? = some ⟨4, 6, 7, false⟩ := rfl
  have hheights : Sample.raggedReplay.heightsFrom 4 4 = [1, 0] := rfl
  refine ⟨hg, ⟨_, rfl, rfl⟩, hheights, (disagreement_noticed_iff hg hb rfl).1.mpr ?_⟩
  intro s hs
  rw [hheights]
  cases hs
  exact ⟨by decide, 0, rfl, by decide⟩

/-- Jumps with different heights lead to the block of the call, which is no handler, and yet the replay gets there.
The code passes the dataflow analysis, as nothing leads to the second jump. The first brings a tainted word, which
is forgotten, and the argument of the call counts as clean. -/
theorem jagged_unnoticed : ∃ flow, Graph.build Sample.jagged = .ok Sample.jaggedReplay.graph ∧
    Flow.analyze Sample.jagged Sample.jaggedReplay.graph Sample.jaggedReplay.pool = .ok flow ∧
    (flow.frameAt 4).isNone ∧ (flow.frameAt 5).isSome ∧
    Sample.jaggedReplay.graph.blocks[2]? = some ⟨2, 5, 7, false⟩ ∧ Sample.jaggedReplay.heightsFrom 2 2 = [1, 3] ∧
    (∃ s, Sample.jaggedReplay.endOf 0 = .ok s ∧ (s.frame.peek 0).any Cell.tainted = true) ∧
    (Sample.jaggedReplay.taintedPositions 5 [0]).2 = ⟨[false], true⟩ := by
  have hg : Graph.build Sample.jagged = .ok Sample.jaggedReplay.graph := by cbv
  obtain ⟨flow, hf, hreached⟩ := Flow.exists_analyze Sample.jagged Sample.jaggedReplay.graph Sample.jaggedReplay.pool 3
    (fun flow => (flow.frameAt 4).isNone && (flow.frameAt 5).isSome) (by decide +kernel)
  obtain ⟨hdead, halive⟩ := Bool.and_eq_true_iff.mp hreached
  exact ⟨flow, hg, hf, hdead, halive, rfl, rfl, ⟨_, rfl, rfl⟩, rfl⟩

end Replay

end SinkCheck
