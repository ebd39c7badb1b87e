import Mathlib
import SinkCheck.Proofs.Blocks

/-!
# Stepping back

The step back from a location goes through blocks that are entered by falling only. So there is one way to arrive,
and the step ends at the instruction that was executed last, however control came to the first of these blocks.
-/

namespace SinkCheck

namespace Graph

/-- Control comes to a location after executing others, the latest first. An exception leaves a block in front of
any of its instructions, or behind the last one like any other edge. -/
inductive Arrives (g : Graph) : List Location → Location → Prop
  | start : Arrives g [] ⟨0, 0⟩
  | next {ls : List Location} {l : Location} {b : Block} : Arrives g ls l → g.blocks[l.block]? = some b →
      l.index + 1 < b.stop → Arrives g (l :: ls) ⟨l.index + 1, l.block⟩
  | cross {ls : List Location} {l : Location} {e : Edge} {b b' : Block} : Arrives g ls l → e ∈ g.edges →
      e.source = l.block → g.blocks[l.block]? = some b → l.index + 1 = b.stop → g.blocks[e.target]? = some b' →
      Arrives g (l :: ls) ⟨b'.start, e.target⟩
  | thrown {ls : List Location} {l : Location} {e : Edge} {b' : Block} : Arrives g ls l → e ∈ g.edges →
      e.source = l.block → e.kind = .exception → g.blocks[e.target]? = some b' → Arrives g ls ⟨b'.start, e.target⟩

section
variable {keep : Nat → Bool} {start i : Nat}

theorem lastBefore_self (keep : Nat → Bool) (start : Nat) : lastBefore keep start start = none := by
  cases start with
  | zero => rfl
  | succ n => simp [lastBefore]

theorem lastBefore_succ (h : start ≤ i) :
    lastBefore keep start (i + 1) = if keep i then some i else lastBefore keep start i := by
  simp [lastBefore, Nat.not_lt.mpr h]

end

section
variable {c : Code} {g : Graph} {skipNops : Bool} {rounds id i : Nat} {b : Block} {p : Location}

theorem walkBack_succ (hb : g.blocks[id]? = some b) (hi : b.start ≤ i) :
    g.walkBack c skipNops true (rounds + 1) id (i + 1) =
      if keeps c skipNops i then some ⟨i, id⟩ else g.walkBack c skipNops true (rounds + 1) id i := by
  simp only [walkBack, hb, lastBefore_succ hi]
  by_cases hk : keeps c skipNops i
  · simp [hk]
  · simp [hk]

/-- The step back leaves a block only if every edge into it is a fall from the block where the step goes on. -/
theorem walkBack_start (hl : g.Laid c) (hb : g.blocks[id]? = some b)
    (h : g.walkBack c skipNops true rounds id b.start = some p) :
    (∀ e ∈ g.edges, e.target = id → e.kind = .fallThrough) ∧ ∃ rounds' source q, id = source + 1 ∧
      g.blocks[source]? = some q ∧ g.walkBack c skipNops true rounds' source q.stop = some p := by
  cases rounds with
  | zero => cases h
  | succ rounds =>
    simp only [walkBack, hb, lastBefore_self, Bool.true_and] at h
    split at h
    · cases h
    · rename_i hjump
      split at h
      · cases h
      · rename_i source hsource
        split at h
        · cases h
        · rename_i q hq
          obtain ⟨e, hfind, rfl⟩ := Option.map_eq_some_iff.mp hsource
          have hcond := List.find?_some hfind
          simp only [Bool.and_eq_true, beq_iff_eq] at hcond
          have hfall := hl.falls (List.mem_of_find?_eq_some hfind) hcond.2
          refine ⟨?_, rounds, e.source, q, by rw [← hfall, hcond.1], hq, h⟩
          intro e' he' ht
          by_contra hk
          apply hjump
          simp only [hasJumpPredecessor, List.any_eq_true]
          exact ⟨e', he', by simp [ht, hk]⟩

theorem Arrives.inside (hl : g.Laid c) {ls : List Location} {l : Location} (h : g.Arrives ls l) :
    ∃ b, g.blocks[l.block]? = some b ∧ l.index ∈ b.indices := by
  induction h with
  | start =>
    obtain ⟨b, hb, hstart⟩ := Option.map_eq_some_iff.mp hl.first
    exact ⟨b, hb, hstart ▸ hl.start_mem_indices hb⟩
  | @next ls l b _ hb hlt ih =>
    obtain ⟨b', hb', hi⟩ := ih
    have hi := (Block.mem_indices.mp hi).1
    rw [hb] at hb'
    cases hb'
    exact ⟨b, hb, Block.mem_indices.mpr ⟨Nat.le_succ_of_le hi, hlt⟩⟩
  | cross _ _ _ _ _ hb' => exact ⟨_, hb', hl.start_mem_indices hb'⟩
  | thrown _ _ _ _ hb' => exact ⟨_, hb', hl.start_mem_indices hb'⟩

/-- What the step back finds in front of a location, it finds behind it as well, unless it finds the location. -/
theorem find?_step {ls : List Location} {l : Location} (hb : g.blocks[l.block]? = some b) (hi : l.index ∈ b.indices)
    (ih : ∀ rounds, g.walkBack c skipNops true rounds l.block l.index = some p →
      ls.find? (keeps c skipNops ·.index) = some p)
    (h : g.walkBack c skipNops true rounds l.block (l.index + 1) = some p) :
    (l :: ls).find? (keeps c skipNops ·.index) = some p := by
  cases rounds with
  | zero => cases h
  | succ rounds =>
    rw [walkBack_succ hb (Block.mem_indices.mp hi).1] at h
    by_cases hk : keeps c skipNops l.index
    · simpa [hk] using h
    · simp only [hk, Bool.false_eq_true, if_false] at h
      simpa [hk] using ih _ h

theorem Arrives.find?_executed (hl : g.Laid c) {ls : List Location} {l : Location} (ha : g.Arrives ls l) :
    ∀ rounds, g.walkBack c skipNops true rounds l.block l.index = some p →
      ls.find? (keeps c skipNops ·.index) = some p := by
  induction ha with
  | start =>
    intro rounds h
    obtain ⟨b, hb, hstart⟩ := Option.map_eq_some_iff.mp hl.first
    have h : g.walkBack c skipNops true rounds 0 b.start = some p := by
      rw [hstart]
      exact h
    obtain ⟨-, -, source, -, hid, -⟩ := walkBack_start hl hb h
    cases hid
  | next ha hb hlt ih =>
    intro rounds h
    obtain ⟨b, hb, hi⟩ := ha.inside hl
    exact find?_step hb hi ih h
  | @cross ls l e _ _ ha he hsource hb hstop hb' ih =>
    intro rounds h
    obtain ⟨b, hb₀, hi⟩ := ha.inside hl
    rw [hb] at hb₀
    cases hb₀
    obtain ⟨hfalls, rounds', source, q, hid, hq, h⟩ := walkBack_start hl hb' h
    -- the edge is a fall, so it comes from the block where the step goes on
    have hfall := hl.falls he (hfalls _ he rfl)
    have hsame : source = l.block := by omega
    rw [hsame, hb] at hq
    cases hq
    rw [hsame, ← hstop] at h
    exact find?_step hb hi ih h
  | thrown ha he hsource hk hb' ih =>
    intro rounds h
    have hfall := (walkBack_start hl hb' h).1 _ he rfl
    rw [hk] at hfall
    cases hfall

end

/-- **The step back is right on every path.** If the unambiguous step back from a location ends at another, then
every path to the location has executed that one last, apart from `nop` if these are skipped. -/
theorem unambiguousPrevious_executed_last {c : Code} {g : Graph} (hg : build c = .ok g) {l p : Location}
    {skipNops : Bool} (hp : g.unambiguousPrevious c l skipNops = some p) {ls : List Location} (hls : g.Arrives ls l) :
    ls.find? (fun m => !(skipNops && c.instruction? m.index == some .nop)) = some p :=
  hls.find?_executed (laid_of_build hg) _ hp

end Graph

namespace Sample

def spin : Code where
  body := #[⟨0, .nop⟩, ⟨1, .load .int 0⟩, ⟨2, .ifZero .eq 0⟩, ⟨5, .nop⟩, ⟨6, .nop⟩, ⟨7, .leave none⟩, ⟨8, .throw⟩]
  handlers := [⟨6, 8, 8, none⟩]

def spinGraph : Graph where
  blocks := #[⟨0, 0, 3, false⟩, ⟨1, 3, 4, false⟩, ⟨2, 4, 6, false⟩, ⟨3, 6, 7, true⟩]
  edges := [⟨0, 0, .branch⟩, ⟨0, 1, .fallThrough⟩, ⟨1, 2, .fallThrough⟩, ⟨2, 3, .exception⟩]

def turn : List Location :=
  [⟨2, 0⟩, ⟨1, 0⟩, ⟨0, 0⟩]

end Sample

open Sample in
/-- The step back from the end passes two blocks and three `nop`s, and stops at the end of the loop. -/
theorem Graph.loop_end_executed_last : build spin = .ok spinGraph ∧
    spinGraph.unambiguousPrevious spin ⟨5, 2⟩ true = some ⟨2, 0⟩ ∧
    spinGraph.Arrives (⟨4, 2⟩ :: ⟨3, 1⟩ :: (turn ++ turn)) ⟨5, 2⟩ ∧
    (⟨4, 2⟩ :: ⟨3, 1⟩ :: (turn ++ turn) : List Location).find?
      (fun m => !(true && spin.instruction? m.index == some .nop)) = some ⟨2, 0⟩ := by
  have hg : build spin = .ok spinGraph := by cbv
  have hp : spinGraph.unambiguousPrevious spin ⟨5, 2⟩ true = some ⟨2, 0⟩ := by decide
  have hloop : spinGraph.blocks[0]? = some ⟨0, 0, 3, false⟩ := rfl
  have hexit : spinGraph.blocks[1]? = some ⟨1, 3, 4, false⟩ := rfl
  have hguarded : spinGraph.blocks[2]? = some ⟨2, 4, 6, false⟩ := rfl
  have hback : (⟨0, 0, .branch⟩ : Edge) ∈ spinGraph.edges := by decide
  have hout : (⟨0, 1, .fallThrough⟩ : Edge) ∈ spinGraph.edges := by decide
  have hin : (⟨1, 2, .fallThrough⟩ : Edge) ∈ spinGraph.edges := by decide
  have hturn : ∀ {ls}, spinGraph.Arrives ls ⟨0, 0⟩ → spinGraph.Arrives (⟨1, 0⟩ :: ⟨0, 0⟩ :: ls) ⟨2, 0⟩ := by
    intro ls h
    exact (h.next hloop (by decide)).next hloop (by decide)
  have hagain : spinGraph.Arrives turn ⟨0, 0⟩ := (hturn .start).cross hback rfl hloop rfl hloop
  have hleft : spinGraph.Arrives (turn ++ turn) ⟨3, 1⟩ := (hturn hagain).cross hout rfl hloop rfl hexit
  have hend : spinGraph.Arrives (⟨4, 2⟩ :: ⟨3, 1⟩ :: (turn ++ turn)) ⟨5, 2⟩ :=
    (hleft.cross hin rfl hexit rfl hguarded).next hguarded (by decide)
  exact ⟨hg, hp, hend, unambiguousPrevious_executed_last hg hp hend⟩

end SinkCheck
