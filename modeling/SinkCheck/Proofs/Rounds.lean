import SinkCheck.Proofs.Backward

/-!
# Rounds of the walk back

Behind its first round the walk stands at the end of a block, so the block says where it stands. A walk that has
gone on once more than there are blocks has come to the end of one block twice, and goes round for ever. With one
round per block and one more the walk has therefore found what it will ever find.
-/

namespace SinkCheck

namespace Graph

section
variable (g : Graph) (c : Code) (skipNops stopAtJoins : Bool)

def behind (id : Nat) : Option Location :=
  g.blocks[id]?.map fun b => ⟨b.stop, id⟩

def found (l : Location) : Option Location :=
  g.blocks[l.block]?.bind fun b => (lastBefore (keeps c skipNops) b.start l.index).map (⟨·, l.block⟩)

/-- Where the round after the one at `l` begins. -/
def onward (l : Location) : Option Location :=
  if l.block < g.blocks.size ∧ g.found c skipNops l = none ∧ ¬(stopAtJoins && g.hasJumpPredecessor l.block) then
    (g.predecessor? l.block .fallThrough).bind g.behind
  else none

/-- The walk from `l` gives up: each of the rounds goes on to another. -/
def RunsOut : Nat → Location → Prop
  | 0, _ => True
  | rounds + 1, l => ∃ m, g.onward c skipNops stopAtJoins l = some m ∧ RunsOut rounds m

end

section
variable {g : Graph} {c : Code} {skipNops stopAtJoins : Bool} {l m : Location} {n : Nat}

/-! ## One round -/

theorem predecessor_of_onward (h : g.onward c skipNops stopAtJoins l = some m) :
    l.block < g.blocks.size ∧ g.predecessor? l.block .fallThrough = some m.block ∧ g.behind m.block = some m := by
  unfold onward at h
  split at h
  · rename_i hgo
    obtain ⟨p, hp, hm⟩ := Option.bind_eq_some_iff.mp h
    have hblock : m.block = p := by
      obtain ⟨q, -, rfl⟩ := Option.map_eq_some_iff.mp hm
      rfl
    subst hblock
    exact ⟨hgo.1, hp, hm⟩
  · cases h

theorem walkBack_round (rounds : Nat) (l : Location) :
    g.walkBack c skipNops stopAtJoins (rounds + 1) l.block l.index =
      match g.onward c skipNops stopAtJoins l with
      | some m => g.walkBack c skipNops stopAtJoins rounds m.block m.index
      | none => g.found c skipNops l := by
  rw [walkBack]
  by_cases hid : l.block < g.blocks.size
  · simp only [Array.getElem?_eq_getElem hid]
    cases hlast : lastBefore (keeps c skipNops) g.blocks[l.block].start l.index with
    | some i => simp [onward, found, hid, hlast]
    | none =>
      by_cases hj : (stopAtJoins && g.hasJumpPredecessor l.block) = true
      · simp [onward, found, hid, hlast, hj]
      · cases hp : g.predecessor? l.block .fallThrough with
        | none => simp [onward, found, hid, hlast, hj, hp]
        | some p =>
          cases hq : g.blocks[p]? with
          | none => simp [onward, found, hid, hlast, hj, hp, behind, hq]
          | some q => simp [onward, found, hid, hlast, hj, hp, behind, hq]
  · simp [onward, found, hid]

/-! ## Many rounds -/

theorem walkBack_of_runsOut : ∀ {n : Nat} {l : Location}, g.RunsOut c skipNops stopAtJoins n l →
    g.walkBack c skipNops stopAtJoins n l.block l.index = none
  | 0, _, _ => rfl
  | n + 1, l, ⟨m, hm, hout⟩ => by
    simp only [walkBack_round, hm]
    exact walkBack_of_runsOut hout

theorem walkBack_of_not_runsOut : ∀ {n : Nat} {l : Location}, ¬g.RunsOut c skipNops stopAtJoins n l →
    ∀ k, g.walkBack c skipNops stopAtJoins (n + k) l.block l.index = g.walkBack c skipNops stopAtJoins n l.block l.index
  | 0, _, h, _ => absurd trivial h
  | n + 1, l, h, k => by
    rw [Nat.add_right_comm, walkBack_round, walkBack_round]
    cases hm : g.onward c skipNops stopAtJoins l with
    | none => rfl
    | some m => exact walkBack_of_not_runsOut (fun hout => h ⟨m, hm, hout⟩) k

/-! ## Going round -/

abbrev advance (g : Graph) (c : Code) (skipNops stopAtJoins : Bool) : Option Location → Option Location :=
  (·.bind (g.onward c skipNops stopAtJoins))

theorem advance_iterate_none (n : Nat) : (advance g c skipNops stopAtJoins)^[n] none = none :=
  Function.iterate_fixed rfl n

theorem runsOut_iff : ∀ {n : Nat} {l : Location},
    g.RunsOut c skipNops stopAtJoins n l ↔ (advance g c skipNops stopAtJoins)^[n] (some l) ≠ none
  | 0, l => by simp [RunsOut]
  | n + 1, l => by
    rw [RunsOut, Function.iterate_succ_apply, advance, Option.bind_some]
    cases hm : g.onward c skipNops stopAtJoins l with
    | none => simp [advance_iterate_none]
    | some m => simpa using runsOut_iff

theorem RunsOut.of_le {k : Nat} (h : g.RunsOut c skipNops stopAtJoins n l) (hk : k ≤ n) :
    g.RunsOut c skipNops stopAtJoins k l := by
  rw [runsOut_iff] at h ⊢
  intro hnone
  apply h
  rw [← Nat.sub_add_cancel hk, Function.iterate_add_apply, hnone, advance_iterate_none]

theorem RunsOut.behind (h : g.RunsOut c skipNops stopAtJoins (n + 1) l) :
    (advance g c skipNops stopAtJoins)^[n + 1] (some l) ∈ (Finset.range g.blocks.size).image g.behind := by
  rw [runsOut_iff] at h
  rw [Function.iterate_succ_apply'] at h ⊢
  obtain ⟨m, hm⟩ := Option.ne_none_iff_exists'.mp h
  rw [hm]
  obtain ⟨l', -, hl'⟩ := Option.bind_eq_some_iff.mp hm
  obtain ⟨-, -, hbehind⟩ := predecessor_of_onward hl'
  obtain ⟨q, hq, -⟩ := Option.map_eq_some_iff.mp hbehind
  exact Finset.mem_image.mpr ⟨m.block, Finset.mem_range.mpr (Array.getElem?_eq_some_iff.mp hq).1, hbehind⟩

theorem RunsOut.repeats (h : g.RunsOut c skipNops stopAtJoins g.rounds l) :
    ∃ i j, i < j ∧ (advance g c skipNops stopAtJoins)^[i] (some l) = (advance g c skipNops stopAtJoins)^[j] (some l) ∧
      g.RunsOut c skipNops stopAtJoins i l := by
  -- the first round begins in the middle of a block, so only those after it are counted
  have hcard : ((Finset.range g.blocks.size).image g.behind).card < (Finset.range g.rounds).card := by
    have := Finset.card_image_le (s := Finset.range g.blocks.size) (f := g.behind)
    rw [Finset.card_range] at this ⊢
    exact Nat.lt_succ_of_le this
  have hmaps : ∀ i ∈ Finset.range g.rounds, (advance g c skipNops stopAtJoins)^[i + 1] (some l) ∈
      (Finset.range g.blocks.size).image g.behind := by
    intro i hi
    exact (h.of_le (Finset.mem_range.mp hi)).behind
  obtain ⟨i, hi, j, hj, hne, heq⟩ := Finset.exists_ne_map_eq_of_card_lt_of_maps_to hcard hmaps
  rcases Nat.lt_or_gt_of_ne hne with hij | hij
  · exact ⟨i + 1, j + 1, Nat.succ_lt_succ hij, heq, h.of_le (Finset.mem_range.mp hi)⟩
  · exact ⟨j + 1, i + 1, Nat.succ_lt_succ hij, heq.symm, h.of_le (Finset.mem_range.mp hj)⟩

theorem RunsOut.forever (h : g.RunsOut c skipNops stopAtJoins g.rounds l) (n : Nat) :
    g.RunsOut c skipNops stopAtJoins n l := by
  obtain ⟨i, j, hij, heq, hi⟩ := h.repeats
  have hperiod : Function.IsPeriodicPt (advance g c skipNops stopAtJoins) (j - i)
      ((advance g c skipNops stopAtJoins)^[i] (some l)) := by
    rw [Function.IsPeriodicPt, Function.IsFixedPt, ← Function.iterate_add_apply, Nat.sub_add_cancel hij.le, heq]
  have hround : g.RunsOut c skipNops stopAtJoins (n * (j - i) + i) l := by
    rw [runsOut_iff, Function.iterate_add_apply, hperiod.const_mul n]
    exact runsOut_iff.mp hi
  refine hround.of_le ?_
  have : n * 1 ≤ n * (j - i) := Nat.mul_le_mul_left n (by omega)
  omega

/-! ## Graphs that are built -/

theorem Laid.block_of_onward (hl : g.Laid c) (h : g.onward c skipNops stopAtJoins l = some m) :
    l.block = m.block + 1 := by
  obtain ⟨-, hp, -⟩ := predecessor_of_onward h
  obtain ⟨e, hfind, hsource⟩ := Option.map_eq_some_iff.mp hp
  have hcond := List.find?_some hfind
  simp only [Bool.and_eq_true, beq_iff_eq] at hcond
  rw [← hsource, ← hcond.1]
  exact hl.falls (List.mem_of_find?_eq_some hfind) hcond.2

theorem Laid.le_block_of_runsOut (hl : g.Laid c) : ∀ {n : Nat} {l : Location},
    g.RunsOut c skipNops stopAtJoins n l → n ≤ l.block
  | 0, _, _ => Nat.zero_le _
  | n + 1, l, ⟨m, hm, hout⟩ => by
    rw [hl.block_of_onward hm]
    exact Nat.succ_le_succ (hl.le_block_of_runsOut hout)

theorem Laid.not_runsOut (hl : g.Laid c) (l : Location) : ¬g.RunsOut c skipNops stopAtJoins g.rounds l := by
  intro h
  have hle := hl.le_block_of_runsOut h
  obtain ⟨m, hm, -⟩ := h
  have hlt := (predecessor_of_onward hm).1
  rw [rounds] at hle
  omega

end

/-- **The bound on the rounds shows in no answer.** More rounds find what the bound finds, also where control falls
in a circle. The walk gives up only if it would go on for ever, and in a graph that is built it does not give up. -/
theorem walkBack_bound (g : Graph) (c : Code) (skipNops stopAtJoins : Bool) (l : Location) :
    (∀ rounds, g.rounds ≤ rounds → g.walkBack c skipNops stopAtJoins rounds l.block l.index =
      g.walkBack c skipNops stopAtJoins g.rounds l.block l.index) ∧
    (g.RunsOut c skipNops stopAtJoins g.rounds l → ∀ n, g.RunsOut c skipNops stopAtJoins n l) ∧
    (build c = .ok g → ¬g.RunsOut c skipNops stopAtJoins g.rounds l) := by
  refine ⟨?_, RunsOut.forever, fun hg => (laid_of_build hg).not_runsOut l⟩
  intro rounds hrounds
  obtain ⟨k, rfl⟩ := Nat.exists_eq_add_of_le hrounds
  by_cases hout : g.RunsOut c skipNops stopAtJoins g.rounds l
  · rw [walkBack_of_runsOut hout, walkBack_of_runsOut (hout.forever (g.rounds + k))]
  · exact walkBack_of_not_runsOut hout k

end Graph

namespace Sample

def circle : Graph where
  blocks := #[⟨0, 0, 3, false⟩, ⟨1, 3, 4, false⟩, ⟨2, 4, 5, false⟩]
  edges := [⟨0, 1, .fallThrough⟩, ⟨1, 2, .fallThrough⟩, ⟨2, 0, .fallThrough⟩]

end Sample

open Sample in
/-- From its middle back into the first block: three rounds pass nothing but `nop`, and the fourth, the last within the
bound, finds the end of the block that the walk began in. -/
theorem Graph.walkBack_circle :
    Graph.ofParts circle.blocks circle.edges = .ok circle ∧
    circle.walkBack spin true false 3 0 1 = none ∧ circle.rounds = 4 ∧
    (∀ rounds, 4 ≤ rounds → circle.walkBack spin true false rounds 0 1 = some ⟨2, 0⟩) ∧
    build spin = .ok spinGraph ∧ ¬spinGraph.RunsOut spin true true spinGraph.rounds ⟨5, 2⟩ := by
  have hg : build spin = .ok spinGraph := by decide +kernel
  refine ⟨by decide +kernel, by decide +kernel, rfl, ?_, hg, ?_⟩
  · intro rounds hrounds
    rw [(walkBack_bound circle spin true false ⟨1, 0⟩).1 rounds hrounds]
    decide +kernel
  · exact (walkBack_bound spinGraph spin true true ⟨5, 2⟩).2.2 hg

end SinkCheck
