import SinkCheck.Graph

/-!
# Built graphs

The blocks of a built graph follow one another and cover the code (`Laid`), its edges stay inside, and
control falls only into the next block. Scan order is therefore the order of the instructions.
-/

namespace SinkCheck

/-- What the search finds is there, whatever the order of the positions. -/
theorem Code.position?_of_indexOf? {c : Code} {i p : Nat} (h : c.indexOf? p = some i) : c.position? i = some p := by
  simp only [indexOf?, Option.ite_none_right_eq_some, Option.some.injEq] at h
  obtain ⟨hp, rfl⟩ := h
  exact hp

namespace Graph

/-- Blocks lie end to end over the code, and edges stay between them. -/
structure Laid (c : Code) (g : Graph) : Prop where
  first : g.blocks[0]?.map Block.start = some 0
  occupied : ∀ {id : Nat} {b : Block}, g.blocks[id]? = some b → b.start < b.stop
  next : ∀ {id : Nat} {b : Block}, g.blocks[id]? = some b → b.stop = (g.blocks[id + 1]?.map Block.start).getD c.size
  source : ∀ {e}, e ∈ g.edges → e.source < g.blocks.size
  target : ∀ {e}, e ∈ g.edges → e.target < g.blocks.size
  falls : ∀ {e}, e ∈ g.edges → e.kind = .fallThrough → e.target = e.source + 1

theorem id_of_getElem? {g : Graph} {id : Nat} {b : Block} (hb : g.blocks[id]? = some b) : b.id = id := by
  have hid := congrArg (·[id]?) g.numbered
  rw [← Array.getElem?_toList] at hb
  have hlt := (List.getElem?_eq_some_iff.mp hb).1
  simpa [hb, List.getElem?_range (Array.length_toList ▸ hlt)] using hid

theorem mem_successors {g : Graph} {id : Nat} {e : Edge} : e ∈ g.successors id ↔ e ∈ g.edges ∧ e.source = id := by
  simp [successors]

/-! ## Building -/

section
variable {c : Code}

theorem mapM_ok_mem {ε α β : Type} {f : α → Except ε β} : ∀ {l : List α} {r : List β},
    l.mapM f = .ok r → ∀ a ∈ l, ∃ b ∈ r, f a = .ok b
  | [], _, _, _, ha => nomatch ha
  | x :: l, r, h, a, ha => by
    rw [List.mapM_cons] at h
    cases hx : f x with
    | error e => rw [hx] at h; cases h
    | ok y =>
      cases hl : l.mapM f with
      | error e => rw [hx, hl] at h; cases h
      | ok ys =>
        rw [hx, hl] at h
        cases h
        rcases List.mem_cons.mp ha with rfl | ha
        · exact ⟨y, List.mem_cons_self .., hx⟩
        · obtain ⟨b, hb, hfb⟩ := mapM_ok_mem hl a ha
          exact ⟨b, List.mem_cons_of_mem _ hb, hfb⟩

theorem boundary_eq_ok {p i : Nat} (h : boundary c p = .ok i) : c.indexOf? p = some i := by
  unfold boundary at h
  split at h
  · rename_i hi; cases h; exact hi
  · cases h

theorem lt_of_indexOf? {p i : Nat} (h : c.indexOf? p = some i) : i < c.size := by
  obtain ⟨placed, hi, -⟩ := Option.map_eq_some_iff.mp (Code.position?_of_indexOf? h)
  exact (Array.getElem?_eq_some_iff.mp hi).1

theorem build_eq_ok {g : Graph} (h : build c = .ok g) :
    ∃ last marks, c.body.back? = some last ∧ last.instruction.fallsThrough = false ∧
      (anchors c).mapM (boundary c) = .ok marks ∧ g = ofStarts c (leaders c marks) := by
  unfold build at h
  split at h
  · cases h
  · rename_i last hl
    split at h
    · cases h
    · rename_i marks hm
      split at h
      · cases h
      · rename_i hf
        cases h
        exact ⟨last, marks, hl, by simpa using hf, hm, rfl⟩

theorem pairwise_leaders (marks : List Nat) : (leaders c marks).Pairwise (· < ·) :=
  List.Pairwise.filter _ List.pairwise_lt_range

theorem mem_leaders {marks : List Nat} {i : Nat} :
    i ∈ leaders c marks ↔ i < c.size ∧ (i = 0 ∨ i ∈ marks ∨ i ∈ afterEnds c ∨ i ∈ handlerStops c) := by
  simp [leaders]

theorem blockAt_lt {marks : List Nat} (hm : (anchors c).mapM (boundary c) = .ok marks) {p : Nat}
    (hp : p ∈ anchors c) : blockAt c (leaders c marks) p < (leaders c marks).length := by
  obtain ⟨i, hi, hb⟩ := mapM_ok_mem hm p hp
  have hx := boundary_eq_ok hb
  rw [blockAt, hx, Option.getD_some, List.idxOf_lt_length_iff]
  exact mem_leaders.mpr ⟨lt_of_indexOf? hx, .inr (.inl hi)⟩

theorem getElem?_splitAt (starts : List Nat) (id : Nat) :
    (splitAt c starts)[id]? =
      starts[id]?.map fun s => ⟨id, s, starts[id + 1]?.getD c.size, splitAt.isEntry c s⟩ := by
  rw [splitAt, List.getElem?_mapIdx, List.zip_eq_zipWith, List.getElem?_zipWith]
  rcases Nat.lt_trichotomy (id + 1) starts.length with h | h | h
  · rw [List.getElem?_append_left (by simp; omega), List.getElem?_tail]
    rw [List.getElem?_eq_getElem (by omega), List.getElem?_eq_getElem h]; rfl
  · rw [List.getElem?_append_right (by simp; omega), List.getElem?_eq_getElem (by omega : id < starts.length),
      List.getElem?_eq_none (by omega : starts.length ≤ id + 1)]
    simp [← h]
  · rw [List.getElem?_eq_none (by omega : starts.length ≤ id)]; rfl

theorem id_of_splitAt {starts : List Nat} {id : Nat} {b : Block} (hb : (splitAt c starts)[id]? = some b) : b.id = id := by
  rw [getElem?_splitAt] at hb
  obtain ⟨s, -, rfl⟩ := Option.map_eq_some_iff.mp hb
  rfl

theorem length_splitAt (starts : List Nat) : (splitAt c starts).length = starts.length := by
  simp [splitAt]; omega

theorem mem_edges_ofStarts {starts : List Nat} {e : Edge} :
    e ∈ (ofStarts c starts).edges ↔
      (∃ id b, (splitAt c starts)[id]? = some b ∧ b.id = id ∧ e ∈ exits c starts b) ∨
        ∃ h ∈ c.handlers, e ∈ guards c starts (splitAt c starts) h := by
  simp only [ofStarts, List.mem_eraseDups, List.mem_append, List.mem_flatMap]
  constructor
  · rintro (⟨b, hb, he⟩ | h)
    · obtain ⟨id, hid⟩ := List.mem_iff_getElem?.mp hb
      exact .inl ⟨id, b, hid, id_of_splitAt hid, he⟩
    · exact .inr h
  · rintro (⟨id, b, hb, -, he⟩ | h)
    · exact .inl ⟨b, List.mem_of_getElem? hb, he⟩
    · exact .inr h

theorem mem_exits {starts : List Nat} {b : Block} {e : Edge} : e ∈ exits c starts b ↔
    ∃ i, c.instruction? (b.stop - 1) = some i ∧
      ((∃ p ∈ i.branchTargets, e = ⟨b.id, blockAt c starts p, if i.isSwitch then .switch else .branch⟩) ∨
        i.fallsThrough = true ∧ e = ⟨b.id, b.id + 1, .fallThrough⟩) := by
  unfold exits
  cases c.instruction? (b.stop - 1) with
  | none => simp
  | some i =>
    simp only [List.mem_append, List.mem_map, Option.some.injEq, exists_eq_left']
    by_cases hf : i.fallsThrough = true
    · simp only [hf, if_true, List.mem_singleton, true_and, eq_comm]
    · simp only [hf, if_false, List.not_mem_nil, false_and, eq_comm, Bool.false_eq_true]

theorem guards_cases {starts : List Nat} {h : Handler} {e : Edge} (he : e ∈ guards c starts (splitAt c starts) h) :
    e.source < starts.length ∧ e.target = blockAt c starts h.entry ∧ e.kind = .exception := by
  obtain ⟨b, hb, he⟩ := List.mem_filterMap.mp he
  obtain ⟨id, hid⟩ := List.mem_iff_getElem?.mp hb
  have hlt := (List.getElem?_eq_some_iff.mp hid).1
  simp only [Option.ite_none_right_eq_some, Option.some.injEq] at he
  obtain ⟨-, rfl⟩ := he
  rw [length_splitAt] at hlt
  exact ⟨id_of_splitAt hid ▸ hlt, rfl, rfl⟩

theorem branchTargets_subset_anchors {j : Nat} {i : Instruction} (hi : c.instruction? j = some i) {p : Nat}
    (hp : p ∈ i.branchTargets) : p ∈ anchors c := by
  obtain ⟨h, hh, rfl⟩ := Option.map_eq_some_iff.mp hi
  refine List.mem_append_left _ (List.mem_flatMap.mpr ⟨h, ?_, hp⟩)
  exact Array.mem_toList_iff.mpr (Array.mem_of_getElem? hh)

theorem getElem?_blocks_ofStarts (starts : List Nat) (id : Nat) :
    (ofStarts c starts).blocks[id]? =
      starts[id]?.map fun s => ⟨id, s, starts[id + 1]?.getD c.size, splitAt.isEntry c s⟩ := by
  rw [← getElem?_splitAt]; simp [ofStarts]

theorem size_blocks_ofStarts (starts : List Nat) : (ofStarts c starts).blocks.size = starts.length := by
  simp [ofStarts, length_splitAt]

theorem edge_cases {last : Placed} {marks : List Nat} (hlast : c.body.back? = some last)
    (hfalls : last.instruction.fallsThrough = false) (hm : (anchors c).mapM (boundary c) = .ok marks)
    {e : Edge} (he : e ∈ (ofStarts c (leaders c marks)).edges) :
    e.source < (leaders c marks).length ∧ e.target < (leaders c marks).length ∧
      (e.kind = .fallThrough → e.target = e.source + 1) := by
  rcases mem_edges_ofStarts.mp he with ⟨_, b, hb, rfl, he⟩ | ⟨h, hh, he⟩
  · have hid : b.id < (leaders c marks).length :=
      length_splitAt (c := c) (leaders c marks) ▸ (List.getElem?_eq_some_iff.mp hb).1
    obtain ⟨i, hi, ⟨p, hp, rfl⟩ | ⟨hf, rfl⟩⟩ := mem_exits.mp he
    · refine ⟨hid, blockAt_lt hm (branchTargets_subset_anchors hi hp), fun h => ?_⟩
      simp only at h
      split at h <;> cases h
    · refine ⟨hid, ?_, fun _ => rfl⟩
      rcases Nat.lt_or_ge (b.id + 1) (leaders c marks).length with h | h
      · exact h
      · -- the last block ends with the last instruction, which does not fall through
        rw [getElem?_splitAt, List.getElem?_eq_none h] at hb
        obtain ⟨s, -, hs⟩ := Option.map_eq_some_iff.mp hb
        rw [← hs] at hi
        rw [Array.back?] at hlast
        simp only [Option.getD_none, Code.size, Code.instruction?, hlast, Option.map_some, Option.some.injEq] at hi
        rw [hi, hf] at hfalls
        cases hfalls
  · obtain ⟨hs, ht, hk⟩ := guards_cases he
    refine ⟨hs, ht ▸ blockAt_lt hm ?_, fun h => ?_⟩
    · exact List.mem_append_right _ (List.mem_flatMap.mpr ⟨h, hh, List.mem_cons_self ..⟩)
    · rw [hk] at h; cases h

theorem leaders_zero {marks : List Nat} (h : 0 < c.size) : (leaders c marks)[0]? = some 0 := by
  obtain ⟨k, hk, h0⟩ := List.getElem_of_mem (mem_leaders.mpr ⟨h, .inl rfl⟩ : 0 ∈ leaders c marks)
  cases k with
  | zero => rw [List.getElem?_eq_getElem hk, h0]
  | succ k =>
    have := List.pairwise_iff_getElem.mp (pairwise_leaders (c := c) marks) 0 (k + 1) (by omega) hk (by omega)
    omega

/-- The blocks lie end to end before any edge is drawn. -/
theorem laid_splitAt (hsize : 0 < c.size) (marks : List Nat) :
    Laid c ⟨(splitAt c (leaders c marks)).toArray, [], numbered_splitAt c _⟩ := by
  refine ⟨?_, ?_, ?_, nofun, nofun, nofun⟩
  · rw [List.getElem?_toArray, getElem?_splitAt, leaders_zero hsize]; rfl
  · intro id b hb
    rw [List.getElem?_toArray, getElem?_splitAt] at hb
    obtain ⟨s, hs, rfl⟩ := Option.map_eq_some_iff.mp hb
    cases hs' : (leaders c marks)[id + 1]? with
    | none => exact (mem_leaders.mp (List.mem_of_getElem? hs)).1
    | some t =>
      obtain ⟨h1, rfl⟩ := List.getElem?_eq_some_iff.mp hs
      obtain ⟨h2, rfl⟩ := List.getElem?_eq_some_iff.mp hs'
      exact List.pairwise_iff_getElem.mp (pairwise_leaders (c := c) marks) id (id + 1) h1 h2 (by omega)
  · intro id b hb
    rw [List.getElem?_toArray, getElem?_splitAt] at hb ⊢
    obtain ⟨s, -, rfl⟩ := Option.map_eq_some_iff.mp hb
    rw [Option.map_map, Function.comp_def]
    cases (leaders c marks)[id + 1]? <;> rfl

theorem laid_of_build {g : Graph} (h : build c = .ok g) : Laid c g := by
  obtain ⟨last, marks, hlast, hfalls, hm, rfl⟩ := build_eq_ok h
  have hsize : 0 < c.size := by
    rcases Nat.eq_zero_or_pos c.size with h0 | h0
    · rw [Array.back?, Array.getElem?_eq_none (by unfold Code.size at h0; omega)] at hlast
      cases hlast
    · exact h0
  have hedge := fun e (he : e ∈ _) => edge_cases hlast hfalls hm (e := e) he
  have hn := size_blocks_ofStarts (c := c) (leaders c marks)
  have hl := laid_splitAt hsize marks
  exact ⟨hl.first, hl.occupied, hl.next, fun he => hn ▸ (hedge _ he).1, fun he => hn ▸ (hedge _ he).2.1,
    fun he => (hedge _ he).2.2⟩

end

end Graph

theorem Block.mem_indices {b : Block} {i : Nat} : i ∈ b.indices ↔ b.start ≤ i ∧ i < b.stop := by
  rw [indices, List.mem_range'_1]; omega

/-! ## Covering the code -/

namespace Graph

theorem foldr_insertByStart : ∀ (bs : List Block), (bs.Pairwise fun a b => a.start < b.start) →
    bs.foldr insertByStart [] = bs
  | [], _ => rfl
  | [b], _ => rfl
  | b :: b' :: bs, h => by
    obtain ⟨hb, h⟩ := List.pairwise_cons.mp h
    rw [List.foldr_cons, foldr_insertByStart (b' :: bs) h]
    exact if_pos (.inl (hb b' (List.mem_cons_self ..)))

namespace Laid

section
variable {c : Code} {g : Graph} (hl : Laid c g)
include hl

theorem stop_le_start {id k : Nat} {b b' : Block} (hb : g.blocks[id]? = some b)
    (hb' : g.blocks[id + 1 + k]? = some b') : b.stop ≤ b'.start := by
  induction k generalizing b' with
  | zero => rw [hl.next hb, hb']; exact Nat.le_refl _
  | succ k ih =>
    have hlt := (Array.getElem?_eq_some_iff.mp hb').1
    obtain ⟨m, hm⟩ : ∃ m, g.blocks[id + 1 + k]? = some m := ⟨_, Array.getElem?_eq_getElem (by omega)⟩
    have h1 := ih hm
    have h2 := hl.occupied hm
    have h3 := hl.next hm
    rw [show id + 1 + k + 1 = id + 1 + (k + 1) by omega, hb'] at h3
    simp only [Option.map_some, Option.getD_some] at h3
    omega

theorem stop_le_size {id : Nat} {b : Block} (hb : g.blocks[id]? = some b) : b.stop ≤ c.size := by
  have hid := (Array.getElem?_eq_some_iff.mp hb).1
  obtain ⟨m, hm⟩ : ∃ m, g.blocks[g.blocks.size - 1]? = some m := ⟨_, Array.getElem?_eq_getElem (by omega)⟩
  have hstop := hl.next hm
  rw [Array.getElem?_eq_none (by omega)] at hstop
  rcases Nat.lt_or_ge (id + 1) g.blocks.size with h | h
  · have h1 := hl.stop_le_start (k := g.blocks.size - 1 - (id + 1)) hb
      (by rw [show id + 1 + (g.blocks.size - 1 - (id + 1)) = g.blocks.size - 1 by omega]; exact hm)
    have h2 := hl.occupied hm
    exact Nat.le_trans (Nat.le_trans h1 (Nat.le_of_lt h2)) (Nat.le_of_eq hstop)
  · rw [show g.blocks.size - 1 = id by omega, hb] at hm
    cases hm
    exact Nat.le_of_eq hstop

theorem block_unique {i id id' : Nat} {b b' : Block} (hb : g.blocks[id]? = some b) (hi : i ∈ b.indices)
    (hb' : g.blocks[id']? = some b') (hi' : i ∈ b'.indices) : id = id' := by
  rw [Block.mem_indices] at hi hi'
  rcases Nat.lt_trichotomy id id' with h | h | h
  · have := hl.stop_le_start (k := id' - (id + 1)) hb (by rwa [show id + 1 + (id' - (id + 1)) = id' by omega])
    omega
  · exact h
  · have := hl.stop_le_start (k := id - (id' + 1)) hb' (by rwa [show id' + 1 + (id - (id' + 1)) = id by omega])
    omega

theorem start_mem_indices {id : Nat} {b : Block} (hb : g.blocks[id]? = some b) : b.start ∈ b.indices :=
  Block.mem_indices.mpr ⟨Nat.le_refl _, hl.occupied hb⟩

/-! ## Scan order -/

theorem block_first {id : Nat} {b : Block} (hb : g.blocks[id]? = some b) (h : 0 ∈ b.indices) :
    id = 0 ∧ b.start = 0 := by
  obtain ⟨b₀, hb₀, hstart⟩ := Option.map_eq_some_iff.mp hl.first
  have hocc := hl.occupied hb₀
  have hid := hl.block_unique hb h hb₀ (Block.mem_indices.mpr ⟨by omega, by omega⟩)
  subst hid
  rw [hb] at hb₀
  cases hb₀
  exact ⟨rfl, hstart⟩

theorem block_next {id id' : Nat} {b b' : Block} (hb : g.blocks[id]? = some b) (hb' : g.blocks[id']? = some b')
    (h : b.stop ∈ b'.indices) : id' = id + 1 ∧ b'.start = b.stop := by
  have hstop := hl.next hb
  have hsize := hl.stop_le_size hb'
  have hlt := (Block.mem_indices.mp h).2
  cases hn : g.blocks[id + 1]? with
  | none =>
    rw [hn] at hstop
    simp only [Option.map_none, Option.getD_none] at hstop
    omega
  | some b₁ =>
    rw [hn] at hstop
    simp only [Option.map_some, Option.getD_some] at hstop
    have hocc := hl.occupied hn
    have hid := hl.block_unique hb' h hn (Block.mem_indices.mpr ⟨by omega, by omega⟩)
    subst hid
    rw [hb'] at hn
    cases hn
    exact ⟨rfl, hstop.symm⟩

theorem flatMap_indices : ∀ (bs : List Block) (id : Nat), bs = g.blocks.toList.drop id →
    bs.flatMap Block.indices = List.range' ((bs.head?.map Block.start).getD c.size)
      (c.size - (bs.head?.map Block.start).getD c.size)
  | [], _, _ => by simp
  | b :: bs, id, h => by
    have hb : g.blocks[id]? = some b := by
      have := congrArg List.head? h
      rwa [List.head?_cons, List.head?_drop, Array.getElem?_toList, eq_comm] at this
    have hbs : bs = g.blocks.toList.drop (id + 1) := by
      have := congrArg List.tail h
      rwa [List.tail_cons, List.tail_drop] at this
    have hstop : (bs.head?.map Block.start).getD c.size = b.stop := by
      rw [hbs, List.head?_drop, Array.getElem?_toList]; exact (hl.next hb).symm
    have h1 := hl.occupied hb
    have h2 := hl.stop_le_size hb
    rw [List.flatMap_cons, flatMap_indices bs (id + 1) hbs, hstop, Block.indices,
      show List.range' b.stop (c.size - b.stop) = List.range' (b.start + (b.stop - b.start)) (c.size - b.stop) by
        rw [show b.start + (b.stop - b.start) = b.stop by omega],
      List.range'_append_1]
    simp only [List.head?_cons, Option.map_some, Option.getD_some]
    rw [show b.stop - b.start + (c.size - b.stop) = c.size - b.start by omega]

theorem orderedBlocks_eq : g.orderedBlocks = g.blocks.toList := by
  refine foldr_insertByStart _ (List.pairwise_iff_getElem.mpr fun i j hi hj hij => ?_)
  simp only [Array.length_toList] at hi hj
  simp only [Array.getElem_toList]
  have h1 := hl.occupied (Array.getElem?_eq_getElem hi)
  have h2 := hl.stop_le_start (k := j - (i + 1)) (Array.getElem?_eq_getElem hi)
    (by rw [show i + 1 + (j - (i + 1)) = j by omega]; exact Array.getElem?_eq_getElem hj)
  omega

/-- Scan order is the order of the instructions. -/
theorem index_orderedLocations : g.orderedLocations.map Location.index = List.range c.size := by
  have hfirst : (g.blocks.toList.head?.map Block.start).getD c.size = 0 := by
    rw [List.head?_eq_getElem?, Array.getElem?_toList, hl.first]; rfl
  have := hl.flatMap_indices g.blocks.toList 0 rfl
  rw [hfirst, Nat.sub_zero, ← List.range_eq_range'] at this
  rw [← this, orderedLocations, hl.orderedBlocks_eq, List.map_flatMap]
  simp only [List.map_map, Function.comp_def, List.map_id']

theorem mem_orderedLocations {l : Location} :
    l ∈ g.orderedLocations ↔ ∃ b, g.blocks[l.block]? = some b ∧ l.index ∈ b.indices := by
  rw [orderedLocations, hl.orderedBlocks_eq]
  simp only [List.mem_flatMap, List.mem_map]
  constructor
  · rintro ⟨b, hb, i, hi, rfl⟩
    obtain ⟨id, hid⟩ := List.mem_iff_getElem?.mp hb
    rw [Array.getElem?_toList] at hid
    exact ⟨b, by rw [id_of_getElem? hid, hid], hi⟩
  · rintro ⟨b, hb, hi⟩
    refine ⟨b, List.mem_of_getElem? (Array.getElem?_toList.trans hb), l.index, hi, ?_⟩
    rw [id_of_getElem? hb]

theorem index_lt {l : Location} (h : l ∈ g.orderedLocations) : l.index < c.size := by
  have := List.mem_map_of_mem (f := Location.index) h
  rwa [hl.index_orderedLocations, List.mem_range] at this

theorem exists_location {i : Nat} (hi : i < c.size) : ∃ id, ⟨i, id⟩ ∈ g.orderedLocations := by
  have : i ∈ g.orderedLocations.map Location.index := by
    rw [hl.index_orderedLocations]; exact List.mem_range.mpr hi
  obtain ⟨l, hm, rfl⟩ := List.mem_map.mp this
  exact ⟨l.block, hm⟩

end

end Laid

end Graph

end SinkCheck
