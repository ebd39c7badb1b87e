import SinkCheck.Proofs.ControlFlow

/-!
# Guarded code

A handler guards a block iff the first instruction of the block lies in its range. Ranges start at the start of
a block, so nothing in a range goes unguarded; and a range that does not stop inside an instruction stops where
a block does, so nothing outside of it is guarded.
-/

namespace SinkCheck

def Handler.Covers (h : Handler) (p : Nat) : Prop :=
  h.start ≤ p ∧ p < h.stop

def Code.StopsCleanly (c : Code) (h : Handler) : Prop :=
  (∃ i, c.position? i = some h.stop) ∨ ∀ i p, c.position? i = some p → p < h.stop

theorem Graph.Laid.position?_of_mem {c : Code} {g : Graph} (hl : g.Laid c) {id i : Nat} {b : Block}
    (hb : g.blocks[id]? = some b) (hi : i ∈ b.indices) : ∃ p, c.position? i = some p := by
  have hstop := hl.stop_le_size hb
  have hlt := (Block.mem_indices.mp hi).2
  exact Code.position?_of_lt (by omega)

namespace Graph

def StartsAt (g : Graph) (c : Code) (id p : Nat) : Prop :=
  ∃ b, g.blocks[id]? = some b ∧ c.position? b.start = some p

/-- What a graph says about the handlers: an edge to each from the blocks that start in its range, which are the
code in its range. -/
structure Guarding (c : Code) (g : Graph) : Prop where
  edges : ∀ source target, ⟨source, target, .exception⟩ ∈ g.edges ↔
    ∃ h ∈ c.handlers, g.StartsAt c target h.entry ∧ ∃ p, g.StartsAt c source p ∧ h.Covers p
  flags : ∀ (id : Nat) b, g.blocks[id]? = some b →
    (b.isHandler = true ↔ ∃ h ∈ c.handlers, c.position? b.start = some h.entry)
  covered : ∀ h ∈ c.handlers, ∀ i p, c.position? i = some p → h.Covers p →
    ∃ (source target : Nat) (b : Block), g.blocks[source]? = some b ∧ i ∈ b.indices ∧
      g.StartsAt c target h.entry ∧ ⟨source, target, .exception⟩ ∈ g.edges
  nothingElse : ∀ h ∈ c.handlers, c.StopsCleanly h → ∀ (id : Nat) b p, g.blocks[id]? = some b →
    c.position? b.start = some p → h.Covers p → ∀ i ∈ b.indices, ∃ q, c.position? i = some q ∧ h.Covers q

section
variable {c : Code} {marks : List Nat}

theorem mem_guards {starts : List Nat} {h : Handler} {source target : Nat} {kind : EdgeKind} :
    ⟨source, target, kind⟩ ∈ guards c starts (splitAt c starts) h ↔
      kind = .exception ∧ target = blockAt c starts h.entry ∧
        ∃ b p, (splitAt c starts)[source]? = some b ∧ c.position? b.start = some p ∧ h.Covers p := by
  simp only [guards, List.mem_filterMap, Option.ite_none_right_eq_some, Option.some.injEq, Edge.mk.injEq,
    Option.any_eq_true_iff_get, Handler.Covers]
  constructor
  · rintro ⟨b, hb, ⟨hsome, hcover⟩, rfl, rfl, rfl⟩
    obtain ⟨id, hid⟩ := List.mem_iff_getElem?.mp hb
    refine ⟨rfl, rfl, b, _, id_of_splitAt hid ▸ hid, (Option.some_get hsome).symm, ?_⟩
    simpa using hcover
  · rintro ⟨rfl, rfl, b, p, hb, hp, hcover⟩
    refine ⟨b, List.mem_of_getElem? hb, ?_, id_of_splitAt hb, rfl, rfl⟩
    simp [hp, hcover]

theorem leader_of_stop (hc : c.Ascending) {h : Handler} (hh : h ∈ c.handlers) {i : Nat}
    (hi : c.position? i = some h.stop) : i ∈ leaders c marks := by
  have hx := hc.indexOf?_eq_some.mpr hi
  apply mem_leaders.mpr
  refine ⟨lt_of_indexOf? hx, .inr (.inr (.inr ?_))⟩
  exact List.mem_filterMap.mpr ⟨h, hh, hx⟩

/-- A leader is no later than the start of a block that goes on behind it. -/
theorem le_start_of_leader {id i j : Nat} {b : Block} (hb : (ofStarts c (leaders c marks)).blocks[id]? = some b)
    (hj : j ∈ b.indices) (hlead : i ∈ leaders c marks) (hij : i ≤ j) : i ≤ b.start := by
  by_cases hlt : b.start ≤ i
  · have hmem := (Block.mem_indices.mp hj).2
    have := eq_start_of_leader hb (Block.mem_indices.mpr ⟨hlt, by omega⟩) hlead
    omega
  · omega

theorem isEntry_iff (hc : c.Ascending) {i : Nat} :
    splitAt.isEntry c i = true ↔ ∃ h ∈ c.handlers, c.position? i = some h.entry := by
  simp [splitAt.isEntry, hc.indexOf?_eq_some]

theorem anchor_of_handler {h : Handler} (hh : h ∈ c.handlers) : h.entry ∈ anchors c ∧ h.start ∈ anchors c :=
  ⟨mem_anchors.mpr (.inr ⟨h, hh, .inl rfl⟩), mem_anchors.mpr (.inr ⟨h, hh, .inr rfl⟩)⟩

theorem mem_exceptions (hc : c.Ascending) (hm : (anchors c).mapM (boundary c) = .ok marks) {source target : Nat} :
    ⟨source, target, .exception⟩ ∈ (ofStarts c (leaders c marks)).edges ↔
      ∃ h ∈ c.handlers, (ofStarts c (leaders c marks)).StartsAt c target h.entry ∧
        ∃ p, (ofStarts c (leaders c marks)).StartsAt c source p ∧ h.Covers p := by
  have hblocks : ∀ id : Nat, (splitAt c (leaders c marks))[id]? = (ofStarts c (leaders c marks)).blocks[id]? := by
    simp [ofStarts]
  have htarget : ∀ h ∈ c.handlers, target = blockAt c (leaders c marks) h.entry ↔
      (ofStarts c (leaders c marks)).StartsAt c target h.entry := by
    intro h hh
    rw [eq_comm]
    exact blockAt_eq_iff hc hm (anchor_of_handler hh).1 target
  rw [mem_edges_ofStarts]
  constructor
  · rintro (⟨id, b, -, -, he⟩ | ⟨h, hh, he⟩)
    · -- a jump or a fall is no exception
      obtain ⟨i, -, ⟨p, -, he⟩ | ⟨-, he⟩⟩ := mem_exits.mp he
      · simp only [Edge.mk.injEq] at he
        split at he <;> simp at he
      · simp at he
    · obtain ⟨-, ht, b, p, hb, hp, hcover⟩ := mem_guards.mp he
      exact ⟨h, hh, (htarget h hh).mp ht, p, ⟨b, (hblocks _).symm.trans hb, hp⟩, hcover⟩
  · rintro ⟨h, hh, ht, p, ⟨b, hb, hp⟩, hcover⟩
    exact .inr ⟨h, hh, mem_guards.mpr ⟨rfl, (htarget h hh).mpr ht, b, p, (hblocks _).trans hb, hp, hcover⟩⟩

end

section
variable {c : Code} {g : Graph} (hc : c.Ascending) (hg : build c = .ok g)
include hc hg

/-- The block around an instruction in a range starts in the range. -/
theorem covers_start {h : Handler} (hh : h ∈ c.handlers) {id i p q : Nat} {b : Block} (hb : g.blocks[id]? = some b)
    (hi : i ∈ b.indices) (hp : c.position? i = some p) (hq : c.position? b.start = some q) (hcover : h.Covers p) :
    h.Covers q := by
  obtain ⟨last, marks, -, -, hm, rfl⟩ := build_eq_ok hg
  obtain ⟨j, -, hj⟩ := mapM_ok_mem hm h.start (anchor_of_handler hh).2
  have hstart := Code.position?_of_indexOf? (boundary_eq_ok hj)
  have hlead := leader_of_anchor hc hm (anchor_of_handler hh).2 hstart
  have hji := hc.index_le hcover.1 hstart hp
  constructor
  · exact hc.position_le (le_start_of_leader hb hi hlead hji) hstart hq
  · exact Nat.lt_of_le_of_lt (hc.position_le (Block.mem_indices.mp hi).1 hq hp) hcover.2

/-- A block that starts in a range which stops cleanly lies in the range. -/
theorem covers_inside {h : Handler} (hh : h ∈ c.handlers) (hstop : c.StopsCleanly h) {id i p q : Nat} {b : Block}
    (hb : g.blocks[id]? = some b) (hi : i ∈ b.indices) (hp : c.position? b.start = some p)
    (hq : c.position? i = some q) (hcover : h.Covers p) : h.Covers q := by
  constructor
  · exact Nat.le_trans hcover.1 (hc.position_le (Block.mem_indices.mp hi).1 hp hq)
  · rcases hstop with ⟨j, hj⟩ | hbeyond
    · by_contra hle
      obtain ⟨last, marks, -, -, hm, rfl⟩ := build_eq_ok hg
      have hji := hc.index_le (Nat.le_of_not_lt hle) hj hq
      -- the block that starts at the stop would have to start at or before this one
      have hle := hc.position_le (le_start_of_leader hb hi (leader_of_stop hc hh hj) hji) hj hp
      have := hcover.2
      omega
    · exact hbeyond i q hq

/-- **Handlers guard the code in their range.** -/
theorem guarding_of_build : g.Guarding c := by
  have hl := laid_of_build hg
  obtain ⟨last, marks, -, -, hm, heq⟩ := build_eq_ok hg
  have hedges : ∀ source target, ⟨source, target, .exception⟩ ∈ g.edges ↔ ∃ h ∈ c.handlers,
      g.StartsAt c target h.entry ∧ ∃ p, g.StartsAt c source p ∧ h.Covers p := by
    intro source target
    rw [heq]
    exact mem_exceptions hc hm
  refine ⟨hedges, ?_, ?_, ?_⟩
  · intro id b hb
    rw [heq, getElem?_blocks_ofStarts] at hb
    obtain ⟨s, -, rfl⟩ := Option.map_eq_some_iff.mp hb
    exact isEntry_iff hc
  · intro h hh i p hp hcover
    obtain ⟨id, hloc⟩ := hl.exists_location (Code.lt_of_position? hp)
    obtain ⟨b, hb, hi⟩ := hl.mem_orderedLocations.mp hloc
    obtain ⟨q, hq⟩ := hl.position?_of_mem hb (hl.start_mem_indices hb)
    have htarget := (blockAt_eq_iff hc hm (anchor_of_handler hh).1 _).mp rfl
    rw [← heq] at htarget
    refine ⟨id, _, b, hb, hi, htarget, (hedges _ _).mpr ⟨h, hh, htarget, q, ⟨b, hb, hq⟩, ?_⟩⟩
    exact covers_start hc hg hh hb hi hp hq hcover
  · intro h hh hstop id b p hb hp hcover i hi
    obtain ⟨q, hq⟩ := hl.position?_of_mem hb hi
    exact ⟨q, hq, covers_inside hc hg hh hstop hb hi hp hq hcover⟩

end

end Graph

namespace Sample

/-- Two ranges that overlap, of which one stops inside the `goto` and the other takes in its own handler, and one
that stops before it starts. -/
def shielded : Code where
  body := #[⟨0, .nop⟩, ⟨1, .load .int 0⟩, ⟨2, .store .int 1⟩, ⟨3, .goto 8⟩, ⟨6, .shuffle .pop⟩, ⟨7, .nop⟩,
    ⟨8, .leave none⟩]
  handlers := [⟨1, 5, 6, none⟩, ⟨2, 100, 6, some "java/io/IOException"⟩, ⟨3, 2, 6, none⟩]

def shieldedGraph : Graph where
  blocks := #[⟨0, 0, 1, false⟩, ⟨1, 1, 2, false⟩, ⟨2, 2, 3, false⟩, ⟨3, 3, 4, false⟩, ⟨4, 4, 6, true⟩, ⟨5, 6, 7, false⟩]
  edges := [⟨0, 1, .fallThrough⟩, ⟨1, 2, .fallThrough⟩, ⟨2, 3, .fallThrough⟩, ⟨3, 5, .branch⟩, ⟨4, 5, .fallThrough⟩,
    ⟨1, 4, .exception⟩, ⟨2, 4, .exception⟩, ⟨3, 4, .exception⟩, ⟨4, 4, .exception⟩, ⟨5, 4, .exception⟩]

end Sample

theorem Graph.guarding_shielded : Sample.shielded.Ascending ∧ build Sample.shielded = .ok Sample.shieldedGraph ∧
    Sample.shieldedGraph.Guarding Sample.shielded := by
  have hc : Sample.shielded.Ascending := by decide
  have hg : build Sample.shielded = .ok Sample.shieldedGraph := by cbv
  exact ⟨hc, hg, guarding_of_build hc hg⟩

end SinkCheck
