import SinkCheck.Proofs.Paths

/-!
# Built graphs are the control flow of the code

Jumps land on the first instruction of a block and leave from its last, so the edges between blocks are
exactly the jumps and the falls between instructions.
-/

namespace SinkCheck

/-! ## Positions -/

namespace Code

def Ascending (c : Code) : Prop :=
  c.body.toList.Pairwise fun h h' => h.position < h'.position

instance (c : Code) : Decidable c.Ascending :=
  inferInstanceAs (Decidable (List.Pairwise _ _))

theorem position?_eq_some {c : Code} {i p : Nat} : c.position? i = some p ↔ ∃ h, c.body[i]? = some h ∧ h.position = p := by
  simp [position?]

theorem Ascending.position_lt {c : Code} (hc : c.Ascending) {i j p q : Nat} (hij : i < j)
    (hp : c.position? i = some p) (hq : c.position? j = some q) : p < q := by
  obtain ⟨h, hi, rfl⟩ := position?_eq_some.mp hp
  obtain ⟨h', hj, rfl⟩ := position?_eq_some.mp hq
  obtain ⟨hi, rfl⟩ := Array.getElem?_eq_some_iff.mp hi
  obtain ⟨hj, rfl⟩ := Array.getElem?_eq_some_iff.mp hj
  have := List.pairwise_iff_getElem.mp hc i j (by simpa using ‹_›) (by simpa using ‹_›) hij
  simpa using this

theorem position?_of_lt {c : Code} {i : Nat} (hi : i < c.size) : ∃ p, c.position? i = some p :=
  ⟨_, position?_eq_some.mpr ⟨_, Array.getElem?_eq_getElem hi, rfl⟩⟩

theorem lt_of_position? {c : Code} {i p : Nat} (hp : c.position? i = some p) : i < c.size := by
  obtain ⟨h, hi, -⟩ := position?_eq_some.mp hp
  exact (Array.getElem?_eq_some_iff.mp hi).1

theorem Ascending.position_le {c : Code} (hc : c.Ascending) {i j p q : Nat} (hij : i ≤ j)
    (hp : c.position? i = some p) (hq : c.position? j = some q) : p ≤ q := by
  rcases Nat.eq_or_lt_of_le hij with rfl | hij
  · rw [hp] at hq
    cases hq
    exact Nat.le_refl p
  · exact Nat.le_of_lt (hc.position_lt hij hp hq)

theorem Ascending.index_le {c : Code} (hc : c.Ascending) {i j p q : Nat} (hpq : p ≤ q)
    (hp : c.position? i = some p) (hq : c.position? j = some q) : i ≤ j := by
  by_contra hij
  have := hc.position_lt (Nat.lt_of_not_le hij) hq hp
  omega

/-- Halving the window keeps the instruction in it. -/
theorem Ascending.narrow_eq {c : Code} (hc : c.Ascending) {i p : Nat} (hp : c.position? i = some p)
    {rounds base size : Nat} (hrounds : size ≤ rounds + 1) (hlo : base ≤ i) (hhi : i < base + size)
    (hsize : base + size ≤ c.size) : c.narrow p rounds base size = i := by
  induction rounds generalizing base size with
  | zero =>
    rw [narrow]
    omega
  | succ rounds ih =>
    rw [narrow]
    split
    · omega
    · obtain ⟨q, hq⟩ : ∃ q, c.position? (base + size / 2) = some q := position?_of_lt (by omega)
      simp only [hq, Option.any_some, decide_eq_true_eq]
      split
      · rename_i hlt
        have hnot : ¬ base + size / 2 ≤ i := fun hle => Nat.not_le_of_lt hlt (hc.position_le hle hq hp)
        exact ih (by omega) hlo (by omega) (by omega)
      · rename_i hle
        have hmid : base + size / 2 ≤ i := hc.index_le (Nat.le_of_not_lt hle) hq hp
        exact ih (by omega) hmid (by omega) (by omega)

theorem Ascending.indexOf?_eq_some {c : Code} (hc : c.Ascending) {i p : Nat} :
    c.indexOf? p = some i ↔ c.position? i = some p := by
  constructor
  · exact position?_of_indexOf?
  · intro hp
    have hlt := lt_of_position? hp
    have hfound : c.narrow p c.size 0 c.size = i := hc.narrow_eq hp (by omega) (by omega) (by omega) (by omega)
    simp [indexOf?, hfound, hp]

end Code

namespace Graph

section
variable {c : Code} {marks : List Nat}

/-! ## Leaders start blocks -/

theorem eq_start_of_leader {id i : Nat} {b : Block} (hb : (ofStarts c (leaders c marks)).blocks[id]? = some b)
    (hi : i ∈ b.indices) (hlead : i ∈ leaders c marks) : i = b.start := by
  rw [getElem?_blocks_ofStarts] at hb
  obtain ⟨s, hs, rfl⟩ := Option.map_eq_some_iff.mp hb
  rw [Block.mem_indices] at hi
  obtain ⟨hid, rfl⟩ := List.getElem?_eq_some_iff.mp hs
  obtain ⟨k, hk, rfl⟩ := List.getElem_of_mem hlead
  have hmono := List.pairwise_iff_getElem.mp (pairwise_leaders (c := c) marks)
  rcases Nat.lt_trichotomy k id with h | rfl | h
  · have := hmono k id hk hid h
    exact absurd hi.1 (Nat.not_le.mpr this)
  · rfl
  · -- a leader behind the start is not before the next start
    have hnext : (leaders c marks)[id + 1]? = some (leaders c marks)[id + 1] := List.getElem?_eq_getElem (by omega)
    have hle : (leaders c marks)[id + 1] ≤ (leaders c marks)[k] := by
      rcases Nat.eq_or_lt_of_le (Nat.succ_le_of_lt h) with rfl | h'
      · exact Nat.le_refl _
      · exact Nat.le_of_lt (hmono (id + 1) k (by omega) hk h')
    have hlt := hi.2
    rw [hnext, Option.getD_some] at hlt
    exact absurd hlt (Nat.not_lt.mpr hle)

theorem leader_of_anchor (hc : c.Ascending) (hm : (anchors c).mapM (boundary c) = .ok marks) {i p : Nat}
    (hp : p ∈ anchors c) (hi : c.position? i = some p) : i ∈ leaders c marks := by
  obtain ⟨j, hj, hb⟩ := mapM_ok_mem hm p hp
  have hx := boundary_eq_ok hb
  rw [hc.indexOf?_eq_some.mpr hi] at hx
  cases hx
  exact mem_leaders.mpr ⟨lt_of_indexOf? (boundary_eq_ok hb), .inr (.inl hj)⟩

theorem leader_after_end {i : Nat} {j : Instruction} (hi : c.instruction? i = some j) (hend : j.endsBlock = true)
    (hlt : i + 1 < c.size) : i + 1 ∈ leaders c marks := by
  refine mem_leaders.mpr ⟨hlt, .inr (.inr (.inl ?_))⟩
  simp [afterEnds, hlt, hi, hend]

theorem mem_anchors {p : Nat} : p ∈ anchors c ↔
    (∃ h ∈ c.body, p ∈ h.instruction.branchTargets) ∨ ∃ h ∈ c.handlers, p = h.entry ∨ p = h.start := by
  simp [anchors]

/-! ## Edges -/

theorem blockAt_eq_iff (hc : c.Ascending) (hm : (anchors c).mapM (boundary c) = .ok marks) {p : Nat}
    (hp : p ∈ anchors c) (id : Nat) : blockAt c (leaders c marks) p = id ↔
      ∃ b, (ofStarts c (leaders c marks)).blocks[id]? = some b ∧ c.position? b.start = some p := by
  obtain ⟨i, -, hb⟩ := mapM_ok_mem hm p hp
  have hx := boundary_eq_ok hb
  have hlead := leader_of_anchor hc hm hp (Code.position?_of_indexOf? hx)
  have hnodup : (leaders c marks).Nodup := (pairwise_leaders marks).imp Nat.ne_of_lt
  rw [blockAt, hx, Option.getD_some]
  simp only [getElem?_blocks_ofStarts]
  constructor
  · rintro rfl
    exact ⟨_, congrArg (Option.map _) (List.getElem?_idxOf hlead), Code.position?_of_indexOf? hx⟩
  · rintro ⟨b, hb, hpos⟩
    obtain ⟨s, hs, rfl⟩ := Option.map_eq_some_iff.mp hb
    rw [← hc.indexOf?_eq_some, hx] at hpos
    cases hpos
    obtain ⟨hid, hs⟩ := List.getElem?_eq_some_iff.mp hs
    rw [← hs]
    exact hnodup.idxOf_getElem id hid

end

theorem nodup_eraseDups {α : Type} [DecidableEq α] : ∀ l : List α, l.eraseDups.Nodup
  | [] => by simp
  | a :: l => by
    rw [List.eraseDups_cons, List.nodup_cons]
    constructor
    · simp [List.mem_eraseDups]
    · exact nodup_eraseDups (l.filter fun b => !b == a)
termination_by l => l.length
decreasing_by exact Nat.lt_succ_of_le (List.length_filter_le ..)

/-! ## The whole graph -/

theorem Laid.lastInstruction?_eq {c : Code} {g : Graph} (hl : g.Laid c) {id : Nat} {b : Block}
    (hb : g.blocks[id]? = some b) : g.lastInstruction? c id = c.instruction? (b.stop - 1) := by
  have hocc := hl.occupied hb
  simp [lastInstruction?, hb, Block.last?, hocc]

theorem Laid.ofParts_eq {c : Code} {g : Graph} (hl : g.Laid c) : ofParts g.blocks g.edges = .ok g := by
  have hslots : g.blocks.toList.zipIdx.find? (fun p => p.1.id != p.2) = none := by
    rw [List.find?_eq_none]
    rintro ⟨b, slot⟩ hb
    rw [List.mem_zipIdx_iff_getElem?, Array.getElem?_toList] at hb
    have hid : b.id = slot := id_of_getElem? hb
    simp [hid]
  have hedges : g.edges.find? (fun e => !(e.source < g.blocks.size && e.target < g.blocks.size)) = none := by
    rw [List.find?_eq_none]
    intro e he
    simp [hl.source he, hl.target he]
  unfold ofParts
  split
  · rename_i hsome
    rw [hslots] at hsome
    cases hsome
  · rw [hedges]

/-- What a graph says about the code: blocks cover it in order, jumps enter a block at its start and leave it
at its end, and there is an edge for every jump and every fall, and no other but those to handlers. -/
structure ControlFlow (c : Code) (g : Graph) : Prop where
  named : ∀ (id : Nat) b, g.blocks[id]? = some b → b.id = id
  parts : ofParts g.blocks g.edges = .ok g
  first : g.blocks[0]?.map Block.start = some 0
  occupied : ∀ (id : Nat) b, g.blocks[id]? = some b → b.start < b.stop
  consecutive : ∀ (id : Nat) b, g.blocks[id]? = some b → b.stop = (g.blocks[id + 1]?.map Block.start).getD c.size
  scan : g.orderedLocations.map Location.index = List.range c.size
  located : ∀ l ∈ g.orderedLocations, ∃ b, g.blocks[l.block]? = some b ∧ l.index ∈ b.indices
  ends : ∀ (id : Nat) b i j, g.blocks[id]? = some b → i ∈ b.indices → c.instruction? i = some j →
    j.endsBlock = true → b.last? = some i
  starts : ∀ (id : Nat) b i p, g.blocks[id]? = some b → i ∈ b.indices → c.position? i = some p →
    ((∃ h ∈ c.body, p ∈ h.instruction.branchTargets) ∨ ∃ h ∈ c.handlers, p = h.entry ∨ p = h.start) → i = b.start
  lands : ∀ source i p, g.lastInstruction? c source = some i → p ∈ i.branchTargets →
    ∃ (target : Nat) (b : Block), g.blocks[target]? = some b ∧ c.position? b.start = some p
  jumps : ∀ source target kind, kind = .branch ∨ kind = .switch → (⟨source, target, kind⟩ ∈ g.edges ↔
    ∃ i b p, g.lastInstruction? c source = some i ∧ g.blocks[target]? = some b ∧ c.position? b.start = some p ∧
      p ∈ i.branchTargets ∧ (kind = .switch ↔ i.isSwitch = true))
  falls : ∀ source target, ⟨source, target, .fallThrough⟩ ∈ g.edges ↔
    ∃ i, g.lastInstruction? c source = some i ∧ i.fallsThrough = true ∧ target = source + 1 ∧ target < g.blocks.size
  once : g.edges.Nodup

section
variable {c : Code} {marks : List Nat} (hl : (ofStarts c (leaders c marks)).Laid c)
include hl

/-- Edges other than those to handlers are made by the last instruction of their source. -/
theorem mem_edges_iff {e : Edge} (hkind : e.kind ≠ .exception) : e ∈ (ofStarts c (leaders c marks)).edges ↔
    ∃ i, (ofStarts c (leaders c marks)).lastInstruction? c e.source = some i ∧
      ((∃ p ∈ i.branchTargets, e.target = blockAt c (leaders c marks) p ∧
          e.kind = if i.isSwitch then .switch else .branch) ∨
        i.fallsThrough = true ∧ e.target = e.source + 1 ∧ e.kind = .fallThrough) := by
  have hblocks : ∀ id : Nat, (splitAt c (leaders c marks))[id]? = (ofStarts c (leaders c marks)).blocks[id]? := by
    simp [ofStarts]
  rw [mem_edges_ofStarts]
  constructor
  · rintro (⟨id, b, hb, rfl, he⟩ | ⟨h, -, he⟩)
    · obtain ⟨i, hi, he⟩ := mem_exits.mp he
      rw [hblocks] at hb
      rw [← hl.lastInstruction?_eq hb] at hi
      rcases he with ⟨p, hp, rfl⟩ | ⟨hf, rfl⟩
      · exact ⟨i, hi, .inl ⟨p, hp, rfl, rfl⟩⟩
      · exact ⟨i, hi, .inr ⟨hf, rfl, rfl⟩⟩
    · exact absurd (guards_cases he).2.2 hkind
  · rintro ⟨i, hi, he⟩
    cases hb : (ofStarts c (leaders c marks)).blocks[e.source]? with
    | none => simp [lastInstruction?, hb] at hi
    | some b =>
      rw [hl.lastInstruction?_eq hb] at hi
      have hid := id_of_getElem? hb
      refine .inl ⟨e.source, b, (hblocks _).trans hb, hid, mem_exits.mpr ⟨i, hi, ?_⟩⟩
      obtain ⟨source, target, kind⟩ := e
      rw [hid]
      rcases he with ⟨p, hp, ht, hk⟩ | ⟨hf, ht, hk⟩
      · exact .inl ⟨p, hp, by rw [← ht, ← hk]⟩
      · exact .inr ⟨hf, by rw [← ht, ← hk]⟩

theorem mem_jumps (hc : c.Ascending) (hm : (anchors c).mapM (boundary c) = .ok marks) {source target : Nat}
    {kind : EdgeKind} (hkind : kind = .branch ∨ kind = .switch) :
    ⟨source, target, kind⟩ ∈ (ofStarts c (leaders c marks)).edges ↔
      ∃ i b p, (ofStarts c (leaders c marks)).lastInstruction? c source = some i ∧
        (ofStarts c (leaders c marks)).blocks[target]? = some b ∧ c.position? b.start = some p ∧
        p ∈ i.branchTargets ∧ (kind = .switch ↔ i.isSwitch = true) := by
  have hanchor : ∀ {i p}, (ofStarts c (leaders c marks)).lastInstruction? c source = some i →
      p ∈ i.branchTargets → p ∈ anchors c := by
    intro i p hi hp
    obtain ⟨j, -, hj⟩ := Option.bind_eq_some_iff.mp hi
    exact branchTargets_subset_anchors hj hp
  have hswitch : ∀ i : Instruction, (kind = if i.isSwitch then .switch else .branch) ↔
      (kind = .switch ↔ i.isSwitch = true) := by
    intro i
    rcases hkind with rfl | rfl <;> cases i.isSwitch <;> simp
  rw [mem_edges_iff hl (by rcases hkind with rfl | rfl <;> simp)]
  constructor
  · rintro ⟨i, hi, ⟨p, hp, ht, hk⟩ | ⟨-, -, hk⟩⟩
    · obtain ⟨b, hb, hpos⟩ := (blockAt_eq_iff hc hm (hanchor hi hp) target).mp ht.symm
      exact ⟨i, b, p, hi, hb, hpos, hp, (hswitch i).mp hk⟩
    · rcases hkind with rfl | rfl <;> cases hk
  · rintro ⟨i, b, p, hi, hb, hpos, hp, hs⟩
    have ht := (blockAt_eq_iff hc hm (hanchor hi hp) target).mpr ⟨b, hb, hpos⟩
    exact ⟨i, hi, .inl ⟨p, hp, ht.symm, (hswitch i).mpr hs⟩⟩

theorem mem_falls {source target : Nat} : ⟨source, target, .fallThrough⟩ ∈ (ofStarts c (leaders c marks)).edges ↔
    ∃ i, (ofStarts c (leaders c marks)).lastInstruction? c source = some i ∧ i.fallsThrough = true ∧
      target = source + 1 ∧ target < (ofStarts c (leaders c marks)).blocks.size := by
  constructor
  · intro he
    obtain ⟨i, hi, ⟨p, -, -, hk⟩ | ⟨hf, ht, -⟩⟩ := (mem_edges_iff hl (by simp)).mp he
    · split at hk <;> cases hk
    · exact ⟨i, hi, hf, ht, hl.target he⟩
  · rintro ⟨i, hi, hf, ht, -⟩
    exact (mem_edges_iff hl (by simp)).mpr ⟨i, hi, .inr ⟨hf, ht, rfl⟩⟩

end

/-- **A built graph is the control flow of its code.** -/
theorem controlFlow_of_build {c : Code} {g : Graph} (hc : c.Ascending) (h : build c = .ok g) : g.ControlFlow c := by
  have hl := laid_of_build h
  obtain ⟨last, marks, -, -, hm, rfl⟩ := build_eq_ok h
  refine ⟨fun _ _ => id_of_getElem?, hl.ofParts_eq, hl.first, fun _ _ => hl.occupied, fun _ _ => hl.next, hl.index_orderedLocations,
    fun l hloc => hl.mem_orderedLocations.mp hloc, ?_, ?_, ?_, fun _ _ _ => mem_jumps hl hc hm,
    fun _ _ => mem_falls hl, nodup_eraseDups _⟩
  · intro id b i j hb hi hj hend
    have hmem := Block.mem_indices.mp hi
    have hstop := hl.stop_le_size hb
    by_cases hlast : i + 1 < b.stop
    · -- the next instruction would start a block of its own
      have hnext : i + 1 ∈ b.indices := Block.mem_indices.mpr ⟨by omega, hlast⟩
      have := eq_start_of_leader hb hnext (leader_after_end hj hend (by omega))
      omega
    · rw [Block.last?, if_pos (by omega)]
      congr 1
      omega
  · intro id b i p hb hi hp hanchor
    exact eq_start_of_leader hb hi (leader_of_anchor hc hm (mem_anchors.mpr hanchor) hp)
  · intro source i p hi hp
    obtain ⟨j, -, hj⟩ := Option.bind_eq_some_iff.mp hi
    obtain ⟨t, ht, hpos⟩ := (blockAt_eq_iff hc hm (branchTargets_subset_anchors hj hp) _).mp rfl
    exact ⟨_, t, ht, hpos⟩

theorem controlFlow_sample : Sample.code.Ascending ∧ build Sample.code = .ok Sample.graph ∧
    Sample.graph.ControlFlow Sample.code :=
  ⟨by decide, Sample.build_code, controlFlow_of_build (by decide) Sample.build_code⟩

end Graph

end SinkCheck
