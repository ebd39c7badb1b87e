import SinkCheck.Proofs.ControlFlow

/-!
# Which code can be built

A graph is refused for a jump target, a handler entry or a handler start that is no instruction, and for a last
instruction that goes on. Where a handler stops does not matter. Once the anchors are found, every instruction and
every block that is looked up on the way to the edges is there, also if the build is then refused for its last
instruction.
-/

namespace SinkCheck

namespace Code

def Holds (c : Code) (p : Nat) : Prop :=
  ∃ i, c.position? i = some p

def Malformed (c : Code) : Prop :=
  c.size = 0 ∨ (∃ h ∈ c.body, ∃ p ∈ h.instruction.branchTargets, ¬ c.Holds p) ∨
    (∃ h ∈ c.handlers, ¬ c.Holds h.start ∨ ¬ c.Holds h.entry) ∨
    ∃ last, c.body.back? = some last ∧ last.instruction.fallsThrough = true

def withStops (c : Code) (stop : Handler → Nat) : Code :=
  { c with handlers := c.handlers.map fun h => { h with stop := stop h } }

section
variable {c : Code}

theorem indexOf?_of_not_holds {p : Nat} (hp : ¬ c.Holds p) : c.indexOf? p = none := by
  cases hx : c.indexOf? p with
  | none => rfl
  | some i => exact absurd ⟨i, position?_of_indexOf? hx⟩ hp

theorem Ascending.indexOf?_eq_none (hc : c.Ascending) {p : Nat} : c.indexOf? p = none ↔ ¬ c.Holds p := by
  constructor
  · rintro hx ⟨i, hi⟩
    rw [hc.indexOf?_eq_some.mpr hi] at hx
    cases hx
  · exact indexOf?_of_not_holds

theorem narrow_withStops (stop : Handler → Nat) (p rounds base size : Nat) :
    (c.withStops stop).narrow p rounds base size = c.narrow p rounds base size := by
  have hposition : (c.withStops stop).position? = c.position? := rfl
  induction rounds generalizing base size with
  | zero => rfl
  | succ rounds ih => simp only [narrow, hposition, ih]

theorem indexOf?_withStops (stop : Handler → Nat) (p : Nat) : (c.withStops stop).indexOf? p = c.indexOf? p := by
  simp only [indexOf?, narrow_withStops]
  rfl

theorem back?_eq_none : c.body.back? = none ↔ c.size = 0 := by
  simp [size]

end

end Code

namespace Graph

section
variable {c : Code} {marks : List Nat}

/-! ## Refusals -/

theorem mapM_isError {ε α β : Type} {f : α → Except ε β} {l : List α} :
    (∃ e, l.mapM f = .error e) ↔ ∃ a ∈ l, ∃ e, f a = .error e := by
  induction l with
  | nil => simp [pure, Except.pure]
  | cons a l ih =>
    rw [List.mapM_cons]
    cases ha : f a with
    | error e => simp [ha, bind, Except.bind]
    | ok b =>
      simp only [List.exists_mem_cons_iff, ha, ← ih]
      cases l.mapM f <;> simp [bind, Except.bind, pure, Except.pure]

theorem boundary_isError {p : Nat} : (∃ e, boundary c p = .error e) ↔ c.indexOf? p = none := by
  rw [boundary]
  cases c.indexOf? p <;> simp

theorem anchors_isError :
    (∃ e, (anchors c).mapM (boundary c) = .error e) ↔ ∃ p ∈ anchors c, c.indexOf? p = none := by
  rw [mapM_isError]
  simp only [boundary_isError]

theorem build_isError : (∃ e, build c = .error e) ↔ c.size = 0 ∨ (∃ p ∈ anchors c, c.indexOf? p = none) ∨
    ∃ last, c.body.back? = some last ∧ last.instruction.fallsThrough = true := by
  rw [← anchors_isError, ← Code.back?_eq_none, build]
  cases c.body.back? with
  | none => simp
  | some last =>
    cases (anchors c).mapM (boundary c) with
    | error e => simp
    | ok marks =>
      by_cases hf : last.instruction.fallsThrough = true
      · simp [hf]
      · simp [hf]

theorem anchors_withStops (stop : Handler → Nat) : anchors (c.withStops stop) = anchors c := by
  simp [anchors, Code.withStops, List.flatMap_map]

theorem build_withStops_eq_error (stop : Handler → Nat) (e : AnalysisError) :
    build (c.withStops stop) = .error e ↔ build c = .error e := by
  have hboundary : boundary (c.withStops stop) = boundary c := by
    funext p
    rw [boundary, boundary, Code.indexOf?_withStops]
  have hbody : (c.withStops stop).body = c.body := rfl
  rw [build, build, anchors_withStops, hboundary, hbody]
  cases c.body.back? with
  | none => rfl
  | some last =>
    cases (anchors c).mapM (boundary c) with
    | error e' => rfl
    | ok marks =>
      by_cases hf : last.instruction.fallsThrough = true
      · simp [hf]
      · simp [hf]

/-! ## Lookups -/

/-- With these starts, every lookup on the way to the edges finds what it looks for. -/
structure Inside (c : Code) (starts : List Nat) : Prop where
  spans : ∀ b ∈ splitAt c starts, b.start < b.stop ∧ b.stop ≤ c.size
  reads : ∀ b ∈ splitAt c starts, (c.position? b.start).isSome ∧ (c.instruction? (b.stop - 1)).isSome
  filled : ∀ i < c.size, ∃ b ∈ splitAt c starts, i ∈ b.indices
  lands : ∀ p ∈ anchors c, ∃ b, (splitAt c starts)[blockAt c starts p]? = some b ∧ c.indexOf? p = some b.start
  falls : ∀ (id : Nat) b, (splitAt c starts)[id]? = some b → b.stop < c.size →
    ∃ b', (splitAt c starts)[id + 1]? = some b' ∧ b'.start = b.stop

theorem size_pos_of_mem_splitAt {b : Block} (hb : b ∈ splitAt c (leaders c marks)) : 0 < c.size := by
  obtain ⟨id, hb⟩ := List.getElem?_of_mem hb
  rw [getElem?_splitAt] at hb
  obtain ⟨s, hs, -⟩ := Option.map_eq_some_iff.mp hb
  have hlt := (mem_leaders.mp (List.mem_of_getElem? hs)).1
  omega

theorem span_of_mem_splitAt {b : Block} (hb : b ∈ splitAt c (leaders c marks)) : b.start < b.stop ∧ b.stop ≤ c.size := by
  have hl := laid_splitAt (size_pos_of_mem_splitAt hb) marks
  obtain ⟨id, hb⟩ := List.getElem?_of_mem hb
  have hb : (splitAt c (leaders c marks)).toArray[id]? = some b := by simpa using hb
  exact ⟨hl.occupied hb, hl.stop_le_size hb⟩

theorem inside_of_marks (hm : (anchors c).mapM (boundary c) = .ok marks) : Inside c (leaders c marks) where
  spans := fun _ hb => span_of_mem_splitAt hb
  reads := by
    intro b hb
    have hspan := span_of_mem_splitAt hb
    have hsize : c.body.size = c.size := rfl
    constructor
    · simp only [Code.position?, Option.isSome_map, isSome_getElem?]
      omega
    · simp only [Code.instruction?, Option.isSome_map, isSome_getElem?]
      omega
  filled := by
    intro i hi
    have hl := laid_splitAt (Nat.zero_lt_of_lt hi) marks
    obtain ⟨id, hloc⟩ := hl.exists_location hi
    obtain ⟨b, hb, hmem⟩ := hl.mem_orderedLocations.mp hloc
    exact ⟨b, List.mem_of_getElem? (by simpa using hb), hmem⟩
  lands := by
    intro p hp
    obtain ⟨i, hi, hb⟩ := mapM_ok_mem hm p hp
    have hx := boundary_eq_ok hb
    have hlead : i ∈ leaders c marks := mem_leaders.mpr ⟨lt_of_indexOf? hx, .inr (.inl hi)⟩
    rw [getElem?_splitAt, blockAt, hx, Option.getD_some, List.getElem?_idxOf hlead]
    exact ⟨_, rfl, rfl⟩
  falls := by
    intro id b hb hlt
    have hl := laid_splitAt (size_pos_of_mem_splitAt (List.mem_of_getElem? hb)) marks
    have hslot : (splitAt c (leaders c marks)).toArray[id]? = some b := by simpa using hb
    have hnext := hl.next hslot
    simp only [List.getElem?_toArray] at hnext
    cases hb' : (splitAt c (leaders c marks))[id + 1]? with
    | none =>
      rw [hb'] at hnext
      simp at hnext
      omega
    | some b' =>
      rw [hb'] at hnext
      exact ⟨b', rfl, hnext.symm⟩

theorem malformed_iff : c.Malformed ↔ c.size = 0 ∨ (∃ p ∈ anchors c, ¬ c.Holds p) ∨
    ∃ last, c.body.back? = some last ∧ last.instruction.fallsThrough = true := by
  have hanchors : (∃ p ∈ anchors c, ¬ c.Holds p) ↔
      (∃ h ∈ c.body, ∃ p ∈ h.instruction.branchTargets, ¬ c.Holds p) ∨
        ∃ h ∈ c.handlers, ¬ c.Holds h.start ∨ ¬ c.Holds h.entry := by
    simp only [mem_anchors]
    grind
  rw [hanchors, or_assoc, Code.Malformed]

end

/-- **When a graph is refused.** Malformed code is refused in any case. If positions ascend, no other code is: where
they do not, a position may be missed. -/
theorem build_refused_iff (c : Code) :
    (c.Malformed → ∃ e, build c = .error e) ∧ (c.Ascending → ((∃ e, build c = .error e) ↔ c.Malformed)) ∧
    (∀ stop e, build (c.withStops stop) = .error e ↔ build c = .error e) ∧
    ∀ marks, (anchors c).mapM (boundary c) = .ok marks → Inside c (leaders c marks) := by
  rw [build_isError, malformed_iff]
  refine ⟨?_, fun hc => ?_, build_withStops_eq_error, fun marks hm => inside_of_marks hm⟩
  · rintro (h | ⟨p, hp, hno⟩ | h)
    · exact .inl h
    · exact .inr (.inl ⟨p, hp, Code.indexOf?_of_not_holds hno⟩)
    · exact .inr (.inr h)
  · simp only [hc.indexOf?_eq_none]

end Graph

namespace Sample

def overrun : Code where
  body := #[⟨0, .load .int 0⟩, ⟨1, .ifZero .eq 5⟩, ⟨4, .shuffle .pop⟩, ⟨5, .nop⟩]
  handlers := [⟨0, 3, 4, none⟩]

end Sample

theorem Graph.overrun_refused :
    let c := Sample.overrun
    c.Ascending ∧ (∃ e, build c = .error e) ∧ c.Malformed ∧ (∀ p ∈ anchors c, c.Holds p) ∧ ¬ c.Holds 3 ∧
      (∀ stop, ∃ e, build (c.withStops stop) = .error e) ∧
      (anchors c).mapM (boundary c) = .ok [3, 2, 0] ∧ leaders c [3, 2, 0] = [0, 2, 3] ∧ Inside c [0, 2, 3] := by
  intro c
  have hc : c.Ascending := by decide
  obtain ⟨-, hrefused, hstops, hinside⟩ := build_refused_iff c
  have hlast : c.Malformed := .inr (.inr (.inr ⟨⟨5, .nop⟩, rfl, rfl⟩))
  obtain ⟨e, he⟩ := (hrefused hc).mpr hlast
  have hmarks : (anchors c).mapM (boundary c) = .ok [3, 2, 0] := by cbv
  have hstarts : leaders c [3, 2, 0] = [0, 2, 3] := by cbv
  refine ⟨hc, ⟨e, he⟩, hlast, ?_, ?_, fun stop => ⟨e, (hstops stop e).mpr he⟩, hmarks, hstarts,
    hstarts ▸ hinside _ hmarks⟩
  · intro p hp
    by_contra hno
    obtain ⟨e', he'⟩ := anchors_isError.mpr ⟨p, hp, Code.indexOf?_of_not_holds hno⟩
    rw [hmarks] at he'
    cases he'
  · exact hc.indexOf?_eq_none.mp (by cbv)

end SinkCheck
