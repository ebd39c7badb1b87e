import SinkCheck.Frame

/-!
# The words of a frame by place

A word lies on the stack, counted from the top, or in a local slot. Each operation of a frame is
described by the words it puts at every place, so that later proofs see no list of cells.
-/

namespace SinkCheck

theorem Except.map_eq_ok {ε α β : Type} {x : Except ε α} {f : α → β} {b : β} :
    x.map f = .ok b ↔ ∃ a, x = .ok a ∧ f a = b := by
  cases x <;> simp [Except.map]

theorem Except.bind_eq_ok {ε α β : Type} {x : Except ε α} {f : α → Except ε β} {b : β} :
    (x >>= f) = .ok b ↔ ∃ a, x = .ok a ∧ f a = .ok b := by
  cases x with
  | error e => simp [bind, Except.bind]
  | ok a => simp [bind, Except.bind]

inductive Place where
  | stack (depth : Nat)
  | slot (index : Nat)
deriving DecidableEq

namespace Frame

section
variable {α : Type} [Inhabited α] (f : Frame α)

/-- The word at a place. Every slot holds one, the default cell if it was never written. -/
def word : Place → Option α
  | .stack d => f.peek d
  | .slot i => some (f.slot i)

theorem word_stack (d : Nat) : f.word (.stack d) = f.stack[d]? := rfl

theorem word_slot (i : Nat) : f.word (.slot i) = some (f.slot i) := rfl

theorem word_seek (p : Nat) (w : Place) : (f.seek p).word w = f.word w := by
  cases w <;> rfl

theorem isSome_word_stack (d : Nat) : (f.word (.stack d)).isSome ↔ d < f.depth := by
  simp [word_stack, depth]

theorem depth_congr {f g : Frame α} (h : f.word = g.word) : f.depth = g.depth := by
  have hd : ∀ d, d < f.depth ↔ d < g.depth := fun d => by
    rw [← isSome_word_stack, ← isSome_word_stack, h]
  have h1 := hd f.depth
  have h2 := hd g.depth
  omega

end

/-! ## Popping and pushing -/

section
variable {α : Type} (f : Frame α)

def replaceTop (n : Nat) (cells : List α) : Frame α :=
  { f with stack := cells ++ f.stack.drop n }

theorem depth_replaceTop {n : Nat} (h : n ≤ f.depth) (cells : List α) :
    (f.replaceTop n cells).depth + n = f.depth + cells.length := by
  simp only [replaceTop, depth, List.length_append, List.length_drop] at *
  omega

theorem word_replaceTop_of_lt [Inhabited α] {n d : Nat} {cells : List α} (h : d < cells.length) :
    (f.replaceTop n cells).word (.stack d) = cells[d]? := by
  rw [word_stack, replaceTop, List.getElem?_append_left h]

theorem word_replaceTop_of_le [Inhabited α] {n d : Nat} {cells : List α} (h : cells.length ≤ d) :
    (f.replaceTop n cells).word (.stack d) = f.word (.stack (d - cells.length + n)) := by
  rw [word_stack, replaceTop, List.getElem?_append_right h, List.getElem?_drop, word_stack, Nat.add_comm]

theorem popWords_of_le {n : Nat} (h : n ≤ f.depth) :
    f.popWords n = .ok ((f.stack.take n).reverse, f.replaceTop n []) :=
  if_pos h

theorem popWords_of_lt {n : Nat} (h : f.depth < n) : f.popWords n = .error (.underflow f.position) :=
  if_neg (Nat.not_le.mpr h)

theorem pop_of_lt (h : f.depth < 1) : f.pop = .error (.underflow f.position) := by
  have hs : f.stack = [] := List.eq_nil_of_length_eq_zero (by simpa [depth] using h)
  simp [pop, hs]

theorem pop_of_le (h : 1 ≤ f.depth) : ∃ a, f.stack.head? = some a ∧ f.pop = .ok (a, f.replaceTop 1 []) := by
  cases hs : f.stack with
  | nil => simp [depth, hs] at h
  | cons a rest => exact ⟨a, rfl, by simp [pop, replaceTop, hs]⟩

theorem getElem?_popped {n j : Nat} (h : n ≤ f.depth) (hj : j < n) :
    (f.stack.take n).reverse[j]? = f.stack[n - 1 - j]? := by
  have hl : (f.stack.take n).length = n := by simp only [List.length_take]; exact Nat.min_eq_left h
  rw [List.getElem?_reverse (by omega), hl, List.getElem?_take_of_lt (by omega)]

theorem length_popped {n : Nat} (h : n ≤ f.depth) : (f.stack.take n).reverse.length = n := by
  rw [List.length_reverse, List.length_take]; exact Nat.min_eq_left h

end

/-! ## Local slots -/

section
variable {α : Type} [Inhabited α] (f : Frame α)

theorem getElem?_pad (n : Nat) (cells : List α) (i : Nat) :
    (pad n cells)[i]?.getD default = cells[i]?.getD default := by
  unfold pad
  by_cases h : i < cells.length
  · rw [List.getElem?_append_left h]
  · rw [List.getElem?_append_right (by omega), List.getElem?_replicate, List.getElem?_eq_none (l := cells) (by omega)]
    split <;> rfl

theorem le_length_pad (n : Nat) (cells : List α) : n ≤ (pad n cells).length := by
  simp only [pad, List.length_append, List.length_replicate]; omega

theorem word_store_stack (i : Nat) (cells : List α) (d : Nat) :
    (f.store i cells).word (.stack d) = f.word (.stack d) := rfl

theorem word_store_slot (i : Nat) (cells : List α) (j : Nat) :
    (f.store i cells).word (.slot j) =
      if i ≤ j ∧ j < i + cells.length then cells[j - i]? else f.word (.slot j) := by
  have hp := le_length_pad (i + cells.length) f.locals
  have ht : ((pad (i + cells.length) f.locals).take i).length = i := by
    rw [List.length_take]; omega
  simp only [word_slot, slot, store]
  split
  · rename_i h
    rw [List.getElem?_append_left (by simp only [List.length_append, ht]; omega),
      List.getElem?_append_right (by omega), ht]
    rw [List.getElem?_eq_getElem (by omega)]; rfl
  · rename_i h
    rw [← getElem?_pad (i + cells.length) f.locals j]
    by_cases hj : j < i
    · rw [List.append_assoc, List.getElem?_append_left (by omega), List.getElem?_take_of_lt hj]
    · rw [List.getElem?_append_right (by simp only [List.length_append, ht]; omega), List.getElem?_drop]
      simp only [List.length_append, ht]
      rw [show i + cells.length + (j - (i + cells.length)) = j by omega]

/-! ## Mapping cells -/

omit [Inhabited α] in
theorem mapCells_id : f.mapCells id = f := by
  rw [mapCells, List.map_id, List.map_id]

theorem slot_mapCells {g : α → α} (hg : g default = default) (i : Nat) : (f.mapCells g).slot i = g (f.slot i) := by
  simp only [slot, mapCells, List.getElem?_map]
  cases f.locals[i]? with
  | none => exact hg.symm
  | some a => rfl

end

/-! ## Merging -/

section
variable {α : Type} [Inhabited α] [DecidableEq α] {join : α → α → α} {f g h : Frame α} {changed : Bool}

theorem merge_of_depth (hd : f.depth = g.depth) : ∃ r, f.merge join g = .ok r :=
  ⟨_, if_pos hd⟩

theorem depth_of_merge (hm : f.merge join g = .ok (h, changed)) : f.depth = g.depth ∧ h.depth = f.depth := by
  unfold merge at hm
  split at hm
  · rename_i hd
    cases hm
    exact ⟨hd, by simp [depth, hd]⟩
  · cases hm

theorem word_of_merge (hj : join default default = default) (hm : f.merge join g = .ok (h, changed))
    (w : Place) : h.word w = (f.word w).bind fun a => (g.word w).map (join a) := by
  unfold merge at hm
  split at hm
  · cases hm
    cases w with
    | stack d =>
      simp only [word_stack, List.getElem?_zipWith]
      cases f.stack[d]? <;> cases g.stack[d]? <;> rfl
    | slot i =>
      simp only [word_slot, slot, Option.bind_some, Option.map_some, List.getElem?_zipWith,
        ← getElem?_pad (max f.locals.length g.locals.length) f.locals,
        ← getElem?_pad (max f.locals.length g.locals.length) g.locals]
      by_cases hi : i < max f.locals.length g.locals.length
      · rw [List.getElem?_eq_getElem (Nat.lt_of_lt_of_le hi (le_length_pad _ f.locals)),
          List.getElem?_eq_getElem (Nat.lt_of_lt_of_le hi (le_length_pad _ g.locals))]
        rfl
      · rw [List.getElem?_eq_none (by simp only [pad, List.length_append, List.length_replicate]; omega)]
        rw [List.getElem?_eq_none (by simp only [pad, List.length_append, List.length_replicate]; omega)]
        exact congrArg some hj.symm
  · cases hm

theorem word_of_unchanged (hm : f.merge join g = .ok (h, false)) : h.word = f.word := by
  unfold merge at hm
  split at hm
  · simp only [Except.ok.injEq, Prod.mk.injEq, Bool.or_eq_false_iff, bne_eq_false_iff_eq] at hm
    obtain ⟨rfl, hs, hl⟩ := hm
    funext w
    cases w with
    | stack d => simp only [word_stack, hs]
    | slot i => simp only [word_slot, slot, hl, getElem?_pad]
  · cases hm

/-- Only words count: slots that are added and stay at the default are no change. -/
theorem word_of_changed (hm : f.merge join g = .ok (h, true)) : h.word ≠ f.word := by
  intro heq
  unfold merge at hm
  split at hm
  · simp only [Except.ok.injEq, Prod.mk.injEq, Bool.or_eq_true, bne_iff_ne] at hm
    obtain ⟨rfl, hchanged⟩ := hm
    rcases hchanged with hstack | hlocals
    · apply hstack
      apply List.ext_getElem?
      intro d
      exact congrFun heq (.stack d)
    · apply hlocals
      apply List.ext_getElem
      · simp only [List.length_zipWith, length_pad]; omega
      · intro i hi hi'
        have hslot := congrFun heq (.slot i)
        simp only [word_slot, slot, Option.some.injEq] at hslot
        rw [← getElem?_pad (max f.locals.length g.locals.length) f.locals, List.getElem?_eq_getElem hi,
          List.getElem?_eq_getElem hi'] at hslot
        exact hslot
  · cases hm

theorem changed_iff (hm : f.merge join g = .ok (h, changed)) : changed = true ↔ h.word ≠ f.word := by
  cases changed with
  | true => simp [word_of_changed hm]
  | false => simp [word_of_unchanged hm]

theorem position_of_merge (hm : f.merge join g = .ok (h, changed)) : h.position = f.position := by
  unfold merge at hm
  split at hm
  · cases hm; rfl
  · cases hm

theorem length_of_merge (hm : f.merge join g = .ok (h, changed)) :
    h.locals.length = max f.locals.length g.locals.length := by
  unfold merge at hm
  split at hm
  · cases hm
    simp only [List.length_zipWith, length_pad]; omega
  · cases hm

end

end Frame

/-! ## Shuffles -/

theorem Shuffle.lt_of_mem_pattern {s : Shuffle} {j : Nat} (h : j ∈ s.pattern.2) : j < s.pattern.1 := by
  cases s <;> simp [Shuffle.pattern] at * <;> omega

end SinkCheck
