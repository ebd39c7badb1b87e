import Mathlib.Data.List.Forall2
import SinkCheck.Proofs.Places

/-!
# Related frames

Frames over two kinds of cells that are related word by word. No operation of a frame looks into its
cells, so each carries the relation along, and fails on both sides or on none.
-/

namespace SinkCheck

section
variable {α β γ δ : Type} {R : α → β → Prop} {S : γ → δ → Prop}

inductive Alike (R : α → β → Prop) : Except AnalysisError α → Except AnalysisError β → Prop
  | ok {a : α} {b : β} : R a b → Alike R (.ok a) (.ok b)
  | error {e e' : AnalysisError} : Alike R (.error e) (.error e')

theorem Alike.map_of_ok {x : Except AnalysisError α} {y : Except AnalysisError β} (h : Alike R x y) {f : α → γ}
    {g : β → δ} (hfg : ∀ a b, x = .ok a → R a b → S (f a) (g b)) : Alike S (x.map f) (y.map g) := by
  cases h with
  | ok h => exact .ok (hfg _ _ rfl h)
  | error => exact .error

theorem Alike.map {x : Except AnalysisError α} {y : Except AnalysisError β} (h : Alike R x y) {f : α → γ} {g : β → δ}
    (hfg : ∀ a b, R a b → S (f a) (g b)) : Alike S (x.map f) (y.map g) :=
  h.map_of_ok fun a b _ => hfg a b

theorem Alike.bind_of_ok {x : Except AnalysisError α} {y : Except AnalysisError β} (h : Alike R x y)
    {f : α → Except AnalysisError γ} {g : β → Except AnalysisError δ}
    (hfg : ∀ a b, x = .ok a → R a b → Alike S (f a) (g b)) : Alike S (x.bind f) (y.bind g) := by
  cases h with
  | ok h => exact hfg _ _ rfl h
  | error => exact .error

theorem Alike.and {R S : α → β → Prop} {x : Except AnalysisError α} {y : Except AnalysisError β} (hr : Alike R x y)
    (hs : Alike S x y) : Alike (fun a b => R a b ∧ S a b) x y := by
  cases hr with
  | ok hr =>
    cases hs with
    | ok hs => exact .ok ⟨hr, hs⟩
  | error => exact .error

theorem forall₂_and {R S : α → β → Prop} {l : List α} {m : List β} (hr : List.Forall₂ R l m)
    (hs : List.Forall₂ S l m) : List.Forall₂ (fun a b => R a b ∧ S a b) l m := by
  induction hr with
  | nil => exact .nil
  | cons h _ ih =>
    cases hs with
    | cons h' hs => exact .cons ⟨h, h'⟩ (ih hs)

theorem rel_getElem? {l : List α} {m : List β} (h : List.Forall₂ R l m) (i : Nat) : Option.Rel R l[i]? m[i]? := by
  induction h generalizing i with
  | nil => exact .none
  | cons hr _ ih =>
    cases i with
    | zero => exact .some hr
    | succ i => exact ih i

theorem rel_head? {l : List α} {m : List β} (h : List.Forall₂ R l m) : Option.Rel R l.head? m.head? := by
  cases h with
  | nil => exact .none
  | cons hr _ => exact .some hr

theorem any_mono {p : α → Bool} {q : β → Bool} {l : List α} {m : List β}
    (h : List.Forall₂ (fun a b => p a = true → q b = true) l m) : l.any p = true → m.any q = true := by
  induction h with
  | nil => exact fun h => h
  | cons hab _ ih =>
    intro ht
    rw [List.any_cons, Bool.or_eq_true] at ht ⊢
    exact ht.imp hab ih

theorem rel_pick {l : List α} {m : List β} (h : List.Forall₂ R l m) (js : List Nat) :
    List.Forall₂ R (js.filterMap (l[·]?)) (js.filterMap (m[·]?)) := by
  refine List.rel_filterMap (R := Eq) ?_ (List.forall₂_same.mpr fun _ _ => rfl)
  rintro i _ rfl
  exact rel_getElem? h i

theorem rel_zipWith {join : α → α → α} {join' : β → β → β}
    (hj : ∀ a b c d, R a b → R c d → R (join a c) (join' b d)) {l l₁ : List α} {m m₁ : List β}
    (h : List.Forall₂ R l m) (h₁ : List.Forall₂ R l₁ m₁) :
    List.Forall₂ R (List.zipWith join l l₁) (List.zipWith join' m m₁) := by
  induction h generalizing l₁ m₁ with
  | nil => simp
  | cons hr _ ih =>
    cases h₁ with
    | nil => simp
    | cons hr₁ h₁ => exact .cons (hj _ _ _ _ hr hr₁) (ih h₁)

theorem rel_zipWith_of_either {join : β → β → β} (hj : ∀ a b c, R a b ∨ R a c → R a (join b c)) {l : List α}
    {m m₁ : List β} (hlen : m.length = m₁.length) (h : List.Forall₂ R l m ∨ List.Forall₂ R l m₁) :
    List.Forall₂ R l (List.zipWith join m m₁) := by
  induction m generalizing l m₁ with
  | nil =>
    cases m₁ with
    | nil => simpa using h
    | cons => cases hlen
  | cons b m ih =>
    cases m₁ with
    | nil => cases hlen
    | cons c m₁ =>
      have hlen := Nat.succ.inj hlen
      rcases h with h | h
      · cases h with
        | cons hab h => exact .cons (hj _ _ _ (.inl hab)) (ih hlen (.inl h))
      · cases h with
        | cons hac h => exact .cons (hj _ _ _ (.inr hac)) (ih hlen (.inr h))

end

namespace Frame

section
variable {α β : Type} [Inhabited α] [Inhabited β] (R : α → β → Prop)

structure Rel (f : Frame α) (g : Frame β) : Prop where
  stack : List.Forall₂ R f.stack g.stack
  slot : ∀ i, R (f.slot i) (g.slot i)

end

section
variable {α β : Type} [Inhabited α] [Inhabited β] {R S : α → β → Prop} {f : Frame α} {g : Frame β}

theorem Rel.depth (h : Rel R f g) : f.depth = g.depth :=
  h.stack.length_eq

theorem Rel.imp (h : Rel R f g) (hrs : ∀ a b, R a b → S a b) : Rel S f g :=
  ⟨h.stack.imp hrs, fun i => hrs _ _ (h.slot i)⟩

theorem Rel.and (hr : Rel R f g) (hs : Rel S f g) : Rel (fun a b => R a b ∧ S a b) f g :=
  ⟨forall₂_and hr.stack hs.stack, fun i => ⟨hr.slot i, hs.slot i⟩⟩

theorem Rel.seek (h : Rel R f g) (p q : Nat) : Rel R (f.seek p) (g.seek q) :=
  ⟨h.stack, h.slot⟩

theorem Rel.peek (h : Rel R f g) (d : Nat) : Option.Rel R (f.peek d) (g.peek d) :=
  rel_getElem? h.stack d

/-! ## Popping and pushing -/

theorem Rel.popWords (h : Rel R f g) (n : Nat) :
    Alike (fun p q => List.Forall₂ R p.1 q.1 ∧ Rel R p.2 q.2) (f.popWords n) (g.popWords n) := by
  unfold Frame.popWords
  rw [← h.stack.length_eq]
  split
  · refine .ok ⟨List.rel_reverse (List.forall₂_take n h.stack), List.forall₂_drop n h.stack, h.slot⟩
  · exact .error

theorem Rel.pop (h : Rel R f g) : Alike (fun p q => R p.1 q.1 ∧ Rel R p.2 q.2) f.pop g.pop := by
  have hs := h.stack
  unfold Frame.pop
  generalize f.stack = l at hs
  generalize g.stack = m at hs
  cases hs with
  | nil => exact .error
  | cons hr hs => exact .ok ⟨hr, hs, h.slot⟩

theorem Rel.pushWords (h : Rel R f g) {a : α} {b : β} (hab : R a b) (n : Nat) :
    Rel R (f.pushWords a n) (g.pushWords b n) := by
  refine ⟨List.rel_append ?_ h.stack, h.slot⟩
  induction n with
  | zero => exact .nil
  | succ n ih => exact .cons hab ih

theorem Rel.pushAll (h : Rel R f g) {cells : List α} {cells' : List β} (hc : List.Forall₂ R cells cells') :
    Rel R (f.pushAll cells) (g.pushAll cells') :=
  ⟨List.rel_append (List.rel_reverse hc) h.stack, h.slot⟩

theorem Rel.shuffle (h : Rel R f g) (s : Shuffle) : Alike (Rel R) (f.shuffle s) (g.shuffle s) := by
  have hp := h.popWords s.pattern.1
  unfold Frame.shuffle
  generalize f.popWords s.pattern.1 = x at hp
  generalize g.popWords s.pattern.1 = y at hp
  cases hp with
  | error => exact .error
  | ok hp => exact .ok (hp.2.pushAll (rel_pick hp.1 s.pattern.2))

/-! ## Local slots -/

theorem Rel.load (h : Rel R f g) (i n : Nat) : List.Forall₂ R (f.load i n) (g.load i n) := by
  unfold Frame.load
  induction List.range' i n with
  | nil => exact .nil
  | cons j js ih => exact .cons (h.slot j) ih

theorem Rel.store (h : Rel R f g) (i : Nat) {cells : List α} {cells' : List β} (hc : List.Forall₂ R cells cells') :
    Rel R (f.store i cells) (g.store i cells') := by
  refine ⟨h.stack, fun j => ?_⟩
  have hf := word_store_slot f i cells j
  have hg := word_store_slot g i cells' j
  rw [word_slot] at hf hg
  rw [← hc.length_eq] at hg
  by_cases hj : i ≤ j ∧ j < i + cells.length
  · rw [if_pos hj] at hf hg
    have := rel_getElem? hc (j - i)
    rw [← hf, ← hg] at this
    exact Option.rel_some_some.mp this
  · rw [if_neg hj, word_slot, Option.some.injEq] at hf hg
    rw [hf, hg]
    exact h.slot j

/-! ## Whole frames -/

theorem Rel.mapCells (h : Rel R f g) {m : α → α} {m' : β → β} (hm : m default = default) (hm' : m' default = default)
    (hrs : ∀ a b, R a b → S (m a) (m' b)) : Rel S (f.mapCells m) (g.mapCells m') := by
  refine ⟨?_, fun i => ?_⟩
  · rw [Frame.mapCells, Frame.mapCells, List.forall₂_map_left_iff, List.forall₂_map_right_iff]
    exact h.stack.imp hrs
  · rw [slot_mapCells f hm, slot_mapCells g hm']
    exact hrs _ _ (h.slot i)

theorem Rel.mapCells_left (h : Rel R f g) {m : α → α} (hm : m default = default) (hrs : ∀ a b, R a b → S (m a) b) :
    Rel S (f.mapCells m) g := by
  have hid : Rel S (f.mapCells m) (g.mapCells id) := h.mapCells hm rfl hrs
  rwa [Frame.mapCells_id] at hid

theorem Rel.mapCells_right (h : Rel R f g) {m : β → β} (hm : m default = default) (hrs : ∀ a b, R a b → S a (m b)) :
    Rel S f (g.mapCells m) := by
  have hid : Rel S (f.mapCells id) (g.mapCells m) := h.mapCells rfl hm hrs
  rwa [Frame.mapCells_id] at hid

theorem stack_of_merge [DecidableEq α] {join : α → α → α} {f₁ f' : Frame α} {changed : Bool}
    (hm : f.merge join f₁ = .ok (f', changed)) : f'.stack = List.zipWith join f.stack f₁.stack := by
  unfold merge at hm
  split at hm
  · cases hm; rfl
  · cases hm

theorem slot_of_merge [DecidableEq α] {join : α → α → α} (hj : join default default = default) {f₁ f' : Frame α}
    {changed : Bool} (hm : f.merge join f₁ = .ok (f', changed)) (i : Nat) :
    f'.slot i = join (f.slot i) (f₁.slot i) := by
  simpa [word_slot] using word_of_merge hj hm (.slot i)

theorem Rel.merge [DecidableEq α] [DecidableEq β] {join : α → α → α} {join' : β → β → β} {f₁ : Frame α} {g₁ : Frame β}
    (h : Rel R f g) (h₁ : Rel R f₁ g₁) (hd : join default default = default) (hd' : join' default default = default)
    (hj : ∀ a b c d, R a b → R c d → R (join a c) (join' b d)) :
    Alike (fun p q => Rel R p.1 q.1) (f.merge join f₁) (g.merge join' g₁) := by
  by_cases hdepth : f.depth = f₁.depth
  · obtain ⟨⟨p, changed⟩, hp⟩ : ∃ r, f.merge join f₁ = .ok r := merge_of_depth hdepth
    obtain ⟨⟨q, changed'⟩, hq⟩ : ∃ r, g.merge join' g₁ = .ok r := merge_of_depth (h.depth ▸ h₁.depth ▸ hdepth)
    rw [hp, hq]
    refine .ok ⟨?_, fun i => ?_⟩
    · rw [stack_of_merge hp, stack_of_merge hq]
      exact rel_zipWith hj h.stack h₁.stack
    · rw [slot_of_merge hd hp, slot_of_merge hd' hq]
      exact hj _ _ _ _ (h.slot i) (h₁.slot i)
  · have hdepth' : ¬ g.depth = g₁.depth := h.depth ▸ h₁.depth ▸ hdepth
    unfold Frame.merge
    unfold Frame.depth at hdepth hdepth'
    rw [if_neg hdepth, if_neg hdepth']
    exact .error

theorem Rel.of_merge [DecidableEq β] {join : β → β → β} {g₁ g' : Frame β} {changed : Bool}
    (hm : g.merge join g₁ = .ok (g', changed)) (hd : join default default = default)
    (hj : ∀ a b c, R a b ∨ R a c → R a (join b c)) (h : Rel R f g ∨ Rel R f g₁) : Rel R f g' := by
  refine ⟨?_, fun i => ?_⟩
  · rw [stack_of_merge hm]
    exact rel_zipWith_of_either hj (depth_of_merge hm).1 (h.imp Rel.stack Rel.stack)
  · rw [slot_of_merge hd hm]
    exact hj _ _ _ (h.imp (·.slot i) (·.slot i))

end

end Frame

end SinkCheck
