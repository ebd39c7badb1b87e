import Mathlib
import SinkCheck.Proofs.Lockstep
import SinkCheck.Proofs.RelatedFrames

/-!
# Merging is a join

Cells of either kind form a semilattice under their join, and frames are ordered word by word. A merge yields the
least frame above both, so the frames of a family merge into their least upper bound: in whatever order, and however
often one of them comes. A slot beyond the end of the locals has a word like any other, the default cell, which is the
greatest constant but not the greatest taint cell.
-/

namespace SinkCheck

/-! ## Cells -/

section
variable {α : Type} [DecidableEq α] (top a b c : α)

def agreed : α :=
  if a = b then a else top

theorem agreed_self : agreed top a a = a :=
  if_pos rfl

theorem agreed_comm : agreed top a b = agreed top b a := by
  unfold agreed
  by_cases h : a = b
  · simp [h]
  · simp [h, Ne.symm h]

theorem agreed_assoc : agreed top (agreed top a b) c = agreed top a (agreed top b c) := by
  grind [agreed]

end

instance : Max Constant := ⟨Constant.join⟩

instance : SemilatticeSup Constant :=
  .mk' (agreed_comm Constant.unknown) (agreed_assoc Constant.unknown) (agreed_self Constant.unknown)

instance : Max Cell := ⟨Cell.join⟩

theorem Cell.sup_eq (a b : Cell) : a ⊔ b = ⟨a.tainted || b.tainted, agreed none a.object b.object⟩ := rfl

instance : SemilatticeSup Cell :=
  .mk' (fun a b => by simp only [Cell.sup_eq, Bool.or_comm, agreed_comm none a.object])
    (fun a b c => by simp only [Cell.sup_eq, Bool.or_assoc, agreed_assoc])
    (fun a => by simp only [Cell.sup_eq, Bool.or_self, agreed_self])

/-! ## The order of frames -/

section
variable {α : Type}

theorem forall₂_trans [Preorder α] : ∀ {l m n : List α}, List.Forall₂ (· ≤ ·) l m → List.Forall₂ (· ≤ ·) m n →
    List.Forall₂ (· ≤ ·) l n
  | _, _, _, .nil, .nil => .nil
  | _, _, _, .cons hab h, .cons hbc h' => .cons (hab.trans hbc) (forall₂_trans h h')

theorem forall₂_antisymm [PartialOrder α] {l m : List α} (h : List.Forall₂ (· ≤ ·) l m)
    (h' : List.Forall₂ (· ≤ ·) m l) : l = m := by
  have hboth : List.Forall₂ (fun a b => a ≤ b ∧ b ≤ a) l m := forall₂_and h h'.flip
  have heq : List.Forall₂ (· = ·) l m := hboth.imp fun a b hab => le_antisymm hab.1 hab.2
  rwa [List.forall₂_eq_eq_eq] at heq

end

namespace Frame

/-- Equally high, and every word below the one at its place. -/
instance {α : Type} [Preorder α] [Inhabited α] : Preorder (Frame α) where
  le := Rel (· ≤ ·)
  le_refl f := ⟨List.forall₂_refl f.stack, fun _ => le_rfl⟩
  le_trans _ _ _ hfg hgh := ⟨forall₂_trans hfg.stack hgh.stack, fun i => (hfg.slot i).trans (hgh.slot i)⟩

/-- Frames below each other have the same words. They may have different numbers of slots. -/
theorem words_eq {α : Type} [PartialOrder α] [Inhabited α] {f g : Frame α} (hfg : f ≤ g) (hgf : g ≤ f) :
    f.stack = g.stack ∧ ∀ i, f.slot i = g.slot i :=
  ⟨forall₂_antisymm hfg.stack hgf.stack, fun i => le_antisymm (hfg.slot i) (hgf.slot i)⟩

/-! ## One merge -/

section
variable {α : Type} [SemilatticeSup α] [Inhabited α] [DecidableEq α] {f g h u : Frame α} {changed : Bool}

theorem le_of_merge (hm : f.merge (· ⊔ ·) g = .ok (h, changed)) : f ≤ h ∧ g ≤ h := by
  have hsup : ∀ a b c : α, a ≤ b ∨ a ≤ c → a ≤ b ⊔ c := by
    intro a b c habc
    rcases habc with hab | hac
    · exact le_sup_of_le_left hab
    · exact le_sup_of_le_right hac
  exact ⟨.of_merge hm (sup_idem _) hsup (.inl (le_refl f)), .of_merge hm (sup_idem _) hsup (.inr (le_refl g))⟩

theorem merge_le (hm : f.merge (· ⊔ ·) g = .ok (h, changed)) (hf : f ≤ u) (hg : g ≤ u) : h ≤ u := by
  constructor
  · rw [stack_of_merge hm]
    have hzip := rel_zipWith (fun _ _ _ _ => sup_le_sup) hf.stack hg.stack
    simpa [List.zipWith_self] using hzip
  · intro i
    rw [slot_of_merge (sup_idem _) hm]
    exact sup_le (hf.slot i) (hg.slot i)

/-- A frame that is below already changes nothing, unless it has slots to add. -/
theorem merge_of_le (hle : g ≤ f) (hlen : g.locals.length ≤ f.locals.length) :
    f.merge (· ⊔ ·) g = .ok (f, false) := by
  obtain ⟨⟨h, changed⟩, hm⟩ : ∃ r, f.merge (· ⊔ ·) g = .ok r := merge_of_depth hle.depth.symm
  obtain ⟨hstack, hslot⟩ := words_eq (merge_le hm (le_refl f) hle) (le_of_merge hm).1
  have hlocals : h.locals = f.locals := by
    have hlength := length_of_merge hm
    rw [Nat.max_eq_left hlen] at hlength
    apply List.ext_getElem hlength
    intro i hi hi'
    simpa [slot, hi, hi'] using hslot i
  have hsame : h = f := by
    have hposition := position_of_merge hm
    cases h
    cases f
    simp only [mk.injEq]
    exact ⟨hstack, hlocals, hposition⟩
  subst hsame
  cases changed with
  | true => exact absurd rfl (word_of_changed hm)
  | false => exact hm

end

/-! ## The change flag -/

section
variable {α : Type} [Inhabited α] [DecidableEq α] {join : α → α → α} {f g h : Frame α} {changed : Bool}

theorem changed_iff_cell (hm : f.merge join g = .ok (h, changed)) :
    changed = true ↔ (∃ d, h.peek d ≠ f.peek d) ∨ ∃ i, h.slot i ≠ f.slot i := by
  rw [changed_iff hm, Function.ne_iff]
  constructor
  · rintro ⟨w, hw⟩
    cases w with
    | stack d => exact .inl ⟨d, hw⟩
    | slot i => exact .inr ⟨i, fun h => hw (congrArg some h)⟩
  · rintro (⟨d, hd⟩ | ⟨i, hi⟩)
    · exact ⟨.stack d, hd⟩
    · exact ⟨.slot i, fun h => hi (Option.some.inj h)⟩

end

/-! ## Many merges -/

section
variable {α : Type} [Inhabited α] [DecidableEq α]

def mergeAll (join : α → α → α) (f : Frame α) (gs : List (Frame α)) : Except AnalysisError (Frame α) :=
  gs.foldlM (fun f g => (f.merge join g).map Prod.fst) f

variable {join : α → α → α} {f g r : Frame α} {gs : List (Frame α)}

theorem mergeAll_cons_eq_ok : f.mergeAll join (g :: gs) = .ok r ↔
    ∃ h changed, f.merge join g = .ok (h, changed) ∧ h.mergeAll join gs = .ok r := by
  rw [mergeAll, List.foldlM_cons, Except.bind_eq_ok]
  constructor
  · rintro ⟨h, hm, hr⟩
    obtain ⟨⟨h', changed⟩, hm', rfl⟩ := Except.map_eq_ok.mp hm
    exact ⟨h', changed, hm', hr⟩
  · rintro ⟨h, changed, hm, hr⟩
    exact ⟨h, Except.map_eq_ok.mpr ⟨(h, changed), hm, rfl⟩, hr⟩

theorem mergeAll_of_depth (hd : ∀ g ∈ gs, g.depth = f.depth) : ∃ r, f.mergeAll join gs = .ok r := by
  induction gs generalizing f with
  | nil => exact ⟨f, rfl⟩
  | cons g gs ih =>
    obtain ⟨⟨h, changed⟩, hm⟩ : ∃ r, f.merge join g = .ok r := merge_of_depth (hd g (by simp)).symm
    have hdepth := (depth_of_merge hm).2
    obtain ⟨r, hr⟩ := ih (f := h) fun g hg => by rw [hdepth]; exact hd g (by simp [hg])
    exact ⟨r, mergeAll_cons_eq_ok.mpr ⟨h, changed, hm, hr⟩⟩

theorem length_le_mergeAll (hr : f.mergeAll join gs = .ok r) : ∀ g ∈ f :: gs, g.locals.length ≤ r.locals.length := by
  induction gs generalizing f with
  | nil =>
    cases hr
    simp
  | cons g gs ih =>
    obtain ⟨h, changed, hm, hr⟩ := mergeAll_cons_eq_ok.mp hr
    have hlength := length_of_merge hm
    have hh := ih hr h (by simp)
    intro k hk
    simp only [List.mem_cons] at hk
    rcases hk with rfl | rfl | hk
    · omega
    · omega
    · exact ih hr k (by simp [hk])

end

section
variable {α : Type} [SemilatticeSup α] [Inhabited α] [DecidableEq α] {f g r : Frame α} {gs : List (Frame α)}

theorem isLUB_mergeAll (hr : f.mergeAll (· ⊔ ·) gs = .ok r) : IsLUB {g | g ∈ f :: gs} r := by
  induction gs generalizing f with
  | nil =>
    cases hr
    simp
  | cons g gs ih =>
    obtain ⟨h, changed, hm, hr⟩ := mergeAll_cons_eq_ok.mp hr
    obtain ⟨hupper, hleast⟩ := ih hr
    obtain ⟨hf, hg⟩ := le_of_merge hm
    have hh : h ≤ r := hupper (by simp)
    constructor
    · intro k hk
      simp only [Set.mem_ofPred_eq, List.mem_cons] at hk
      rcases hk with rfl | rfl | hk
      · exact hf.trans hh
      · exact hg.trans hh
      · exact hupper (by simp [hk])
    · intro u hu
      apply hleast
      intro k hk
      simp only [Set.mem_ofPred_eq, List.mem_cons] at hk
      rcases hk with rfl | hk
      · exact merge_le hm (hu (by simp)) (hu (by simp))
      · exact hu (by simp [hk])

theorem merge_again (hr : f.mergeAll (· ⊔ ·) gs = .ok r) (hg : g ∈ f :: gs) : r.merge (· ⊔ ·) g = .ok (r, false) :=
  merge_of_le ((isLUB_mergeAll hr).1 hg) (length_le_mergeAll hr g hg)

end

/-! ## In place -/

section
variable {α : Type} [DecidableEq α] (join : α → α → α)

def mismatch (f g : Frame α) : AnalysisError :=
  .dataflow s!"stack height mismatch at position {f.position}: {f.depth} vs {g.depth}"

def joinCells : List α → List α → List α × Bool
  | a :: mine, b :: theirs =>
    let (rest, changed) := joinCells mine theirs
    if join a b = a then (a :: rest, changed) else (join a b :: rest, true)
  | mine, _ => (mine, false)

theorem joinCells_eq : ∀ {mine theirs : List α}, mine.length = theirs.length →
    joinCells join mine theirs = (List.zipWith join mine theirs, List.zipWith join mine theirs != mine)
  | [], [], _ => by simp [joinCells]
  | a :: mine, b :: theirs, hlen => by
    rw [joinCells, joinCells_eq (Nat.succ.inj hlen)]
    by_cases h : join a b = a
    · simp [h, bne]
    · simp [h]

variable [Inhabited α]

/-- The heights are compared before any cell is stored. -/
def mergeInPlace (g : Frame α) : InPlace (Frame α) Bool := do
  let f ← get
  if f.stack.length = g.stack.length then
    let (stack, inStack) := joinCells join f.stack g.stack
    modify ({ · with stack })
    let padded := pad g.locals.length f.locals
    modify ({ · with locals := padded })
    let (locals, inSlots) := joinCells join padded (g.load 0 padded.length)
    modify ({ · with locals })
    return inStack || inSlots
  else
    throw (f.mismatch g)

omit [DecidableEq α] in
theorem load_zero (g : Frame α) {n : Nat} (hn : g.locals.length ≤ n) : g.load 0 n = pad n g.locals := by
  apply List.ext_getElem
  · simp [load, length_pad, hn]
  · intro i hi hi'
    have hpad := getElem?_pad n g.locals i
    rw [List.getElem?_eq_getElem hi'] at hpad
    simpa [load, slot] using hpad.symm

theorem takes_merge (g : Frame α) : (mergeInPlace join g).Takes fun f => (f.merge join g).map Prod.swap := by
  intro f
  rw [mergeInPlace, EStateM.run_bind, EStateM.run_get]
  have hlength : (pad g.locals.length f.locals).length = max f.locals.length g.locals.length := by
    rw [length_pad, Nat.max_comm]
  have hpad : pad g.locals.length f.locals = pad (max f.locals.length g.locals.length) f.locals := by
    unfold pad
    congr 2
    omega
  by_cases hd : f.stack.length = g.stack.length
  · have hload : g.load 0 (max f.locals.length g.locals.length) = pad (max f.locals.length g.locals.length) g.locals :=
      load_zero g (Nat.le_max_right ..)
    simp only [if_pos hd, hlength, hload, merge]
    rw [joinCells_eq join hd]
    rw [joinCells_eq join (by simp only [length_pad]; omega), hpad]
    rfl
  · simp only [merge, if_neg hd]
    rfl

end

/-! ## Both kinds of cells -/

section
variable {α : Type} [SemilatticeSup α] [Inhabited α] [DecidableEq α]

theorem mergeAll_same {f f' : Frame α} {gs gs' : List (Frame α)} (hd : ∀ g ∈ gs, g.depth = f.depth)
    (hsame : ∀ g, g ∈ f :: gs ↔ g ∈ f' :: gs') :
    ∃ r r', f.mergeAll (· ⊔ ·) gs = .ok r ∧ f'.mergeAll (· ⊔ ·) gs' = .ok r' ∧ IsLUB {g | g ∈ f :: gs} r ∧
      r.stack = r'.stack ∧ (∀ i, r.slot i = r'.slot i) ∧ ∀ g ∈ f :: gs, r.merge (· ⊔ ·) g = .ok (r, false) := by
  have hdepth : ∀ g ∈ f' :: gs', g.depth = f.depth := by
    intro g hg
    rcases List.mem_cons.mp ((hsame g).mpr hg) with rfl | hg
    · rfl
    · exact hd g hg
  have hd' : ∀ g ∈ gs', g.depth = f'.depth := by
    intro g hg
    rw [hdepth g (by simp [hg]), hdepth f' (by simp)]
  obtain ⟨r, hr⟩ : ∃ r, f.mergeAll (· ⊔ ·) gs = .ok r := mergeAll_of_depth hd
  obtain ⟨r', hr'⟩ : ∃ r, f'.mergeAll (· ⊔ ·) gs' = .ok r := mergeAll_of_depth hd'
  have hlub := isLUB_mergeAll hr
  have hlub' : IsLUB {g | g ∈ f :: gs} r' := by
    simp only [hsame]
    exact isLUB_mergeAll hr'
  obtain ⟨hstack, hslot⟩ := words_eq (hlub.2 hlub'.1) (hlub'.2 hlub.1)
  exact ⟨r, r', hr, hr', hlub, hstack, hslot, fun g => merge_again hr⟩

/-- What merging with `join` comes to, over cells ordered by it. -/
structure MergesAsJoin (join : α → α → α) : Prop where
  sup (a b : α) : a ⊔ b = join a b
  /-- Whichever frame of a family the others are merged into, in whatever order and however often. None of them
  changes the outcome again. -/
  family {f f' : Frame α} {gs gs' : List (Frame α)} :
    (∀ g ∈ gs, g.depth = f.depth) → (∀ g, g ∈ f :: gs ↔ g ∈ f' :: gs') →
    ∃ r r', f.mergeAll join gs = .ok r ∧ f'.mergeAll join gs' = .ok r' ∧ IsLUB {g | g ∈ f :: gs} r ∧
      r.stack = r'.stack ∧ (∀ i, r.slot i = r'.slot i) ∧ ∀ g ∈ f :: gs, r.merge join g = .ok (r, false)
  flag {f g : Frame α} : f.depth = g.depth → ∃ h changed, f.merge join g = .ok (h, changed) ∧
    (changed = true ↔ (∃ d, h.peek d ≠ f.peek d) ∨ ∃ i, h.slot i ≠ f.slot i)
  inPlace (f g : Frame α) : (mergeInPlace join g).run f = InPlace.settled f ((f.merge join g).map Prod.swap)
  mismatch {f g : Frame α} : f.depth ≠ g.depth →
    f.merge join g = .error (f.mismatch g) ∧ (mergeInPlace join g).run f = .error (f.mismatch g) f

theorem mergesAsJoin_sup : MergesAsJoin (fun a b : α => a ⊔ b) where
  sup _ _ := rfl
  family := mergeAll_same
  flag {f g} hd := by
    obtain ⟨⟨h, changed⟩, hm⟩ : ∃ r, f.merge (· ⊔ ·) g = .ok r := merge_of_depth hd
    exact ⟨h, changed, hm, changed_iff_cell hm⟩
  inPlace f g := takes_merge _ g f
  mismatch {f g} hd := by
    have hm : f.merge (· ⊔ ·) g = .error (f.mismatch g) := if_neg hd
    refine ⟨hm, ?_⟩
    rw [takes_merge _ g f]
    beta_reduce
    rw [hm]
    rfl

end

/-- **Merging is a semilattice join, and its flag is exact.** A family of frames has one merge, the least frame above
all of them, and a frame that was merged is merged again without a change. The flag says whether a word changed, and
frames of different heights are refused and left as they were. -/
theorem merge_semilattice : MergesAsJoin Constant.join ∧ MergesAsJoin Cell.join :=
  ⟨mergesAsJoin_sup, mergesAsJoin_sup⟩

end Frame

namespace Sample

def holding (tainted : Bool) (locals : List Cell) : Frame Cell where
  stack := [.ofObject 1 tainted]
  locals

def noSlot : Frame Cell := holding false []

def oneSlot : Frame Cell := holding true [.ofObject 1 false]

def twoSlots : Frame Cell := holding false [.ofObject 1 false, .ofObject 2 true]

end Sample

open Sample in
/-- The slots that not every frame has keep their taint and lose their object. -/
theorem Frame.lengths_merge_alike : ∃ r r',
    noSlot.mergeAll Cell.join [oneSlot, twoSlots] = .ok r ∧
    twoSlots.mergeAll Cell.join [oneSlot, noSlot, oneSlot] = .ok r' ∧
    r.stack = r'.stack ∧ (∀ i, r.slot i = r'.slot i) ∧
    r.merge Cell.join oneSlot = .ok (r, false) ∧ r.slot 0 = ⟨false, none⟩ ∧ r.slot 1 = ⟨true, none⟩ := by
  have hdepth : ∀ g ∈ [oneSlot, twoSlots], g.depth = noSlot.depth := by decide
  have hsame : ∀ g, g ∈ [noSlot, oneSlot, twoSlots] ↔ g ∈ [twoSlots, oneSlot, noSlot, oneSlot] := by
    intro g
    simp only [List.mem_cons, List.not_mem_nil]
    tauto
  obtain ⟨r, r', hr, hr', -, hstack, hslot, hagain⟩ := merge_semilattice.2.family hdepth hsame
  have hvalue : noSlot.mergeAll Cell.join [oneSlot, twoSlots] =
      .ok ⟨[⟨true, some 1⟩], [⟨false, none⟩, ⟨true, none⟩], 0⟩ := by decide
  rw [hr] at hvalue
  cases hvalue
  exact ⟨_, r', hr, hr', hstack, hslot, hagain oneSlot (by simp), rfl, rfl⟩

end SinkCheck
