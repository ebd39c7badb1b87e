import Mathlib
import SinkCheck.Proofs.Pass

/-!
# Properties that a replay keeps

A property of frames that instructions keep, joins keep, and that tells an object not used before from the others
holds all along a replay: of the running frame and of every frame that waits for a block.
-/

namespace SinkCheck

/-! ## A property of every cell -/

namespace Frame

structure All {α : Type} (P : α → Prop) (f : Frame α) : Prop where
  stack : ∀ a ∈ f.stack, P a
  locals : ∀ a ∈ f.locals, P a

section
variable {α : Type} {P : α → Prop} {f g : Frame α}

theorem All.imp {Q : α → Prop} (h : f.All P) (hpq : ∀ a, P a → Q a) : f.All Q :=
  ⟨fun a ha => hpq a (h.stack a ha), fun a ha => hpq a (h.locals a ha)⟩

theorem All.mapCells {Q : α → Prop} (h : f.All P) {m : α → α} (hm : ∀ a, P a → Q (m a)) : (f.mapCells m).All Q := by
  constructor
  · intro a ha
    obtain ⟨b, hb, rfl⟩ := List.mem_map.mp ha
    exact hm b (h.stack b hb)
  · intro a ha
    obtain ⟨b, hb, rfl⟩ := List.mem_map.mp ha
    exact hm b (h.locals b hb)

theorem All.seek (h : f.All P) (p : Nat) : (f.seek p).All P :=
  ⟨h.stack, h.locals⟩

theorem All.peek (h : f.All P) {d : Nat} {a : α} (ha : f.peek d = some a) : P a :=
  h.stack a (List.mem_of_getElem? ha)

theorem All.popWords (h : f.All P) {n : Nat} {r : List α × Frame α} (hp : f.popWords n = .ok r) :
    (∀ a ∈ r.1, P a) ∧ r.2.All P := by
  unfold Frame.popWords at hp
  split at hp
  · cases hp
    refine ⟨?_, ?_, h.locals⟩
    · intro a ha
      exact h.stack a (List.mem_of_mem_take (List.mem_reverse.mp ha))
    · intro a ha
      exact h.stack a (List.mem_of_mem_drop ha)
  · cases hp

theorem All.pop (h : f.All P) {r : α × Frame α} (hp : f.pop = .ok r) : P r.1 ∧ r.2.All P := by
  have hs := h.stack
  unfold Frame.pop at hp
  split at hp
  · rename_i a rest heq
    cases hp
    rw [heq] at hs
    exact ⟨hs a (by simp), fun b hb => hs b (by simp [hb]), h.locals⟩
  · cases hp

theorem All.pushAll (h : f.All P) {cells : List α} (hc : ∀ a ∈ cells, P a) : (f.pushAll cells).All P := by
  refine ⟨?_, h.locals⟩
  intro a ha
  simp only [Frame.pushAll, List.mem_append, List.mem_reverse] at ha
  rcases ha with ha | ha
  · exact hc a ha
  · exact h.stack a ha

theorem All.pushWords (h : f.All P) {a : α} (ha : P a) (n : Nat) : (f.pushWords a n).All P := by
  refine ⟨?_, h.locals⟩
  intro b hb
  simp only [Frame.pushWords, List.mem_append, List.mem_replicate] at hb
  rcases hb with ⟨-, rfl⟩ | hb
  · exact ha
  · exact h.stack b hb

theorem All.shuffle (h : f.All P) {s : Shuffle} (hs : f.shuffle s = .ok g) : g.All P := by
  unfold Frame.shuffle at hs
  split at hs
  · rename_i cells rest hp
    cases hs
    obtain ⟨hcells, hrest⟩ := h.popWords hp
    apply hrest.pushAll
    intro a ha
    obtain ⟨i, -, hi⟩ := List.mem_filterMap.mp ha
    exact hcells a (List.mem_of_getElem? hi)
  · cases hs

variable [Inhabited α] (hd : P default)
include hd

theorem All.slot (h : f.All P) (i : Nat) : P (f.slot i) := by
  unfold Frame.slot
  cases hi : f.locals[i]? with
  | none => exact hd
  | some a => exact h.locals a (List.mem_of_getElem? hi)

theorem All.load (h : f.All P) (i n : Nat) : ∀ a ∈ f.load i n, P a := by
  intro a ha
  obtain ⟨j, -, rfl⟩ := List.mem_map.mp ha
  exact h.slot hd j

theorem all_pad {cells : List α} (hc : ∀ a ∈ cells, P a) (n : Nat) : ∀ a ∈ pad n cells, P a := by
  intro a ha
  simp only [pad, List.mem_append, List.mem_replicate] at ha
  rcases ha with ha | ⟨-, rfl⟩
  · exact hc a ha
  · exact hd

theorem All.store (h : f.All P) (i : Nat) {cells : List α} (hc : ∀ a ∈ cells, P a) : (f.store i cells).All P := by
  refine ⟨h.stack, ?_⟩
  intro a ha
  simp only [Frame.store, List.mem_append] at ha
  rcases ha with (ha | ha) | ha
  · exact all_pad hd h.locals _ a (List.mem_of_mem_take ha)
  · exact hc a ha
  · exact all_pad hd h.locals _ a (List.mem_of_mem_drop ha)

theorem All.merge [DecidableEq α] {Q R : α → Prop} (hd' : Q default) {join : α → α → α}
    (hj : ∀ a b, P a → Q b → R (join a b)) (hf : f.All P) (hg : g.All Q) {r : Frame α × Bool}
    (hm : f.merge join g = .ok r) : r.1.All R := by
  have hzip : ∀ {l m : List α}, (∀ a ∈ l, P a) → (∀ a ∈ m, Q a) → ∀ a ∈ List.zipWith join l m, R a := by
    intro l m hl hm a ha
    rw [← List.map_uncurry_zip_eq_zipWith] at ha
    obtain ⟨⟨b, c⟩, hbc, rfl⟩ := List.mem_map.mp ha
    obtain ⟨hb, hc⟩ := List.of_mem_zip hbc
    exact hj b c (hl b hb) (hm c hc)
  unfold Frame.merge at hm
  split at hm
  · cases hm
    exact ⟨hzip hf.stack hg.stack, hzip (all_pad hd hf.locals _) (all_pad hd' hg.locals _)⟩
  · cases hm

end

end Frame

/-! ## A property of every frame -/

/-- What lets a property of frames, given the identities in use, pass from block to block. -/
structure Frame.Lasting (P : Nat → Frame Cell → Prop) : Prop where
  later : ∀ {n f}, P n f → P (n + 1) f
  joined : ∀ {n f g r}, P n f → P n g → f.merge Cell.join g = .ok r → P n r.1
  fresh : ∀ {n f} (k : Nat), P n f → P (n + 1) (f.pushWords (.ofObject n false) k)
  locals : ∀ {n f}, P n f → P n { locals := f.locals }

namespace ReplayState

structure Each (P : Nat → Frame Cell → Prop) (s : ReplayState) : Prop where
  frame : P s.next s.frame
  pending : ∀ {id f}, s.pending id = some f → P s.next f
  falling : ∀ {id f}, s.falling = some (id, f) → P s.next f

section
variable {P : Nat → Frame Cell → Prop} {s s' : ReplayState}

theorem each_ofLocals {locals : List Cell} (h : P (ofLocals locals).next { locals }) : (ofLocals locals).Each P :=
  ⟨h, fun hp => (by cases hp), fun hf => (by cases hf)⟩

variable (hP : Frame.Lasting P)
include hP

theorem Each.allocate (hs : s.Each P) : Each P { s with next := s.next + 1 } :=
  ⟨hP.later hs.frame, fun hp => hP.later (hs.pending hp), fun hf => hP.later (hs.falling hf)⟩

theorem Each.await (hs : s.Each P) (target : Nat) {f : Frame Cell} (hf : P s.next f) : (s.await target f).Each P := by
  refine ⟨hs.frame, ?_, hs.falling⟩
  intro id g hg
  simp only [ReplayState.await] at hg
  split at hg
  · cases hg
    cases hp : s.pending target with
    | none => exact hf
    | some earlier =>
      simp only
      split
      · rename_i hm
        exact hP.joined (hs.pending hp) hf hm
      · exact hf
  · exact hs.pending hg

theorem Each.send (hs : s.Each P) (n : Nat) (e : Edge) : (s.send n e).Each P := by
  unfold ReplayState.send
  split
  · exact hs.await hP e.target hs.frame
  · split
    · exact hs.await hP e.target hs.frame
    · exact (hs.allocate hP).await hP e.target (hP.fresh n hs.frame)
  · refine ⟨hs.frame, hs.pending, ?_⟩
    intro id f hf
    cases hf
    exact hs.frame
  · exact hs

theorem Each.leave (hs : s.Each P) (edges : List Edge) (last : Option Instruction) : (s.leave edges last).Each P := by
  unfold ReplayState.leave
  have h₀ : Each P { s with falling := none } := ⟨hs.frame, hs.pending, fun h => by cases h⟩
  generalize { s with falling := none } = t at h₀
  induction edges generalizing t with
  | nil => exact h₀
  | cons e edges ih => exact ih _ (h₀.send hP _ e)

omit hP in
theorem Each.forget (hs : s.Each P) (id : Nat) {f : Frame Cell} (hf : P s.next f) :
    ((s.forget id).setFrame f).Each P := by
  refine ⟨hf, ?_, fun h => by cases h⟩
  intro i g hg
  simp only [ReplayState.forget, ReplayState.setFrame] at hg
  split at hg
  · cases hg
  · exact hs.pending hg

theorem Each.enter (hs : s.Each P) {id : Nat} {isHandler : Bool} (he : s.enter id isHandler = .ok s') : s'.Each P := by
  have hfallen : ∀ {f}, s.fallen id = some f → P s.next f := fun hf => hs.falling (fallen_eq_some.mp hf)
  unfold ReplayState.enter at he
  simp only at he
  split at he
  · -- only the locals are kept, and the exception is an object of its own
    cases he
    have ht := (hs.forget id hs.frame).allocate hP
    exact ⟨hP.fresh 1 (hP.locals hs.frame), ht.pending, ht.falling⟩
  · split at he
    · rename_i f g hf hg
      split at he
      · rename_i hm
        cases he
        exact hs.forget id (hP.joined (hfallen hf) (hs.pending hg) hm)
      · cases he
    · rename_i f hf hg
      cases he
      exact hs.forget id (hfallen hf)
    · rename_i f hf hg
      cases he
      exact hs.forget id (hs.pending hg)
    · cases he
      exact hs.forget id hs.frame

end

end ReplayState

/-! ## Runs -/

namespace Replay

inductive Stands (r : Replay) : List Location → Option Nat → ReplayState → Prop
  | start : Stands r r.graph.orderedLocations none (.ofLocals r.locals)
  | step {l : Location} {ls : List Location} {current : Option Nat} {s t u : ReplayState} :
      Stands r (l :: ls) current s → r.cross current l.block s = .ok t → r.perform l.index t = .ok u →
      Stands r ls (some l.block) u

/-- The states of a replay: before the first and after each instruction, after each edge along which it sends the
frame of a block, and on entry of the next block. -/
inductive Passes (r : Replay) : ReplayState → Prop
  | stands {ls : List Location} {current : Option Nat} {s : ReplayState} : r.Stands ls current s → Passes r s
  | sent {l : Location} {ls : List Location} {id : Nat} {s : ReplayState} (k : Nat) :
      r.Stands (l :: ls) (some id) s → id ≠ l.block →
      Passes r (s.leave ((r.graph.successors id).take k)
        ((r.graph.blocks[id]?.bind Block.last?).bind r.code.instruction?))
  | entered {l : Location} {ls : List Location} {current : Option Nat} {s t : ReplayState} :
      r.Stands (l :: ls) current s → r.cross current l.block s = .ok t → Passes r t

section
variable {r : Replay} {P : Nat → Frame Cell → Prop}

theorem each_cross (hP : Frame.Lasting P) {current : Option Nat} {id : Nat} {s s' : ReplayState} (hs : s.Each P)
    (h : r.cross current id s = .ok s') : s'.Each P := by
  unfold cross at h
  split at h
  · cases h
    exact hs
  · cases current with
    | none => exact hs.enter hP h
    | some old => exact (hs.leave hP ..).enter hP h

theorem each_passes (hP : Frame.Lasting P) (h₀ : (ReplayState.ofLocals r.locals).Each P)
    (hstep : ∀ {i s s'}, s.Each P → r.perform i s = .ok s' → s'.Each P) {s : ReplayState} (hs : r.Passes s) :
    s.Each P := by
  have hstands : ∀ {ls current s}, r.Stands ls current s → s.Each P := by
    intro ls current s h
    induction h with
    | start => exact h₀
    | step _ hcross hperform ih => exact hstep (each_cross hP ih hcross) hperform
  cases hs with
  | stands h => exact hstands h
  | sent k h _ => exact (hstands h).leave hP _ _
  | entered h hcross => exact each_cross hP (hstands h) hcross

theorem passes_of_walk {target : Nat} {ls : List Location} {current : Option Nat} {s : ReplayState} {f : Frame Cell}
    (hs : r.Stands ls current s) (h : (r.walk target ls current s).outcome = .ok (some f)) :
    ∃ t, r.Passes t ∧ t.frame = f := by
  induction ls generalizing current s with
  | nil => cases h
  | cons l ls ih =>
    rw [outcome_walk_cons] at h
    obtain ⟨t, hcross, h⟩ := Except.bind_eq_ok.mp h
    split at h
    · cases h
      exact ⟨t, .entered hs hcross, rfl⟩
    · obtain ⟨u, hperform, h⟩ := Except.bind_eq_ok.mp h
      exact ih (hs.step hcross hperform) h

/-- The frame that a replay answers with is that of a state it passes. -/
theorem passes_of_runTo {target : Nat} {f : Frame Cell} (h : (r.runTo target).outcome = .ok (some f)) :
    ∃ s, r.Passes s ∧ s.frame = f :=
  passes_of_walk .start h

end

end Replay

end SinkCheck
