import Mathlib
import SinkCheck.Proofs.RelatedFrames
import SinkCheck.Proofs.Pass

/-!
# Handler entries

A handler takes over the locals of the block just above it, whichever blocks it guards. Taint in a slot
therefore gets from a guarded block into the handler only if every block on the way hands the slot on.
-/

namespace SinkCheck

/-! ## Instructions and slots -/

namespace Instruction

def writes (i : Nat) : Instruction → Bool
  | .store kind slot => slot ≤ i && i < slot + kind.words
  | _ => false

theorem writes_of_effect {pool : Pool} {j : Instruction} {i slot n : Nat} (he : j.effect pool = .ok (.store slot n))
    (hi : slot ≤ i ∧ i < slot + n) : j.writes i = true := by
  cases j with
  | store kind slot' =>
    cases he
    simpa [writes] using hi
  | ldc index | ldc2 index | invoke kind index =>
    obtain ⟨a, -, ha⟩ := Except.map_eq_ok.mp he
    cases ha
  | getStatic index | putStatic index | getField index | putField index =>
    obtain ⟨⟨m, k⟩, -, ha⟩ := Except.map_eq_ok.mp he
    cases ha
  | leave kind =>
    cases kind with
    | none => cases he
    | some kind => cases he
  | _ => cases he

end Instruction

namespace Frame

section
variable {f g : Frame Cell} {i : Nat}

theorem slot_of_popWords {n : Nat} {cells : List Cell} (hp : f.popWords n = .ok (cells, g)) : g.slot i = f.slot i := by
  unfold popWords at hp
  split at hp
  · cases hp
    rfl
  · cases hp

theorem slot_of_pop {a : Cell} (hp : f.pop = .ok (a, g)) : g.slot i = f.slot i := by
  unfold pop at hp
  split at hp
  · cases hp
    rfl
  · cases hp

theorem depth_pushWords (f : Frame Cell) (a : Cell) (n : Nat) : (f.pushWords a n).depth = f.depth + n := by
  simp [depth, pushWords, Nat.add_comm]

theorem tainted_of_merge {j : Frame Cell} {changed : Bool} (hm : f.merge Cell.join g = .ok (j, changed)) :
    (j.slot i).tainted = ((f.slot i).tainted || (g.slot i).tainted) := by
  rw [slot_of_merge rfl hm]
  rfl

end

end Frame

namespace ReplayState

section
variable {s s' : ReplayState} {i : Nat}

theorem slot_taintContainer (received : Bool) (container : Option Cell) (h : (s.frame.slot i).tainted = true) :
    ((s.taintContainer received container).frame.slot i).tainted = true := by
  obtain ⟨g, hg, hkeep, heq⟩ := taintContainer_cases s received container
  rw [heq, setFrame, Frame.slot_mapCells s.frame hg]
  exact (hkeep _).2 h

theorem slot_finishCall (policy : Policy) (call : Call) (receiver : Option Cell) (arguments : List Cell)
    (h : (s.frame.slot i).tainted = true) :
    ((s.finishCall policy call receiver arguments).frame.slot i).tainted = true := by
  obtain ⟨fed, tainted, heq⟩ := finishCall_eq policy s call receiver arguments
  obtain ⟨id, hframe, -⟩ := pushResult_cases (s.taintContainer fed receiver) call receiver tainted
  rw [heq, hframe]
  exact slot_taintContainer fed receiver h

/-- A tainted slot stays tainted until something is stored into it. -/
theorem slot_apply {policy : Policy} {e : Effect} (hx : s.apply policy e = .ok s')
    (hstore : ∀ slot n, e = .store slot n → ¬ (slot ≤ i ∧ i < slot + n)) (h : (s.frame.slot i).tainted = true) :
    (s'.frame.slot i).tainted = true := by
  cases e with
  | consume n | derive n m | fresh n m =>
    obtain ⟨⟨cells, f⟩, hp, rfl⟩ := Except.map_eq_ok.mp hx
    exact (Frame.slot_of_popWords (i := i) hp) ▸ h
  | constant literal n | readStatic m n | load slot n | increment slot | identity =>
    cases hx
    exact h
  | store slot n =>
    obtain ⟨⟨cells, f⟩, hp, rfl⟩ := Except.map_eq_ok.mp hx
    have hlen : cells.length = n := by
      have hn : n ≤ s.frame.depth := (apply_eq_ok hx).1
      rw [Frame.popWords_of_le s.frame hn] at hp
      cases hp
      exact Frame.length_popped s.frame hn
    have hword := Frame.word_store_slot f slot cells i
    rw [hlen, if_neg (hstore slot n rfl), Frame.word_slot, Frame.word_slot, Option.some.injEq] at hword
    exact hword ▸ (Frame.slot_of_popWords (i := i) hp) ▸ h
  | shuffle pattern =>
    obtain ⟨f, hf, rfl⟩ := Except.map_eq_ok.mp hx
    unfold Frame.shuffle at hf
    split at hf
    · rename_i cells rest hp
      cases hf
      exact (Frame.slot_of_popWords (i := i) hp) ▸ h
    · cases hf
  | arrayStore n =>
    obtain ⟨⟨cells, f⟩, hp, rfl⟩ := Except.map_eq_ok.mp hx
    exact slot_taintContainer _ _ ((Frame.slot_of_popWords (i := i) hp) ▸ h)
  | readField m n | throw =>
    obtain ⟨⟨a, f⟩, hp, rfl⟩ := Except.map_eq_ok.mp hx
    exact (Frame.slot_of_pop (i := i) hp) ▸ h
  | invoke call =>
    obtain ⟨⟨cells, f⟩, hp, rfl⟩ := Except.map_eq_ok.mp hx
    have hslot : (f.slot i).tainted = true := (Frame.slot_of_popWords (i := i) hp) ▸ h
    simp only
    split
    · exact slot_finishCall policy call _ _ hslot
    · exact slot_finishCall policy call _ _ hslot

theorem slot_execute {policy : Policy} {pool : Pool} {p : Placed} (hx : s.execute policy pool p = .ok s')
    (hw : p.instruction.writes i = false) (h : (s.frame.slot i).tainted = true) : (s'.frame.slot i).tainted = true := by
  unfold execute at hx
  split at hx
  · cases hx
  · rename_i e he
    apply slot_apply hx _ h
    intro slot n heq hi
    subst heq
    rw [Instruction.writes_of_effect he hi] at hw
    cases hw

end

end ReplayState

/-! ## Leaving and entering blocks -/

def Edge.IsJump (e : Edge) : Prop :=
  e.kind = .branch ∨ e.kind = .switch

instance (e : Edge) : Decidable e.IsJump :=
  inferInstanceAs (Decidable (_ ∨ _))

namespace ReplayState

section
variable {s : ReplayState} {n t i : Nat} {e : Edge} {edges : List Edge}

theorem frame_send (s : ReplayState) (n : Nat) (e : Edge) : (s.send n e).frame = s.frame := by
  unfold send
  cases e.kind with
  | branch =>
    simp only
    split <;> rfl
  | _ => rfl

def TaintWaits (s : ReplayState) (t i : Nat) : Prop :=
  ∃ f, s.pending t = some f ∧ (f.slot i).tainted = true

def waiting (s : ReplayState) (t : Nat) : Option Nat :=
  (s.pending t).map Frame.depth

theorem pending_await_of_ne {f : Frame Cell} {id : Nat} (h : t ≠ id) : (s.await id f).pending t = s.pending t :=
  if_neg h

theorem pending_await (s : ReplayState) (t : Nat) (f : Frame Cell) : ∃ g, (s.await t f).pending t = some g ∧
    (g = f ∨ ∃ earlier changed, s.pending t = some earlier ∧ earlier.merge Cell.join f = .ok (g, changed)) := by
  have hself : (s.await t f).pending t = some _ := if_pos rfl
  refine ⟨_, hself, ?_⟩
  cases s.pending t with
  | none => exact .inl rfl
  | some earlier =>
    cases hm : earlier.merge Cell.join f with
    | error err => exact .inl (by simp only [hm])
    | ok r => exact .inr ⟨earlier, r.2, rfl, by simp only [hm]⟩

/-- Whatever waited before, what waits now is as high as what was sent last. -/
theorem waiting_await (s : ReplayState) (t : Nat) (f : Frame Cell) : (s.await t f).waiting t = some f.depth := by
  obtain ⟨g, hg, rfl | ⟨earlier, changed, -, hm⟩⟩ := s.pending_await t f
  · simp [waiting, hg]
  · obtain ⟨hsame, hdepth⟩ := Frame.depth_of_merge hm
    simp [waiting, hg, hdepth, hsame]

theorem taintWaits_await {f : Frame Cell} (h : (f.slot i).tainted = true) : (s.await t f).TaintWaits t i := by
  obtain ⟨g, hg, rfl | ⟨earlier, changed, -, hm⟩⟩ := s.pending_await t f
  · exact ⟨g, hg, h⟩
  · exact ⟨g, hg, by rw [Frame.tainted_of_merge hm, h, Bool.or_true]⟩

/-- A frame of the same height does not drive out what waits. -/
theorem taintWaits_await_of_waiting {f : Frame Cell} (hs : s.TaintWaits t i) (hw : s.waiting t = some f.depth) :
    (s.await t f).TaintWaits t i := by
  obtain ⟨earlier, hp, hslot⟩ := hs
  have hd : earlier.depth = f.depth := by simpa [waiting, hp] using hw
  obtain ⟨r, hr⟩ : ∃ r, earlier.merge Cell.join f = .ok r := Frame.merge_of_depth hd
  refine ⟨r.1, ?_, by rw [Frame.tainted_of_merge hr, hslot, Bool.true_or]⟩
  have hself : (s.await t f).pending t = some _ := if_pos rfl
  simp [hself, hp, hr]

theorem pending_send_of_not (h : e.IsJump → e.target ≠ t) : (s.send n e).pending t = s.pending t := by
  unfold send
  cases hk : e.kind with
  | fallThrough | exception => rfl
  | switch => exact pending_await_of_ne (h (.inr hk)).symm
  | branch =>
    simp only
    split
    · exact pending_await_of_ne (h (.inl hk)).symm
    · exact pending_await_of_ne (h (.inl hk)).symm

/-- A jump lets the frame wait, with the return address of a subroutine call on it. -/
theorem pending_send (s : ReplayState) (n : Nat) (hj : e.IsJump) :
    ∃ id, (s.send n e).pending =
      (s.await e.target (s.frame.pushWords (.ofObject id false) (if e.kind = .branch then n else 0))).pending := by
  have hplain : e.kind ≠ .exception := by
    intro hk
    simp [Edge.IsJump, hk] at hj
  have hfall : e.kind ≠ .fallThrough := by
    intro hk
    simp [Edge.IsJump, hk] at hj
  obtain ⟨-, id, hkept⟩ := s.send_cases n hplain
  simp only [hfall, if_false] at hkept
  exact ⟨id, hkept.pending⟩

theorem waiting_send (s : ReplayState) (n : Nat) (e : Edge) (t : Nat) : (s.send n e).waiting t =
    if e.IsJump ∧ e.target = t then some (s.frame.depth + if e.kind = .branch then n else 0) else s.waiting t := by
  by_cases hjump : e.IsJump ∧ e.target = t
  · obtain ⟨hj, rfl⟩ := hjump
    obtain ⟨id, hpending⟩ := s.pending_send n hj
    rw [if_pos ⟨hj, rfl⟩, waiting, hpending, ← Frame.depth_pushWords s.frame (.ofObject id false)]
    exact waiting_await s e.target _
  · rw [if_neg hjump, waiting, pending_send_of_not fun hj ht => hjump ⟨hj, ht⟩]
    rfl

theorem taintWaits_send (hj : e.IsJump) (h : (s.frame.slot i).tainted = true) :
    (s.send n e).TaintWaits e.target i := by
  obtain ⟨id, hpending⟩ := s.pending_send n hj
  rw [TaintWaits, hpending]
  exact taintWaits_await h

theorem taintWaits_send_of_waiting (hs : s.TaintWaits t i)
    (h : e.IsJump → e.target = t → s.waiting t = some (s.frame.depth + if e.kind = .branch then n else 0)) :
    (s.send n e).TaintWaits t i := by
  by_cases hjump : e.IsJump ∧ e.target = t
  · obtain ⟨hj, rfl⟩ := hjump
    obtain ⟨id, hpending⟩ := s.pending_send n hj
    rw [TaintWaits, hpending]
    apply taintWaits_await_of_waiting hs
    rw [h hj rfl, Frame.depth_pushWords]
  · rw [TaintWaits, pending_send_of_not fun hj ht => hjump ⟨hj, ht⟩]
    exact hs

theorem falling_send :
    (s.send n e).falling = if e.kind = .fallThrough then some (e.target, s.frame) else s.falling := by
  unfold send
  cases e.kind with
  | branch =>
    simp only
    split <;> rfl
  | _ => rfl

theorem frame_sendAll : (edges.foldl (fun s e => s.send n e) s).frame = s.frame := by
  induction edges generalizing s with
  | nil => rfl
  | cons e edges ih => rw [List.foldl_cons, ih, frame_send]

theorem pending_sendAll_of_not (h : ∀ e ∈ edges, e.IsJump → e.target ≠ t) :
    (edges.foldl (fun s e => s.send n e) s).pending t = s.pending t := by
  induction edges generalizing s with
  | nil => rfl
  | cons e edges ih =>
    rw [List.foldl_cons, ih fun e' he' => h e' (List.mem_cons_of_mem _ he')]
    exact pending_send_of_not (h e (List.mem_cons_self ..))

theorem waiting_sendAll (s : ReplayState) (n t : Nat) (edges : List Edge) :
    (edges.foldl (fun s e => s.send n e) s).waiting t =
      ((edges.filter fun e => e.IsJump ∧ e.target = t).map
        fun e => s.frame.depth + if e.kind = .branch then n else 0).getLast?.or (s.waiting t) := by
  induction edges using List.reverseRecOn with
  | nil => simp
  | append_singleton edges e ih =>
    rw [List.foldl_append, List.foldl_cons, List.foldl_nil, waiting_send, ih, frame_sendAll, List.filter_append]
    by_cases hjump : e.IsJump ∧ e.target = t
    · simp [hjump]
    · simp [hjump]

theorem taintWaits_sendAll (he : ∃ e ∈ edges, e.IsJump ∧ e.target = t) (h : (s.frame.slot i).tainted = true) :
    (edges.foldl (fun s e => s.send n e) s).TaintWaits t i := by
  induction edges generalizing s with
  | nil =>
    obtain ⟨e, he, -⟩ := he
    cases he
  | cons e edges ih =>
    rw [List.foldl_cons]
    by_cases hlater : ∃ e' ∈ edges, e'.IsJump ∧ e'.target = t
    · apply ih hlater
      rw [frame_send]
      exact h
    · -- this edge is the last one to the target
      rw [TaintWaits, pending_sendAll_of_not fun e' he' hj ht => hlater ⟨e', he', hj, ht⟩]
      obtain ⟨e', he', hj, rfl⟩ := he
      rcases List.mem_cons.mp he' with rfl | he'
      · exact taintWaits_send hj h
      · exact absurd ⟨e', he', hj, rfl⟩ hlater

theorem taintWaits_sendAll_of_waiting (hs : s.TaintWaits t i)
    (h : ∀ e ∈ edges, e.IsJump → e.target = t →
      s.waiting t = some (s.frame.depth + if e.kind = .branch then n else 0)) :
    (edges.foldl (fun s e => s.send n e) s).TaintWaits t i := by
  induction edges generalizing s with
  | nil => exact hs
  | cons e edges ih =>
    have hfirst := h e (List.mem_cons_self ..)
    apply ih (taintWaits_send_of_waiting hs hfirst)
    intro e' he' hj ht
    rw [waiting_send, frame_send, ← h e' (List.mem_cons_of_mem _ he') hj ht]
    split
    · rename_i hjump
      exact (hfirst hjump.1 hjump.2).symm
    · rfl

theorem falling_sendAll_of_not (h : ∀ e ∈ edges, e.kind = .fallThrough → e.target ≠ t)
    (hs : ∀ f, s.falling ≠ some (t, f)) : (edges.foldl (fun s e => s.send n e) s).fallen t = none := by
  induction edges generalizing s with
  | nil =>
    cases hf : s.fallen t with
    | none => exact hf
    | some f => exact absurd (fallen_eq_some.mp hf) (hs f)
  | cons e edges ih =>
    rw [List.foldl_cons]
    apply ih fun e' he' => h e' (List.mem_cons_of_mem _ he')
    intro f hf
    rw [falling_send] at hf
    split at hf
    · rename_i hk
      cases hf
      exact h e (List.mem_cons_self ..) hk rfl
    · exact hs f hf

theorem falling_sendAll (he : ∃ e ∈ edges, e.kind = .fallThrough)
    (h : ∀ e ∈ edges, e.kind = .fallThrough → e.target = t) :
    (edges.foldl (fun s e => s.send n e) s).falling = some (t, s.frame) := by
  induction edges using List.reverseRecOn generalizing s with
  | nil =>
    obtain ⟨e, he, -⟩ := he
    cases he
  | append_singleton edges e ih =>
    rw [List.foldl_append, List.foldl_cons, List.foldl_nil, falling_send, frame_sendAll]
    split
    · rename_i hk
      rw [h e (by simp) hk]
    · rename_i hk
      apply ih
      · obtain ⟨e', he', hk'⟩ := he
        rcases List.mem_append.mp he' with he' | he'
        · exact ⟨e', he', hk'⟩
        · rw [List.mem_singleton] at he'
          exact absurd (he' ▸ hk') hk
      · exact fun e' he' => h e' (List.mem_append_left _ he')

end

section
variable {s s' : ReplayState} {id t i : Nat}

/-- A plain block starts with what falls and what waits, joined, and if there is neither, with the running frame. -/
theorem enter_plain (hx : s.enter id false = .ok s') : ∃ f, s' = (s.forget id).setFrame f ∧
    ((∃ g g' changed, s.fallen id = some g ∧ s.pending id = some g' ∧ g.merge Cell.join g' = .ok (f, changed)) ∨
      s.fallen id = some f ∧ s.pending id = none ∨ s.fallen id = none ∧ s.pending id = some f ∨
      s.fallen id = none ∧ s.pending id = none ∧ f = s.frame) := by
  unfold enter at hx
  simp only [Bool.false_eq_true, if_false] at hx
  cases hf : s.fallen id with
  | none =>
    cases hp : s.pending id with
    | none =>
      rw [hf, hp] at hx
      cases hx
      exact ⟨s.frame, rfl, .inr (.inr (.inr ⟨rfl, rfl, rfl⟩))⟩
    | some g' =>
      rw [hf, hp] at hx
      cases hx
      exact ⟨g', rfl, .inr (.inr (.inl ⟨rfl, rfl⟩))⟩
  | some g =>
    cases hp : s.pending id with
    | none =>
      rw [hf, hp] at hx
      cases hx
      exact ⟨g, rfl, .inr (.inl ⟨rfl, rfl⟩)⟩
    | some g' =>
      simp only [hf, hp] at hx
      cases hm : g.merge Cell.join g' with
      | error err =>
        rw [hm] at hx
        cases hx
      | ok r =>
        rw [hm] at hx
        cases hx
        exact ⟨r.1, rfl, .inl ⟨g, g', r.2, rfl, rfl, hm⟩⟩

theorem slot_enter (hx : s.enter id false = .ok s')
    (h : (∃ f, s.fallen id = some f ∧ (f.slot i).tainted = true) ∨
      s.TaintWaits id i ∨ s.fallen id = none ∧ s.pending id = none ∧ (s.frame.slot i).tainted = true) :
    (s'.frame.slot i).tainted = true := by
  obtain ⟨f, rfl, hcases⟩ := enter_plain hx
  have hframe : ((s.forget id).setFrame f).frame = f := rfl
  rw [hframe]
  unfold TaintWaits at h
  rcases hcases with ⟨g, g', changed, hg, hg', hm⟩ | ⟨hg, hg'⟩ | ⟨hg, hg'⟩ | ⟨hg, hg', rfl⟩
  · rw [Frame.tainted_of_merge hm]
    simp_all
  · simp_all
  · simp_all
  · simp_all

theorem enter_handler (hx : s.enter id true = .ok s') :
    s'.frame.locals = s.frame.locals ∧ (∃ n, s'.frame.stack = [.ofObject n false]) ∧ (s.forget id).Kept s' := by
  cases hx
  exact ⟨rfl, ⟨s.next, rfl⟩, rfl, rfl⟩

theorem kept_enter {isHandler : Bool} (hx : s.enter id isHandler = .ok s') : (s.forget id).Kept s' := by
  cases isHandler with
  | true => exact (enter_handler hx).2.2
  | false =>
    obtain ⟨f, rfl, -⟩ := enter_plain hx
    exact ⟨rfl, rfl⟩

theorem pending_enter {isHandler : Bool} (hx : s.enter id isHandler = .ok s') :
    s'.pending t = if t = id then none else s.pending t := by
  rw [(kept_enter hx).pending]
  rfl

end

end ReplayState

/-! ## The end of a block -/

namespace Graph

def isHandler (g : Graph) (id : Nat) : Bool :=
  (g.blocks[id]?.map Block.isHandler).getD false

def Spares (g : Graph) (c : Code) (i id : Nat) : Prop :=
  ∀ n ∈ g.indices id, ∀ j ∈ c.instruction? n, j.writes i = false

instance (g : Graph) (c : Code) (i id : Nat) : Decidable (g.Spares c i id) :=
  inferInstanceAs (Decidable (∀ n ∈ g.indices id, ∀ j ∈ c.instruction? n, j.writes i = false))

end Graph

namespace Replay

section
variable (r : Replay)

def performAll : List Nat → ReplayState → Except AnalysisError ReplayState
  | [], s => .ok s
  | n :: is, s => (r.perform n s).bind (performAll is)

def endOf : Nat → Except AnalysisError ReplayState
  | 0 => (r.cross none 0 (.ofLocals r.locals)).bind (r.performAll (r.graph.indices 0))
  | id + 1 => (endOf id).bind fun s => (r.cross (some id) (id + 1) s).bind (r.performAll (r.graph.indices (id + 1)))

/-- The heights with which a block jumps to block `t`, the return address of a subroutine call included. -/
def jumpHeights (t id : Nat) : List Nat :=
  match r.endOf id with
  | .error _ => []
  | .ok s => ((r.graph.successors id).filter fun e => e.IsJump ∧ e.target = t).map
      fun e => s.frame.depth + r.graph.returnWords r.code e

/-- Slot `i` is handed on from the end of block `a` to the end of another, through blocks that store nothing into
it. It gets into the next block if that is a handler, if it is fallen into or if nothing enters it from above, and
along a jump into a plain block if the blocks in between that jump there too do so with the same height. -/
inductive HandsOn (i a : Nat) : Nat → Prop
  | refl : HandsOn i a a
  | next {id : Nat} : HandsOn i a id →
      (r.graph.isHandler (id + 1) = true ∨ ⟨id, id + 1, .fallThrough⟩ ∈ r.graph.edges ∨
        ∀ e ∈ r.graph.edges, e.target = id + 1 → e.source ≤ id → e.kind = .exception) →
      r.graph.Spares r.code i (id + 1) → HandsOn i a (id + 1)
  | jump {e : Edge} : HandsOn i a e.source → e ∈ r.graph.edges → e.IsJump → e.source < e.target →
      r.graph.isHandler e.target = false →
      (∀ id, e.source < id → id < e.target → ∀ n ∈ r.jumpHeights e.target id,
        (r.jumpHeights e.target e.source).getLast? = some n) →
      r.graph.Spares r.code i e.target → HandsOn i a e.target

end

section
variable {r : Replay}

theorem kept_perform {n : Nat} {s s' : ReplayState} (hx : r.perform n s = .ok s') : s.Kept s' := by
  unfold perform at hx
  split at hx
  · cases hx
    exact ⟨rfl, rfl⟩
  · exact ReplayState.kept_of_execute hx

theorem kept_performAll {is : List Nat} {s s' : ReplayState} (hx : r.performAll is s = .ok s') : s.Kept s' := by
  induction is generalizing s with
  | nil =>
    cases hx
    exact ⟨rfl, rfl⟩
  | cons n is ih =>
    obtain ⟨t, ht, hx⟩ := Except.bind_eq_ok.mp hx
    have hkept := kept_perform ht
    have hrest := ih hx
    exact ⟨hrest.pending.trans hkept.pending, hrest.falling.trans hkept.falling⟩

theorem slot_perform {n : Nat} {s s' : ReplayState} {i : Nat} (hx : r.perform n s = .ok s')
    (hw : ∀ j, r.code.instruction? n = some j → j.writes i = false) (h : (s.frame.slot i).tainted = true) :
    (s'.frame.slot i).tainted = true := by
  unfold perform at hx
  split at hx
  · cases hx
    exact h
  · rename_i p hp
    exact ReplayState.slot_execute hx (hw _ (by rw [Code.instruction?, hp]; rfl)) h

theorem slot_performAll {is : List Nat} {s s' : ReplayState} {i : Nat} (hx : r.performAll is s = .ok s')
    (hw : ∀ n ∈ is, ∀ j, r.code.instruction? n = some j → j.writes i = false)
    (h : (s.frame.slot i).tainted = true) : (s'.frame.slot i).tainted = true := by
  induction is generalizing s with
  | nil =>
    cases hx
    exact h
  | cons n is ih =>
    obtain ⟨t, ht, hx⟩ := Except.bind_eq_ok.mp hx
    apply ih hx fun m hm => hw m (List.mem_cons_of_mem _ hm)
    exact slot_perform ht (hw n (List.mem_cons_self ..)) h

theorem cross_succ (id : Nat) (s : ReplayState) : r.cross (some id) (id + 1) s =
    (s.leave (r.graph.successors id) (r.graph.lastInstruction? r.code id)).enter (id + 1)
      (r.graph.isHandler (id + 1)) :=
  if_neg (by simp)

theorem endOf_succ {id : Nat} {s' : ReplayState} (h : r.endOf (id + 1) = .ok s') : ∃ s t, r.endOf id = .ok s ∧
    (s.leave (r.graph.successors id) (r.graph.lastInstruction? r.code id)).enter (id + 1)
      (r.graph.isHandler (id + 1)) = .ok t ∧ r.performAll (r.graph.indices (id + 1)) t = .ok s' := by
  obtain ⟨s, hs, h⟩ := Except.bind_eq_ok.mp h
  obtain ⟨t, ht, h⟩ := Except.bind_eq_ok.mp h
  rw [cross_succ] at ht
  exact ⟨s, t, hs, ht, h⟩

theorem endOf_of_le {id id' : Nat} (hle : id ≤ id') {s' : ReplayState} (h : r.endOf id' = .ok s') :
    ∃ s, r.endOf id = .ok s := by
  induction hle generalizing s' with
  | refl => exact ⟨s', h⟩
  | step _ ih =>
    obtain ⟨s, -, hs, -⟩ := endOf_succ h
    exact ih hs

theorem jumpHeights_eq {id t : Nat} {s : ReplayState} (hs : r.endOf id = .ok s) : r.jumpHeights t id =
    ((r.graph.successors id).filter fun e => e.IsJump ∧ e.target = t).map fun e => s.frame.depth +
      if e.kind = .branch then ((r.graph.lastInstruction? r.code id).map Instruction.branchPushWords).getD 0 else 0 := by
  rw [jumpHeights, hs]
  apply List.map_congr_left
  intro e he
  rw [Graph.returnWords, (Graph.mem_successors.mp (List.mem_filter.mp he).1).2]

theorem waiting_leave {id t : Nat} {s : ReplayState} (hs : r.endOf id = .ok s) :
    (s.leave (r.graph.successors id) (r.graph.lastInstruction? r.code id)).waiting t =
      (r.jumpHeights t id).getLast?.or (s.waiting t) := by
  rw [ReplayState.leave, ReplayState.waiting_sendAll, jumpHeights_eq hs]
  rfl

/-- What waits for a block was sent by a jump from above. -/
theorem jump_of_pending_leave {id t : Nat} {s : ReplayState} {f : Frame Cell}
    (hs : ∀ f, s.pending t = some f → ∃ e ∈ r.graph.edges, e.IsJump ∧ e.target = t ∧ e.source < id)
    (h : (s.leave (r.graph.successors id) (r.graph.lastInstruction? r.code id)).pending t = some f) :
    ∃ e ∈ r.graph.edges, e.IsJump ∧ e.target = t ∧ e.source ≤ id := by
  by_cases hjump : ∃ e ∈ r.graph.successors id, e.IsJump ∧ e.target = t
  · obtain ⟨e, he, hj, ht⟩ := hjump
    obtain ⟨hmem, hsource⟩ := Graph.mem_successors.mp he
    exact ⟨e, hmem, hj, ht, Nat.le_of_eq hsource⟩
  · rw [ReplayState.leave, ReplayState.pending_sendAll_of_not fun e he hj ht => hjump ⟨e, he, hj, ht⟩] at h
    obtain ⟨e, he, hj, ht, hlt⟩ := hs f h
    exact ⟨e, he, hj, ht, Nat.le_of_lt hlt⟩

theorem jump_of_pending {id t : Nat} {s : ReplayState} (hs : r.endOf id = .ok s) :
    ∀ f, s.pending t = some f → ∃ e ∈ r.graph.edges, e.IsJump ∧ e.target = t ∧ e.source < id := by
  induction id generalizing s with
  | zero =>
    intro f hf
    obtain ⟨u, hu, hs⟩ := Except.bind_eq_ok.mp hs
    have hu : (ReplayState.ofLocals r.locals).enter 0 (r.graph.isHandler 0) = .ok u := hu
    rw [(kept_performAll hs).pending, ReplayState.pending_enter hu] at hf
    split at hf
    · cases hf
    · cases hf
  | succ id ih =>
    intro f hf
    obtain ⟨s₀, u, hs₀, hu, hs⟩ := endOf_succ hs
    rw [(kept_performAll hs).pending, ReplayState.pending_enter hu] at hf
    split at hf
    · cases hf
    · obtain ⟨e, he, hj, ht, hle⟩ := jump_of_pending_leave (ih hs₀) hf
      exact ⟨e, he, hj, ht, Nat.lt_succ_of_le hle⟩

end

/-! ## Handing on -/

section
variable {r : Replay} (hl : r.graph.Laid r.code) {i : Nat}

/-- What a block sends to another waits there as long as the blocks in between send frames of the same height. -/
theorem taintWaits_until {e : Edge} (he : e ∈ r.graph.edges) (hj : e.IsJump)
    (hagree : ∀ id, e.source < id → id < e.target → ∀ n ∈ r.jumpHeights e.target id,
      (r.jumpHeights e.target e.source).getLast? = some n)
    (hsource : ∀ s, r.endOf e.source = .ok s → (s.frame.slot i).tainted = true) {k : Nat}
    (hk : e.source + k < e.target) {s : ReplayState} (hs : r.endOf (e.source + k) = .ok s) :
    let left := s.leave (r.graph.successors (e.source + k)) (r.graph.lastInstruction? r.code (e.source + k))
    left.TaintWaits e.target i ∧ left.waiting e.target = (r.jumpHeights e.target e.source).getLast? := by
  induction k generalizing s with
  | zero =>
    have hs : r.endOf e.source = .ok s := hs
    have hmem : e ∈ r.graph.successors e.source := Graph.mem_successors.mpr ⟨he, rfl⟩
    refine ⟨ReplayState.taintWaits_sendAll ⟨e, hmem, hj, rfl⟩ (hsource s hs), ?_⟩
    have hsome : (r.jumpHeights e.target e.source).getLast?.isSome := by
      rw [List.getLast?_isSome, jumpHeights_eq hs]
      simpa using ⟨e, hmem, hj, rfl⟩
    rw [Nat.add_zero, waiting_leave hs, Option.or_of_isSome hsome]
  | succ k ih =>
    have hs : r.endOf (e.source + k + 1) = .ok s := hs
    obtain ⟨s₀, t, hs₀, ht, hx⟩ := endOf_succ hs
    obtain ⟨hwaits, hheight⟩ := ih (by omega) hs₀
    have hne : ¬ e.target = e.source + k + 1 := by omega
    have hpending : s.pending e.target =
        (s₀.leave (r.graph.successors (e.source + k)) (r.graph.lastInstruction? r.code (e.source + k))).pending
          e.target := by
      rw [(kept_performAll hx).pending, ReplayState.pending_enter ht, if_neg hne]
    have hheight : s.waiting e.target = (r.jumpHeights e.target e.source).getLast? := by
      rw [← hheight, ReplayState.waiting, hpending]
      rfl
    have hsame := hagree (e.source + k + 1) (by omega) hk
    refine ⟨?_, ?_⟩
    · apply ReplayState.taintWaits_sendAll_of_waiting
      · rw [ReplayState.TaintWaits]
        exact hpending ▸ hwaits
      · intro e' he' hj' ht'
        refine hheight.trans (hsame _ ?_)
        rw [jumpHeights_eq hs]
        exact List.mem_map.mpr ⟨e', by simpa using ⟨he', hj', ht'⟩, rfl⟩
    · rw [← Nat.add_assoc, waiting_leave hs, hheight]
      cases hlast : (r.jumpHeights e.target (e.source + k + 1)).getLast? with
      | none => rfl
      | some n => exact (hsame n (List.mem_of_getLast? hlast)).symm

include hl

theorem slot_next {id : Nat} {s t : ReplayState} (hs : r.endOf id = .ok s)
    (ht : (s.leave (r.graph.successors id) (r.graph.lastInstruction? r.code id)).enter (id + 1)
      (r.graph.isHandler (id + 1)) = .ok t)
    (hnext : r.graph.isHandler (id + 1) = true ∨ ⟨id, id + 1, .fallThrough⟩ ∈ r.graph.edges ∨
      ∀ e ∈ r.graph.edges, e.target = id + 1 → e.source ≤ id → e.kind = .exception)
    (h : (s.frame.slot i).tainted = true) : (t.frame.slot i).tainted = true := by
  have hfalls : ∀ e ∈ r.graph.successors id, e.kind = .fallThrough → e.target = id + 1 := by
    intro e he hk
    obtain ⟨hmem, hsource⟩ := Graph.mem_successors.mp he
    rw [hl.falls hmem hk, hsource]
  cases hh : r.graph.isHandler (id + 1) with
  | true =>
    rw [hh] at ht
    have hlocals := (ReplayState.enter_handler ht).1
    rw [ReplayState.leave, ReplayState.frame_sendAll] at hlocals
    rw [Frame.slot, hlocals]
    exact h
  | false =>
    rw [hh] at ht
    apply ReplayState.slot_enter ht
    rcases hnext with hnext | hnext | hnext
    · rw [hh] at hnext
      cases hnext
    · left
      refine ⟨s.frame, ReplayState.fallen_eq_some.mpr ?_, h⟩
      exact ReplayState.falling_sendAll ⟨_, Graph.mem_successors.mpr ⟨hnext, rfl⟩, rfl⟩ hfalls
    · right
      right
      refine ⟨?_, ?_, ?_⟩
      · apply ReplayState.falling_sendAll_of_not
        · intro e he hk htarget
          obtain ⟨hmem, hsource⟩ := Graph.mem_successors.mp he
          rw [hnext e hmem htarget (Nat.le_of_eq hsource)] at hk
          cases hk
        · intro f hf
          cases hf
      · rw [Option.eq_none_iff_forall_ne_some]
        intro f hf
        obtain ⟨e, he, hj, htarget, hle⟩ := jump_of_pending_leave (jump_of_pending hs) hf
        have hk := hnext e he htarget hle
        rcases hj with hj | hj
        · rw [hj] at hk; cases hk
        · rw [hj] at hk; cases hk
      · rw [ReplayState.leave, ReplayState.frame_sendAll]
        exact h

theorem slot_handsOn {a id : Nat} (hon : r.HandsOn i a id)
    (ha : ∀ s, r.endOf a = .ok s → (s.frame.slot i).tainted = true) :
    ∀ s, r.endOf id = .ok s → (s.frame.slot i).tainted = true := by
  induction hon with
  | refl => exact ha
  | next _ hnext hw ih =>
    intro s' hs'
    obtain ⟨s, t, hs, ht, hx⟩ := endOf_succ hs'
    exact slot_performAll hx hw (slot_next hl hs ht hnext (ih s hs))
  | @jump e _ he hj hlt hplain hagree hw ih =>
    intro s' hs'
    obtain ⟨k, hk⟩ : ∃ k, e.target = e.source + k + 1 := ⟨e.target - e.source - 1, by omega⟩
    rw [hk] at hs' hw hplain
    obtain ⟨s, t, hs, ht, hx⟩ := endOf_succ hs'
    apply slot_performAll hx hw
    have hwaits := (taintWaits_until he hj hagree ih (by omega) hs).1
    rw [hplain] at ht
    rw [hk] at hwaits
    exact ReplayState.slot_enter ht (.inr (.inl hwaits))

end

/-! ## The replay up to a block -/

section
variable {r : Replay} {target : Nat}

theorem outcome_walk_inside {is : List Nat} (ht : target ∉ is) (ls : List Location) (id : Nat) (s : ReplayState) :
    (r.walk target (is.map (⟨·, id⟩) ++ ls) (some id) s).outcome =
      (r.performAll is s).bind fun s => (r.walk target ls (some id) s).outcome := by
  induction is generalizing s with
  | nil => rfl
  | cons n is ih =>
    have hne := List.ne_of_not_mem_cons ht
    have ht := List.not_mem_of_not_mem_cons ht
    have hcross : r.cross (some id) id s = .ok s := if_pos rfl
    rw [List.map_cons, List.cons_append, outcome_walk_cons, performAll]
    simp only [hcross, Except.bind, if_neg (Ne.symm hne)]
    cases r.perform n s with
    | error err => rfl
    | ok s => exact ih ht s

theorem outcome_walk_block {is : List Nat} (hne : is ≠ []) (ht : target ∉ is) (ls : List Location)
    (current : Option Nat) (id : Nat) (s : ReplayState) : (r.walk target (is.map (⟨·, id⟩) ++ ls) current s).outcome =
      ((r.cross current id s).bind (r.performAll is)).bind fun s => (r.walk target ls (some id) s).outcome := by
  cases is with
  | nil => exact absurd rfl hne
  | cons n is =>
    have hn := List.ne_of_not_mem_cons ht
    have ht := List.not_mem_of_not_mem_cons ht
    rw [List.map_cons, List.cons_append, outcome_walk_cons]
    cases r.cross current id s with
    | error err => rfl
    | ok s =>
      simp only [Except.bind, performAll, if_neg (Ne.symm hn)]
      cases r.perform n s with
      | error err => rfl
      | ok s => exact outcome_walk_inside ht ls id s

end

end Replay

namespace Graph

def locationsFrom (g : Graph) (id : Nat) : List Location :=
  (List.range' id (g.blocks.size - id)).flatMap fun id => (g.indices id).map (⟨·, id⟩)

section
variable {c : Code} {g : Graph} (hl : g.Laid c)

theorem locationsFrom_eq {id : Nat} (hid : id < g.blocks.size) :
    g.locationsFrom id = (g.indices id).map (⟨·, id⟩) ++ g.locationsFrom (id + 1) := by
  rw [locationsFrom, show g.blocks.size - id = g.blocks.size - (id + 1) + 1 by omega, List.range'_succ,
    List.flatMap_cons]
  rfl

include hl

theorem Laid.orderedLocations_eq : g.orderedLocations = g.locationsFrom 0 := by
  rw [orderedLocations, hl.orderedBlocks_eq, locationsFrom, Nat.sub_zero, ← List.range_eq_range', ← g.numbered,
    List.flatMap_map]
  apply List.flatMap_congr
  intro b hb
  obtain ⟨id, hid⟩ := List.mem_iff_getElem?.mp hb
  rw [Array.getElem?_toList] at hid
  rw [id_of_getElem? hid, indices, hid]
  rfl

theorem Laid.stop_le_of_lt {id id' : Nat} {b b' : Block} (hlt : id < id') (hb : g.blocks[id]? = some b)
    (hb' : g.blocks[id']? = some b') : b.stop ≤ b'.start := by
  obtain ⟨k, rfl⟩ := Nat.exists_eq_add_of_lt hlt
  rw [show id + k + 1 = id + 1 + k by omega] at hb'
  exact hl.stop_le_start hb hb'

theorem Laid.not_mem_indices {id id' i : Nat} {b' : Block} (hlt : id < id') (hb' : g.blocks[id']? = some b')
    (hi : b'.start ≤ i) : i ∉ g.indices id := by
  intro hmem
  have hid' := (Array.getElem?_eq_some_iff.mp hb').1
  have hb := Array.getElem?_eq_getElem (Nat.lt_trans hlt hid')
  rw [indices, hb] at hmem
  have hstop := (Block.mem_indices.mp hmem).2
  have := hl.stop_le_of_lt hlt hb hb'
  omega

theorem Laid.indices_eq_cons {id : Nat} {b : Block} (hb : g.blocks[id]? = some b) :
    ∃ is, g.indices id = b.start :: is := by
  have hocc := hl.occupied hb
  refine ⟨List.range' (b.start + 1) (b.stop - (b.start + 1)), ?_⟩
  rw [indices, hb]
  exact (congrArg (List.range' b.start) (by omega : b.stop - b.start = b.stop - (b.start + 1) + 1)).trans
    List.range'_succ

end

theorem isHandler_of_exception {c : Code} {g : Graph} (hg : build c = .ok g) {e : Edge} (he : e ∈ g.edges)
    (hk : e.kind = .exception) : g.isHandler e.target = true := by
  obtain ⟨last, marks, -, -, hm, rfl⟩ := build_eq_ok hg
  rcases mem_edges_ofStarts.mp he with ⟨id, b, -, -, he⟩ | ⟨h, hh, he⟩
  · obtain ⟨j, -, ⟨p, -, rfl⟩ | ⟨-, rfl⟩⟩ := mem_exits.mp he
    · simp only at hk
      split at hk
      · cases hk
      · cases hk
    · cases hk
  · obtain ⟨-, htarget, -⟩ := guards_cases he
    have hanchor : h.entry ∈ anchors c :=
      List.mem_append_right _ (List.mem_flatMap.mpr ⟨h, hh, List.mem_cons_self ..⟩)
    obtain ⟨i, hi, hb⟩ := mapM_ok_mem hm h.entry hanchor
    have hx := boundary_eq_ok hb
    have hlead : i ∈ leaders c marks := mem_leaders.mpr ⟨lt_of_indexOf? hx, .inr (.inl hi)⟩
    have hentry : splitAt.isEntry c i = true := List.any_eq_true.mpr ⟨h, hh, by simp [hx]⟩
    rw [isHandler, htarget, blockAt, hx, Option.getD_some, getElem?_blocks_ofStarts, List.getElem?_idxOf hlead]
    exact hentry

end Graph

namespace Replay

section
variable {r : Replay} (hl : r.graph.Laid r.code)
include hl

/-- The replay passes a block after the other. -/
theorem outcome_runTo {target id : Nat} (hid : id < r.graph.blocks.size) (ht : ∀ k ≤ id, target ∉ r.graph.indices k) :
    (r.runTo target).outcome = (r.endOf id).bind fun s =>
      (r.walk target (r.graph.locationsFrom (id + 1)) (some id) s).outcome := by
  induction id with
  | zero =>
    obtain ⟨is, his⟩ := hl.indices_eq_cons (Array.getElem?_eq_getElem hid)
    rw [runTo, hl.orderedLocations_eq, Graph.locationsFrom_eq hid,
      outcome_walk_block (by rw [his]; simp) (ht 0 (Nat.le_refl 0))]
    rfl
  | succ id ih =>
    obtain ⟨is, his⟩ := hl.indices_eq_cons (Array.getElem?_eq_getElem hid)
    rw [ih (Nat.lt_of_succ_lt hid) fun k hk => ht k (Nat.le_succ_of_le hk), endOf]
    cases r.endOf id with
    | error err => rfl
    | ok s =>
      simp only [Except.bind]
      rw [Graph.locationsFrom_eq hid, outcome_walk_block (by rw [his]; simp) (ht (id + 1) (Nat.le_refl _))]
      rfl

/-- The replay to a location in a block or below it enters the block first. -/
theorem outcome_runTo_enter {target id : Nat} {b : Block} (hb : r.graph.blocks[id + 1]? = some b)
    (ht : b.start ≤ target) : (r.runTo target).outcome = (r.endOf id).bind fun s =>
      (r.cross (some id) (id + 1) s).bind fun s => if b.start = target then .ok (some s.frame)
        else (r.perform b.start s).bind fun s =>
          (r.walk target (r.graph.locationsFrom (id + 1)).tail (some (id + 1)) s).outcome := by
  have hid := (Array.getElem?_eq_some_iff.mp hb).1
  obtain ⟨is, his⟩ := hl.indices_eq_cons hb
  rw [outcome_runTo hl (Nat.lt_of_succ_lt hid) fun k hk => hl.not_mem_indices (Nat.lt_succ_of_le hk) hb ht]
  rw [Graph.locationsFrom_eq hid, his, List.map_cons, List.cons_append]
  simp only [outcome_walk_cons, List.tail_cons]

theorem runTo_start {id : Nat} {b : Block} (hb : r.graph.blocks[id + 1]? = some b) {f : Frame Cell}
    (hf : (r.runTo b.start).outcome = .ok (some f)) :
    ∃ s t, r.endOf id = .ok s ∧ r.cross (some id) (id + 1) s = .ok t ∧ f = t.frame := by
  rw [outcome_runTo_enter hl hb (Nat.le_refl _)] at hf
  obtain ⟨s, hs, hf⟩ := Except.bind_eq_ok.mp hf
  obtain ⟨t, ht, hf⟩ := Except.bind_eq_ok.mp hf
  simp only [if_true] at hf
  cases hf
  exact ⟨s, t, hs, ht, rfl⟩

end

/-- **What a handler starts with.** A handler that guards a block above it starts with the exception alone on the
stack and with the locals of the block just above it. So what was tainted in a slot at the end of the guarded
block is tainted in the handler if every block on the way hands it on. -/
theorem handler_entry_locals {r : Replay} (hg : Graph.build r.code = .ok r.graph) {e : Edge} (he : e ∈ r.graph.edges)
    (hk : e.kind = .exception) (habove : e.source < e.target) {b : Block} (hb : r.graph.blocks[e.target]? = some b)
    {f : Frame Cell} (hf : (r.runTo b.start).outcome = .ok (some f)) :
    (∃ s, r.endOf (e.target - 1) = .ok s ∧ f.locals = s.frame.locals) ∧ (∃ n, f.stack = [.ofObject n false]) ∧
      ∃ s, r.endOf e.source = .ok s ∧ ∀ i, r.HandsOn i e.source (e.target - 1) →
        (s.frame.slot i).tainted = true → (f.slot i).tainted = true := by
  have hl := Graph.laid_of_build hg
  have hhandler := Graph.isHandler_of_exception hg he hk
  obtain ⟨id, hid⟩ : ∃ id, e.target = id + 1 := ⟨e.target - 1, by omega⟩
  rw [hid] at hb hhandler
  obtain ⟨s, t, hs, ht, rfl⟩ := runTo_start hl hb hf
  rw [cross_succ, hhandler] at ht
  obtain ⟨hlocals, hstack, -⟩ := ReplayState.enter_handler ht
  rw [ReplayState.leave, ReplayState.frame_sendAll] at hlocals
  obtain ⟨s₀, hs₀⟩ := endOf_of_le (by omega : e.source ≤ id) hs
  rw [hid, Nat.add_sub_cancel]
  refine ⟨⟨s, hs, hlocals⟩, hstack, s₀, hs₀, ?_⟩
  intro i hon htaint
  have hslot := slot_handsOn hl hon (fun s' hs' => (Except.ok.inj (hs₀.symm.trans hs')) ▸ htaint) s hs
  rw [Frame.slot, hlocals]
  exact hslot

end Replay

namespace Sample

def guarded : Code where
  body := #[⟨0, .load .int 1⟩, ⟨1, .ifZero .eq 9⟩,
    ⟨4, .load .reference 0⟩, ⟨5, .store .reference 2⟩, ⟨6, .goto 12⟩,
    ⟨9, .goto 12⟩,
    ⟨12, .leave none⟩,
    ⟨13, .throw⟩]
  handlers := [⟨0, 13, 13, none⟩]

def guardedReplay : Replay where
  code := guarded
  graph.blocks := #[⟨0, 0, 2, false⟩, ⟨1, 2, 5, false⟩, ⟨2, 5, 6, false⟩, ⟨3, 6, 7, false⟩, ⟨4, 7, 8, true⟩]
  graph.edges := [⟨0, 2, .branch⟩, ⟨0, 1, .fallThrough⟩, ⟨1, 3, .branch⟩, ⟨2, 3, .branch⟩,
    ⟨0, 4, .exception⟩, ⟨1, 4, .exception⟩, ⟨2, 4, .exception⟩, ⟨3, 4, .exception⟩]
  pool := pool
  policy := UntrustedSources.webDefaults.policy
  locals := [.ofObject 0 true, .ofObject 1 false]

def cleared : Code where
  body := #[⟨0, .nop⟩, ⟨1, .goto 13⟩,
    ⟨4, .shuffle .pop⟩, ⟨5, .nullConst⟩, ⟨6, .store .reference 0⟩, ⟨7, .goto 13⟩,
    ⟨10, .shuffle .pop⟩, ⟨11, .load .reference 0⟩, ⟨12, .shuffle .pop⟩,
    ⟨13, .leave none⟩]
  handlers := [⟨0, 1, 4, some "java/io/IOException"⟩, ⟨0, 1, 10, some "java/lang/Exception"⟩]

def clearedReplay : Replay where
  code := cleared
  graph.blocks := #[⟨0, 0, 1, false⟩, ⟨1, 1, 2, false⟩, ⟨2, 2, 6, true⟩, ⟨3, 6, 9, true⟩, ⟨4, 9, 10, false⟩]
  graph.edges := [⟨0, 1, .fallThrough⟩, ⟨1, 4, .branch⟩, ⟨2, 4, .branch⟩, ⟨3, 4, .fallThrough⟩,
    ⟨0, 2, .exception⟩, ⟨0, 3, .exception⟩]
  pool := pool
  policy := UntrustedSources.webDefaults.policy
  locals := [.ofObject 0 true]

end Sample

namespace Replay

/-- The copy is tainted on one way only. It waits for the block where the ways meet while the other way jumps there
too, and gets into the handler. -/
theorem copy_tainted_in_handler : ∃ f, Graph.build Sample.guarded = .ok Sample.guardedReplay.graph ∧
    ⟨1, 4, .exception⟩ ∈ Sample.guardedReplay.graph.edges ∧
    (Sample.guardedReplay.runTo 7).outcome = .ok (some f) ∧
    Sample.guardedReplay.HandsOn 2 1 3 ∧
    (∃ s, Sample.guardedReplay.endOf 1 = .ok s ∧ (s.frame.slot 2).tainted = true) ∧ (f.slot 2).tainted = true := by
  have hg : Graph.build Sample.guarded = .ok Sample.guardedReplay.graph := by cbv
  have he : (⟨1, 4, .exception⟩ : Edge) ∈ Sample.guardedReplay.graph.edges := by decide
  have hf : (Sample.guardedReplay.runTo 7).outcome = .ok (some
      { stack := [.ofObject 2 false], locals := [.ofObject 0 true, .ofObject 1 false, ⟨true, none⟩] }) := rfl
  have hagree : ∀ id, 1 < id → id < 3 → ∀ n ∈ Sample.guardedReplay.jumpHeights 3 id,
      (Sample.guardedReplay.jumpHeights 3 1).getLast? = some n := by
    intro id hlo hhi n hn
    obtain rfl : id = 2 := by omega
    obtain rfl := List.mem_singleton.mp hn
    rfl
  have hon : Sample.guardedReplay.HandsOn 2 1 3 :=
    .jump (e := ⟨1, 3, .branch⟩) .refl (by decide) (.inl rfl) (by decide) rfl hagree (by decide)
  obtain ⟨-, -, s, hs, hhands⟩ := handler_entry_locals hg he rfl (by decide) (b := ⟨4, 7, 8, true⟩) rfl hf
  have hslot : (s.frame.slot 2).tainted = true := by
    cases hs
    decide
  exact ⟨_, hg, he, hf, hon, ⟨s, hs, hslot⟩, hhands 2 hon hslot⟩

/-- Slot 0 is tainted throughout the guarded block, but clean in the lower handler, which comes behind the upper
one. -/
theorem cleared_in_lower_handler : ∃ f, Graph.build Sample.cleared = .ok Sample.clearedReplay.graph ∧
    ⟨0, 3, .exception⟩ ∈ Sample.clearedReplay.graph.edges ∧ Sample.clearedReplay.graph.indices 0 = [0] ∧
    (∃ g, (Sample.clearedReplay.runTo 0).outcome = .ok (some g) ∧ (g.slot 0).tainted = true) ∧
    (∃ s, Sample.clearedReplay.endOf 0 = .ok s ∧ (s.frame.slot 0).tainted = true) ∧
    (Sample.clearedReplay.runTo 6).outcome = .ok (some f) ∧ (f.slot 0).tainted = false :=
  ⟨_, by cbv, by decide, rfl, ⟨_, rfl, by decide⟩, ⟨_, rfl, by decide⟩, rfl, by decide⟩

end Replay

end SinkCheck
