import SinkCheck.Proofs.Transfer
import SinkCheck.Taint.Replay

/-!
# Known words are clean

A frame of taint cells agrees with a frame of constants if it is as high and holds a clean cell, without
identity, wherever a constant is known. Every effect carries agreement along: the replay demands the same
words, and tainting an object by its identity leaves clean cells alone.
-/

namespace SinkCheck

def Cell.StandsFor (k : Constant) (a : Cell) : Prop :=
  k.isKnown → a = .clean

theorem Cell.standsFor_unknown (a : Cell) : a.StandsFor .unknown :=
  fun h => by cases h

namespace Frame

structure Agrees (k : Frame Constant) (t : Frame Cell) : Prop where
  depth : k.depth = t.depth
  word : ∀ w x, x.isKnown → k.word w = some x → t.word w = some .clean

section
variable {k k' : Frame Constant} {t t' : Frame Cell} {e : Effect}

theorem agrees_of_unknown (hd : k.depth = t.depth) (hu : ∀ w x, k.word w = some x → x = .unknown) : k.Agrees t :=
  ⟨hd, fun w x hx hw => by
    rw [hu w x hw] at hx
    cases hx⟩

theorem agrees_start (hd : t.depth = 0) : ({} : Frame Constant).Agrees t := by
  refine agrees_of_unknown hd.symm fun w x hw => ?_
  cases w with
  | stack d => cases hw
  | slot i => cases hw; rfl

theorem agrees_thrown (hd : t.depth = 1) : ({ stack := [.unknown] } : Frame Constant).Agrees t := by
  refine agrees_of_unknown hd.symm fun w x hw => ?_
  cases w with
  | stack d =>
    cases d with
    | zero => cases hw; rfl
    | succ d => cases hw
  | slot i => cases hw; rfl

theorem Covers.agrees (hc : k.Covers k') (ha : k'.Agrees t) : k.Agrees t :=
  ⟨hc.depth.trans ha.depth, fun w x hx hw => ha.word w x hx (hc.word w x hx hw)⟩

theorem Agrees.moved (ha : k.Agrees t) (hk : Moved Eq e k k') (ht : Moved Cell.StandsFor e t t') : k'.Agrees t' := by
  refine ⟨?_, fun w x hx hw => ?_⟩
  · have h1 := hk.depth
    have h2 := ht.depth
    have h3 := ha.depth
    omega
  · rw [hk.read] at hw
    have htw := ht.word w
    cases ho : e.origin w with
    | given y =>
      rw [ho] at hw htw
      cases hw
      obtain ⟨a, haw, hs⟩ := htw
      rw [haw, hs hx]
    | copy v =>
      rw [ho] at hw htw
      exact htw.trans (ha.word v x hx hw)

theorem depth_mapCells (g : Cell → Cell) (t : Frame Cell) : (t.mapCells g).depth = t.depth :=
  List.length_map g

/-- It makes no difference whether an object is tainted before or after the words are popped. -/
theorem moved_tainted {n : Nat} (g : Cell → Cell) (a : Cell) (hd : e.demand ≤ t.depth)
    (hs : ∀ i, e.slotOrigin i = .copy (.slot i)) (hp : e.pushed = List.replicate n (.given .unknown)) :
    Moved Cell.StandsFor e (t.mapCells g) (((t.replaceTop e.demand []).mapCells g).pushWords a n) := by
  have hm : Moved Cell.StandsFor e (t.mapCells g) ((t.mapCells g).replaceTop e.demand (List.replicate n a)) :=
    moved_given (depth_mapCells g t ▸ hd) hs hp (Cell.standsFor_unknown a)
  simpa only [mapCells, replaceTop, pushWords, List.nil_append, List.map_drop] using hm

theorem moved_untouched (slot : Nat) : Moved Cell.StandsFor (.increment slot) t t where
  depth := rfl
  word
    | .stack d => rfl
    | .slot i => by
      rw [Effect.origin, Effect.slotOrigin]
      split
      · exact ⟨_, rfl, Cell.standsFor_unknown _⟩
      · rfl

theorem word_mapCells {g : Cell → Cell} (hg : g .clean = .clean) (w : Place) :
    (t.mapCells g).word w = (t.word w).map g := by
  cases w with
  | stack d => exact List.getElem?_map
  | slot i => exact congrArg some (slot_mapCells t hg i)

theorem Agrees.mapCells (ha : k.Agrees t) {g : Cell → Cell} (hg : g .clean = .clean) : k.Agrees (t.mapCells g) :=
  ⟨ha.depth.trans (depth_mapCells g t).symm, fun w x hx hw => by
    rw [word_mapCells hg, ha.word w x hx hw, Option.map_some, hg]⟩

theorem Agrees.merge {t₁ t₂ t : Frame Cell} {changed : Bool} (h₁ : k.Agrees t₁) (h₂ : k.Agrees t₂)
    (hm : t₁.merge Cell.join t₂ = .ok (t, changed)) : k.Agrees t := by
  refine ⟨h₁.depth.trans (depth_of_merge hm).2.symm, fun w x hx hw => ?_⟩
  rw [word_of_merge rfl hm, h₁.word w x hx hw, h₂.word w x hx hw]
  rfl

end

end Frame

/-! ## Effects on taint cells -/

namespace ReplayState

structure Kept (s s' : ReplayState) : Prop where
  pending : s'.pending = s.pending
  falling : s'.falling = s.falling

/-- The words move as under `e`, after the cells of one object may have been tainted. -/
structure Follows (e : Effect) (s s' : ReplayState) : Prop where
  moved : ∃ g : Cell → Cell, g .clean = .clean ∧ Frame.Moved Cell.StandsFor e (s.frame.mapCells g) s'.frame
  kept : s.Kept s'

section
variable {s : ReplayState} {e : Effect}

theorem Follows.of_moved {s' : ReplayState} (hm : Frame.Moved Cell.StandsFor e s.frame s'.frame) (hk : s.Kept s') :
    Follows e s s' :=
  ⟨⟨id, rfl, (Frame.mapCells_id s.frame).symm ▸ hm⟩, hk⟩

theorem taintContainer_cases (s : ReplayState) (received : Bool) (container : Option Cell) :
    ∃ g : Cell → Cell, g .clean = .clean ∧ (∀ a, (g a).object = a.object ∧ (a.tainted = true → (g a).tainted = true)) ∧
      s.taintContainer received container = s.setFrame (s.frame.mapCells g) := by
  unfold taintContainer
  split
  · rename_i id h
    refine ⟨Cell.taintObject id, rfl, fun a => ?_, rfl⟩
    unfold Cell.taintObject
    split
    · exact ⟨rfl, fun _ => rfl⟩
    · exact ⟨rfl, fun h => h⟩
  · exact ⟨id, rfl, fun a => ⟨rfl, fun h => h⟩, by rw [Frame.mapCells_id]; rfl⟩

theorem pushResult_cases (s : ReplayState) (call : Call) (receiver : Option Cell) (tainted : Bool) :
    ∃ id, (s.pushResult call receiver tainted).frame = s.frame.pushWords (.ofObject id tainted) call.resultWords ∧
      s.Kept (s.pushResult call receiver tainted) := by
  unfold pushResult
  split
  · rename_i h
    exact ⟨0, by rw [h]; rfl, rfl, rfl⟩
  · split
    · exact ⟨_, rfl, rfl, rfl⟩
    · exact ⟨_, rfl, rfl, rfl⟩

/-- Whatever the policy says of a call, it may taint the receiver and then pushes a result. -/
theorem finishCall_eq (policy : Policy) (s : ReplayState) (call : Call) (receiver : Option Cell)
    (arguments : List Cell) : ∃ fed tainted, s.finishCall policy call receiver arguments =
      (s.taintContainer fed receiver).pushResult call receiver tainted := by
  unfold finishCall
  split
  · exact ⟨false, false, rfl⟩
  · split
    · exact ⟨false, true, rfl⟩
    · exact ⟨false, false, rfl⟩
    · exact ⟨_, _, rfl⟩

theorem finishCall_cases (policy : Policy) (s : ReplayState) (call : Call) (receiver : Option Cell)
    (arguments : List Cell) : ∃ (g : Cell → Cell) (a : Cell), g .clean = .clean ∧
      (s.finishCall policy call receiver arguments).frame = (s.frame.mapCells g).pushWords a call.resultWords ∧
      s.Kept (s.finishCall policy call receiver arguments) := by
  obtain ⟨fed, tainted, heq⟩ := finishCall_eq policy s call receiver arguments
  obtain ⟨g, hg, -, hf⟩ := taintContainer_cases s fed receiver
  rw [heq, hf]
  obtain ⟨n, hn, hk⟩ := pushResult_cases (s.setFrame (s.frame.mapCells g)) call receiver tainted
  exact ⟨g, _, hg, hn, hk.pending, hk.falling⟩

theorem follows_finishCall (policy : Policy) {call : Call} (h : call.pops ≤ s.frame.depth) (receiver : Option Cell)
    (arguments : List Cell) : Follows (.invoke call) s
      ((s.setFrame (s.frame.replaceTop call.pops [])).finishCall policy call receiver arguments) := by
  obtain ⟨g, a, hg, hframe, hk⟩ := finishCall_cases policy (s.setFrame (s.frame.replaceTop call.pops [])) call
    receiver arguments
  refine ⟨⟨g, hg, ?_⟩, hk.pending, hk.falling⟩
  rw [hframe]
  exact Frame.moved_tainted g a h (fun _ => rfl) rfl

theorem follows_taintContainer {n : Nat} (h : 2 + n ≤ s.frame.depth) (received : Bool) (container : Option Cell) :
    Follows (.arrayStore n) s ((s.setFrame (s.frame.replaceTop (2 + n) [])).taintContainer received container) := by
  obtain ⟨g, hg, -, hframe⟩ := taintContainer_cases (s.setFrame (s.frame.replaceTop (2 + n) [])) received container
  rw [hframe]
  refine ⟨⟨g, hg, ?_⟩, rfl, rfl⟩
  exact Frame.moved_tainted (n := 0) g .clean h (fun _ => rfl) rfl

theorem apply_of_le (policy : Policy) (h : e.demand ≤ s.frame.depth) :
    ∃ s', s.apply policy e = .ok s' ∧ Follows e s s' := by
  cases e with
  | consume n =>
    exact ⟨_, congrArg (Except.map _) (Frame.popWords_of_le s.frame h), .of_moved
      (Frame.moved_given (n := 0) h (fun _ => rfl) rfl (Cell.standsFor_unknown .clean)) ⟨rfl, rfl⟩⟩
  | derive n m | fresh n m =>
    exact ⟨_, congrArg (Except.map _) (Frame.popWords_of_le s.frame h), .of_moved
      (Frame.moved_given h (fun _ => rfl) rfl (Cell.standsFor_unknown _)) ⟨rfl, rfl⟩⟩
  | constant literal n => exact ⟨_, rfl, .of_moved (Frame.moved_given h (fun _ => rfl) rfl fun _ => rfl) ⟨rfl, rfl⟩⟩
  | readStatic m n =>
    exact ⟨_, rfl, .of_moved (Frame.moved_given h (fun _ => rfl) rfl (Cell.standsFor_unknown _)) ⟨rfl, rfl⟩⟩
  | load slot n => exact ⟨_, rfl, .of_moved (Frame.moved_load slot n) ⟨rfl, rfl⟩⟩
  | store slot n =>
    exact ⟨_, congrArg (Except.map _) (Frame.popWords_of_le s.frame h),
      .of_moved (Frame.moved_store slot n h) ⟨rfl, rfl⟩⟩
  -- the replay keeps the incremented slot as it is, where the constants forget it
  | increment slot => exact ⟨s, rfl, .of_moved (Frame.moved_untouched slot) ⟨rfl, rfl⟩⟩
  | identity => exact ⟨s, rfl, .of_moved Frame.moved_identity ⟨rfl, rfl⟩⟩
  | shuffle p =>
    obtain ⟨f, hf, hm⟩ := Frame.moved_shuffle p h
    exact ⟨s.setFrame f, congrArg (Except.map _) hf, .of_moved hm ⟨rfl, rfl⟩⟩
  | arrayStore n =>
    exact ⟨_, congrArg (Except.map _) (Frame.popWords_of_le s.frame h), follows_taintContainer h _ _⟩
  | readField m n =>
    obtain ⟨a, -, hp⟩ := Frame.pop_of_le s.frame h
    exact ⟨_, congrArg (Except.map _) hp, .of_moved
      (Frame.moved_given h (fun _ => rfl) rfl (Cell.standsFor_unknown _)) ⟨rfl, rfl⟩⟩
  | invoke call =>
    refine ⟨_, congrArg (Except.map _) (Frame.popWords_of_le s.frame h), ?_⟩
    simp only
    split
    · exact follows_finishCall policy h _ _
    · exact follows_finishCall policy h _ _
  | throw =>
    obtain ⟨a, -, hp⟩ := Frame.pop_of_le s.frame h
    exact ⟨_, congrArg (Except.map _) hp, .of_moved
      (Frame.moved_given (n := 0) h (fun _ => rfl) rfl (Cell.standsFor_unknown .clean)) ⟨rfl, rfl⟩⟩

theorem apply_of_lt (policy : Policy) (h : s.frame.depth < e.demand) :
    s.apply policy e = .error (.underflow s.frame.position) := by
  cases e with
  | consume n | derive n m | fresh n m | store slot n | arrayStore n | invoke call =>
    exact congrArg (Except.map _) (Frame.popWords_of_lt s.frame h)
  | shuffle p =>
    have hp : s.frame.popWords p.pattern.1 = _ := Frame.popWords_of_lt s.frame h
    simp only [apply, Frame.shuffle, hp]
    rfl
  | readField m n | throw => exact congrArg (Except.map _) (Frame.pop_of_lt s.frame h)
  | constant | load | increment | identity | readStatic => exact absurd h (Nat.not_lt_zero _)

theorem apply_eq_ok {policy : Policy} {s' : ReplayState} (h : s.apply policy e = .ok s') :
    e.demand ≤ s.frame.depth ∧ Follows e s s' := by
  rcases Nat.lt_or_ge s.frame.depth e.demand with hd | hd
  · rw [apply_of_lt policy hd] at h
    cases h
  · obtain ⟨t, ht, hf⟩ := apply_of_le policy hd
    rw [ht] at h
    cases h
    exact ⟨hd, hf⟩

theorem kept_of_execute {policy : Policy} {pool : Pool} {h : Placed} {s' : ReplayState}
    (hx : s.execute policy pool h = .ok s') : s.Kept s' := by
  unfold execute at hx
  split at hx
  · cases hx
  · have hk := (apply_eq_ok hx).2.kept
    exact ⟨hk.pending, hk.falling⟩

theorem execute_agrees (policy : Policy) {pool : Pool} {h : Placed} {k k' : Frame Constant}
    (hx : k.execute pool h = .ok k') (ha : k.Agrees s.frame) :
    ∃ s', s.execute policy pool h = .ok s' ∧ k'.Agrees s'.frame ∧ s.Kept s' := by
  obtain ⟨e, he, hd, hm⟩ := Frame.execute_eq_ok hx
  obtain ⟨s', hs', hfol⟩ := apply_of_le (s := s.setFrame (s.frame.seek h.position)) policy (ha.depth ▸ hd)
  obtain ⟨g, hg, hmoved⟩ := hfol.moved
  refine ⟨s', by rw [execute, he]; exact hs', ?_, hfol.kept.pending, hfol.kept.falling⟩
  exact (ha.mapCells hg).moved hm (Frame.Moved.of_seek (p := h.position) hmoved)

end

end ReplayState

end SinkCheck
