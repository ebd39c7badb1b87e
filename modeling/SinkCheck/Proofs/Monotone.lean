import SinkCheck.Proofs.Agreement
import SinkCheck.Proofs.RelatedFrames
import SinkCheck.Proofs.Pass

/-!
# More taint in, more taint out

Two replays of one method side by side. Neither taint nor policy has a say in where the replay goes or
which identities it gives out; so if the second starts with more taint and its policy is the stricter one
at every step, its words stay at least as tainted. The stricter policy can lose at one kind of call only: a
call that propagates taints the object it is made on, and a call that is a source does not.
-/

namespace SinkCheck

/-! ## Cells -/

namespace Cell

def Le (a b : Cell) : Prop :=
  a.tainted = true → b.tainted = true

def Twin (a b : Cell) : Prop :=
  a.object = b.object

structure Below (a b : Cell) : Prop where
  le : a.Le b
  object : ∀ {id}, a.object = some id → b.object = some id

structure Raised (a b : Cell) : Prop where
  twin : a.Twin b
  le : a.Le b

theorem Raised.below {a b : Cell} (h : a.Raised b) : a.Below b :=
  ⟨h.le, fun ho => h.twin ▸ ho⟩

theorem Below.taintObject {a b : Cell} (h : a.Below b) (id : Nat) : (a.taintObject id).Le (b.taintObject id) := by
  by_cases ha : a.object = some id
  · intro _
    rw [Cell.taintObject, if_pos (h.object ha)]
  · intro ht
    rw [Cell.taintObject, if_neg ha] at ht
    unfold Cell.taintObject
    split
    · rfl
    · exact h.le ht

end Cell

/-! ## Policies -/

def Call.feeds (call : Call) (f : Frame Cell) : Bool :=
  match f.popWords call.pops with
  | .ok (receiver :: arguments, _) => call.hasReceiver && receiver.object.isSome && arguments.any Cell.tainted
  | _ => false

theorem Call.feeds_seek (call : Call) (f : Frame Cell) (p : Nat) : call.feeds (f.seek p) = call.feeds f := by
  unfold feeds Frame.popWords Frame.seek
  by_cases h : call.pops ≤ f.stack.length
  · simp only [h, if_true]
    cases (f.stack.take call.pops).reverse <;> rfl
  · simp only [h, if_false]

namespace Policy

/-- The second policy leaves at least as much taint behind the effect. Where the first lets a call propagate
and the second calls it a source, the call must not feed its receiver. -/
def StricterAt (p p' : Policy) (f : Frame Cell) : Effect → Prop
  | .invoke call =>
    isStringification call.method.name = true ∨ p.classify call.method = .sanitizer ∨
      p'.classify call.method = p.classify call.method ∨
      p.classify call.method = .propagate ∧ p'.classify call.method = .source ∧ call.feeds f = false
  | .readField m _ => p.isSourceField m = true → p'.isSourceField m = true
  | _ => True

theorem StricterAt.seek {p p' : Policy} {f : Frame Cell} {e : Effect} (h : p.StricterAt p' f e) (n : Nat) :
    p.StricterAt p' (f.seek n) e := by
  cases e with
  | invoke call =>
    simp only [StricterAt, Call.feeds_seek] at *
    exact h
  | _ => exact h

theorem stricterAt_refl (p : Policy) (f : Frame Cell) (e : Effect) : p.StricterAt p f e := by
  cases e with
  | invoke call => exact .inr (.inr (.inl rfl))
  | readField m n => exact fun h => h
  | _ => trivial

end Policy

namespace ReplayState

/-! ## Identities -/

structure Twins (s s' : ReplayState) : Prop where
  frame : Frame.Rel Cell.Twin s.frame s'.frame
  next : s.next = s'.next

section
variable {s s' : ReplayState} {receiver receiver' : Option Cell}

theorem Twins.setFrame (h : s.Twins s') {f f' : Frame Cell} (hf : f.Rel Cell.Twin f') :
    (s.setFrame f).Twins (s'.setFrame f') :=
  ⟨hf, h.next⟩

theorem Twins.pushFresh (h : s.Twins s') (t t' : Bool) (n : Nat) : (s.pushFresh t n).Twins (s'.pushFresh t' n) :=
  ⟨h.frame.pushWords (a := .ofObject s.next t) (b := .ofObject s'.next t') (congrArg some h.next) n,
    congrArg (· + 1) h.next⟩

theorem Twins.taintContainer (h : s.Twins s') (received received' : Bool) (container container' : Option Cell) :
    (s.taintContainer received container).Twins (s'.taintContainer received' container') := by
  obtain ⟨g, hg, hkeep, heq⟩ := taintContainer_cases s received container
  obtain ⟨g', hg', hkeep', heq'⟩ := taintContainer_cases s' received' container'
  rw [heq, heq']
  refine ⟨h.frame.mapCells hg hg' fun a b hab => ?_, h.next⟩
  calc (g a).object = a.object := (hkeep a).1
    _ = b.object := hab
    _ = (g' b).object := (hkeep' b).1.symm

theorem Twins.pushResult (h : s.Twins s') (call : Call) (hr : Option.Rel Cell.Twin receiver receiver') (t t' : Bool) :
    (s.pushResult call receiver t).Twins (s'.pushResult call receiver' t') := by
  have hobject : receiver.bind Cell.object = receiver'.bind Cell.object := by
    cases hr with
    | none => rfl
    | some hr => exact hr
  unfold ReplayState.pushResult
  rw [← hobject]
  split
  · exact h
  · split
    · rename_i id _ _
      exact ⟨h.frame.pushWords (a := .ofObject id t) (b := .ofObject id t') rfl _, h.next⟩
    · exact h.pushFresh ..

theorem Twins.finishCall (h : s.Twins s') (policy policy' : Policy) (call : Call)
    (hr : Option.Rel Cell.Twin receiver receiver') (arguments arguments' : List Cell) :
    (s.finishCall policy call receiver arguments).Twins (s'.finishCall policy' call receiver' arguments') := by
  obtain ⟨fed, tainted, heq⟩ := finishCall_eq policy s call receiver arguments
  obtain ⟨fed', tainted', heq'⟩ := finishCall_eq policy' s' call receiver' arguments'
  rw [heq, heq']
  exact (h.taintContainer ..).pushResult call hr ..

/-- Identities depend neither on taint nor on the policy. -/
theorem apply_twins (h : s.Twins s') (policy policy' : Policy) (e : Effect) :
    Alike Twins (s.apply policy e) (s'.apply policy' e) := by
  cases e with
  | consume n => exact (h.frame.popWords n).map fun p q hpq => ⟨hpq.2, h.next⟩
  | derive n m =>
    refine (h.frame.popWords n).map fun p q hpq => ?_
    exact ⟨hpq.2.pushWords (a := ⟨p.1.any Cell.tainted, none⟩) (b := ⟨q.1.any Cell.tainted, none⟩) rfl m, h.next⟩
  | fresh n m =>
    refine (h.frame.popWords n).map fun p q hpq => ?_
    exact (h.setFrame hpq.2).pushFresh ..
  | constant literal n | readStatic m n => exact .ok ⟨h.frame.pushWords rfl n, h.next⟩
  | load slot n => exact .ok ⟨h.frame.pushAll (h.frame.load slot n), h.next⟩
  | store slot n => exact (h.frame.popWords n).map fun p q hpq => ⟨hpq.2.store slot hpq.1, h.next⟩
  | increment slot | identity => exact .ok h
  | shuffle pattern => exact (h.frame.shuffle pattern).map fun p q hpq => ⟨hpq, h.next⟩
  | arrayStore n =>
    refine (h.frame.popWords (2 + n)).map fun p q hpq => ?_
    exact (h.setFrame hpq.2).taintContainer ..
  | readField m n =>
    refine h.frame.pop.map fun p q hpq => ?_
    exact (h.setFrame hpq.2).pushFresh ..
  | invoke call =>
    refine (h.frame.popWords call.pops).map fun p q hpq => ?_
    have hrest := h.setFrame hpq.2
    simp only
    split
    · exact hrest.finishCall policy policy' call (rel_head? hpq.1) ..
    · exact hrest.finishCall policy policy' call .none ..
  | throw => exact h.frame.pop.map fun p q hpq => ⟨hpq.2, h.next⟩

end

/-! ## Taint -/

section
variable {s s' : ReplayState} {receiver receiver' : Option Cell}

theorem taintContainer_of_unfed {received : Bool} (h : received = true → receiver.bind Cell.object = none) :
    s.taintContainer received receiver = s := by
  unfold taintContainer
  split
  · rename_i id hid
    rw [h rfl] at hid
    cases hid
  · rfl

theorem le_taintContainer (h : Frame.Rel Cell.Le s.frame s'.frame) (received : Bool) (container : Option Cell) :
    Frame.Rel Cell.Le s.frame (s'.taintContainer received container).frame := by
  obtain ⟨g, hg, hkeep, heq⟩ := taintContainer_cases s' received container
  rw [heq]
  exact h.mapCells_right hg fun a b hab ht => (hkeep b).2 (hab ht)

theorem taintContainer_le (h : Frame.Rel Cell.Below s.frame s'.frame) {received received' : Bool}
    (hreceived : received = true → received' = true) (hc : Option.Rel Cell.Below receiver receiver') :
    Frame.Rel Cell.Le (s.taintContainer received receiver).frame (s'.taintContainer received' receiver').frame := by
  by_cases hfed : received = true → receiver.bind Cell.object = none
  · rw [taintContainer_of_unfed hfed]
    exact le_taintContainer (h.imp fun a b hab => hab.le) ..
  · -- the second container is the same object, so both taint its copies
    obtain ⟨rfl, hobject⟩ := Classical.not_imp.mp hfed
    obtain ⟨id, hid⟩ := Option.ne_none_iff_exists'.mp hobject
    have hid' : receiver'.bind Cell.object = some id := by
      cases hc with
      | none => cases hid
      | some hab => exact hab.object hid
    unfold taintContainer
    rw [hid, hid', hreceived rfl]
    exact h.mapCells rfl rfl fun a b hab => hab.taintObject id

theorem pushResult_le (h : Frame.Rel Cell.Le s.frame s'.frame) (call : Call) {t t' : Bool} (ht : t = true → t' = true) :
    Frame.Rel Cell.Le (s.pushResult call receiver t).frame (s'.pushResult call receiver' t').frame := by
  obtain ⟨n, hn, -⟩ := pushResult_cases s call receiver t
  obtain ⟨n', hn', -⟩ := pushResult_cases s' call receiver' t'
  rw [hn, hn']
  exact h.pushWords (a := .ofObject n t) (b := .ofObject n' t') ht _

/-- A call leaves at least as much taint behind, unless the first receiver is fed and the second is not. -/
theorem finishCall_le {policy policy' : Policy} {call : Call} {arguments arguments' : List Cell}
    (hf : Frame.Rel Cell.Below s.frame s'.frame) (hr : Option.Rel Cell.Below receiver receiver')
    (ha : List.Forall₂ Cell.Le arguments arguments')
    (hp : isStringification call.method.name = true ∨ policy.classify call.method = .sanitizer ∨
      policy'.classify call.method = policy.classify call.method ∨
      policy.classify call.method = .propagate ∧ policy'.classify call.method = .source ∧
        (arguments.any Cell.tainted = true → receiver.bind Cell.object = none)) :
    Frame.Rel Cell.Le (s.finishCall policy call receiver arguments).frame
      (s'.finishCall policy' call receiver' arguments').frame := by
  have hle : Frame.Rel Cell.Le s.frame s'.frame := hf.imp fun a b h => h.le
  have hany := any_mono ha
  have hreceiver : receiver.any Cell.tainted = true → receiver'.any Cell.tainted = true := by
    cases hr with
    | none => exact fun h => h
    | some hab => exact hab.le
  unfold finishCall
  by_cases hs : isStringification call.method.name = true
  · rw [if_pos hs, if_pos hs]
    exact pushResult_le hle call fun h => h
  · rw [if_neg hs, if_neg hs]
    rcases hp with hp | hp | hp | ⟨hp, hp', hfed⟩
    · exact absurd hp hs
    · -- nothing is left behind by a sanitizer
      simp only [hp]
      split
      · exact pushResult_le hle call fun h => (by cases h)
      · exact pushResult_le hle call fun h => (by cases h)
      · exact pushResult_le (le_taintContainer hle ..) call fun h => (by cases h)
    · rw [hp]
      split
      · exact pushResult_le hle call fun h => h
      · exact pushResult_le hle call fun h => h
      · refine pushResult_le (taintContainer_le hf hany hr) call fun h => ?_
        rw [Bool.or_eq_true] at h ⊢
        exact h.imp hany hreceiver
    · rw [hp, hp']
      simp only
      rw [taintContainer_of_unfed hfed]
      exact pushResult_le hle call fun _ => rfl

theorem invoke_le {policy policy' : Policy} {call : Call} (h : Frame.Rel Cell.Below s.frame s'.frame)
    (hp : policy.StricterAt policy' s.frame (.invoke call)) :
    Alike (fun t t' => Frame.Rel Cell.Le t.frame t'.frame) (s.invoke policy call) (s'.invoke policy' call) := by
  have hpop := h.popWords call.pops
  unfold invoke
  simp only [Policy.StricterAt, Call.feeds] at hp
  generalize s.frame.popWords call.pops = x at hpop hp
  generalize s'.frame.popWords call.pops = y at hpop
  cases hpop with
  | error => exact .error
  | ok hpop =>
    rename_i p q
    obtain ⟨cells, f⟩ := p
    obtain ⟨cells', f'⟩ := q
    obtain ⟨hcells, hf⟩ := hpop
    have hrest : Frame.Rel Cell.Below (s.setFrame f).frame (s'.setFrame f').frame := hf
    simp only at hcells
    refine .ok ?_
    simp only
    have hle : List.Forall₂ Cell.Le cells cells' := hcells.imp fun a b hab => hab.le
    split
    · rename_i hreceiver
      refine finishCall_le hrest (rel_head? hcells) ?_ ?_
      · cases hle with
        | nil => exact .nil
        | cons _ hle => exact hle
      · refine hp.imp_right (.imp_right (.imp_right fun ⟨hprop, hsource, hfed⟩ => ⟨hprop, hsource, fun ht => ?_⟩))
        cases cells with
        | nil => cases ht
        | cons receiver arguments =>
          simp only [hreceiver, Bool.true_and] at hfed
          rw [List.tail_cons] at ht
          rw [ht, Bool.and_true] at hfed
          have hnone : receiver.object = none := by simpa using hfed
          exact hnone
    · refine finishCall_le hrest .none hle ?_
      exact hp.imp_right (.imp_right (.imp_right fun ⟨hprop, hsource, _⟩ => ⟨hprop, hsource, fun _ => rfl⟩))

/-- Words that are at least as tainted before an effect are at least as tainted behind it. -/
theorem apply_le {policy policy' : Policy} {e : Effect} (h : Frame.Rel Cell.Below s.frame s'.frame)
    (hp : policy.StricterAt policy' s.frame e) :
    Alike (fun t t' => Frame.Rel Cell.Le t.frame t'.frame) (s.apply policy e) (s'.apply policy' e) := by
  have hweak : ∀ {f g : Frame Cell}, Frame.Rel Cell.Below f g → Frame.Rel Cell.Le f g :=
    fun hfg => hfg.imp fun a b hab => hab.le
  have hclean : ∀ n n', (Cell.ofObject n false).Le (.ofObject n' false) := fun _ _ h => h
  cases e with
  | consume n => exact (h.popWords n).map fun p q hpq => hweak hpq.2
  | derive n m =>
    refine (h.popWords n).map fun p q hpq => ?_
    have hany := any_mono (hpq.1.imp fun a b hab => hab.le)
    exact (hweak hpq.2).pushWords (a := ⟨p.1.any Cell.tainted, none⟩) (b := ⟨q.1.any Cell.tainted, none⟩) hany m
  | fresh n m => exact (h.popWords n).map fun p q hpq => (hweak hpq.2).pushWords (hclean s.next s'.next) m
  | constant literal n | readStatic m n => exact .ok ((hweak h).pushWords (a := .clean) (b := .clean) (fun h => h) n)
  | load slot n => exact .ok ((hweak h).pushAll ((hweak h).load slot n))
  | store slot n => exact (h.popWords n).map fun p q hpq => hweak (hpq.2.store slot hpq.1)
  | increment slot | identity => exact .ok (hweak h)
  | shuffle pattern => exact (h.shuffle pattern).map fun p q hpq => hweak hpq
  | arrayStore n =>
    refine (h.popWords (2 + n)).map fun p q hpq => ?_
    have hany := any_mono ((List.forall₂_drop 2 hpq.1).imp fun a b hab => hab.le)
    have hrest : Frame.Rel Cell.Below (s.setFrame p.2).frame (s'.setFrame q.2).frame := hpq.2
    exact taintContainer_le hrest hany (rel_head? hpq.1)
  | readField m n =>
    refine h.pop.map fun p q hpq => ?_
    refine (hweak hpq.2).pushWords (a := .ofObject s.next (p.1.tainted || policy.isSourceField m))
      (b := .ofObject s'.next (q.1.tainted || policy'.isSourceField m)) (fun ht => ?_) n
    simp only [Cell.ofObject, Bool.or_eq_true] at ht ⊢
    exact ht.imp hpq.1.le hp
  | invoke call => exact invoke_le h hp
  | throw => exact h.pop.map fun p q hpq => hweak hpq.2

end

/-! ## Block bounds -/

structure Raised (s s' : ReplayState) : Prop where
  frame : Frame.Rel Cell.Raised s.frame s'.frame
  next : s.next = s'.next
  pending : ∀ id, Option.Rel (Frame.Rel Cell.Raised) (s.pending id) (s'.pending id)
  falling : Option.Rel (fun p q => p.1 = q.1 ∧ Frame.Rel Cell.Raised p.2 q.2) s.falling s'.falling

theorem merge_raised {f f' g g' : Frame Cell} (hf : Frame.Rel Cell.Raised f f') (hg : Frame.Rel Cell.Raised g g') :
    Alike (fun p q => Frame.Rel Cell.Raised p.1 q.1) (f.merge Cell.join g) (f'.merge Cell.join g') := by
  refine hf.merge hg rfl rfl fun a a' b b' ha hb => ⟨?_, fun ht => ?_⟩
  · simp only [Cell.Twin, Cell.join]
    rw [ha.twin, hb.twin]
  · simp only [Cell.join, Bool.or_eq_true] at ht ⊢
    exact ht.imp ha.le hb.le

section
variable {s s' : ReplayState}

theorem Raised.execute (h : s.Raised s') {policy policy' : Policy} {pool : Pool} {p : Placed}
    (hp : ∀ e, p.instruction.effect pool = .ok e → policy.StricterAt policy' s.frame e) :
    Alike Raised (s.execute policy pool p) (s'.execute policy' pool p) := by
  unfold ReplayState.execute
  cases he : p.instruction.effect pool with
  | error => exact .error
  | ok e =>
    have hframe := h.frame.seek p.position p.position
    have htwins : Twins (s.setFrame (s.frame.seek p.position)) (s'.setFrame (s'.frame.seek p.position)) :=
      ⟨hframe.imp fun a b hab => hab.twin, h.next⟩
    have hbelow : Frame.Rel Cell.Below (s.setFrame (s.frame.seek p.position)).frame
        (s'.setFrame (s'.frame.seek p.position)).frame := hframe.imp fun a b hab => hab.below
    have hle := apply_le hbelow ((hp e he).seek p.position)
    have hboth := (apply_twins htwins policy policy' e).and hle
    simp only
    generalize hx : ReplayState.apply policy _ e = x at hboth ⊢
    generalize hy : ReplayState.apply policy' _ e = y at hboth ⊢
    cases hboth with
    | error => exact .error
    | ok hts =>
      obtain ⟨ht, hts⟩ := hts
      have hk := (apply_eq_ok hx).2.kept
      have hk' := (apply_eq_ok hy).2.kept
      refine .ok ⟨(ht.frame.and hts).imp fun a b hab => ⟨hab.1, hab.2⟩, ht.next, fun id => ?_, ?_⟩
      · rw [hk.pending, hk'.pending]
        exact h.pending id
      · rw [hk.falling, hk'.falling]
        exact h.falling

theorem Raised.await (h : s.Raised s') (t : Nat) {f f' : Frame Cell} (hf : Frame.Rel Cell.Raised f f') :
    (s.await t f).Raised (s'.await t f') := by
  refine ⟨h.frame, h.next, fun id => ?_, h.falling⟩
  simp only [ReplayState.await]
  by_cases hid : id = t
  · rw [if_pos hid, if_pos hid]
    refine .some ?_
    have hp := h.pending t
    generalize s.pending t = x at hp
    generalize s'.pending t = y at hp
    cases hp with
    | none => exact hf
    | some hp =>
      have hm := merge_raised hp hf
      simp only
      generalize Frame.merge _ Cell.join f = x at hm
      generalize Frame.merge _ Cell.join f' = y at hm
      cases hm with
      | ok hm => exact hm
      | error => exact hf
  · rw [if_neg hid, if_neg hid]
    exact h.pending id

theorem Raised.send (h : s.Raised s') (n : Nat) (e : Edge) : (s.send n e).Raised (s'.send n e) := by
  unfold ReplayState.send
  split
  · exact h.await e.target h.frame
  · split
    · exact h.await e.target h.frame
    · have hnext : Raised { s with next := s.next + 1 } { s' with next := s'.next + 1 } :=
        ⟨h.frame, congrArg (· + 1) h.next, h.pending, h.falling⟩
      refine hnext.await e.target (h.frame.pushWords ?_ n)
      exact ⟨congrArg some h.next, fun h => h⟩
  · exact ⟨h.frame, h.next, h.pending, .some ⟨rfl, h.frame⟩⟩
  · exact h

theorem Raised.leave (h : s.Raised s') (edges : List Edge) (last : Option Instruction) :
    (s.leave edges last).Raised (s'.leave edges last) := by
  unfold ReplayState.leave
  have h₀ : Raised { s with falling := none } { s' with falling := none } := ⟨h.frame, h.next, h.pending, .none⟩
  generalize { s with falling := none } = t at h₀
  generalize { s' with falling := none } = t' at h₀
  induction edges generalizing t t' with
  | nil => exact h₀
  | cons e edges ih => exact ih _ _ (h₀.send _ e)

theorem Raised.forget (h : s.Raised s') (id : Nat) {f f' : Frame Cell} (hf : Frame.Rel Cell.Raised f f') :
    ((s.forget id).setFrame f).Raised ((s'.forget id).setFrame f') := by
  refine ⟨hf, h.next, fun i => ?_, .none⟩
  simp only [ReplayState.forget, ReplayState.setFrame]
  split
  · exact .none
  · exact h.pending i

theorem Raised.fallen (h : s.Raised s') (id : Nat) :
    Option.Rel (Frame.Rel Cell.Raised) (s.fallen id) (s'.fallen id) := by
  have hf := h.falling
  unfold ReplayState.fallen
  generalize s.falling = x at hf
  generalize s'.falling = y at hf
  cases hf with
  | none => exact .none
  | some hpq =>
    obtain ⟨ht, hf⟩ := hpq
    simp only [Option.bind_some, ht]
    split
    · exact .some hf
    · exact .none

theorem Raised.enter (h : s.Raised s') (id : Nat) (isHandler : Bool) :
    Alike Raised (s.enter id isHandler) (s'.enter id isHandler) := by
  have hfallen := h.fallen id
  have hpending := h.pending id
  unfold ReplayState.enter
  cases isHandler with
  | true =>
    have hlocals : Frame.Rel Cell.Raised { locals := s.frame.locals } { locals := s'.frame.locals } :=
      ⟨.nil, h.frame.slot⟩
    have ht := h.forget id (hlocals.pushWords (a := .ofObject s.next false) (b := .ofObject s'.next false)
      ⟨congrArg some h.next, fun h => h⟩ 1)
    exact .ok ⟨ht.frame, congrArg (· + 1) ht.next, ht.pending, ht.falling⟩
  | false =>
    simp only [Bool.false_eq_true, if_false]
    generalize s.fallen id = x at hfallen
    generalize s'.fallen id = x' at hfallen
    generalize s.pending id = y at hpending
    generalize s'.pending id = y' at hpending
    cases hfallen with
    | none =>
      cases hpending with
      | none => exact .ok (h.forget id h.frame)
      | some hf => exact .ok (h.forget id hf)
    | some hf =>
      cases hpending with
      | none => exact .ok (h.forget id hf)
      | some hg =>
        have hm := merge_raised hf hg
        simp only
        generalize Frame.merge _ Cell.join _ = x at hm
        generalize Frame.merge _ Cell.join _ = y at hm
        cases hm with
        | ok hm => exact .ok (h.forget id hm)
        | error => exact .error

end

end ReplayState

/-! ## Whole replays -/

theorem ReplayState.raised_ofLocals {locals locals' : List Cell} (h : List.Forall₂ Cell.Raised locals locals') :
    (ofLocals locals).Raised (ofLocals locals') := by
  have hobjects : locals.filterMap Cell.object = locals'.filterMap Cell.object := by
    induction h with
    | nil => rfl
    | cons hab _ ih => rw [List.filterMap_cons, List.filterMap_cons, ih, hab.twin]
  refine ⟨⟨.nil, fun i => ?_⟩, by rw [ofLocals, hobjects]; rfl, fun _ => .none, .none⟩
  have hi := rel_getElem? h i
  simp only [ofLocals, Frame.slot]
  generalize locals[i]? = x at hi
  generalize locals'[i]? = y at hi
  cases hi with
  | none => exact ⟨rfl, fun h => h⟩
  | some hab => exact hab

namespace Replay

section
variable (r : Replay) (target : Nat)

/-- The instructions that are executed on the way to the target, each with the frame before it. -/
def passed : List Location → Option Nat → ReplayState → List (Nat × Frame Cell)
  | [], _, _ => []
  | l :: ls, current, s =>
    match r.cross current l.block s with
    | .error _ => []
    | .ok s =>
      if l.index = target then []
      else
        (l.index, s.frame) ::
          match r.perform l.index s with
          | .error _ => []
          | .ok s => passed ls (some l.block) s

def StricterAt (policy' : Policy) (i : Nat) (f : Frame Cell) : Prop :=
  ∀ h e, r.code.body[i]? = some h → h.instruction.effect r.pool = .ok e → r.policy.StricterAt policy' f e

end

section
variable {r : Replay} {policy' : Policy} (locals' : List Cell) {target : Nat}

theorem perform_raised {i : Nat} {s s' : ReplayState} (h : s.Raised s') (hp : r.StricterAt policy' i s.frame) :
    Alike ReplayState.Raised (r.perform i s) ({ r with policy := policy', locals := locals' }.perform i s') := by
  unfold perform
  cases hb : r.code.body[i]? with
  | none => exact .ok h
  | some p => exact h.execute fun e he => hp p e hb he

theorem cross_raised (policy' : Policy) {s s' : ReplayState} (h : s.Raised s') (current : Option Nat) (id : Nat) :
    Alike ReplayState.Raised (r.cross current id s)
      ({ r with policy := policy', locals := locals' }.cross current id s') := by
  unfold cross
  split
  · exact .ok h
  · cases current with
    | none => exact h.enter ..
    | some old => exact (h.leave ..).enter ..

theorem walk_raised {ls : List Location} {current : Option Nat} {s s' : ReplayState} (h : s.Raised s')
    (hp : ∀ i f, (i, f) ∈ r.passed target ls current s → r.StricterAt policy' i f) :
    Alike (Option.Rel (Frame.Rel Cell.Raised)) (r.walk target ls current s).outcome
      ({ r with policy := policy', locals := locals' }.walk target ls current s').outcome := by
  induction ls generalizing current s s' with
  | nil => exact .ok .none
  | cons l ls ih =>
    have hcross := cross_raised (r := r) locals' policy' h current l.block
    rw [outcome_walk_cons, outcome_walk_cons]
    unfold passed at hp
    generalize r.cross current l.block s = x at hcross hp
    generalize Replay.cross _ current l.block s' = y at hcross
    cases hcross with
    | error => exact .error
    | ok h₁ =>
      simp only [Except.bind] at hp ⊢
      by_cases ht : l.index = target
      · rw [if_pos ht, if_pos ht]
        exact .ok (.some h₁.frame)
      · rw [if_neg ht] at hp
        rw [if_neg ht, if_neg ht]
        have hperform := perform_raised locals' h₁ (hp _ _ (List.mem_cons_self ..))
        generalize r.perform l.index _ = x at hperform hp
        generalize Replay.perform _ l.index _ = y at hperform
        cases hperform with
        | error => exact .error
        | ok h₂ => exact ih h₂ fun i f hif => hp i f (List.mem_cons_of_mem _ hif)

/-- A replay whose target is a passed instruction stops there with the same frame. -/
theorem walk_of_mem_passed {ls : List Location} {current : Option Nat} {s : ReplayState} {i : Nat} {f : Frame Cell}
    (hls : (ls.map Location.index).Pairwise (· < ·)) (h : (i, f) ∈ r.passed target ls current s) :
    i ∈ ls.map Location.index ∧ (r.walk i ls current s).outcome = .ok (some f) ∧
      (target ∈ ls.map Location.index → i < target) := by
  induction ls generalizing current s with
  | nil => cases h
  | cons l ls ih =>
    rw [List.map_cons, List.pairwise_cons] at hls
    rw [outcome_walk_cons, List.map_cons, List.mem_cons, List.mem_cons]
    unfold passed at h
    cases hcross : r.cross current l.block s with
    | error e =>
      rw [hcross] at h
      cases h
    | ok s₁ =>
      simp only [hcross, Except.bind] at h ⊢
      by_cases ht : l.index = target
      · rw [if_pos ht] at h
        cases h
      · rw [if_neg ht] at h
        have hlt : target = l.index ∨ target ∈ ls.map Location.index → target ∈ ls.map Location.index :=
          fun h => h.resolve_left fun h => ht h.symm
        rcases List.mem_cons.mp h with h | h
        · cases h
          exact ⟨.inl rfl, if_pos rfl, fun h => hls.1 _ (hlt h)⟩
        · cases hperform : r.perform l.index s₁ with
          | error e =>
            rw [hperform] at h
            cases h
          | ok s₂ =>
            rw [hperform] at h
            obtain ⟨hi, hwalk, hbefore⟩ := ih hls.2 h
            have hne : l.index ≠ i := Nat.ne_of_lt (hls.1 i hi)
            exact ⟨.inr hi, by rw [if_neg hne]; exact hwalk, fun h => hbefore (hlt h)⟩

end

end Replay

/-! ## Verdicts -/

structure Verdict.Raised (v v' : Verdict) : Prop where
  reached : v.reached = v'.reached
  taint : List.Forall₂ (fun a b => a = true → b = true) v.taint v'.taint

theorem Verdict.Raised.anyTainted {v v' : Verdict} (h : v.Raised v') :
    v.anyTainted = true → v'.anyTainted = true :=
  any_mono h.taint

theorem Frame.Rel.taintAt {f g : Frame Cell} (h : Rel Cell.Raised f g) (ps : List Nat) :
    Option.Rel (List.Forall₂ fun a b => a = true → b = true) (ps.mapM fun d => (f.peek d).map Cell.tainted)
      (ps.mapM fun d => (g.peek d).map Cell.tainted) := by
  induction ps with
  | nil => exact .some .nil
  | cons d ps ih =>
    have hd := h.peek d
    rw [List.mapM_cons, List.mapM_cons]
    generalize f.peek d = x at hd
    generalize g.peek d = y at hd
    cases hd with
    | none => exact .none
    | some hab =>
      generalize (ps.mapM fun d => (f.peek d).map Cell.tainted) = x at ih
      generalize (ps.mapM fun d => (g.peek d).map Cell.tainted) = y at ih
      cases ih with
      | none => exact .none
      | some ih => exact .some (.cons hab.le ih)

/-- Where the second policy is stricter on the way to the target and the second replay starts with more
taint, it gets as far, and its verdict is at least as tainted. -/
theorem Replay.verdict_raised {r : Replay} {policy' : Policy} {locals' : List Cell}
    (hlocals : List.Forall₂ Cell.Raised r.locals locals') {target : Nat}
    (hp : ∀ i f, (i, f) ∈ r.passed target r.graph.orderedLocations none (.ofLocals r.locals) →
      r.StricterAt policy' i f) (ps : List Nat) :
    (r.taintedPositions target ps).2.Raised
      ({ r with policy := policy', locals := locals' }.taintedPositions target ps).2 := by
  have hrefl : (Verdict.failSafe ps.length).Raised (Verdict.failSafe ps.length) :=
    ⟨rfl, List.forall₂_same.mpr fun _ _ h => h⟩
  have hrun := walk_raised locals' (ReplayState.raised_ofLocals hlocals) hp
  unfold taintedPositions runTo
  simp only
  generalize (r.walk target _ _ _).outcome = x at hrun
  generalize (Replay.walk _ target _ _ _).outcome = y at hrun
  cases hrun with
  | error => exact hrefl
  | ok hrun =>
    cases hrun with
    | none => exact hrefl
    | @some f g hf =>
      have htaint := hf.taintAt ps
      simp only
      generalize (ps.mapM fun d => (f.peek d).map Cell.tainted) = x at htaint
      generalize (ps.mapM fun d => (g.peek d).map Cell.tainted) = y at htaint
      cases htaint with
      | none => exact hrefl
      | some htaint => exact ⟨rfl, htaint⟩

end SinkCheck
