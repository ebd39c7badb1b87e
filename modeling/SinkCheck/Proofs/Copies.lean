import Mathlib
import SinkCheck.Proofs.Throughout

/-!
# Copies of one object

All words of a frame that carry one identity are tainted, or none is. It is as if the object had a colour of its
own: a new object gets one, writing to an object changes it, and where two frames are joined, the object is tainted
if it was in either. Only a call that hands back its receiver could give a copy another taint, so such calls must
propagate.
-/

namespace SinkCheck

/-! ## Colours -/

def Cell.Shows (colour : Nat → Bool) (next : Nat) (a : Cell) : Prop :=
  ∀ id, a.object = some id → id < next ∧ a.tainted = colour id

namespace Cell

section
variable {colour colour' : Nat → Bool} {next : Nat} {a b : Cell}

theorem shows_of_none (h : a.object = none) : a.Shows colour next := by
  intro id hid
  rw [h] at hid
  cases hid

theorem shows_ofObject {id : Nat} {tainted : Bool} (hid : id < next) (h : tainted = colour id) :
    (ofObject id tainted).Shows colour next := by
  intro id' h'
  cases h'
  exact ⟨hid, h⟩

theorem shows_new (tainted : Bool) :
    (ofObject next tainted).Shows (Function.update colour next tainted) (next + 1) :=
  shows_ofObject (Nat.lt_succ_self next) (by rw [Function.update_self])

theorem Shows.new (h : a.Shows colour next) (tainted : Bool) :
    a.Shows (Function.update colour next tainted) (next + 1) := by
  intro id hid
  obtain ⟨hlt, ht⟩ := h id hid
  refine ⟨Nat.lt_succ_of_lt hlt, ?_⟩
  rw [Function.update_of_ne hlt.ne, ht]

theorem Shows.taintObject (h : a.Shows colour next) (id : Nat) :
    (a.taintObject id).Shows (Function.update colour id true) next := by
  unfold Cell.taintObject
  by_cases ho : a.object = some id
  · rw [if_pos ho]
    intro id' hid'
    cases ho.symm.trans hid'
    exact ⟨(h id ho).1, by rw [Function.update_self]⟩
  · rw [if_neg ho]
    intro id' hid'
    obtain ⟨hlt, ht⟩ := h id' hid'
    have hne : id' ≠ id := by
      rintro rfl
      exact ho hid'
    exact ⟨hlt, by rw [Function.update_of_ne hne, ht]⟩

theorem Shows.join (ha : a.Shows colour next) (hb : b.Shows colour' next) :
    (a.join b).Shows (fun id => colour id || colour' id) next := by
  intro id hid
  by_cases ho : a.object = b.object
  · simp only [Cell.join, if_pos ho] at hid ⊢
    obtain ⟨hlt, hta⟩ := ha id hid
    obtain ⟨-, htb⟩ := hb id (ho ▸ hid)
    exact ⟨hlt, by rw [hta, htb]⟩
  · simp [Cell.join, if_neg ho] at hid

end

end Cell

/-! ## Frames -/

namespace Frame

def cells (f : Frame Cell) : List Cell :=
  f.stack ++ f.locals

structure Coherent (next : Nat) (f : Frame Cell) : Prop where
  below : ∀ a ∈ f.cells, ∀ id, a.object = some id → id < next
  agree : ∀ a ∈ f.cells, ∀ b ∈ f.cells, ∀ id, a.object = some id → b.object = some id → a.tainted = b.tainted

section
variable {next : Nat} {f g : Frame Cell}

theorem coherent_iff : f.Coherent next ↔ ∃ colour, f.All (Cell.Shows colour next) := by
  constructor
  · intro h
    have hall : ∀ a ∈ f.cells, a.Shows (fun id => f.cells.any fun b => b.object = some id ∧ b.tainted) next := by
      intro a ha id hid
      refine ⟨h.below a ha id hid, ?_⟩
      cases ht : a.tainted with
      | true =>
        symm
        exact List.any_eq_true.mpr ⟨a, ha, by simp [hid, ht]⟩
      | false =>
        symm
        rw [List.any_eq_false]
        intro b hb
        simp only [decide_eq_true_iff, not_and]
        intro hid'
        rw [h.agree b hb a ha id hid' hid, ht]
        exact Bool.false_ne_true
    exact ⟨_, fun a ha => hall a (List.mem_append_left _ ha), fun a ha => hall a (List.mem_append_right _ ha)⟩
  · rintro ⟨colour, h⟩
    have hall : ∀ a ∈ f.cells, a.Shows colour next := by
      intro a ha
      rcases List.mem_append.mp ha with ha | ha
      · exact h.stack a ha
      · exact h.locals a ha
    refine ⟨fun a ha id hid => (hall a ha id hid).1, fun a ha b hb id hid hid' => ?_⟩
    rw [(hall a ha id hid).2, (hall b hb id hid').2]

theorem Coherent.mono {next' : Nat} (h : f.Coherent next) (hn : next ≤ next') : f.Coherent next' :=
  ⟨fun a ha id hid => (h.below a ha id hid).trans_le hn, h.agree⟩

theorem lasting_coherent : Lasting Coherent where
  later h := h.mono (Nat.le_succ _)
  joined := by
    intro n f g r hf hg hm
    obtain ⟨colour, hf⟩ := coherent_iff.mp hf
    obtain ⟨colour', hg⟩ := coherent_iff.mp hg
    exact coherent_iff.mpr ⟨_, hf.merge (Cell.shows_of_none rfl) (Cell.shows_of_none rfl)
      (fun a b ha hb => ha.join hb) hg hm⟩
  fresh := by
    intro n f k h
    obtain ⟨colour, h⟩ := coherent_iff.mp h
    exact coherent_iff.mpr ⟨_, (h.imp fun a ha => ha.new false).pushWords (Cell.shows_new false) k⟩
  locals := by
    intro n f h
    obtain ⟨colour, h⟩ := coherent_iff.mp h
    exact coherent_iff.mpr ⟨colour, fun a ha => (by cases ha), h.locals⟩

end

end Frame

/-! ## Effects -/

def Policy.Propagates (p : Policy) (call : Call) : Prop :=
  call.hasReceiver = true → ReplayState.isFluent call.method = true →
    p.classify call.method = .propagate ∧ isStringification call.method.name = false

namespace ReplayState

/-- The frame is coherent, and of the identities at least `n` are in use. -/
structure CoherentFrom (n : Nat) (s : ReplayState) : Prop where
  frame : s.frame.Coherent s.next
  next : n ≤ s.next

section
variable {policy : Policy} {s s' : ReplayState} {colour : Nat → Bool} {n : Nat}

theorem coherentFrom_of_all (h : s.frame.All (Cell.Shows colour s.next)) (hn : n ≤ s.next) : s.CoherentFrom n :=
  ⟨Frame.coherent_iff.mpr ⟨colour, h⟩, hn⟩

theorem coherentFrom_pushFresh (h : s.frame.All (Cell.Shows colour s.next)) (tainted : Bool) (words : Nat) :
    (s.pushFresh tainted words).CoherentFrom s.next :=
  coherentFrom_of_all ((h.imp fun _ ha => ha.new tainted).pushWords (Cell.shows_new tainted) words) (Nat.le_succ _)

theorem coherentFrom_pushResult (h : s.frame.All (Cell.Shows colour s.next)) (call : Call) {receiver : Option Cell}
    {tainted : Bool} (hr : ∀ id, receiver.bind Cell.object = some id → isFluent call.method = true →
      id < s.next ∧ tainted = colour id) : (s.pushResult call receiver tainted).CoherentFrom s.next := by
  unfold pushResult
  split
  · exact coherentFrom_of_all h le_rfl
  · split
    · rename_i id hid hfluent
      obtain ⟨hlt, ht⟩ := hr id hid hfluent
      exact coherentFrom_of_all (h.pushWords (Cell.shows_ofObject hlt ht) _) le_rfl
    · exact coherentFrom_pushFresh h tainted _

/-- Writing to a container changes the colour of its object alone. -/
theorem shows_taintContainer (h : s.frame.All (Cell.Shows colour s.next)) (received : Bool) (container : Option Cell) :
    ∃ colour' f, s.taintContainer received container = s.setFrame f ∧ f.All (Cell.Shows colour' s.next) ∧
      ∀ id, container.bind Cell.object = some id → colour' id = (received || colour id) := by
  cases hid : container.bind Cell.object with
  | none => exact ⟨colour, s.frame, by simp [taintContainer, hid, setFrame], h, fun id h => by cases h⟩
  | some id =>
    cases received with
    | false =>
      refine ⟨colour, s.frame, by simp [taintContainer, setFrame], h, ?_⟩
      intro id' _
      rfl
    | true =>
      refine ⟨Function.update colour id true, _, by simp only [taintContainer, hid]; rfl,
        h.mapCells fun a ha => ha.taintObject id, ?_⟩
      intro id' hid'
      cases hid'
      simp

theorem coherentFrom_finishCall (h : s.frame.All (Cell.Shows colour s.next)) {call : Call} {receiver : Option Cell}
    (arguments : List Cell) (hr : ∀ a ∈ receiver, a.Shows colour s.next)
    (hp : receiver.isSome → isFluent call.method = true →
      policy.classify call.method = .propagate ∧ isStringification call.method.name = false) :
    (s.finishCall policy call receiver arguments).CoherentFrom s.next := by
  -- unless the call propagates, it does not hand back its receiver
  have hother : ∀ tainted, ¬ (policy.classify call.method = .propagate ∧ isStringification call.method.name = false) →
      (s.pushResult call receiver tainted).CoherentFrom s.next := by
    intro tainted hno
    apply coherentFrom_pushResult h
    intro id hid hfluent
    obtain ⟨a, rfl, -⟩ := Option.bind_eq_some_iff.mp hid
    exact absurd (hp rfl hfluent) hno
  unfold finishCall
  simp only
  split
  · rename_i hstring
    exact hother false (by simp [hstring])
  · split
    · rename_i hsource
      exact hother true (by simp [hsource])
    · rename_i hsanitizer
      exact hother false (by simp [hsanitizer])
    · generalize arguments.any Cell.tainted = argued
      obtain ⟨colour', f, heq, hall, hcolour⟩ := shows_taintContainer h argued receiver
      rw [heq]
      refine coherentFrom_pushResult (s := s.setFrame f) hall call ?_
      intro id hid _
      obtain ⟨a, rfl, ha⟩ := Option.bind_eq_some_iff.mp hid
      obtain ⟨hlt, ht⟩ := hr a rfl id ha
      refine ⟨hlt, ?_⟩
      rw [hcolour id hid, ← ht]
      rfl

theorem coherentFrom_apply (hs : s.frame.Coherent s.next) {e : Effect}
    (hp : ∀ call, e = .invoke call → policy.Propagates call) (h : s.apply policy e = .ok s') :
    s'.CoherentFrom s.next := by
  obtain ⟨colour, hs⟩ := Frame.coherent_iff.mp hs
  cases e with
  | consume n =>
    obtain ⟨r, hpop, rfl⟩ := Except.map_eq_ok.mp h
    exact coherentFrom_of_all (hs.popWords hpop).2 le_rfl
  | derive n m =>
    obtain ⟨r, hpop, rfl⟩ := Except.map_eq_ok.mp h
    exact coherentFrom_of_all ((hs.popWords hpop).2.pushWords (Cell.shows_of_none rfl) m) le_rfl
  | fresh n m =>
    obtain ⟨⟨cells, f⟩, hpop, rfl⟩ := Except.map_eq_ok.mp h
    exact coherentFrom_pushFresh (s := s.setFrame f) (hs.popWords hpop).2 false m
  | constant literal n | readStatic m n =>
    cases h
    exact coherentFrom_of_all (hs.pushWords (Cell.shows_of_none rfl) n) le_rfl
  | load slot n =>
    cases h
    exact coherentFrom_of_all (hs.pushAll (hs.load (Cell.shows_of_none rfl) slot n)) le_rfl
  | store slot n =>
    obtain ⟨r, hpop, rfl⟩ := Except.map_eq_ok.mp h
    obtain ⟨hcells, hf⟩ := hs.popWords hpop
    exact coherentFrom_of_all (hf.store (Cell.shows_of_none rfl) slot hcells) le_rfl
  | increment slot | identity =>
    cases h
    exact coherentFrom_of_all hs le_rfl
  | shuffle pattern =>
    obtain ⟨f, hf, rfl⟩ := Except.map_eq_ok.mp h
    exact coherentFrom_of_all (hs.shuffle hf) le_rfl
  | arrayStore n =>
    obtain ⟨⟨cells, f⟩, hpop, rfl⟩ := Except.map_eq_ok.mp h
    obtain ⟨colour', f', heq, hall, -⟩ := shows_taintContainer (s := s.setFrame f) (hs.popWords hpop).2
      ((cells.drop 2).any Cell.tainted) cells.head?
    simp only [heq]
    exact coherentFrom_of_all hall le_rfl
  | readField m n =>
    obtain ⟨⟨object, f⟩, hpop, rfl⟩ := Except.map_eq_ok.mp h
    exact coherentFrom_pushFresh (s := s.setFrame f) (hs.pop hpop).2 _ n
  | invoke call =>
    obtain ⟨⟨cells, f⟩, hpop, rfl⟩ := Except.map_eq_ok.mp h
    obtain ⟨hcells, hf⟩ := hs.popWords hpop
    simp only
    split
    · rename_i hreceiver
      exact coherentFrom_finishCall (s := s.setFrame f) hf cells.tail
        (fun a ha => hcells a (List.mem_of_mem_head? ha)) fun _ => hp call rfl hreceiver
    · exact coherentFrom_finishCall (s := s.setFrame f) hf cells (fun a ha => by cases ha)
        fun hnone => by cases hnone
  | throw =>
    obtain ⟨r, hpop, rfl⟩ := Except.map_eq_ok.mp h
    exact coherentFrom_of_all (hs.pop hpop).2 le_rfl

end

end ReplayState

/-! ## Runs -/

namespace ReplayState

theorem lt_next_ofLocals {locals : List Cell} {a : Cell} (ha : a ∈ locals) {id : Nat} (hid : a.object = some id) :
    id < (ofLocals locals).next := by
  have hmax : ∀ (ids : List Nat) (n : Nat), n ≤ ids.foldl (fun n id => max n (id + 1)) n ∧
      ∀ id ∈ ids, id < ids.foldl (fun n id => max n (id + 1)) n := by
    intro ids
    induction ids with
    | nil => simp
    | cons i ids ih =>
      intro n
      obtain ⟨hle, hlt⟩ := ih (max n (i + 1))
      rw [List.foldl_cons]
      refine ⟨(le_max_left ..).trans hle, fun id hid => ?_⟩
      rcases List.mem_cons.mp hid with rfl | hid
      · exact (Nat.lt_succ_self _).trans_le ((le_max_right ..).trans hle)
      · exact hlt id hid
  exact (hmax _ 0).2 id (List.mem_filterMap.mpr ⟨a, ha, hid⟩)

end ReplayState

namespace Replay

def FluentPropagate (r : Replay) : Prop :=
  ∀ h ∈ r.code.body, ∀ call, h.instruction.effect r.pool = .ok (.invoke call) → r.policy.Propagates call

section
variable {r : Replay}

theorem coherent_perform (hp : r.FluentPropagate) {i : Nat} {s s' : ReplayState} (hs : s.Each Frame.Coherent)
    (h : r.perform i s = .ok s') : s'.Each Frame.Coherent := by
  unfold perform at h
  split at h
  · cases h
    exact hs
  · rename_i p hbody
    have hkept := ReplayState.kept_of_execute h
    unfold ReplayState.execute at h
    split at h
    · cases h
    · rename_i e he
      have hseek : (s.setFrame (s.frame.seek p.position)).frame.Coherent s.next := ⟨hs.frame.below, hs.frame.agree⟩
      have hframe := ReplayState.coherentFrom_apply hseek
        (fun call hcall => hp p (Array.mem_of_getElem? hbody) call (hcall ▸ he)) h
      refine ⟨hframe.frame, fun hpending => ?_, fun hfalling => ?_⟩
      · exact (hs.pending (hkept.pending ▸ hpending)).mono hframe.next
      · exact (hs.falling (hkept.falling ▸ hfalling)).mono hframe.next

theorem mem_arguments {tainted : Bool} {ts : List FieldType} {id : Nat} {a : Cell}
    (ha : a ∈ entryLocals.arguments tainted id ts) : ∃ k, id ≤ k ∧ a = .ofObject k tainted := by
  induction ts generalizing id with
  | nil => cases ha
  | cons t ts ih =>
    rcases List.mem_append.mp ha with ha | ha
    · exact ⟨id, le_rfl, (List.mem_replicate.mp ha).2⟩
    · obtain ⟨k, hk, rfl⟩ := ih ha
      exact ⟨k, (Nat.le_succ id).trans hk, rfl⟩

theorem coherent_entryLocals (isStatic : Bool) (d : MethodDescriptor) (tainted : Bool) :
    (ReplayState.ofLocals (entryLocals isStatic d tainted)).Each Frame.Coherent := by
  apply ReplayState.each_ofLocals
  refine ⟨fun a ha id hid => ReplayState.lt_next_ofLocals ha hid, ?_⟩
  -- the identity of `this` is below those of the parameters
  have htaint : ∀ a ∈ entryLocals isStatic d tainted, ∀ id, a.object = some id →
      a.tainted = if isStatic = false ∧ id = 0 then false else tainted := by
    intro a ha id hid
    cases isStatic with
    | true =>
      obtain ⟨k, -, rfl⟩ := mem_arguments ha
      rfl
    | false =>
      rcases List.mem_cons.mp ha with rfl | ha
      · cases hid
        rfl
      · obtain ⟨k, hk, rfl⟩ := mem_arguments ha
        cases hid
        rw [if_neg (by omega)]
        rfl
  intro a ha b hb id hid hid'
  rw [htaint a ha id hid, htaint b hb id hid']

/-- The states that a replay passes hold only identities in use, and frames whose words are tainted alike wherever
they refer to one object. Each answer comes from such a state. -/
theorem copies_agree {isStatic : Bool} {d : MethodDescriptor} {tainted : Bool}
    (hlocals : r.locals = entryLocals isStatic d tainted) (hp : r.FluentPropagate) :
    (∀ s, r.Passes s → s.Each Frame.Coherent) ∧
      ∀ target f, (r.runTo target).outcome = .ok (some f) → ∃ s, r.Passes s ∧ s.frame = f := by
  refine ⟨fun s hs => ?_, fun target f h => passes_of_runTo h⟩
  refine each_passes Frame.lasting_coherent ?_ (coherent_perform hp) hs
  rw [hlocals]
  exact coherent_entryLocals isStatic d tainted

end

end Replay

namespace Sample

def adding : Code where
  body := #[⟨0, .load .reference 0⟩, ⟨1, .load .int 2⟩, ⟨2, .ifZero .eq 9⟩,
    ⟨5, .load .reference 1⟩, ⟨6, .invoke .virtual 1⟩,
    ⟨9, .leave (some .reference)⟩]

def addingType : MethodDescriptor where
  parameters := [.object "java/lang/String", .int]
  result := some (.object "acme/Query")

def addCall : Call where
  kind := .virtual
  method := ⟨"acme/Query", "add", "(Ljava/lang/String;)Lacme/Query;"⟩
  argumentWords := 1
  resultWords := 1

def addingReplay : Replay where
  code := adding
  graph.blocks := #[⟨0, 0, 3, false⟩, ⟨1, 3, 5, false⟩, ⟨2, 5, 6, false⟩]
  graph.edges := [⟨0, 2, .branch⟩, ⟨0, 1, .fallThrough⟩, ⟨1, 2, .fallThrough⟩]
  pool := ⟨#[none, some (.method addCall.method)]⟩
  policy := UntrustedSources.webDefaults.policy
  locals := Replay.entryLocals false addingType true

def added : Frame Cell where
  stack := [.ofObject 0 true]
  locals := [.ofObject 0 true, .ofObject 1 true, .ofObject 2 true]
  position := 6

end Sample

/-- The call taints the query in the stack and in slot 0, and so it is tainted in both where the ways meet. -/
theorem Replay.added_query_copies_agree : Graph.build Sample.adding = .ok Sample.addingReplay.graph ∧
    Sample.addingReplay.locals = entryLocals false Sample.addingType true ∧ Sample.addingReplay.FluentPropagate ∧
    ∃ s, Sample.addingReplay.Passes s ∧ s.frame = Sample.added ∧ s.Each Frame.Coherent := by
  have hcall : (Instruction.invoke .virtual 1).effect Sample.addingReplay.pool = .ok (.invoke Sample.addCall) := by
    decide +kernel
  have hp : Sample.addingReplay.FluentPropagate := by
    intro h hh call hx _ _
    have hh : h ∈ Sample.adding.body.toList := Array.mem_toList_iff.mpr hh
    simp only [Sample.adding, List.mem_cons, List.not_mem_nil, or_false] at hh
    rcases hh with rfl | rfl | rfl | rfl | rfl | rfl
    case inr.inr.inr.inr.inl =>
      cases hcall.symm.trans hx
      decide +kernel
    all_goals cases hx
  have hrun : (Sample.addingReplay.runTo 5).outcome = .ok (some Sample.added) := by decide +kernel
  have hlocals : Sample.addingReplay.locals = entryLocals false Sample.addingType true := rfl
  obtain ⟨hcoherent, hanswer⟩ := copies_agree hlocals hp
  obtain ⟨s, hs, hframe⟩ := hanswer 5 _ hrun
  exact ⟨by decide +kernel, hlocals, hp, s, hs, hframe, hcoherent s hs⟩

end SinkCheck
