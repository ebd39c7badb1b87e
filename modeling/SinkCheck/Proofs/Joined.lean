import Mathlib
import SinkCheck.Proofs.Monotone

/-!
# Joined frames

A join keeps every taint, but gives up the identity of a word that is not the same object on both sides. What
runs from the joined frame is at least as tainted as what runs from one side alone, as long as no object is
written to that the join lost sight of. If it lost sight of one, some run shows it.
-/

namespace SinkCheck

/-! ## Runs without block bounds -/

namespace Frame

/-- The deepest of the top `n` words as an object, if one of the others is tainted, the first `k` left out. -/
def handed (f : Frame Cell) (n k : Nat) : Option Nat :=
  (f.popWords n).toOption.bind fun (cells, _) =>
    if (cells.drop k).any Cell.tainted then cells.head?.bind Cell.object else none

/-- The object that an effect hands something tainted, so that all its copies become tainted. -/
def fed (policy : Policy) (f : Frame Cell) : Effect → Option Nat
  | .arrayStore n => f.handed (2 + n) 2
  | .invoke call =>
    if call.hasReceiver ∧ isStringification call.method.name = false ∧ policy.classify call.method = .propagate then
      f.handed call.pops 1
    else none
  | _ => none

section
variable {f : Frame Cell}

theorem handed_eq_some {n k id : Nat} {cells : List Cell} {g : Frame Cell} (hp : f.popWords n = .ok (cells, g))
    (ht : (cells.drop k).any Cell.tainted = true) (hid : cells.head?.bind Cell.object = some id) :
    f.handed n k = some id := by
  rw [handed, hp]
  exact (if_pos ht).trans hid

theorem handed_seek (p n k : Nat) : (f.seek p).handed n k = f.handed n k := by
  unfold handed popWords seek
  by_cases h : n ≤ f.stack.length
  · simp only [h, if_true]
    rfl
  · simp only [h, if_false]
    rfl

theorem fed_seek (policy : Policy) (p : Nat) (e : Effect) : (f.seek p).fed policy e = f.fed policy e := by
  cases e with
  | arrayStore n => exact handed_seek p ..
  | invoke call => simp only [fed, handed_seek]
  | _ => rfl

end

def Drops (f g : Frame Cell) (id : Nat) : Prop :=
  ∃ w a b, f.word w = some a ∧ g.word w = some b ∧ a.object = some id ∧ b.object ≠ some id

def Tainted (f : Frame Cell) (w : Place) : Prop :=
  ∃ a, f.word w = some a ∧ a.tainted = true

end Frame

namespace ReplayState

section
variable (policy : Policy) (pool : Pool)

def run : List Placed → ReplayState → Except AnalysisError ReplayState
  | [], s => .ok s
  | h :: hs, s => (s.execute policy pool h).bind (run hs)

def fedAlong : List Placed → ReplayState → List Nat
  | [], _ => []
  | h :: hs, s =>
    ((h.instruction.effect pool).toOption.bind (s.frame.fed policy)).toList ++
      ((s.execute policy pool h).toOption.map (fedAlong hs)).getD []

end

section
variable {policy : Policy} {pool : Pool} {h : Placed} {hs : List Placed} {s s₁ : ReplayState}

theorem run_cons (hx : s.execute policy pool h = .ok s₁) : s.run policy pool (h :: hs) = s₁.run policy pool hs := by
  rw [run, hx]
  rfl

theorem run_of_apply {e : Effect} (he : h.instruction.effect pool = .ok e)
    (ha : (s.setFrame (s.frame.seek h.position)).apply policy e = .ok s₁) :
    s.run policy pool (h :: hs) = s₁.run policy pool hs := by
  apply run_cons
  rw [execute, he]
  exact ha

theorem run_append {hs' : List Placed} (hx : s.run policy pool hs = .ok s₁) :
    s.run policy pool (hs ++ hs') = s₁.run policy pool hs' := by
  induction hs generalizing s with
  | nil =>
    cases hx
    rfl
  | cons h hs ih =>
    rw [run] at hx
    cases hs₂ : s.execute policy pool h with
    | error e =>
      rw [hs₂] at hx
      cases hx
    | ok s₂ =>
      rw [hs₂] at hx
      rw [List.cons_append, run_cons hs₂]
      exact ih hx

theorem fedAlong_cons (hx : s.execute policy pool h = .ok s₁) : s.fedAlong policy pool (h :: hs) =
    ((h.instruction.effect pool).toOption.bind (s.frame.fed policy)).toList ++ s₁.fedAlong policy pool hs := by
  rw [fedAlong, hx]
  rfl

end

end ReplayState

/-! ## Shadows -/

/-- At least as tainted, and of known identity where the first word is an object that is not lost. The two sides
name objects differently, and `names` takes one naming to the other. -/
structure Cell.Shadow (lost : Nat → Prop) (names : Nat → Nat) (next : Nat) (a b : Cell) : Prop where
  le : a.Le b
  object : ∀ {id}, a.object = some id → id < next ∧ (¬ lost id → b.object = some (names id))

def ReplayState.Shadow (lost : Nat → Prop) (s t : ReplayState) : Prop :=
  ∃ names, Frame.Rel (Cell.Shadow lost names s.next) s.frame t.frame

namespace Cell

section
variable {lost : Nat → Prop} {names : Nat → Nat} {next : Nat} {a b : Cell}

theorem Shadow.of_none {a b : Cell} (hle : a.Le b) (ha : a.object = none) : Shadow lost names next a b :=
  ⟨hle, fun h => by rw [ha] at h; cases h⟩

theorem Shadow.fresh (h : Shadow lost names next a b) (name : Nat) :
    Shadow lost (Function.update names next name) (next + 1) a b := by
  refine ⟨h.le, fun hid => ?_⟩
  obtain ⟨hlt, hobject⟩ := h.object hid
  refine ⟨by omega, fun hlost => ?_⟩
  rw [Function.update_of_ne (by omega)]
  exact hobject hlost

theorem object_taintObject (c : Cell) (id : Nat) : (c.taintObject id).object = c.object := by
  unfold taintObject
  split <;> rfl

theorem le_taintObject (c : Cell) (id : Nat) : c.Le (c.taintObject id) := by
  intro h
  unfold taintObject
  split
  · rfl
  · exact h

theorem Shadow.taintObject {id : Nat} (h : Shadow lost names next a b) (hid : ¬ lost id) :
    Shadow lost names next (a.taintObject id) (b.taintObject (names id)) := by
  refine ⟨?_, ?_⟩
  · by_cases ha : a.object = some id
    · intro _
      rw [Cell.taintObject, if_pos ((h.object ha).2 hid)]
    · rw [Cell.taintObject, if_neg ha]
      exact fun ht => le_taintObject b _ (h.le ht)
  · rw [object_taintObject, object_taintObject]
    exact h.object

end

end Cell

namespace ReplayState

section
variable {lost : Nat → Prop} {s t : ReplayState}

theorem Shadow.setFrame {f f' : Frame Cell} {names : Nat → Nat} (h : Frame.Rel (Cell.Shadow lost names s.next) f f') :
    Shadow lost (s.setFrame f) (t.setFrame f') :=
  ⟨names, h⟩

/-- A new object on one side may be any object on the other. -/
theorem Shadow.pushNew (h : Shadow lost s t) {tainted tainted' : Bool} (ht : tainted = true → tainted' = true)
    (n name : Nat) {t' : ReplayState} (hf : t'.frame = t.frame.pushWords (.ofObject name tainted') n) :
    Shadow lost (s.pushFresh tainted n) t' := by
  obtain ⟨names, h⟩ := h
  refine ⟨Function.update names s.next name, ?_⟩
  rw [hf]
  have hnew : Cell.Shadow lost (Function.update names s.next name) (s.next + 1) (.ofObject s.next tainted)
      (.ofObject name tainted') := by
    refine ⟨ht, fun hid => ?_⟩
    cases hid
    refine ⟨by omega, fun _ => ?_⟩
    rw [Function.update_self]
    rfl
  exact (h.imp fun a b hab => hab.fresh name).pushWords hnew n

theorem Shadow.pushFresh (h : Shadow lost s t) {tainted tainted' : Bool} (ht : tainted = true → tainted' = true)
    (n : Nat) : Shadow lost (s.pushFresh tainted n) (t.pushFresh tainted' n) :=
  h.pushNew ht n t.next rfl

end

section
variable {lost : Nat → Prop} {names : Nat → Nat} {s t : ReplayState} {container container' : Option Cell}

theorem Shadow.taintContainer (h : Frame.Rel (Cell.Shadow lost names s.next) s.frame t.frame)
    (hc : Option.Rel (Cell.Shadow lost names s.next) container container') {received received' : Bool}
    (hr : received = true → received' = true)
    (hfed : ∀ id, received = true → container.bind Cell.object = some id → ¬ lost id) :
    Frame.Rel (Cell.Shadow lost names s.next) (s.taintContainer received container).frame
      (t.taintContainer received' container').frame := by
  by_cases hnone : received = true → container.bind Cell.object = none
  · rw [taintContainer_of_unfed hnone]
    obtain ⟨m, hm, hkeep, heq⟩ := taintContainer_cases t received' container'
    rw [heq]
    apply h.mapCells_right hm
    intro a b hab
    refine ⟨fun ht => (hkeep b).2 (hab.le ht), ?_⟩
    rw [(hkeep b).1]
    exact hab.object
  · -- the container is not lost, so the other side knows it by its name there
    obtain ⟨rfl, hobject⟩ := Classical.not_imp.mp hnone
    obtain ⟨id, hid⟩ := Option.ne_none_iff_exists'.mp hobject
    have hlost := hfed id rfl hid
    have hid' : container'.bind Cell.object = some (names id) := by
      cases hc with
      | none => cases hid
      | some hab => exact (hab.object hid).2 hlost
    unfold ReplayState.taintContainer
    rw [hid, hid', hr rfl]
    exact h.mapCells rfl rfl fun a b hab => hab.taintObject hlost

theorem next_taintContainer (s : ReplayState) (received : Bool) (container : Option Cell) :
    (s.taintContainer received container).next = s.next := by
  obtain ⟨m, -, -, heq⟩ := taintContainer_cases s received container
  rw [heq]
  rfl

theorem Shadow.pushResult (h : Frame.Rel (Cell.Shadow lost names s.next) s.frame t.frame) (call : Call)
    {receiver receiver' : Option Cell} (hr : Option.Rel (Cell.Shadow lost names s.next) receiver receiver')
    {tainted tainted' : Bool} (ht : tainted = true → tainted' = true) :
    Shadow lost (s.pushResult call receiver tainted) (t.pushResult call receiver' tainted') := by
  by_cases hwords : call.resultWords = 0
  · rw [ReplayState.pushResult, ReplayState.pushResult, if_pos hwords, if_pos hwords]
    exact ⟨names, h⟩
  · obtain ⟨name, hframe, -⟩ := pushResult_cases t call receiver' tainted'
    by_cases hid : ∃ id, receiver.bind Cell.object = some id ∧ isFluent call.method = true
    · -- the receiver once more; if it is not lost, the other side hands back its receiver too
      obtain ⟨id, hid, hfluent⟩ := hid
      have hs : s.pushResult call receiver tainted =
          s.setFrame (s.frame.pushWords (.ofObject id tainted) call.resultWords) := by
        rw [ReplayState.pushResult, if_neg hwords, hid, hfluent]
      have hobject : id < s.next ∧ (¬ lost id → receiver'.bind Cell.object = some (names id)) := by
        cases hr with
        | none => cases hid
        | some hab => exact hab.object hid
      rw [hs]
      refine ⟨names, ?_⟩
      by_cases hlost : lost id
      · rw [hframe]
        apply h.pushWords
        exact ⟨ht, fun heq => by cases heq; exact ⟨hobject.1, fun hn => absurd hlost hn⟩⟩
      · rw [ReplayState.pushResult, if_neg hwords, hobject.2 hlost, hfluent]
        apply h.pushWords
        exact ⟨ht, fun heq => by cases heq; exact ⟨hobject.1, fun _ => rfl⟩⟩
    · have hs : s.pushResult call receiver tainted = s.pushFresh tainted call.resultWords := by
        rw [ReplayState.pushResult, if_neg hwords]
        split
        · rename_i id hobject hfluent
          exact absurd ⟨id, hobject, hfluent⟩ hid
        · rfl
      rw [hs]
      exact Shadow.pushNew ⟨names, h⟩ ht _ name hframe

/-- A call that feeds no lost object. -/
theorem Shadow.finishCall (h : Frame.Rel (Cell.Shadow lost names s.next) s.frame t.frame) (policy : Policy)
    (call : Call) {receiver receiver' : Option Cell}
    (hr : Option.Rel (Cell.Shadow lost names s.next) receiver receiver')
    {arguments arguments' : List Cell} (ha : List.Forall₂ (Cell.Shadow lost names s.next) arguments arguments')
    (hfed : ∀ id, isStringification call.method.name = false → policy.classify call.method = .propagate →
      arguments.any Cell.tainted = true → receiver.bind Cell.object = some id → ¬ lost id) :
    Shadow lost (s.finishCall policy call receiver arguments) (t.finishCall policy call receiver' arguments') := by
  have hany := any_mono (ha.imp fun a b hab => hab.le)
  have hreceiver : receiver.any Cell.tainted = true → receiver'.any Cell.tainted = true := by
    cases hr with
    | none => exact fun h => h
    | some hab => exact hab.le
  unfold ReplayState.finishCall
  by_cases hstring : isStringification call.method.name = true
  · rw [if_pos hstring, if_pos hstring]
    exact Shadow.pushResult h call hr fun h => h
  · rw [if_neg hstring, if_neg hstring]
    cases hclass : policy.classify call.method with
    | source | sanitizer => exact Shadow.pushResult h call hr fun h => h
    | propagate =>
      have hfed := fun id => hfed id (by simpa using hstring) hclass
      have hcontainer := Shadow.taintContainer h hr hany hfed
      have hnext := next_taintContainer s (arguments.any Cell.tainted) receiver
      rw [← hnext] at hcontainer hr
      apply Shadow.pushResult hcontainer call hr
      intro ht
      rw [Bool.or_eq_true] at ht ⊢
      exact ht.imp hany hreceiver

end

section
variable {lost : Nat → Prop} {s t : ReplayState}

/-- One effect that feeds no lost object. -/
theorem Shadow.apply (h : Shadow lost s t) {policy : Policy} {e : Effect}
    (hfed : ∀ id, s.frame.fed policy e = some id → ¬ lost id) :
    Alike (Shadow lost) (s.apply policy e) (t.apply policy e) := by
  obtain ⟨names, h⟩ := h
  have hnone : ∀ tainted tainted' : Bool, (tainted = true → tainted' = true) →
      Cell.Shadow lost names s.next ⟨tainted, none⟩ ⟨tainted', none⟩ := fun _ _ ht => .of_none ht rfl
  cases e with
  | consume n => exact (h.popWords n).map fun p q hpq => Shadow.setFrame hpq.2
  | derive n m =>
    refine (h.popWords n).map fun p q hpq => ?_
    have hany := any_mono (hpq.1.imp fun a b hab => hab.le)
    exact Shadow.setFrame (hpq.2.pushWords (hnone _ _ hany) m)
  | fresh n m =>
    refine (h.popWords n).map fun p q hpq => ?_
    exact (Shadow.setFrame (s := s) (t := t) hpq.2).pushFresh (fun h => h) m
  | constant literal n | readStatic m n => exact .ok (Shadow.setFrame (h.pushWords (hnone _ _ fun h => h) n))
  | load slot n => exact .ok (Shadow.setFrame (h.pushAll (h.load slot n)))
  | store slot n => exact (h.popWords n).map fun p q hpq => Shadow.setFrame (hpq.2.store slot hpq.1)
  | increment slot | identity => exact .ok ⟨names, h⟩
  | shuffle pattern => exact (h.shuffle pattern).map fun p q hpq => Shadow.setFrame hpq
  | arrayStore n =>
    refine (h.popWords (2 + n)).map_of_ok fun p q hp hpq => ⟨names, ?_⟩
    have hany := any_mono ((List.forall₂_drop 2 hpq.1).imp fun a b hab => hab.le)
    rw [next_taintContainer]
    apply Shadow.taintContainer (s := s.setFrame p.2) (t := t.setFrame q.2) hpq.2 (rel_head? hpq.1) hany
    exact fun id ht hid => hfed id (Frame.handed_eq_some hp ht hid)
  | readField m n =>
    refine h.pop.map fun p q hpq => ?_
    apply (Shadow.setFrame (s := s) (t := t) hpq.2).pushFresh _ n
    intro ht
    rw [Bool.or_eq_true] at ht ⊢
    exact ht.imp_left hpq.1.le
  | invoke call =>
    refine (h.popWords call.pops).map_of_ok fun p q hp hpq => ?_
    simp only
    by_cases hreceiver : call.hasReceiver = true
    · rw [if_pos hreceiver, if_pos hreceiver]
      have hargs := List.forall₂_drop 1 hpq.1
      rw [List.drop_one, List.drop_one] at hargs
      apply Shadow.finishCall (s := s.setFrame p.2) (t := t.setFrame q.2) hpq.2 policy call (rel_head? hpq.1) hargs
      intro id hstring hclass ht hid
      apply hfed id
      rw [Frame.fed, if_pos ⟨hreceiver, hstring, hclass⟩]
      exact Frame.handed_eq_some hp (List.drop_one ▸ ht) hid
    · rw [if_neg hreceiver, if_neg hreceiver]
      apply Shadow.finishCall (s := s.setFrame p.2) (t := t.setFrame q.2) hpq.2 policy call .none hpq.1
      intro id _ _ _ hid
      cases hid
  | throw => exact h.pop.map fun p q hpq => Shadow.setFrame hpq.2

theorem Shadow.execute (h : Shadow lost s t) {policy : Policy} {pool : Pool} {p : Placed}
    (hfed : ∀ id, (p.instruction.effect pool).toOption.bind (s.frame.fed policy) = some id → ¬ lost id) :
    Alike (Shadow lost) (s.execute policy pool p) (t.execute policy pool p) := by
  unfold ReplayState.execute
  cases he : p.instruction.effect pool with
  | error => exact .error
  | ok e =>
    obtain ⟨names, h⟩ := h
    refine Shadow.apply ⟨names, h.seek p.position p.position⟩ ?_
    intro id hid
    have hid : (s.frame.seek p.position).fed policy e = some id := hid
    rw [Frame.fed_seek] at hid
    rw [he] at hfed
    exact hfed id hid

theorem Shadow.run {policy : Policy} {pool : Pool} {hs : List Placed} (h : Shadow lost s t)
    (hfed : ∀ id ∈ s.fedAlong policy pool hs, ¬ lost id) :
    Alike (Shadow lost) (s.run policy pool hs) (t.run policy pool hs) := by
  induction hs generalizing s t with
  | nil => exact .ok h
  | cons p hs ih =>
    have hstep : Alike (Shadow lost) (s.execute policy pool p) (t.execute policy pool p) := by
      apply h.execute
      intro id hid
      apply hfed id
      rw [fedAlong, hid]
      exact List.mem_cons_self ..
    refine hstep.bind_of_ok fun s₁ t₁ hx h₁ => ih h₁ fun id hid => hfed id ?_
    rw [fedAlong_cons hx]
    exact List.mem_append_right _ hid

end

end ReplayState

/-! ## What a join keeps -/

section
variable {f g j : Frame Cell} {changed : Bool}

theorem Frame.rel_of_word {R : Cell → Cell → Prop} (hd : f.depth = g.depth)
    (h : ∀ w a b, f.word w = some a → g.word w = some b → R a b) : Frame.Rel R f g := by
  refine ⟨List.forall₂_iff_get.mpr ⟨hd, fun d hf hg => ?_⟩, fun i => h (.slot i) _ _ rfl rfl⟩
  exact h (.stack d) _ _ (List.getElem?_eq_getElem hf) (List.getElem?_eq_getElem hg)

theorem Frame.Rel.tainted {R : Cell → Cell → Prop} (h : Frame.Rel R f g) (hle : ∀ a b, R a b → a.Le b) {w : Place}
    (hw : f.Tainted w) : g.Tainted w := by
  obtain ⟨a, ha, ht⟩ := hw
  cases w with
  | stack d =>
    have hd := h.peek d
    have ha : f.peek d = some a := ha
    rw [ha] at hd
    cases hb : g.peek d with
    | none =>
      rw [hb] at hd
      cases hd
    | some b =>
      rw [hb] at hd
      exact ⟨b, hb, hle a b (Option.rel_some_some.mp hd) ht⟩
  | slot i =>
    cases ha
    exact ⟨_, rfl, hle _ _ (h.slot i) ht⟩

/-- Every object keeps its name, apart from those that the join drops. -/
theorem ReplayState.shadow_of_merge {s : ReplayState} (hm : s.frame.merge Cell.join g = .ok (j, changed))
    (hids : ∀ w a id, s.frame.word w = some a → a.object = some id → id < s.next) :
    Shadow (s.frame.Drops g) s (s.setFrame j) := by
  refine ⟨id, Frame.rel_of_word (Frame.depth_of_merge hm).2.symm fun w a c ha hc => ?_⟩
  have hword : j.word w = some c := hc
  rw [Frame.word_of_merge rfl hm, ha, Option.bind_some] at hword
  obtain ⟨b, hb, rfl⟩ := Option.map_eq_some_iff.mp hword
  refine ⟨fun ht => Bool.or_eq_true_iff.mpr (.inl ht), fun {id} hid => ⟨hids w a id ha hid, fun hkept => ?_⟩⟩
  have hsame : a.object = b.object := by
    by_contra hne
    exact hkept ⟨w, a, b, ha, hb, hid, fun h => hne (hid.trans h.symm)⟩
  rw [Cell.join, if_pos hsame, hid]
  rfl

end

/-! ## What a join loses -/

namespace Probe

def pool : Pool :=
  ⟨#[none, some (.method ⟨"acme/Box", "clean", "()Lacme/Box;"⟩), some (.method ⟨"acme/Web", "read", "()Lacme/Box;"⟩),
    some (.method ⟨"acme/Box", "put", "(Lacme/Box;)V"⟩)]⟩

def policy : Policy :=
  UntrustedSources.policy { methods := ["acme/Web.read"], sanitizers := ["acme/Box.clean"] }

def fetch : Place → List Placed
  | .stack d => List.replicate d ⟨0, .shuffle .pop⟩
  | .slot i => [⟨0, .load .reference i⟩]

def fill : List Placed :=
  [⟨0, .shuffle .dup⟩, ⟨0, .invoke .virtual 1⟩, ⟨0, .shuffle .swap⟩, ⟨0, .invoke .static 2⟩, ⟨0, .invoke .virtual 3⟩]

theorem run_fetch {s : ReplayState} {w : Place} {a : Cell} (h : s.frame.word w = some a) :
    ∃ s₁ rest, s.run policy pool (fetch w) = .ok s₁ ∧ s₁.frame.stack = a :: rest := by
  cases w with
  | slot i =>
    cases h
    exact ⟨_, s.frame.stack, rfl, rfl⟩
  | stack d =>
    induction d generalizing s with
    | zero =>
      rw [Frame.word_stack] at h
      obtain ⟨rest, hrest⟩ : ∃ rest, s.frame.stack = a :: rest := by
        cases hs : s.frame.stack with
        | nil =>
          rw [hs] at h
          cases h
        | cons b rest =>
          rw [hs] at h
          cases h
          exact ⟨rest, rfl⟩
      exact ⟨s, rest, rfl, hrest⟩
    | succ d ih =>
      rw [Frame.word_stack] at h
      have hpop : s.execute policy pool ⟨0, .shuffle .pop⟩ =
          .ok (s.setFrame { s.frame with stack := s.frame.stack.drop 1, position := 0 }) := by
        have hlen : 1 ≤ s.frame.stack.length := by
          have := (List.getElem?_eq_some_iff.mp h).1
          omega
        simp [ReplayState.execute, Instruction.effect, ReplayState.apply, Frame.shuffle, Frame.popWords,
          Shuffle.pattern, Frame.seek, ReplayState.setFrame, hlen, Except.map, Frame.pushAll]
      rw [fetch, List.replicate_succ, ReplayState.run_cons hpop]
      apply ih
      rw [Frame.word_stack]
      simpa [ReplayState.setFrame, Nat.add_comm] using h

theorem effect_clean : (Instruction.invoke .virtual 1).effect pool =
    .ok (.invoke ⟨.virtual, ⟨"acme/Box", "clean", "()Lacme/Box;"⟩, 0, 1⟩) := by cbv

theorem effect_read : (Instruction.invoke .static 2).effect pool =
    .ok (.invoke ⟨.static, ⟨"acme/Web", "read", "()Lacme/Box;"⟩, 0, 1⟩) := by cbv

theorem effect_put : (Instruction.invoke .virtual 3).effect pool =
    .ok (.invoke ⟨.virtual, ⟨"acme/Box", "put", "(Lacme/Box;)V"⟩, 1, 0⟩) := by cbv

/-- The copy is tainted iff the object was known by its identity. -/
theorem run_fill {s : ReplayState} {a : Cell} {rest : List Cell} (h : s.frame.stack = a :: rest) :
    ∃ s₁, s.run policy pool fill = .ok s₁ ∧ (s₁.frame.Tainted (.stack 0) ↔ a.object.isSome = true) := by
  let top (cells : List Cell) (next : Nat) : ReplayState :=
    { s with frame := ⟨cells ++ rest, s.frame.locals, 0⟩, next }
  have hdup : s.run policy pool fill = (top [a, a] s.next).run policy pool (fill.drop 1) := by
    apply ReplayState.run_of_apply rfl
    simp only [ReplayState.apply, Frame.shuffle, ReplayState.setFrame, Frame.seek, h]
    rfl
  obtain ⟨tainted, object⟩ := a
  have hread (c d : Cell) (n : Nat) : (top [c, d] n).run policy pool (fill.drop 2) =
      (top [.ofObject n true, d, c] (n + 1)).run policy pool (fill.drop 4) := by
    calc (top [c, d] n).run policy pool (fill.drop 2)
      _ = (top [d, c] n).run policy pool (fill.drop 3) := ReplayState.run_of_apply rfl rfl
      _ = _ := ReplayState.run_of_apply effect_read rfl
  cases object with
  | none =>
    refine ⟨top [.ofObject s.next false] (s.next + 1 + 1), ?_, ?_⟩
    · calc s.run policy pool fill
        _ = (top [⟨tainted, none⟩, ⟨tainted, none⟩] s.next).run policy pool (fill.drop 1) := hdup
        _ = (top [.ofObject s.next false, ⟨tainted, none⟩] (s.next + 1)).run policy pool (fill.drop 2) :=
          ReplayState.run_of_apply effect_clean rfl
        _ = (top [.ofObject (s.next + 1) true, ⟨tainted, none⟩, .ofObject s.next false]
            (s.next + 1 + 1)).run policy pool (fill.drop 4) := hread ..
        _ = .ok (top [.ofObject s.next false] (s.next + 1 + 1)) := ReplayState.run_of_apply effect_put rfl
    · simp [Frame.Tainted, Frame.word, Frame.peek, Cell.ofObject, top]
  | some id =>
    refine ⟨(top [.ofObject id false] (s.next + 1)).taintObject id, ?_, ?_⟩
    · calc s.run policy pool fill
        _ = (top [⟨tainted, some id⟩, ⟨tainted, some id⟩] s.next).run policy pool (fill.drop 1) := hdup
        _ = (top [.ofObject id false, ⟨tainted, some id⟩] s.next).run policy pool (fill.drop 2) :=
          ReplayState.run_of_apply effect_clean rfl
        _ = (top [.ofObject s.next true, ⟨tainted, some id⟩, .ofObject id false]
            (s.next + 1)).run policy pool (fill.drop 4) := hread ..
        _ = .ok ((top [.ofObject id false] (s.next + 1)).taintObject id) := ReplayState.run_of_apply effect_put rfl
    · simp [Frame.Tainted, Frame.word, Frame.peek, Cell.ofObject, ReplayState.taintObject, Frame.mapCells,
        Cell.taintObject, top]

theorem run_probe {s : ReplayState} {w : Place} {a : Cell} (h : s.frame.word w = some a) :
    ∃ s₁, s.run policy pool (fetch w ++ fill) = .ok s₁ ∧ (s₁.frame.Tainted (.stack 0) ↔ a.object.isSome = true) := by
  obtain ⟨s₁, rest, hfetch, hstack⟩ := run_fetch h
  rw [ReplayState.run_append hfetch]
  exact run_fill hstack

end Probe

/-- **Joins are conservative up to identity.** Frames of one height can be joined. A run from the joined frame
succeeds where a run from one side does, and leaves every word tainted that the other leaves so, unless an object
is fed that the join drops. No dropped object is harmless: there is always a run that shows the difference. -/
theorem ReplayState.merge_keeps_taint {s : ReplayState} {g : Frame Cell} (hd : s.frame.depth = g.depth)
    (hids : ∀ w a id, s.frame.word w = some a → a.object = some id → id < s.next) :
    ∃ j changed, s.frame.merge Cell.join g = .ok (j, changed) ∧
      (∀ policy pool hs s', s.run policy pool hs = .ok s' →
        (∀ id ∈ s.fedAlong policy pool hs, ¬ s.frame.Drops g id) →
        ∃ t', (s.setFrame j).run policy pool hs = .ok t' ∧ ∀ w, s'.frame.Tainted w → t'.frame.Tainted w) ∧
      ∀ id, s.frame.Drops g id → ∃ policy pool hs s' t', s.run policy pool hs = .ok s' ∧
        (s.setFrame j).run policy pool hs = .ok t' ∧ ∃ w, s'.frame.Tainted w ∧ ¬ t'.frame.Tainted w := by
  obtain ⟨⟨j, changed⟩, hm⟩ : ∃ r, s.frame.merge Cell.join g = .ok r := Frame.merge_of_depth hd
  refine ⟨j, changed, hm, ?_, ?_⟩
  · intro policy pool hs s' hrun hfed
    have halike := (shadow_of_merge hm hids).run hfed
    rw [hrun] at halike
    generalize (s.setFrame j).run policy pool hs = y at halike
    cases halike with
    | @ok _ t' h =>
      obtain ⟨names, h⟩ := h
      exact ⟨t', rfl, fun w hw => h.tainted (fun a b hab => hab.le) hw⟩
  · intro id hdrop
    obtain ⟨w, a, b, ha, hb, hid, hne⟩ := hdrop
    have hj : (s.setFrame j).frame.word w = some (a.join b) := by
      rw [ReplayState.setFrame, Frame.word_of_merge rfl hm, ha, hb]
      rfl
    have hlost : (a.join b).object = none := if_neg fun h => hne (h.symm.trans hid)
    obtain ⟨s', hs', htaint⟩ := Probe.run_probe ha
    obtain ⟨t', ht', hclean⟩ := Probe.run_probe hj
    rw [hid] at htaint
    rw [hlost] at hclean
    refine ⟨_, _, _, s', t', hs', ht', .stack 0, htaint.mpr rfl, fun h => ?_⟩
    cases hclean.mp h

namespace Sample

def boxes (copied : Nat) : Frame Cell where
  locals := [.ofObject 0 false, .ofObject 1 false, .ofObject 2 true, .ofObject copied false]

def putInto (slot : Nat) : List Placed :=
  [⟨0, .load .reference slot⟩, ⟨1, .load .reference 2⟩, ⟨2, .invoke .virtual 3⟩]

theorem run_putInto (s : ReplayState) (slot : Nat) : s.run Probe.policy Probe.pool (putInto slot) =
    .ok ((s.setFrame (s.frame.seek 2)).taintContainer (s.frame.slot 2).tainted (some (s.frame.slot slot))) := by
  let top (cells : List Cell) (position : Nat) : ReplayState :=
    { s with frame := ⟨cells ++ s.frame.stack, s.frame.locals, position⟩ }
  calc s.run Probe.policy Probe.pool (putInto slot)
    _ = (top [s.frame.slot slot] 0).run Probe.policy Probe.pool ((putInto slot).drop 1) :=
      ReplayState.run_of_apply rfl rfl
    _ = (top [s.frame.slot 2, s.frame.slot slot] 1).run Probe.policy Probe.pool ((putInto slot).drop 2) :=
      ReplayState.run_of_apply rfl rfl
    _ = .ok ((top [] 2).taintContainer ((s.frame.slot 2).tainted || false) (some (s.frame.slot slot))) :=
      ReplayState.run_of_apply Probe.effect_put rfl
    _ = _ := by
      rw [Bool.or_false]
      rfl

def boxed : ReplayState where
  frame := boxes 0
  next := 3

theorem lt_of_object_boxes (copied : Nat) (h : copied < 3) (w : Place) (a : Cell) (id : Nat)
    (hw : (boxes copied).word w = some a) (hid : a.object = some id) : id < 3 := by
  cases w with
  | stack d => cases hw
  | slot i =>
    cases hw
    match i with
    | 0 | 1 | 2 | 3 =>
      cases hid
      omega
    | i + 4 => cases hid

/-- The copy in slot 3 is the only word that the frames do not agree on. -/
theorem drops_boxes {id : Nat} : (boxes 0).Drops (boxes 1) id ↔ id = 0 := by
  constructor
  · intro h
    obtain ⟨w, a, b, ha, hb, hid, hne⟩ := h
    cases w with
    | stack d => cases ha
    | slot i =>
      cases ha
      cases hb
      match i with
      | 0 | 1 | 2 => exact absurd hid hne
      | 3 =>
        cases hid
        rfl
      | i + 4 => cases hid
  · intro h
    cases h
    exact ⟨.slot 3, _, _, rfl, rfl, rfl, by decide⟩

end Sample

/-- The box in slot 1 is known on both sides, and is filled after the join as before. -/
theorem ReplayState.box_filled_after_merge : ∃ s' t' j changed, Sample.boxed.frame.depth = (Sample.boxes 1).depth ∧
    (∀ w a id, Sample.boxed.frame.word w = some a → a.object = some id → id < Sample.boxed.next) ∧
    Sample.boxed.run Probe.policy Probe.pool (Sample.putInto 1) = .ok s' ∧
    (∀ id ∈ Sample.boxed.fedAlong Probe.policy Probe.pool (Sample.putInto 1),
      ¬ Sample.boxed.frame.Drops (Sample.boxes 1) id) ∧
    Sample.boxed.frame.merge Cell.join (Sample.boxes 1) = .ok (j, changed) ∧
    (Sample.boxed.setFrame j).run Probe.policy Probe.pool (Sample.putInto 1) = .ok t' ∧
    t'.frame.Tainted (.slot 1) := by
  have hids := Sample.lt_of_object_boxes 0 (by decide)
  have hfed : Sample.boxed.fedAlong Probe.policy Probe.pool (Sample.putInto 1) = [1] := by cbv
  have hkept : ∀ id ∈ Sample.boxed.fedAlong Probe.policy Probe.pool (Sample.putInto 1),
      ¬ Sample.boxed.frame.Drops (Sample.boxes 1) id := by
    intro id hid hdrop
    rw [hfed, List.mem_singleton, Sample.drops_boxes.mp hdrop] at hid
    cases hid
  have hrun := Sample.run_putInto Sample.boxed 1
  obtain ⟨j, changed, hm, hkeep, -⟩ := merge_keeps_taint (s := Sample.boxed) (g := Sample.boxes 1) rfl hids
  obtain ⟨t', ht', htaint⟩ := hkeep _ _ _ _ hrun hkept
  exact ⟨_, t', j, changed, rfl, hids, hrun, hkept, hm, ht', htaint (.slot 1) ⟨_, rfl, by decide⟩⟩

/-- The copy in slot 3 is a known box on either side, but not after the join: what is put into it there does not
show in slot 0, which is the same box on the one side. -/
theorem ReplayState.copied_box_unfilled_after_merge : ∃ j changed s' t',
    Sample.boxed.frame.merge Cell.join (Sample.boxes 1) = .ok (j, changed) ∧
    (∀ w a id, Sample.boxed.frame.word w = some a → a.object = some id → id < Sample.boxed.next) ∧
    (∀ w a id, (Sample.boxes 1).word w = some a → a.object = some id → id < Sample.boxed.next) ∧
    Sample.boxed.run Probe.policy Probe.pool (Sample.putInto 3) = .ok s' ∧
    (Sample.boxed.setFrame j).run Probe.policy Probe.pool (Sample.putInto 3) = .ok t' ∧
    s'.frame.Tainted (.slot 0) ∧ ¬ t'.frame.Tainted (.slot 0) := by
  refine ⟨{ locals := [.ofObject 0 false, .ofObject 1 false, .ofObject 2 true, .clean] }, true, _, _, rfl,
    Sample.lt_of_object_boxes 0 (by decide), Sample.lt_of_object_boxes 1 (by decide), Sample.run_putInto ..,
    Sample.run_putInto .., ⟨_, rfl, by decide⟩, fun h => ?_⟩
  obtain ⟨a, ha, ht⟩ := h
  cases ha
  cases ht

end SinkCheck
