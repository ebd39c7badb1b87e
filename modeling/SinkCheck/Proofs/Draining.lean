import Mathlib
import SinkCheck.Proofs.Paths

/-!
# The worklist drains

A merge counts as a change iff it loses a known word. Slots that it adds are unknown, so however long an entry
grows, it never has more to lose than at first. A block is queued again only for such a loss, and the rounds of
the worklist come to an end on every graph.
-/

namespace SinkCheck

theorem Constant.eq_unknown {k : Constant} (h : k.isKnown = false) : k = .unknown := by
  cases k <;> simp [isKnown] at h ⊢

/-! ## Losing words -/

namespace Frame

def Loses (f g : Frame Constant) : Prop :=
  ∃ w k, k.isKnown = true ∧ f.word w = some k ∧ g.word w = some .unknown

section
variable {f g h : Frame Constant} {changed : Bool}

theorem Covers.word_eq_none (hc : g.Covers f) {w : Place} : g.word w = none ↔ f.word w = none := by
  cases w with
  | stack d =>
    have hd : g.stack.length = f.stack.length := hc.depth
    simp [word_stack, hd]
  | slot i => simp [word_slot]

theorem Covers.loses_iff (hc : g.Covers f) : f.Loses g ↔ g.word ≠ f.word := by
  constructor
  · rintro ⟨w, k, hk, hf, hg⟩ heq
    rw [heq, hf] at hg
    cases hg
    cases hk
  · intro hne
    obtain ⟨w, hw⟩ := Function.ne_iff.mp hne
    cases hg : g.word w with
    | none =>
      rw [hg, hc.word_eq_none.mp hg] at hw
      exact absurd rfl hw
    | some x =>
      cases hf : f.word w with
      | none =>
        rw [hc.word_eq_none.mpr hf] at hg
        cases hg
      | some a =>
        rw [hg, hf] at hw
        cases hx : x.isKnown with
        | true =>
          rw [hc.word w x hx hg] at hf
          exact absurd hf hw
        | false =>
          have hx := Constant.eq_unknown hx
          subst hx
          refine ⟨w, a, ?_, hf, hg⟩
          by_contra ha
          exact hw (congrArg some (Constant.eq_unknown (by simpa using ha)).symm)

theorem Covers.antisymm (hgf : g.Covers f) (hfg : f.Covers g) : g.word = f.word := by
  by_contra hne
  obtain ⟨w, k, hk, hf, hg⟩ := hgf.loses_iff.mpr hne
  rw [hfg.word w k hk hf] at hg
  cases hg
  cases hk

theorem not_loses_self (f : Frame Constant) : ¬ f.Loses f := by
  intro hf
  exact (Covers.of_word rfl).loses_iff.mp hf rfl

theorem changed_iff_loses (hm : f.merge Constant.join g = .ok (h, changed)) : changed = true ↔ f.Loses h := by
  rw [(covers_of_merge hm).1.loses_iff]
  exact changed_iff hm

theorem slots_of_merge (hm : f.merge Constant.join g = .ok (h, changed)) :
    h.locals.length = max f.locals.length g.locals.length ∧ ∀ i, f.locals.length ≤ i → h.slot i = .unknown := by
  refine ⟨length_of_merge hm, ?_⟩
  intro i hi
  by_contra hk
  have hknown : (h.slot i).isKnown = true := by
    by_contra hu
    exact hk (Constant.eq_unknown (by simpa using hu))
  have hword := ((known_of_merge hm hknown (.slot i)).mp rfl).1
  rw [word_slot, slot, List.getElem?_eq_none hi, Option.some.injEq] at hword
  rw [← hword] at hknown
  cases hknown

end

end Frame

/-! ## Queued again -/

namespace Entries

def Weakens (es es' : Entries) : Prop :=
  ∀ id f, es.entry id = some f → ∃ g, es'.entry id = some g ∧ g.Covers f

def Awakes (es es' : Entries) (t : Nat) : Prop :=
  es.entry t = none ∧ es'.entry t ≠ none ∨ ∃ f g, es.entry t = some f ∧ es'.entry t = some g ∧ f.Loses g

section
variable {es es₁ es' : Entries} {t : Nat} {f : Frame Constant} {changed : Bool}

theorem Weakens.refl (es : Entries) : Weakens es es :=
  fun _ f hf => ⟨f, hf, .of_word rfl⟩

theorem Weakens.trans (h : Weakens es es₁) (h' : Weakens es₁ es') : Weakens es es' := by
  intro id f hf
  obtain ⟨m, hm, hc⟩ := h id f hf
  obtain ⟨g, hg, hc'⟩ := h' id m hm
  exact ⟨g, hg, hc'.trans hc⟩

theorem not_awakes_of_entry (h : es'.entry t = es.entry t) : ¬ Awakes es es' t := by
  rintro (⟨hnone, hsome⟩ | ⟨f, g, hf, hg, hl⟩)
  · rw [h] at hsome
    exact hsome hnone
  · rw [h, hf] at hg
    cases hg
    exact f.not_loses_self hl

/-- A word that was lost is not found again. -/
theorem awakes_trans (h : Weakens es es₁) (h' : Weakens es₁ es') :
    Awakes es es' t ↔ Awakes es es₁ t ∨ Awakes es₁ es' t := by
  cases hes : es.entry t with
  | none =>
    cases hes₁ : es₁.entry t with
    | none => simp [Awakes, hes, hes₁]
    | some m =>
      obtain ⟨g, hg, -⟩ := h' t m hes₁
      simp [Awakes, hes, hes₁, hg]
  | some f =>
    obtain ⟨m, hes₁, hc⟩ := h t f hes
    obtain ⟨g, hes', hc'⟩ := h' t m hes₁
    have hlost : f.Loses g ↔ f.Loses m ∨ m.Loses g := by
      rw [(hc'.trans hc).loses_iff, hc.loses_iff, hc'.loses_iff]
      constructor
      · intro hne
        by_contra hboth
        simp only [not_or, not_not] at hboth
        exact hne (hboth.2.trans hboth.1)
      · intro hne heq
        have hcover : f.Covers m := (Frame.Covers.of_word heq.symm).trans hc'
        have hsame := hc.antisymm hcover
        rcases hne with hne | hne
        · exact hne hsame
        · exact hne (heq.trans hsame.symm)
    simp [Awakes, hes, hes₁, hes', hlost]

theorem awakes_propagate (h : es.propagate t f = .ok (es', changed)) :
    Weakens es es' ∧ ∀ id, Awakes es es' id ↔ changed = true ∧ id = t := by
  by_cases ht : t < es.length
  · refine ⟨(covers_propagate ht h).2, ?_⟩
    intro id
    obtain ⟨new, rfl, hnew⟩ := propagate_eq_ok ht h
    by_cases hid : id = t
    · subst hid
      rcases hnew with ⟨hnone, rfl, rfl⟩ | ⟨old, hold, hm⟩
      · simp [Awakes, hnone, entry_set_self ht]
      · simp [Awakes, hold, entry_set_self ht, Frame.changed_iff_loses hm]
    · simp [hid, not_awakes_of_entry (entry_set_ne (Ne.symm hid) (some new))]
  · have hnone : es[t]? = none := List.getElem?_eq_none (by omega)
    simp only [propagate, hnone, Except.ok.injEq, Prod.mk.injEq] at h
    obtain ⟨rfl, rfl⟩ := h
    exact ⟨.refl es, fun id => by simp [not_awakes_of_entry]⟩

end

end Entries

theorem awakes_spread {f : Frame Constant} {last : Option Instruction} {edges : List Edge} {es es' : Entries}
    {queue queue' : List Nat} (h : spread f last edges es queue = .ok (es', queue')) :
    es.Weakens es' ∧ ∀ t, t ∈ queue' ↔ t ∈ queue ∨ es.Awakes es' t := by
  induction edges generalizing es queue with
  | nil =>
    cases h
    exact ⟨.refl _, fun t => by simp [Entries.not_awakes_of_entry]⟩
  | cons e edges ih =>
    unfold spread at h
    split at h
    · cases h
    · rename_i es₁ changed hp
      obtain ⟨hw, hqueued⟩ := Entries.awakes_propagate hp
      obtain ⟨hw', hrest⟩ := ih h
      refine ⟨hw.trans hw', ?_⟩
      intro t
      rw [hrest, Entries.awakes_trans hw hw', hqueued]
      cases changed with
      | true =>
        simp only [if_true, mem_enqueue, true_and]
        grind
      | false => simp

/-! ## Rounds -/

namespace Flow

section
variable (c : Code) (g : Graph) (pool : Pool)

inductive Round : Flow × List Nat → Flow × List Nat → Prop
  | visit {flow flow' : Flow} {id : Nat} {rest queue : List Nat} :
      Flow.visit c g pool flow id rest = .ok (flow', queue) → Round (flow, id :: rest) (flow', queue)

inductive Halts : Flow × List Nat → Except AnalysisError Flow → Prop
  | drained {flow : Flow} : Halts (flow, []) (.ok flow)
  | failed {flow : Flow} {id : Nat} {rest : List Nat} {err : AnalysisError} :
      Flow.visit c g pool flow id rest = .error err → Halts (flow, id :: rest) (.error err)

theorem wellFounded_round : WellFounded fun s' s => Round c g pool s s' := by
  let size : Flow × List Nat → Nat × Nat × Nat := fun s => (s.1.entries.unseen, s.1.entries.known, s.2.length)
  have hsize := InvImage.wf size (Prod.lex Nat.lt_wfRel (Prod.lex Nat.lt_wfRel Nat.lt_wfRel)).wf
  refine hsize.mono ?_
  rintro s' s ⟨hv⟩
  exact visit_decreases c g pool hv

theorem halts_drain (flow : Flow) (queue : List Nat) : ∃ s, Relation.ReflTransGen (Round c g pool) (flow, queue) s ∧
    Halts c g pool s (drain c g pool flow queue) := by
  induction flow, queue using drain.induct c g pool with
  | case1 flow =>
    rw [drain_nil]
    exact ⟨_, .refl, .drained⟩
  | case2 flow id rest err hv =>
    rw [drain_cons, hv]
    exact ⟨_, .refl, .failed hv⟩
  | case3 flow id rest flow' queue hv ih =>
    obtain ⟨s, hrounds, hhalts⟩ := ih
    rw [drain_cons, hv]
    exact ⟨s, .head (.visit hv) hrounds, hhalts⟩

variable {c g pool}

theorem awakes_round {s s' : Flow × List Nat} (h : Round c g pool s s') :
    ∀ t, t ∈ s'.2 ↔ t ∈ s.2.tail ∨ s.1.entries.Awakes s'.1.entries t := by
  obtain ⟨hv⟩ := h
  rcases visit_eq_ok hv with ⟨rfl, rfl, -⟩ | ⟨b, f, f', -, -, -, hspread⟩
  · intro t
    simp [Entries.not_awakes_of_entry]
  · exact (awakes_spread hspread).2

end

/-- **The worklist drains.** On every graph no run of rounds goes on forever, and the rounds from the entry end where
the analysis does, with its flow or its error. A round queues just the blocks that are reached for the first time
and those whose entry lost a known word. A merge counts as a change just if it loses one, and not for the slots that
it adds, which are unknown. -/
theorem worklist_drains (c : Code) (g : Graph) (pool : Pool) :
    (WellFounded fun s' s => Round c g pool s s') ∧
    (∃ s, Relation.ReflTransGen (Round c g pool) (initial c g, (entryBlock? g).toList) s ∧
      Halts c g pool s (analyze c g pool)) ∧
    (∀ s s', Round c g pool s s' → ∀ t, t ∈ s'.2 ↔ t ∈ s.2.tail ∨ s.1.entries.Awakes s'.1.entries t) ∧
    ∀ (f f' f'' : Frame Constant) (changed : Bool), f.merge Constant.join f' = .ok (f'', changed) →
      (changed = true ↔ f.Loses f'') ∧ f''.locals.length = max f.locals.length f'.locals.length ∧
        ∀ i, f.locals.length ≤ i → f''.slot i = .unknown :=
  ⟨wellFounded_round c g pool, halts_drain c g pool _ _, fun _ _ => awakes_round,
    fun _ _ _ _ hm => ⟨Frame.changed_iff_loses hm, Frame.slots_of_merge hm⟩⟩

end Flow

namespace Sample

def counter : Code where
  body := #[⟨0, .intConst 0⟩, ⟨1, .store .int 1⟩, ⟨2, .iinc 1 1⟩, ⟨5, .iinc 3 1⟩, ⟨8, .goto 2⟩]

def counterGraph : Graph where
  blocks := #[⟨0, 0, 2, false⟩, ⟨1, 2, 5, false⟩]
  edges := [⟨0, 1, .fallThrough⟩, ⟨1, 1, .branch⟩]

def counterReached : Flow where
  entries := [some {}, some { locals := [.unknown, .integer 0], position := 1 }]
  frames := #[some {}, some { stack := [.integer 0], position := 1 }, none, none, none]

def counterTurned : Flow where
  entries := [some {}, some { locals := List.replicate 4 .unknown, position := 1 }]
  frames := #[some {}, some { stack := [.integer 0], position := 1 },
    some { locals := [.unknown, .integer 0], position := 2 }, some { locals := [.unknown, .unknown], position := 5 },
    some { locals := List.replicate 4 .unknown, position := 8 }]

end Sample

open Sample in
/-- The count is no longer zero after a turn of the loop, so its head is visited again. -/
theorem Flow.loop_head_queued_again :
    Round counter counterGraph pool (initial counter counterGraph, [0]) (counterReached, [1]) ∧
    Round counter counterGraph pool (counterReached, [1]) (counterTurned, [1]) ∧
    counterReached.entries.Awakes counterTurned.entries 1 := by
  have hreached : Round counter counterGraph pool (initial counter counterGraph, [0]) (counterReached, [1]) :=
    .visit (by cbv)
  have hturned : Round counter counterGraph pool (counterReached, [1]) (counterTurned, [1]) := .visit (by cbv)
  have hqueued := ((worklist_drains counter counterGraph pool).2.2.1 _ _ hturned 1).mp (by simp)
  exact ⟨hreached, hturned, by simpa using hqueued⟩

end SinkCheck
